import VersionConstraints.Constraint.Algebra
import VersionConstraints.Proofs.Range.Intersection

/-!
# Intersections of constraints

What two constraints make together depends on their forms first. The universal one changes nothing,
two ranges intersect, two constraints of another form agree or have nothing in common, and so do
constraints of different forms.
-/

namespace VersionConstraints

/-! ### Forms -/

namespace Constraint

inductive Form
  | universal
  | empty
  | range
  | revision
  | branch
  | literal
deriving DecidableEq

def form : Constraint → Form
  | .universal  => .universal
  | .empty      => .empty
  | .range _ _  => .range
  | .revision _ => .revision
  | .branch _   => .branch
  | .literal _  => .literal

/-- Whether constraints of a form ask for one text. -/
def Form.IsKeyed : Form → Prop
  | .revision | .branch | .literal => True
  | _                              => False

def Regular : Constraint → Prop
  | .range is _ => is.Regular
  | _           => True

variable {c d e : Constraint} {v : Version}

/-- Constraints by key are determined by form and text. -/
lemma eq_of_keyed (hc : c.form.IsKeyed) (hform : c.form = d.form) (htext : c.text = d.text) :
    c = d := by
  cases c with
  | universal => cases hc
  | empty => cases hc
  | range is t => cases hc
  | revision a =>
    cases d <;> cases hform
    exact congrArg revision htext
  | branch a =>
    cases d <;> cases hform
    exact congrArg branch htext
  | literal a =>
    cases d <;> cases hform
    exact congrArg literal htext

/-! ### Pairs of forms -/

@[simp] lemma intersect_universal_left (d : Constraint) : universal.intersect d = .ok d := rfl

@[simp] lemma intersect_universal_right (c : Constraint) : c.intersect .universal = .ok c := by
  cases c <;> rfl

@[simp] lemma intersect_empty_left (d : Constraint) : empty.intersect d = .ok .empty := by
  cases d <;> rfl

@[simp] lemma intersect_empty_right (c : Constraint) : c.intersect .empty = .ok .empty := by
  cases c <;> rfl

/-- Constraints of different forms have an empty intersection. -/
lemma intersect_of_form_ne (hc : c.form ≠ .universal) (hd : d.form ≠ .universal)
    (h : c.form ≠ d.form) : c.intersect d = .ok .empty := by
  cases c <;> cases d <;> first | rfl | contradiction

/-- Constraints by key have an empty intersection unless they are the same. -/
lemma intersect_of_keyed (hc : c.form.IsKeyed) (h : c.form = d.form) :
    c.intersect d = .ok (if c = d then c else .empty) := by
  cases c <;> cases d <;> first | contradiction | simp [intersect]

/-! ### Ranges -/

lemma regular_ofRange {is : Range} {t : String} (h : is.Regular) : (ofRange is t).Regular := by
  cases is with
  | nil => trivial
  | cons i is => exact h

lemma contains_ofRange (is : Range) (t : String) :
    (ofRange is t).contains v = match v.semver? with
      | none   => .ok false
      | some s => Range.contains s is := by
  cases is with
  | nil => cases v.semver? <;> rfl
  | cons i is => rfl

/-- The intersection of two ranges is displayed as its intervals are. -/
lemma intersectRanges_spec {is js : Range} (his : is.Regular) (hjs : js.Regular)
    (h : intersectRanges is js = .ok c) : ∃ ks t,
      Range.IsIntersection is js ks ∧ Range.text ks = .ok t ∧ c = ofRange ks (String.ofList t) := by
  obtain ⟨ks, hks, h⟩ := bind_eq_ok.mp h
  obtain ⟨t, ht, h⟩ := bind_eq_ok.mp h
  exact ⟨ks, t, Range.intersect_spec his hjs hks, ht, (Except.ok.inj h).symm⟩

/-! ### What an intersection can be -/

/-- The ways in which two constraints make a third one together. -/
inductive Makes (c d e : Constraint) : Prop
  | right (hc : c = .universal) (he : e = d)
  | left (hd : d = .universal) (he : e = c)
  | ranges {is js ks : Range} {s t u : String} (hc : c = .range is s) (hd : d = .range js t)
    (hks : Range.IsIntersection is js ks) (he : e = ofRange ks u)
  | keyed (hc : c.form.IsKeyed) (hform : c.form = d.form) (he : e = if c = d then c else .empty)
  | apart (h : c = .empty ∨ c.form ≠ d.form) (hc : c ≠ .universal) (hd : d ≠ .universal)
    (he : e = .empty)

lemma form_eq_universal : c.form = .universal ↔ c = .universal := by
  cases c <;> simp [form]

/-- An intersection that returns is made as one of the cases says. -/
theorem makes_of_intersect (hc : c.Regular) (hd : d.Regular) (h : c.intersect d = .ok e) :
    Makes c d e := by
  by_cases hcu : c = .universal
  · subst hcu
    cases h
    exact .right rfl rfl
  by_cases hdu : d = .universal
  · subst hdu
    rw [intersect_universal_right] at h
    cases h
    exact .left rfl rfl
  by_cases hform : c.form = d.form
  · by_cases hkeyed : c.form.IsKeyed
    · rw [intersect_of_keyed hkeyed hform] at h
      exact .keyed hkeyed hform (Except.ok.inj h).symm
    · cases c with
      | universal => exact absurd rfl hcu
      | empty =>
        rw [intersect_empty_left] at h
        exact .apart (.inl rfl) hcu hdu (Except.ok.inj h).symm
      | range is s =>
        cases d <;> cases hform
        obtain ⟨ks, t, hks, -, rfl⟩ := intersectRanges_spec hc hd h
        exact .ranges rfl rfl hks rfl
      | revision a | branch a | literal a => exact absurd trivial hkeyed
  · rw [intersect_of_form_ne (mt form_eq_universal.mp hcu) (mt form_eq_universal.mp hdu) hform] at h
    exact .apart (.inr hform) hcu hdu (Except.ok.inj h).symm

/-- What is made of constraints that are not universal is nothing, or all three are of one form. -/
lemma Makes.form_eq (h : Makes c d e) (hc : c ≠ .universal) (hd : d ≠ .universal) :
    e = .empty ∨ e.form = c.form ∧ c.form = d.form := by
  cases h with
  | right hcu _ => exact absurd hcu hc
  | left hdu _ => exact absurd hdu hd
  | @ranges is js ks s t u hc' hd' _ he =>
    subst hc' hd' he
    cases ks with
    | nil => exact .inl rfl
    | cons k ks => exact .inr ⟨rfl, rfl⟩
  | keyed _ hform he =>
    rw [he]
    split
    · exact .inr ⟨rfl, hform⟩
    · exact .inl rfl
  | apart _ _ _ he => exact .inl he

lemma Makes.regular (h : Makes c d e) (hc : c.Regular) (hd : d.Regular) : e.Regular := by
  cases h with
  | right _ he => exact he ▸ hd
  | left _ he => exact he ▸ hc
  | ranges _ _ hks he => exact he ▸ regular_ofRange hks.regular
  | keyed _ _ he =>
    rw [he]
    split
    · exact hc
    · trivial
  | apart _ _ _ he => exact he ▸ trivial

end Constraint

/-! ### Facets -/

namespace Version

/-- Whether the semantic version of a version can be compared, if it has one. -/
def Comparable (v : Version) : Prop :=
  ∀ s ∈ v.semver?, s.Comparable

/-- The form of the constraints that look at the named part of a version, or else at its
revision. -/
def form (v : Version) : Constraint.Form :=
  match v.named? with
  | none             => .revision
  | some (.branch _) => .branch
  | some (.plain _)  => .literal
  | some (.semver _) => .range

/-- The text that a version offers to constraints of a form. -/
def facet? (v : Version) : Constraint.Form → Option String
  | .revision => v.revision?
  | .branch   => v.branch?
  | .literal  => v.literal?
  | _         => none

end Version

namespace Constraint

variable {c d e : Constraint} {v : Version}

lemma contains_of_keyed (hc : c.form.IsKeyed) (v : Version) :
    c.contains v = .ok (decide (v.facet? c.form = some c.text)) := by
  cases c with
  | universal | empty | range is t => cases hc
  | revision a | branch a | literal a => rfl

/-- Two different constraints that ask for one text are not both satisfied. -/
lemma eq_of_contains_of_keyed (hc : c.form.IsKeyed) (hform : c.form = d.form)
    (h : c.contains v = .ok true) (h' : d.contains v = .ok true) : c = d := by
  rw [contains_of_keyed hc] at h
  rw [contains_of_keyed (hform ▸ hc), ← hform] at h'
  have htext := of_decide_eq_true (Except.ok.inj h)
  have htext' := of_decide_eq_true (Except.ok.inj h')
  exact eq_of_keyed hc hform (Option.some.inj (htext.symm.trans htext'))

/-- An unpaired version satisfies constraints of one form, besides the universal one. -/
lemma form_of_contains (hv : v.unpaired = v) (h : c.contains v = .ok true) :
    c = .universal ∨ c.form = v.form := by
  cases v with
  | paired n id => cases hv
  | revision id =>
    cases c with
    | universal => exact .inl rfl
    | revision a => exact .inr rfl
    | empty | range is t | branch a | literal a => cases h
  | named n =>
    cases n with
    | branch name =>
      cases c with
      | universal => exact .inl rfl
      | branch a => exact .inr rfl
      | empty | range is t | revision a | literal a => cases h
    | plain text =>
      cases c with
      | universal => exact .inl rfl
      | literal a => exact .inr rfl
      | empty | range is t | revision a | branch a => cases h
    | semver s =>
      cases c with
      | universal => exact .inl rfl
      | range is t => exact .inr rfl
      | empty | revision a | branch a | literal a => cases h

/-! ### Membership -/

/-- Membership of a version that can be compared is decided. -/
lemma contains_total (hc : c.Regular) (hv : v.Comparable) : ∃ p, c.contains v = .ok p := by
  by_cases hkeyed : c.form.IsKeyed
  · exact ⟨_, contains_of_keyed hkeyed v⟩
  · cases c with
    | universal => exact ⟨true, rfl⟩
    | empty => exact ⟨false, rfl⟩
    | range is t =>
      rw [contains]
      cases hs : v.semver? with
      | none => exact ⟨false, rfl⟩
      | some s =>
        obtain ⟨p, hp, -⟩ := Range.contains_spec hc (hv s hs)
        exact ⟨p, hp⟩
    | revision a | branch a | literal a => exact absurd trivial hkeyed

/-- An intersection of ranges contains what both contain. -/
lemma contains_range_and {is js ks : Range} {s t u : String} (his : is.Regular) (hjs : js.Regular)
    (h : Range.IsIntersection is js ks) (hv : v.Comparable) : ∃ p q,
      (range is s).contains v = .ok p ∧ (range js t).contains v = .ok q ∧
        (ofRange ks u).contains v = .ok (p && q) := by
  rw [contains_ofRange, contains, contains]
  cases hs : v.semver? with
  | none => exact ⟨false, false, rfl, rfl, rfl⟩
  | some s => exact h.contains_eq his hjs (hv s hs)

/-- What is made contains what both constraints contain, unless it is nothing because the forms
differ. -/
lemma Makes.contains_eq (h : Makes c d e) (hc : c.Regular) (hd : d.Regular) (hv : v.Comparable) :
    (∃ p q, c.contains v = .ok p ∧ d.contains v = .ok q ∧ e.contains v = .ok (p && q)) ∨
      c ≠ .universal ∧ d ≠ .universal ∧ c.form ≠ d.form ∧ e = .empty := by
  obtain ⟨p, hp⟩ := contains_total hc hv
  obtain ⟨q, hq⟩ := contains_total hd hv
  cases h with
  | right hc he =>
    subst hc he
    exact .inl ⟨true, q, rfl, hq, hq⟩
  | left hd he =>
    subst hd he
    exact .inl ⟨p, true, hp, rfl, by rw [hp, Bool.and_true]⟩
  | ranges hc' hd' hks he =>
    subst hc' hd' he
    exact .inl (contains_range_and hc hd hks hv)
  | keyed hkeyed hform he =>
    refine .inl ⟨p, q, hp, hq, ?_⟩
    by_cases hcd : c = d
    · subst hcd
      obtain rfl : p = q := Except.ok.inj (hp.symm.trans hq)
      rw [he, if_pos rfl, hp, Bool.and_self]
    · have hfalse : (p && q) = false := by
        rw [← Bool.not_eq_true, Bool.and_eq_true]
        rintro ⟨rfl, rfl⟩
        exact hcd (eq_of_contains_of_keyed hkeyed hform hp hq)
      rw [he, if_neg hcd, hfalse]
      rfl
  | apart h hcu hdu he =>
    rcases h with rfl | hform
    · exact .inl ⟨false, q, rfl, hq, by rw [he]; rfl⟩
    · exact .inr ⟨hcu, hdu, hform, he⟩

/-- Nothing satisfies what is made but what satisfies both constraints. -/
lemma Makes.sound (h : Makes c d e) (hc : c.Regular) (hd : d.Regular) (hv : v.Comparable)
    (he : e.contains v = .ok true) : c.contains v = .ok true ∧ d.contains v = .ok true := by
  rcases h.contains_eq hc hd hv with ⟨p, q, hp, hq, hpq⟩ | ⟨-, -, -, hempty⟩
  · rw [he] at hpq
    obtain ⟨rfl, rfl⟩ := (Bool.and_eq_true p q).mp (Except.ok.inj hpq).symm
    exact ⟨hp, hq⟩
  · rw [hempty] at he
    cases he

/-- Where no version satisfies constraints of two forms, what satisfies both constraints satisfies
what is made of them. -/
lemma Makes.complete (h : Makes c d e) (hc : c.Regular) (hd : d.Regular) (hv : v.Comparable)
    (hfit : v.unpaired = v ∨ c.form = d.form) (hcv : c.contains v = .ok true)
    (hdv : d.contains v = .ok true) : e.contains v = .ok true := by
  rcases h.contains_eq hc hd hv with ⟨p, q, hp, hq, hpq⟩ | ⟨hcu, hdu, hform, -⟩
  · rw [hcv] at hp
    rw [hdv] at hq
    cases hp
    cases hq
    exact hpq
  · rcases hfit with hv | hsame
    · have hc' := (form_of_contains hv hcv).resolve_left hcu
      have hd' := (form_of_contains hv hdv).resolve_left hdu
      exact absurd (hc'.trans hd'.symm) hform
    · exact absurd hsame hform

/-! ### Two ranges -/

/-- The constraint of `Range.sample`, displayed with its canonical text. -/
def sample : Constraint := .range Range.sample ">=1.2.0-beta.3 <2.0.0"

/-- The constraint of `Range.sampleOther`, displayed with another text. -/
def sampleOther : Constraint := .range Range.sampleOther "<=1 || >1.2.0-0"

lemma intersect_sample : sample.intersect sampleOther = .ok sample := by decide +kernel

/-- `sample` with a build in its lower bound, and with a given text. -/
def sampleBuilt (t : String) : Constraint :=
  .range [⟨some ⟨{ Semver.sample with build := [['7']] }, true⟩,
    some ⟨.ofRelease ⟨2, 0, 0⟩, false⟩⟩] t

lemma regular_sampleBuilt (t : String) : (sampleBuilt t).Regular := by
  have hbuilt : Semver.Ordinary { Semver.sample with build := [['7']] } :=
    ⟨⟨"1.2.0-beta.3+7".toList, by decide⟩, Semver.ordinary_sample.2⟩
  have hrelease : (Semver.ofRelease ⟨2, 0, 0⟩).Ordinary := Semver.ordinary_ofRelease (by decide)
  exact List.forall_mem_singleton.mpr
    ⟨Bound.regular_some.mpr hbuilt.regular, Bound.regular_some.mpr hrelease.regular⟩

end Constraint

end VersionConstraints
