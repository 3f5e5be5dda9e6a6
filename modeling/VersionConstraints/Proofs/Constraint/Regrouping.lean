import Mathlib.Algebra.BigOperators.Group.List.Basic
import Mathlib.Algebra.Group.WithOne.Defs
import VersionConstraints.Proofs.Constraint.Conjunction
import VersionConstraints.Proofs.Constraint.Laws

/-!
# Folding in any order

A fold of constraints ends early at nothing, hands a lone constraint on with its own text, and
writes the canonical text of everything that it computes. What it comes to is therefore not a
product, but its content is: the spans of its range, or the text that it asks for. Contents form a
commutative semigroup, to which the universal constraint adds an identity. The content and the
number of constraints that are not universal tell what a fold comes to, and neither depends on order
or grouping.
-/

namespace VersionConstraints

namespace Constraint

variable {c d e x y z : Constraint} {cs ds xs ys : List Constraint}

/-! ### Contents -/

/-- What the text of a constraint does not matter for: the spans of a range, or else the constraint
that asks for one text. Nothing has neither. -/
@[ext]
structure Content where
  spans : Set Span
  keyed : Set Constraint

namespace Content

instance : CommSemigroup Content where
  mul a b := ⟨Span.meets a.spans b.spans, a.keyed ∩ b.keyed⟩
  mul_assoc _ _ _ := Content.ext (Span.meets_assoc _ _ _) (Set.inter_assoc _ _ _)
  mul_comm _ _ := Content.ext (Span.meets_comm _ _) (Set.inter_comm _ _)

lemma mk_mul_mk (S T : Set Span) (K L : Set Constraint) :
    (⟨S, K⟩ : Content) * ⟨T, L⟩ = ⟨Span.meets S T, K ∩ L⟩ := rfl

end Content

def content : Constraint → WithOne Content
  | .universal  => 1
  | .empty      => (⟨∅, ∅⟩ : Content)
  | .range is _ => (⟨is.spans, ∅⟩ : Content)
  | c           => (⟨∅, {c}⟩ : Content)

lemma content_ofRange (is : Range) (t : String) :
    content (ofRange is t) = (⟨is.spans, ∅⟩ : Content) := by
  cases is with
  | nil => simp [ofRange, content, Range.spans]
  | cons i is => rfl

lemma content_of_keyed (h : c.form.IsKeyed) : content c = (⟨∅, {c}⟩ : Content) := by
  cases c with
  | universal | empty | range is t => cases h
  | revision a | branch a | literal a => rfl

@[simp] lemma meets_empty_left (S : Set Span) : Span.meets ∅ S = ∅ := by
  simp [Span.meets]

@[simp] lemma meets_empty_right (S : Set Span) : Span.meets S ∅ = ∅ := by
  simp [Span.meets]

/-- What two constraints make together has the product of their contents. -/
theorem Makes.content_eq (h : Makes c d e) : e.content = c.content * d.content := by
  cases h with
  | right hc he =>
    subst hc he
    exact (one_mul _).symm
  | left hd he =>
    subst hd he
    exact (mul_one _).symm
  | ranges hc hd hks he =>
    subst hc hd he
    rw [content_ofRange, hks.spans_eq, content, content, ← WithOne.coe_mul, Content.mk_mul_mk,
      Set.inter_self]
  | keyed hkeyed hform he =>
    have hkeyed' : d.form.IsKeyed := by rwa [← hform]
    rw [content_of_keyed hkeyed, content_of_keyed hkeyed', ← WithOne.coe_mul, Content.mk_mul_mk,
      meets_empty_left]
    by_cases hcd : c = d
    · rw [he, if_pos hcd, content_of_keyed hkeyed, hcd, Set.inter_self]
    · have hinter : ({c} ∩ {d} : Set Constraint) = ∅ := by simpa using Ne.symm hcd
      rw [he, if_neg hcd, hinter]
      rfl
  | apart h hc hd he =>
    subst he
    cases c <;> cases d <;>
      simp_all [content, form, ← WithOne.coe_mul, Content.mk_mul_mk]

/-- Nothing absorbs all contents. -/
lemma content_empty_mul (m : WithOne Content) : content .empty * m = content .empty := by
  cases m with
  | one => exact mul_one _
  | coe a =>
    obtain ⟨S, K⟩ := a
    rw [content, ← WithOne.coe_mul, Content.mk_mul_mk, meets_empty_left, Set.empty_inter]

/-! ### Constraints with canonical text -/

/-- A constraint that has, if it is a range, the spans of the range in order and its canonical
text. -/
def Canonical : Constraint → Prop
  | .range is t => IsOf is.spans (.range is t)
  | _           => True

/-- What is computed of two constraints has canonical text. -/
lemma canonical_of_intersect (hc : c.Regular) (hd : d.Regular) (hcu : c ≠ .universal)
    (hdu : d ≠ .universal) (h : c.intersect d = .ok e) : e.Canonical ∧ e ≠ .universal := by
  rcases (makes_of_intersect hc hd h).form_eq hcu hdu with rfl | ⟨hec, hcd⟩
  · exact ⟨trivial, nofun⟩
  · refine ⟨?_, fun heu => hcu (form_eq_universal.mp (by rw [← hec, heu, form]))⟩
    cases e with
    | universal | empty | revision a | branch a | literal a => trivial
    | range ks t =>
      cases c <;> cases hec
      cases d <;> cases hcd
      have hof := isOf_of_intersectRanges hc hd h
      obtain ⟨ls, u, hregular, hasc, hspans, hu, heq⟩ := hof
      cases ls with
      | nil => cases heq
      | cons l ls =>
        obtain ⟨rfl, rfl⟩ := Constraint.range.inj heq
        exact ⟨l :: ls, u, hregular, hasc, rfl, hu, rfl⟩

/-- A range with canonical text is not without spans. -/
lemma Canonical.spans_ne_empty {is : Range} {t : String} (h : Canonical (.range is t)) :
    is.spans ≠ ∅ := by
  obtain ⟨ks, u, -, -, hspans, -, heq⟩ := h
  cases ks with
  | nil => cases heq
  | cons k ks => exact hspans ▸ Set.Nonempty.ne_empty ⟨k.span, k, List.mem_cons_self, rfl⟩

lemma Canonical.form_eq_range {is : Range} {t : String} (h : Canonical (.range is t))
    (hd : content (.range is t) = d.content) : d.form = .range := by
  cases d with
  | range js u => rfl
  | universal => cases hd
  | empty | revision b | branch b | literal b =>
    exact absurd (congrArg Content.spans (WithOne.coe_injective hd)) h.spans_ne_empty

/-- Except for ranges, the content determines the constraint. -/
lemma eq_of_content_eq (hc : c.form ≠ .range) (hd : d.form ≠ .range)
    (h : c.content = d.content) : c = d := by
  cases c <;> cases d <;> simp_all [content, form]

lemma regular_of_form_ne (h : c.form ≠ .range) : c.Regular := by
  cases c with
  | range is t => exact absurd rfl h
  | universal | empty | revision a | branch a | literal a => trivial

/-- The content tells constraints with canonical text apart. -/
theorem same_of_content_eq (hc : c.Canonical) (hd : d.Canonical) (h : c.content = d.content) :
    Same c d := by
  by_cases hcr : c.form = .range
  · cases c <;> cases hcr
    have hdr := hc.form_eq_range h
    cases d <;> cases hdr
    obtain ⟨hspans, -⟩ := Content.mk.inj (WithOne.coe_injective h)
    exact IsOf.same hc (hspans ▸ hd)
  · by_cases hdr : d.form = .range
    · cases d <;> cases hdr
      exact absurd (hd.form_eq_range h.symm) hcr
    · obtain rfl := eq_of_content_eq hcr hdr h
      exact same_refl (regular_of_form_ne hcr)

/-! ### Folds -/

/-- What a fold of constraints that are not universal can be: the universal constraint if there are
none, a lone constraint as it is, and a constraint with canonical text for more. -/
inductive Shape : List Constraint → Constraint → Prop
  | none : Shape [] .universal
  | lone {c : Constraint} (h : c ≠ .universal) : Shape [c] c
  | several {c d e : Constraint} {cs : List Constraint} (h : e.Canonical)
      (hne : e ≠ .universal) : Shape (c :: d :: cs) e

def restrictions (cs : List Constraint) : List Constraint :=
  cs.filter (· ≠ .universal)

lemma restrictions_append (xs ys : List Constraint) :
    restrictions (xs ++ ys) = restrictions xs ++ restrictions ys :=
  List.filter_append xs ys

/-- The intersection of two shapes has the shape of both lists. -/
lemma Shape.append (hx : Shape xs x) (hy : Shape ys y) (hxr : x.Regular) (hyr : y.Regular)
    (h : x.intersect y = .ok z) : Shape (xs ++ ys) z := by
  cases hx with
  | none =>
    cases h
    exact hy
  | lone hxu =>
    cases hy with
    | none =>
      rw [intersect_universal_right] at h
      cases h
      exact .lone hxu
    | lone hyu | several _ hyu =>
      obtain ⟨hz, hzu⟩ := canonical_of_intersect hxr hyr hxu hyu h
      exact .several hz hzu
  | several hxc hxu =>
    cases hy with
    | none =>
      rw [intersect_universal_right] at h
      cases h
      exact .several hxc hxu
    | lone hyu | several _ hyu =>
      obtain ⟨hz, hzu⟩ := canonical_of_intersect hxr hyr hxu hyu h
      exact .several hz hzu

/-- What is empty once stays empty. -/
lemma Shape.empty_append (hx : Shape xs .empty) (ys : List Constraint) :
    Shape (xs ++ ys) .empty := by
  cases hx with
  | lone hne =>
    cases ys with
    | nil => exact .lone hne
    | cons y ys => exact .several trivial nofun
  | several h hne => exact .several h hne

structure Folded (cs : List Constraint) (c : Constraint) : Prop where
  regular : c.Regular
  content : c.content = (cs.map content).prod
  shape : Shape (restrictions cs) c

namespace Folded

lemma nil : Folded [] .universal := ⟨trivial, rfl, .none⟩

lemma singleton (hc : c.Regular) : Folded [c] c := by
  refine ⟨hc, by simp, ?_⟩
  by_cases hcu : c = .universal
  · subst hcu
    exact .none
  · simp only [restrictions, List.filter_singleton, hcu, ne_eq, not_false_eq_true, decide_true]
    exact .lone hcu

/-- The folds of two parts make the fold of the whole. -/
lemma append (hx : Folded xs x) (hy : Folded ys y) (h : x.intersect y = .ok z) :
    Folded (xs ++ ys) z := by
  have hmakes := makes_of_intersect hx.regular hy.regular h
  refine ⟨hmakes.regular hx.regular hy.regular, ?_, ?_⟩
  · rw [hmakes.content_eq, hx.content, hy.content, List.map_append, List.prod_append]
  · rw [restrictions_append]
    exact hx.shape.append hy.shape hx.regular hy.regular h

/-- A fold that has come to nothing stays there. -/
lemma empty_append (hx : Folded xs .empty) (ys : List Constraint) : Folded (xs ++ ys) .empty := by
  refine ⟨trivial, ?_, ?_⟩
  · rw [List.map_append, List.prod_append, ← hx.content, content_empty_mul]
  · rw [restrictions_append]
    exact hx.shape.empty_append _

/-- Going on with a fold, up to its early end, folds the whole list. -/
lemma intersectFrom (hx : Folded xs x) (hys : ∀ y ∈ ys, y.Regular)
    (h : x.intersectFrom ys = .ok z) : Folded (xs ++ ys) z := by
  induction ys generalizing xs x with
  | nil =>
    cases h
    rw [List.append_nil]
    exact hx
  | cons y ys ih =>
    obtain ⟨hy, hys⟩ := List.forall_mem_cons.mp hys
    obtain ⟨e, he, h⟩ := bind_eq_ok.mp h
    have hstep : Folded (xs ++ [y]) e := hx.append (.singleton hy) he
    rw [List.append_cons]
    split at h
    · next hempty =>
      cases h
      obtain rfl := isEmpty_eq_true.mp hempty
      exact hstep.empty_append ys
    · exact ih hstep hys h

/-- The intersection of a list is folded from it. -/
lemma of_intersectAll (hcs : ∀ c ∈ cs, c.Regular) (h : intersectAll cs = .ok z) : Folded cs z :=
  nil.intersectFrom hcs h

/-- Folds of the same constraints are equal and have the same text. -/
theorem same (hc : Folded cs c) (hd : Folded ds d) (h : cs.Perm ds) : Same c d := by
  have hcontent : c.content = d.content := by
    rw [hc.content, hd.content]
    exact (h.map _).prod_eq
  have hperm : (restrictions cs).Perm (restrictions ds) := h.filter _
  obtain ⟨hcr, -, hcs⟩ := hc
  obtain ⟨-, -, hds⟩ := hd
  generalize restrictions cs = xs at hcs hperm
  generalize restrictions ds = ys at hds hperm
  cases hcs with
  | none =>
    obtain rfl := hperm.nil_eq
    cases hds
    exact same_refl trivial
  | lone hcu =>
    obtain rfl := List.singleton_perm.mp hperm
    cases hds
    exact same_refl hcr
  | several hc' hcu =>
    cases hds with
    | none => exact absurd hperm.length_eq (by simp)
    | lone _ => exact absurd hperm.length_eq (by simp)
    | several hd' _ => exact same_of_content_eq hc' hd' hcontent

end Folded

/-- Constraints can be folded in any order and in any two groups: all folds that come to an end are
equal and have the same text. -/
theorem intersectAll_any_order :
    (∀ (cs ds : List Constraint) (c d : Constraint), (∀ e ∈ cs, e.Regular) → cs.Perm ds →
      intersectAll cs = .ok c → intersectAll ds = .ok d →
        c.equal d = .ok true ∧ d.equal c = .ok true ∧ c.text = d.text) ∧
    ∀ (cs xs ys : List Constraint) (c x y z : Constraint), (∀ e ∈ cs, e.Regular) →
      cs.Perm (xs ++ ys) → intersectAll cs = .ok c → intersectAll xs = .ok x →
      intersectAll ys = .ok y → x.intersect y = .ok z →
        c.equal z = .ok true ∧ z.equal c = .ok true ∧ c.text = z.text := by
  constructor
  · intro cs ds c d hcs hperm hc hd
    have hc' := Folded.of_intersectAll hcs hc
    have hd' := Folded.of_intersectAll (fun e he => hcs e (hperm.mem_iff.mpr he)) hd
    have hsame := hc'.same hd' hperm
    exact ⟨hsame.equal, (hd'.same hc' hperm.symm).equal, hsame.text⟩
  · intro cs xs ys c x y z hcs hperm hc hx hy hz
    have hparts : ∀ e ∈ xs ++ ys, e.Regular := fun e he => hcs e (hperm.mem_iff.mpr he)
    obtain ⟨hxs, hys⟩ := List.forall_mem_append.mp hparts
    have hc' := Folded.of_intersectAll hcs hc
    have hz' := (Folded.of_intersectAll hxs hx).append (Folded.of_intersectAll hys hy) hz
    have hsame := hc'.same hz' hperm
    exact ⟨hsame.equal, (hz'.same hc' hperm.symm).equal, hsame.text⟩

theorem intersectAll_any_order_sample :
    let built := sampleBuilt ">=1.2.0-beta.3+7 <2"
    (∃ c d, intersectAll [sample, .universal, sampleOther, built] = .ok c ∧
      intersectAll [built, sampleOther, .universal, sample] = .ok d ∧ c ≠ d ∧
        c.equal d = .ok true ∧ d.equal c = .ok true ∧ c.text = d.text) ∧
    ∃ c x y z, intersectAll [sample, .universal, sampleOther, built] = .ok c ∧
      intersectAll [built, sampleOther] = .ok x ∧ intersectAll [.universal, sample] = .ok y ∧
        x.intersect y = .ok z ∧ c.equal z = .ok true ∧ z.equal c = .ok true ∧ c.text = z.text := by
  intro built
  have hregular : ∀ d ∈ [sample, .universal, sampleOther, built], d.Regular := by
    refine List.forall_mem_cons.mpr ⟨Range.regular_sample, List.forall_mem_cons.mpr ⟨trivial, ?_⟩⟩
    exact List.forall_mem_cons.mpr
      ⟨Range.regular_sampleOther, List.forall_mem_singleton.mpr (regular_sampleBuilt _)⟩
  have hall : intersectAll [sample, .universal, sampleOther, built] =
      .ok (sampleBuilt sample.text) := by decide +kernel
  have hreversed : intersectAll [built, sampleOther, .universal, sample] = .ok sample := by
    decide +kernel
  have hfirst : intersectAll [built, sampleOther] = .ok (sampleBuilt sample.text) := by
    decide +kernel
  have hrest : intersectAll [.universal, sample] = .ok sample := rfl
  have hjoined : (sampleBuilt sample.text).intersect sample = .ok sample := by decide +kernel
  have hperm : [sample, .universal, sampleOther, built].Perm
      [built, sampleOther, .universal, sample] := (List.reverse_perm _).symm
  exact ⟨⟨_, _, hall, hreversed, by decide,
      intersectAll_any_order.1 _ _ _ _ hregular hperm hall hreversed⟩,
    _, _, _, _, hall, hfirst, hrest, hjoined,
    intersectAll_any_order.2 _ [built, sampleOther] [.universal, sample] _ _ _ _ hregular hperm hall
      hfirst hrest hjoined⟩

end Constraint

end VersionConstraints
