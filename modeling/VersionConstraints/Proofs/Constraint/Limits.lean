import VersionConstraints.Proofs.Constraint.Reachable
import VersionConstraints.Proofs.Range.Loose

/-!
# Limits of the algebra

Constraints are accepted if their declarations return, and so are pins and intersections that
return. On accepted constraints whose bounds can be compared, membership and equality do not fail.
Intersecting two of them can: the version directly above a lower bound may be asked for only then,
because prereleases that were let in before are not any more. Where every exclusive lower bound has
a version directly above it, nothing fails. A constraint that was declared loosely can begin with a
version that cannot be compared; then each operation fails that comes to this version.
-/

namespace VersionConstraints

namespace Constraint

variable {c d e : Constraint} {cs ds : List Constraint} {v : Version} {f : Fault} {is : Range}
  {t : String}

/-! ### Intervals -/

/-- The intervals of a constraint; only a range has some. -/
def intervals : Constraint → Range
  | .range is _ => is
  | _           => []

lemma intervals_ofRange (is : Range) (t : String) : (ofRange is t).intervals = is := by
  cases is <;> rfl

lemma intervals_of_keyed (hc : c.form.IsKeyed) : c.intervals = [] := by
  cases c with
  | range is t => cases hc
  | universal | empty | revision a | branch a | literal a => rfl

lemma form_eq_range (h : c.intervals ≠ []) : c.form = .range := by
  cases c with
  | range is t => rfl
  | universal | empty | revision a | branch a | literal a => exact absurd rfl h

def Comparable (c : Constraint) : Prop :=
  c.intervals.Comparable

lemma comparable_of_intervals_eq_nil (h : c.intervals = []) : c.Comparable := by
  intro i hi
  rw [h] at hi
  cases hi

lemma Normal.toComparable (h : c.Normal) : c.Comparable := by
  cases c with
  | range is t => exact h.comparable
  | universal | empty | revision a | branch a | literal a =>
    exact comparable_of_intervals_eq_nil rfl

lemma comparable_pin (hv : v.Comparable) : (pin v).Comparable := by
  cases v with
  | revision id => exact comparable_of_intervals_eq_nil rfl
  | paired n id => exact comparable_of_intervals_eq_nil rfl
  | named n =>
    cases n with
    | branch name => exact comparable_of_intervals_eq_nil rfl
    | plain text => exact comparable_of_intervals_eq_nil rfl
    | semver w => exact List.forall_mem_singleton.mpr (Interval.comparable_exact (hv w rfl))

def Declarable (c : Constraint) : Prop :=
  c.intervals.Declarable

lemma Comparable.declarable (h : c.Comparable) : c.Declarable :=
  Range.Comparable.declarable h

/-! ### Membership and equality -/

/-- Membership returns unless the search comes to an interval that begins loose. -/
lemma Declarable.exists_contains_iff (hc : c.Declarable) (hv : v.Comparable) :
    (∃ ok, c.contains v = .ok ok) ↔ ∀ s ∈ v.semver?, ¬ Range.ComesToLoose s c.intervals := by
  cases c with
  | universal | empty | revision a | branch a | literal a =>
    exact iff_of_true ⟨_, rfl⟩ fun s _ => Range.not_comesToLoose_nil
  | range is t =>
    rw [contains]
    cases hs : v.semver? with
    | none => exact iff_of_true ⟨false, rfl⟩ fun s hs => absurd hs (Option.not_mem_none s)
    | some s =>
      refine (Range.exists_contains_iff hc (hv s hs)).trans ?_
      exact ⟨fun h _ hx => Option.some.inj hx ▸ h, fun h => h s rfl⟩

/-- Equality returns unless it comes to lower bounds that clash. -/
lemma Declarable.exists_equal_iff (hc : c.Declarable) (hd : d.Declarable) :
    (∃ ok, c.equal d = .ok ok) ↔ (c.intervals.length = d.intervals.length →
      ¬ Range.ComesToClash c.intervals d.intervals) := by
  by_cases hrange : c.form = .range ∧ d.form = .range
  · obtain ⟨hcr, hdr⟩ := hrange
    cases c <;> cases hcr
    cases d <;> cases hdr
    exact Range.exists_equal_iff hc hd
  · refine iff_of_true ?_ fun _ hclash => hrange ?_
    · cases c <;> cases d <;> first | exact ⟨_, rfl⟩ | exact absurd ⟨rfl, rfl⟩ hrange
    · exact ⟨form_eq_range hclash.ne_nil.1, form_eq_range hclash.ne_nil.2⟩

lemma Comparable.exists_contains (hc : c.Comparable) (hv : v.Comparable) :
    ∃ ok, c.contains v = .ok ok :=
  (hc.declarable.exists_contains_iff hv).mpr fun _ _ => Range.Comparable.not_comesToLoose hc

lemma Comparable.exists_equal (hc : c.Comparable) (hd : d.Comparable) :
    ∃ ok, c.equal d = .ok ok :=
  (hc.declarable.exists_equal_iff hd.declarable).mpr fun _ =>
    Range.Comparable.not_comesToClash hc hd

/-! ### Intersections of two -/

lemma exists_intersect_of_keyed (hc : c.form.IsKeyed) (d : Constraint) :
    ∃ e, c.intersect d = .ok e ∧ (e = c ∨ e = .empty) := by
  have hcu : c.form ≠ .universal := by
    intro h
    rw [h] at hc
    cases hc
  by_cases hdu : d.form = .universal
  · obtain rfl := form_eq_universal.mp hdu
    exact ⟨c, intersect_universal_right c, .inl rfl⟩
  by_cases hform : c.form = d.form
  · refine ⟨_, intersect_of_keyed hc hform, ?_⟩
    split
    · exact .inl rfl
    · exact .inr rfl
  · exact ⟨.empty, intersect_of_form_ne hcu hdu hform, .inr rfl⟩

/-- Unless two ranges meet, what two constraints make together is one of them or nothing. -/
lemma intersect_cases (c d : Constraint) :
    (∃ is s js t, c = .range is s ∧ d = .range js t) ∨
      (c.intervals = [] ∨ d.intervals = []) ∧
        ∃ e, c.intersect d = .ok e ∧ (e = c ∨ e = d ∨ e = .empty) := by
  by_cases hkeyed : c.form.IsKeyed
  · obtain ⟨e, he, hcases⟩ := exists_intersect_of_keyed hkeyed d
    exact .inr ⟨.inl (intervals_of_keyed hkeyed), e, he, hcases.imp_right .inr⟩
  · cases c with
    | universal => exact .inr ⟨.inl rfl, d, rfl, .inr (.inl rfl)⟩
    | empty => exact .inr ⟨.inl rfl, .empty, intersect_empty_left d, .inl rfl⟩
    | range is s =>
      cases d with
      | range js t => exact .inl ⟨is, s, js, t, rfl, rfl⟩
      | universal => exact .inr ⟨.inr rfl, .range is s, rfl, .inl rfl⟩
      | empty | revision b | branch b | literal b =>
        exact .inr ⟨.inr rfl, .empty, rfl, .inr (.inr rfl)⟩
    | revision a | branch a | literal a => exact absurd trivial hkeyed

/-- The intervals of what two constraints make together are those of one of them, or the
intersection of both. -/
lemma intervals_of_intersect (h : c.intersect d = .ok e) :
    e.intervals = c.intervals ∨ e.intervals = d.intervals ∨ e.intervals = [] ∨
      Range.intersect c.intervals d.intervals = .ok e.intervals := by
  obtain ⟨is, s, js, t, rfl, rfl⟩ | ⟨-, e', he, hcases⟩ := intersect_cases c d
  · obtain ⟨ks, hks, h⟩ := bind_eq_ok.mp h
    obtain ⟨u, -, h⟩ := bind_eq_ok.mp h
    cases h
    rw [intervals_ofRange]
    exact .inr (.inr (.inr hks))
  · obtain rfl : e' = e := Except.ok.inj (he.symm.trans h)
    rcases hcases with rfl | rfl | rfl
    · exact .inl rfl
    · exact .inr (.inl rfl)
    · exact .inr (.inr (.inl rfl))

/-- What holds of the intervals of two constraints, and of the intersections of these, holds of the
intervals of what both make together. -/
lemma forall_intervals_of_intersect {P : Interval → Prop} (hc : ∀ i ∈ c.intervals, P i)
    (hd : ∀ j ∈ d.intervals, P j)
    (hstep : ∀ i ∈ c.intervals, ∀ j ∈ d.intervals, ∀ k, i.intersect j = .ok (some k) → P k)
    (h : c.intersect d = .ok e) : ∀ k ∈ e.intervals, P k := by
  rcases intervals_of_intersect h with heq | heq | heq | hks
  · exact heq ▸ hc
  · exact heq ▸ hd
  · rw [heq]
    exact nofun
  · intro k hk
    obtain ⟨i, hi, j, hj, hij⟩ := Range.exists_of_mem_intersect hks hk
    exact hstep i hi j hj k hij

/-- The fault of an intersection is the one of two intervals that clash or are at a limit. -/
lemma Declarable.failsOnly_intersect (hc : c.Declarable) (hd : d.Declarable) :
    FailsOnly (c.intersect d) fun f =>
      ∃ i ∈ c.intervals, ∃ j ∈ d.intervals, i.Clashes j ∨ i.StuckWith j f := by
  obtain ⟨is, s, js, t, rfl, rfl⟩ | ⟨-, e, he, -⟩ := intersect_cases c d
  · apply FailsOnly.bind
    · exact Range.failsOnly_intersect hc hd
    · intro ks hks
      obtain ⟨u, hu⟩ := Range.exists_text (Range.comparable_of_intersect hc hd hks)
      rw [hu]
      exact .ok
  · rw [he]
    exact .ok

/-- An intersection returns if and only if no two intervals clash or are at a limit. -/
lemma Declarable.exists_intersect_iff (hc : c.Declarable) (hd : d.Declarable) :
    (∃ e, c.intersect d = .ok e) ↔
      ∀ i ∈ c.intervals, ∀ j ∈ d.intervals, ¬ i.Clashes j ∧ ∀ f, ¬ i.StuckWith j f := by
  constructor
  · rintro ⟨e, he⟩
    obtain ⟨is, s, js, t, rfl, rfl⟩ | ⟨hnil, -⟩ := intersect_cases c d
    · obtain ⟨ks, hks, -⟩ := bind_eq_ok.mp he
      exact (Range.exists_intersect_iff hc hd).mp ⟨ks, hks⟩
    · intro i hi j hj
      rcases hnil with hnil | hnil
      · rw [hnil] at hi
        cases hi
      · rw [hnil] at hj
        cases hj
  · intro hnone
    apply FailsOnly.exists_ok
    refine (hc.failsOnly_intersect hd).imp ?_
    rintro f ⟨i, hi, j, hj, hclash | hstuck⟩
    · exact (hnone i hi j hj).1 hclash
    · exact (hnone i hi j hj).2 f hstuck

/-- An intersection of declarable constraints is declarable. -/
lemma Declarable.of_intersect (hc : c.Declarable) (hd : d.Declarable)
    (h : c.intersect d = .ok e) : e.Declarable := by
  refine forall_intervals_of_intersect hc hd ?_ h
  intro i hi j hj k hk
  exact .inl ((Interval.exists_intersect_iff (hc i hi) (hd j hj)).2 k hk)

lemma Comparable.of_intersect (hc : c.Comparable) (hd : d.Comparable)
    (h : c.intersect d = .ok e) : e.Comparable := by
  refine forall_intervals_of_intersect hc hd ?_ h
  intro i hi j hj k hk
  exact (Interval.normal_of_intersect (hc i hi) (hd j hj) hk).1

/-- An intersection fails only at a limit of two intervals. -/
lemma Comparable.failsOnly_intersect (hc : c.Comparable) (hd : d.Comparable) :
    FailsOnly (c.intersect d) fun f =>
      ∃ i ∈ c.intervals, ∃ j ∈ d.intervals, i.StuckWith j f := by
  refine (hc.declarable.failsOnly_intersect hd.declarable).imp ?_
  rintro f ⟨i, hi, j, hj, h⟩
  exact ⟨i, hi, j, hj, h.resolve_left (Interval.not_clashes (hc i hi) (hd j hj))⟩

/-- An intersection returns exactly if no two intervals are at a limit. -/
lemma Comparable.exists_intersect_iff (hc : c.Comparable) (hd : d.Comparable) :
    (∃ e, c.intersect d = .ok e) ↔
      ∀ i ∈ c.intervals, ∀ j ∈ d.intervals, ∀ f, ¬ i.StuckWith j f := by
  rw [hc.declarable.exists_intersect_iff hd.declarable]
  refine forall₂_congr fun i hi => forall₂_congr fun j hj => ?_
  exact and_iff_right (Interval.not_clashes (hc i hi) (hd j hj))

/-- Compatibility returns exactly if the intersection does. -/
lemma exists_compatible_iff :
    (∃ ok, c.compatible d = .ok ok) ↔ ∃ e, c.intersect d = .ok e := by
  rw [compatible]
  cases c.intersect d with
  | error f => exact iff_of_false nofun nofun
  | ok e => exact iff_of_true ⟨_, rfl⟩ ⟨e, rfl⟩

/-! ### Room above lower bounds -/

/-- Whether the exclusive lower bounds of a constraint have versions directly above them. -/
def HasRoom (c : Constraint) : Prop :=
  ∀ i ∈ c.intervals, Interval.HasRoom i.lower

/-- Where there is room above the lower bounds, intersections return and leave room. -/
lemma Comparable.exists_intersect_of_hasRoom (hc : c.Comparable) (hd : d.Comparable)
    (hcr : c.HasRoom) (hdr : d.HasRoom) : ∃ e, c.intersect d = .ok e ∧ e.HasRoom := by
  obtain ⟨e, he⟩ := (hc.exists_intersect_iff hd).mpr fun i hi j hj _ =>
    (hcr i hi).not_stuckWith (hc i hi) (hd j hj) (hdr j hj)
  refine ⟨e, he, forall_intervals_of_intersect hcr hdr ?_ he⟩
  intro i hi j hj k hk
  exact (hcr i hi).of_intersect (hc i hi) (hd j hj) (hdr j hj) hk

/-! ### Intersections of lists -/

/-- A fold fails exactly where the constraint that it has come to meets one that it cannot be
intersected with. -/
lemma intersectFrom_error_iff : c.intersectFrom ds = .error f ↔
    ∃ init d rest e, ds = init ++ d :: rest ∧ c.intersectFrom init = .ok e ∧
      e.intersect d = .error f := by
  induction ds generalizing c with
  | nil =>
    refine iff_of_false nofun ?_
    rintro ⟨init, d, rest, e, h, -⟩
    exact absurd h (by simp)
  | cons d ds ih =>
    constructor
    · intro h
      rcases bind_eq_error.mp h with h | ⟨x, hx, h⟩
      · exact ⟨[], d, ds, c, rfl, rfl, h⟩
      · split at h
        · cases h
        · next hne =>
          obtain ⟨init, d', rest, e, rfl, he, hf⟩ := ih.mp h
          refine ⟨d :: init, d', rest, e, rfl, ?_, hf⟩
          rw [intersectFrom, hx, ok_bind, if_neg hne, he]
    · rintro ⟨init, d', rest, e, hds, he, hf⟩
      cases init with
      | nil =>
        cases he
        cases hds
        rw [intersectFrom, hf, error_bind]
      | cons x init =>
        obtain ⟨rfl, rfl⟩ := List.cons.inj hds
        obtain ⟨y, hy, he⟩ := bind_eq_ok.mp he
        rw [intersectFrom, hy, ok_bind]
        split at he
        · next hempty =>
          -- A fold that has stopped does not fail any more.
          cases he
          rw [isEmpty_eq_true.mp hempty, intersect_empty_left] at hf
          cases hf
        · next hne =>
          rw [if_neg hne]
          exact ih.mpr ⟨init, d', rest, e, rfl, he, hf⟩

/-- What every intersection preserves, the intersection of a list preserves. -/
lemma intersectFrom_of_intersect {P : Constraint → Prop} (hds : ∀ d ∈ ds, P d)
    (hstep : ∀ c d e, P c → P d → c.intersect d = .ok e → P e) (hc : P c)
    (h : c.intersectFrom ds = .ok e) : P e := by
  induction ds generalizing c with
  | nil =>
    cases h
    exact hc
  | cons d ds ih =>
    obtain ⟨hd, hds⟩ := List.forall_mem_cons.mp hds
    obtain ⟨x, hx, h⟩ := bind_eq_ok.mp h
    have hxP := hstep c d x hc hd hx
    split at h
    · cases h
      exact hxP
    · exact ih hds hxP h

/-- If any two constraints with a property intersect and keep it, so does a list of them. -/
lemma exists_intersectFrom {P : Constraint → Prop} (hds : ∀ d ∈ ds, P d)
    (hstep : ∀ c d, P c → P d → ∃ e, c.intersect d = .ok e ∧ P e) (hc : P c) :
    ∃ e, c.intersectFrom ds = .ok e ∧ P e := by
  have hkeep (c d e : Constraint) (hc : P c) (hd : P d) (h : c.intersect d = .ok e) : P e := by
    obtain ⟨e', he', hP⟩ := hstep c d hc hd
    obtain rfl : e = e' := Except.ok.inj (h.symm.trans he')
    exact hP
  cases h : c.intersectFrom ds with
  | ok e => exact ⟨e, rfl, intersectFrom_of_intersect hds hkeep hc h⟩
  | error f =>
    obtain ⟨init, d, rest, e, rfl, he, hf⟩ := intersectFrom_error_iff.mp h
    have hinit : ∀ x ∈ init, P x := fun x hx => hds x (List.mem_append_left _ hx)
    have heP := intersectFrom_of_intersect hinit hkeep hc he
    obtain ⟨e', he', -⟩ := hstep e d heP (hds d (by simp))
    rw [hf] at he'
    cases he'

/-- A list fails to intersect exactly where what it has come to meets a constraint that it cannot be
intersected with; what intersections keep holds of that, too. -/
lemma intersectAll_error_iff {P : Constraint → Prop} (hcs : ∀ c ∈ cs, P c)
    (hstep : ∀ c d e, P c → P d → c.intersect d = .ok e → P e) (huniversal : P .universal) :
    intersectAll cs = .error f ↔ ∃ init d rest e, cs = init ++ d :: rest ∧
      intersectAll init = .ok e ∧ P e ∧ e.intersect d = .error f := by
  rw [intersectAll, intersectFrom_error_iff]
  constructor
  · rintro ⟨init, d, rest, e, rfl, he, hf⟩
    have hinit : ∀ c ∈ init, P c := fun c hc => hcs c (List.mem_append_left _ hc)
    exact ⟨init, d, rest, e, rfl, he, intersectFrom_of_intersect hinit hstep huniversal he, hf⟩
  · rintro ⟨init, d, rest, e, hsplit, he, -, hf⟩
    exact ⟨init, d, rest, e, hsplit, he, hf⟩

/-! ### Accepted constraints -/

/-- The constraints that come about from declarations, found versions and intersections. Of the
declarations that were not read strictly, those count whose bounds can be compared. -/
inductive Accepted : Constraint → Prop
  | universal : Accepted .universal
  | empty : Accepted .empty
  | declared {kind s : String} {q : Requirement}
      (h : Requirement.ofDeclaration kind s .strict = .ok q) : Accepted q.constraint
  | declaredLoosely {kind s : String} {q : Requirement}
      (h : Requirement.ofDeclaration kind s .loose = .ok q) (hq : q.constraint.Comparable) :
      Accepted q.constraint
  | pinned {v : Version} (hv : v.Comparable) : Accepted (pin v)
  | intersect {c d e : Constraint} (hc : Accepted c) (hd : Accepted d)
      (h : c.intersect d = .ok e) : Accepted e

lemma Accepted.comparable (h : c.Accepted) : c.Comparable := by
  induction h with
  | universal | empty => exact comparable_of_intervals_eq_nil rfl
  | declared h => exact (normal_of_ofDeclaration h).toComparable
  | declaredLoosely _ hq => exact hq
  | pinned hv => exact comparable_pin hv
  | intersect _ _ h ihc ihd => exact ihc.of_intersect ihd h

/-- The constraints that come about where any declaration may be read loosely. -/
inductive AcceptedLoosely : Constraint → Prop
  | accepted {c : Constraint} (h : c.Accepted) : AcceptedLoosely c
  | declared {kind s : String} {q : Requirement}
      (h : Requirement.ofDeclaration kind s .loose = .ok q) : AcceptedLoosely q.constraint
  | intersect {c d e : Constraint} (hc : AcceptedLoosely c) (hd : AcceptedLoosely d)
      (h : c.intersect d = .ok e) : AcceptedLoosely e

/-- What either grammar declares is declarable. -/
lemma declarable_of_ofDeclaration {kind s : String} {g : Grammar} {q : Requirement}
    (h : Requirement.ofDeclaration kind s g = .ok q) : q.constraint.Declarable := by
  have hkeyed (c : Constraint) (hc : c.intervals = []) : c.Declarable :=
    (comparable_of_intervals_eq_nil hc).declarable
  simp only [Requirement.ofDeclaration] at h
  split at h
  · cases h
  · cases h
    exact hkeyed _ rfl
  · cases h
    exact hkeyed _ rfl
  · obtain ⟨-, rfl⟩ | ⟨is, his, rfl⟩ := Requirement.ofVersionText_cases (Error.of_ofFault h)
    · exact hkeyed _ rfl
    · rw [Declarable, intervals_ofRange]
      exact Range.declarable_of_ofText his

lemma AcceptedLoosely.declarable (h : c.AcceptedLoosely) : c.Declarable := by
  induction h with
  | accepted h => exact h.comparable.declarable
  | declared h => exact declarable_of_ofDeclaration h
  | intersect _ _ h ihc ihd => exact ihc.of_intersect ihd h

/-- When the operations on two constraints return of which some interval may begin with a version
that cannot be compared: membership and equality unless they come to such a version, and
intersections unless two intervals clash or are at a limit. -/
structure ReturnsUnlessCompared (c d : Constraint) : Prop where
  contains : ∀ v : Version, v.Comparable → ((∃ ok, c.contains v = .ok ok) ↔
    ∀ s ∈ v.semver?, ¬ Range.ComesToLoose s c.intervals)
  equal : (∃ ok, c.equal d = .ok ok) ↔
    (c.intervals.length = d.intervals.length → ¬ Range.ComesToClash c.intervals d.intervals)
  intersect : (∃ e, c.intersect d = .ok e) ↔
    ∀ i ∈ c.intervals, ∀ j ∈ d.intervals, ¬ i.Clashes j ∧ ∀ f, ¬ i.StuckWith j f
  compatible : (∃ ok, c.compatible d = .ok ok) ↔ ∃ e, c.intersect d = .ok e
  fault : ∀ f, c.intersect d = .error f →
    ∃ i ∈ c.intervals, ∃ j ∈ d.intervals, i.Clashes j ∨ i.StuckWith j f

/-- The operations on declarable constraints return but for comparisons and limits. -/
lemma Declarable.returnsUnlessCompared (hc : c.Declarable) (hd : d.Declarable) :
    c.ReturnsUnlessCompared d where
  contains _ hv := hc.exists_contains_iff hv
  equal := hc.exists_equal_iff hd
  intersect := hc.exists_intersect_iff hd
  compatible := exists_compatible_iff
  fault := hc.failsOnly_intersect hd

/-- On accepted constraints membership and equality return. Two of them intersect, and are
compatible or not, exactly if no two of their intervals are at a limit; otherwise the fault is the
one of such intervals. A list of them fails to intersect only where such two meet. Where there is
room above all lower bounds, intersections return and leave room. Constraints that are declared
loosely and have bounds that cannot be compared differ from this only where such a bound is
compared. -/
theorem accepted_returns (a b : Constraint) (cs : List Constraint) (ha : a.Accepted)
    (hb : b.Accepted) (hcs : ∀ c ∈ cs, c.Accepted) :
    (∀ v : Version, v.Comparable → ∃ ok, a.contains v = .ok ok) ∧
    (∃ ok, a.equal b = .ok ok) ∧
    ((∃ e, a.intersect b = .ok e) ↔
      ∀ i ∈ a.intervals, ∀ j ∈ b.intervals, ∀ f, ¬ i.StuckWith j f) ∧
    ((∃ ok, a.compatible b = .ok ok) ↔ ∃ e, a.intersect b = .ok e) ∧
    (∀ f, a.intersect b = .error f → (f = .tooLong ∨ f = .tooLarge .patch) ∧
      ∃ i ∈ a.intervals, ∃ j ∈ b.intervals, i.StuckWith j f) ∧
    (a.HasRoom → b.HasRoom → ∃ e, a.intersect b = .ok e ∧ e.HasRoom) ∧
    (∀ f, intersectAll cs = .error f ↔ ∃ init d rest e, cs = init ++ d :: rest ∧
      intersectAll init = .ok e ∧ e.Accepted ∧ e.intersect d = .error f) ∧
    ((∀ c ∈ cs, c.HasRoom) → ∃ e, intersectAll cs = .ok e ∧ e.HasRoom) ∧
    (∀ c d : Constraint, c.AcceptedLoosely → d.AcceptedLoosely → c.ReturnsUnlessCompared d) ∧
    (∀ ds : List Constraint, (∀ d ∈ ds, d.AcceptedLoosely) → ∀ f,
      (intersectAll ds = .error f ↔ ∃ init d rest e, ds = init ++ d :: rest ∧
        intersectAll init = .ok e ∧ e.AcceptedLoosely ∧ e.intersect d = .error f)) := by
  have hac := ha.comparable
  have hbc := hb.comparable
  refine ⟨fun v hv => hac.exists_contains hv, hac.exists_equal hbc, hac.exists_intersect_iff hbc,
    exists_compatible_iff, fun f hf => ?_, hac.exists_intersect_of_hasRoom hbc, fun f => ?_,
    fun hroom => ?_, fun c d hc hd => hc.declarable.returnsUnlessCompared hd.declarable,
    fun ds hds f => ?_⟩
  · obtain ⟨i, hi, j, hj, hstuck⟩ := hac.failsOnly_intersect hbc f hf
    exact ⟨hstuck.eq_or, i, hi, j, hj, hstuck⟩
  · exact intersectAll_error_iff hcs (fun _ _ _ hc hd h => .intersect hc hd h) .universal
  · have hstep (c d : Constraint) (hc : c.Accepted ∧ c.HasRoom) (hd : d.Accepted ∧ d.HasRoom) :
        ∃ e, c.intersect d = .ok e ∧ e.Accepted ∧ e.HasRoom := by
      obtain ⟨e, he, her⟩ := hc.1.comparable.exists_intersect_of_hasRoom hd.1.comparable hc.2 hd.2
      exact ⟨e, he, .intersect hc.1 hd.1 he, her⟩
    obtain ⟨e, he, -, her⟩ :=
      exists_intersectFrom (fun c hc => ⟨hcs c hc, hroom c hc⟩) hstep ⟨.universal, nofun⟩
    exact ⟨e, he, her⟩
  · exact intersectAll_error_iff hds (fun _ _ _ hc hd h => .intersect hc hd h)
      (.accepted .universal)

/-- What `>1.2.9007199254740991 <2.0.0-5` is declared as. -/
def aboveLastPatch : Constraint :=
  .range [⟨some ⟨.ofRelease ⟨1, 2, Numeral.maxSafe⟩, false⟩,
    some ⟨⟨⟨2, 0, 0⟩, [.number 5], [], .strict⟩, false⟩⟩] ">1.2.9007199254740991 <2.0.0-5"

/-- What `>=1.0.0` is declared as. -/
def fromOne : Constraint := .range [⟨some ⟨.ofRelease ⟨1, 0, 0⟩, true⟩, none⟩] ">=1.0.0"

lemma accepted_aboveLastPatch : aboveLastPatch.Accepted := by
  have hdeclared : Requirement.ofDeclaration "version" ">1.2.9007199254740991 <2.0.0-5" .strict =
      .ok ⟨aboveLastPatch, []⟩ := by decide +kernel
  exact .declared hdeclared

lemma ofDeclaration_fromOne :
    Requirement.ofDeclaration "version" ">=1.0.0" .strict = .ok ⟨fromOne, []⟩ := by
  decide +kernel

lemma accepted_fromOne : fromOne.Accepted := .declared ofDeclaration_fromOne

lemma hasRoom_fromOne : fromOne.HasRoom :=
  List.forall_mem_singleton.mpr (Interval.hasRoom_of_inclusive rfl)

/-- What `>=1.2.3-09999999999999999999` is declared as, loosely. -/
def fromLooseOnly : Constraint :=
  .range [⟨some ⟨⟨⟨1, 2, 3⟩, [.word "09999999999999999999".toList], [], .loose⟩, true⟩, none⟩]
    ">=1.2.3-09999999999999999999"

lemma ofDeclaration_fromLooseOnly : Requirement.ofDeclaration "version"
    ">=1.2.3-09999999999999999999" .loose = .ok ⟨fromLooseOnly, []⟩ := by
  decide +kernel

def release130 : Version := .named (.semver (.ofRelease ⟨1, 3, 0⟩))

lemma contains_fromLooseOnly : fromLooseOnly.contains release130 =
    .error (.notVersion "1.2.3-09999999999999999999".toList) := by
  decide +kernel

theorem accepted_returns_aboveLastPatch :
    (∃ i ∈ aboveLastPatch.intervals, ∃ j ∈ fromOne.intervals, i.StuckWith j (.tooLarge .patch)) ∧
      (∃ ok, aboveLastPatch.contains samplePair = .ok ok) ∧
      (∃ e, intersectAll [fromOne, .universal, fromOne] = .ok e ∧ e.HasRoom) ∧
      Range.ComesToLoose (.ofRelease ⟨1, 3, 0⟩) fromLooseOnly.intervals ∧
      (∃ ok, fromLooseOnly.compatible .universal = .ok ok) ∧
      ∃ i ∈ fromLooseOnly.intervals, ∃ j ∈ fromOne.intervals, i.Clashes j := by
  have herror : aboveLastPatch.intersect fromOne = .error (.tooLarge .patch) := by decide +kernel
  have hcomparable : samplePair.Comparable := by
    rintro _ ⟨⟩
    exact Semver.ordinary_sample.regular.toComparable
  have hcomparable' : release130.Comparable := by
    rintro _ ⟨⟩
    exact Semver.comparable_ofRelease (by decide)
  have haccepted : ∀ c ∈ [fromOne, .universal, fromOne], c.Accepted := by
    refine List.forall_mem_cons.mpr ⟨accepted_fromOne, ?_⟩
    exact List.forall_mem_cons.mpr ⟨.universal, List.forall_mem_singleton.mpr accepted_fromOne⟩
  have hroom : ∀ c ∈ [fromOne, .universal, fromOne], c.HasRoom := by
    refine List.forall_mem_cons.mpr ⟨hasRoom_fromOne, ?_⟩
    exact List.forall_mem_cons.mpr ⟨nofun, List.forall_mem_singleton.mpr hasRoom_fromOne⟩
  have hdeclared : fromLooseOnly.AcceptedLoosely := .declared ofDeclaration_fromLooseOnly
  obtain ⟨hcontains, -, -, -, hfault, -, -, hall, hloose, -⟩ := accepted_returns aboveLastPatch
    fromOne _ accepted_aboveLastPatch accepted_fromOne haccepted
  have huniversal := hloose fromLooseOnly .universal hdeclared (.accepted .universal)
  have hone := hloose fromLooseOnly fromOne hdeclared (.accepted accepted_fromOne)
  refine ⟨(hfault _ herror).2, hcontains samplePair hcomparable, hall hroom, ?_,
    huniversal.compatible.mpr ⟨fromLooseOnly, rfl⟩, ?_⟩
  · by_contra hcomes
    obtain ⟨ok, hok⟩ := (huniversal.contains release130 hcomparable').mpr
      fun s hs => Option.some.inj hs ▸ hcomes
    rw [contains_fromLooseOnly] at hok
    cases hok
  · have herror' : fromLooseOnly.intersect fromOne =
        .error (.notVersion "1.2.3-09999999999999999999".toList) := by decide +kernel
    obtain ⟨i, hi, j, hj, hclash | hstuck⟩ := hone.fault _ herror'
    · exact ⟨i, hi, j, hj, hclash⟩
    · rcases hstuck.eq_or with h | h <;> cases h

/-- A version satisfies two accepted constraints, but intersecting them fails; and an accepted
constraint that was not read strictly fails on a version. -/
theorem accepted_fault_aboveLastPatch :
    aboveLastPatch.Accepted ∧ fromOne.Accepted ∧
      aboveLastPatch.contains release130 = .ok true ∧ fromOne.contains release130 = .ok true ∧
      aboveLastPatch.intersect fromOne = .error (.tooLarge .patch) ∧
      aboveLastPatch.compatible fromOne = .error (.tooLarge .patch) ∧
      intersectAll [aboveLastPatch, fromOne] = .error (.tooLarge .patch) ∧
      ∃ q, Requirement.ofDeclaration "version" ">=1.2.3-09999999999999999999" .loose = .ok q ∧
        q.constraint.contains release130 =
          .error (.notVersion "1.2.3-09999999999999999999".toList) :=
  ⟨accepted_aboveLastPatch, accepted_fromOne, by decide +kernel, by decide +kernel,
    by decide +kernel, by decide +kernel, by decide +kernel,
    ⟨fromLooseOnly, []⟩, ofDeclaration_fromLooseOnly, contains_fromLooseOnly⟩

end Constraint

end VersionConstraints
