import VersionConstraints.Proofs.Interval.Loose
import VersionConstraints.Proofs.Range.Limits

/-!
# Ranges with bounds that cannot be compared

A range that was read loosely can have an interval that begins with a version no comparison takes.
Membership and equality still return where they are decided before they come to that version. An
intersection returns exactly if no two intervals clash or are at a limit, and then all of its bounds
can be compared.
-/

namespace VersionConstraints

namespace Interval

variable {i j : Interval} {f : Fault}

/-- Two intervals fail to intersect by a clash or at a limit. -/
lemma clashes_or_stuckWith (hi : i.Comparable ∨ i.BeginsLoose) (hj : j.Comparable ∨ j.BeginsLoose)
    (h : i.intersect j = .error f) : i.Clashes j ∨ i.StuckWith j f := by
  by_cases hloose : i.BeginsLoose ∨ j.BeginsLoose
  · by_contra hne
    obtain ⟨o, ho⟩ := (exists_intersect_iff hi hj).1.mpr
      ⟨fun hclash => hne (.inl hclash), fun f => not_stuckWith_of_beginsLoose hloose⟩
    cases ho.symm.trans h
  · obtain ⟨hni, hnj⟩ := not_or.mp hloose
    exact .inr ((intersect_error_iff (hi.resolve_right hni) (hj.resolve_right hnj)).mp h)

end Interval

namespace Range

variable {is js ks : Range} {i j : Interval} {v : Semver} {g : Grammar} {cs : Text} {f : Fault}

/-- Whether each interval of a range can be compared or begins with a version that cannot. -/
def Declarable (is : Range) : Prop :=
  ∀ i ∈ is, i.Comparable ∨ i.BeginsLoose

lemma Comparable.declarable (h : is.Comparable) : is.Declarable :=
  fun i hi => .inl (h i hi)

/-- Range expressions are declarable, with whichever grammar they are read. -/
theorem declarable_of_ofText (h : ofText g cs = .ok (some is)) : is.Declarable := by
  obtain ⟨t, as, -, has, h⟩ := exists_alternatives_of_ofText h
  obtain ⟨all, hall, h⟩ := bind_eq_ok.mp h
  intro i hi
  obtain ⟨a, ha, hai⟩ := ((intervals_spec hall).mem_iff i).mp ((canonical_covers h).1 i hi)
  exact Interval.comparable_or_beginsLoose_of_ofAlternative
    (Expression.readWith_of_alternatives has a ha) hai

/-! ### Membership -/

/-- Whether the search for a version comes to an interval that begins loose: no interval before it
contains the version. -/
def ComesToLoose (v : Semver) (is : Range) : Prop :=
  ∃ init i rest, is = init ++ i :: rest ∧ contains v init = .ok false ∧ i.BeginsLoose

lemma comesToLoose_cons : ComesToLoose v (i :: is) ↔
    i.BeginsLoose ∨ i.contains v = .ok false ∧ ComesToLoose v is := by
  constructor
  · rintro ⟨init, j, rest, h, hinit, hj⟩
    cases init with
    | nil =>
      cases h
      exact .inl hj
    | cons k init =>
      obtain ⟨rfl, rfl⟩ := List.cons.inj h
      obtain ⟨ok, hok, hinit⟩ := bind_eq_ok.mp hinit
      cases ok with
      | true => cases hinit
      | false => exact .inr ⟨hok, init, j, rest, rfl, hinit, hj⟩
  · rintro (hi | ⟨hok, init, j, rest, rfl, hinit, hj⟩)
    · exact ⟨[], i, is, rfl, rfl, hi⟩
    · refine ⟨i :: init, j, rest, rfl, ?_, hj⟩
      rw [contains, hok, ok_bind, if_neg Bool.false_ne_true, hinit]

lemma not_comesToLoose_nil : ¬ ComesToLoose v [] := by
  rintro ⟨init, i, rest, h, -⟩
  exact absurd h (by simp)

lemma Comparable.not_comesToLoose (his : is.Comparable) : ¬ ComesToLoose v is := by
  rintro ⟨init, i, rest, rfl, -, hi⟩
  exact hi.not_comparable (his i (by simp))

/-- Membership returns unless it comes to a version that cannot be compared. -/
theorem exists_contains_iff (his : is.Declarable) (hv : v.Comparable) :
    (∃ ok, contains v is = .ok ok) ↔ ¬ ComesToLoose v is := by
  induction is with
  | nil => exact iff_of_true ⟨false, rfl⟩ not_comesToLoose_nil
  | cons i is ih =>
    obtain ⟨hi, his⟩ := List.forall_mem_cons.mp his
    rw [comesToLoose_cons, contains]
    rcases hi with hi | hi
    · rw [or_iff_right fun hloose => hloose.not_comparable hi]
      obtain ⟨ok, hok⟩ := hi.exists_contains hv
      rw [hok, ok_bind]
      cases ok with
      | true => simp
      | false => simpa using ih his
    · refine iff_of_false ?_ (not_not.mpr (.inl hi))
      rintro ⟨ok, h⟩
      obtain ⟨ok', hok', -⟩ := bind_eq_ok.mp h
      exact hi.contains_ne_ok v ok' hok'

/-! ### Equality -/

/-- Whether the comparison of two ranges in pairs comes to lower bounds that cannot be compared: all
pairs before these are equal. -/
def ComesToClash (is js : Range) : Prop :=
  ∃ init i rest init' j rest', is = init ++ i :: rest ∧ js = init' ++ j :: rest' ∧
    equal init init' = .ok true ∧ i.LowersClash j

lemma equal_cons_eq_true : equal (i :: is) (j :: js) = .ok true ↔
    i.compare j = .ok .eq ∧ equal is js = .ok true := by
  by_cases hlen : is.length = js.length
  · have hcons : (i :: is).length = (j :: js).length := congrArg (· + 1) hlen
    rw [equal, equal, if_pos hlen, if_pos hcons, equal.pairwise]
    cases i.compare j with
    | error f => simp
    | ok o => cases o <;> simp
  · have hcons : (i :: is).length ≠ (j :: js).length := fun h => hlen (Nat.succ.inj h)
    rw [equal, equal, if_neg hlen, if_neg hcons]
    simp

lemma comesToClash_cons : ComesToClash (i :: is) (j :: js) ↔
    i.LowersClash j ∨ i.compare j = .ok .eq ∧ ComesToClash is js := by
  constructor
  · rintro ⟨init, k, rest, init', l, rest', h, h', hequal, hclash⟩
    cases init with
    | nil =>
      cases init' with
      | nil =>
        cases h
        cases h'
        exact .inl hclash
      | cons y init' => cases hequal
    | cons x init =>
      cases init' with
      | nil => cases hequal
      | cons y init' =>
        obtain ⟨rfl, rfl⟩ := List.cons.inj h
        obtain ⟨rfl, rfl⟩ := List.cons.inj h'
        obtain ⟨hxy, hequal⟩ := equal_cons_eq_true.mp hequal
        exact .inr ⟨hxy, init, k, rest, init', l, rest', rfl, rfl, hequal, hclash⟩
  · rintro (hclash | ⟨hij, init, k, rest, init', l, rest', rfl, rfl, hequal, hclash⟩)
    · exact ⟨[], i, is, [], j, js, rfl, rfl, rfl, hclash⟩
    · exact ⟨i :: init, k, rest, j :: init', l, rest', rfl, rfl,
        equal_cons_eq_true.mpr ⟨hij, hequal⟩, hclash⟩

lemma ComesToClash.ne_nil (h : ComesToClash is js) : is ≠ [] ∧ js ≠ [] := by
  obtain ⟨init, i, rest, init', j, rest', rfl, rfl, -⟩ := h
  exact ⟨by simp, by simp⟩

lemma Comparable.not_comesToClash (his : is.Comparable) (hjs : js.Comparable) :
    ¬ ComesToClash is js := by
  rintro ⟨init, i, rest, init', j, rest', rfl, rfl, -, hloose | hloose, -⟩
  · exact hloose.not_comparable (his i (by simp))
  · exact hloose.not_comparable (hjs j (by simp))

lemma exists_pairwise_iff (his : is.Declarable) (hjs : js.Declarable) :
    (∃ ok, equal.pairwise is js = .ok ok) ↔ ¬ ComesToClash is js := by
  induction is generalizing js with
  | nil => exact iff_of_true ⟨true, rfl⟩ fun hclash => hclash.ne_nil.1 rfl
  | cons i is ih =>
    cases js with
    | nil => exact iff_of_true ⟨true, rfl⟩ fun hclash => hclash.ne_nil.2 rfl
    | cons j js =>
      obtain ⟨hi, his⟩ := List.forall_mem_cons.mp his
      obtain ⟨hj, hjs⟩ := List.forall_mem_cons.mp hjs
      rw [comesToClash_cons, equal.pairwise]
      by_cases hclash : i.LowersClash j
      · refine iff_of_false ?_ (not_not.mpr (.inl hclash))
        rintro ⟨ok, h⟩
        obtain ⟨o, ho, -⟩ := bind_eq_ok.mp h
        exact hclash.compare_ne_ok o ho
      · obtain ⟨o, ho⟩ := (Interval.exists_compare_iff hi hj).mpr hclash
        rw [ho, ok_bind, or_iff_right hclash]
        cases o with
        | eq => simpa using ih his hjs
        | lt | gt => simp

/-- Equality returns unless it comes to versions that cannot be compared. -/
theorem exists_equal_iff (his : is.Declarable) (hjs : js.Declarable) :
    (∃ ok, equal is js = .ok ok) ↔ (is.length = js.length → ¬ ComesToClash is js) := by
  by_cases hlen : is.length = js.length
  · rw [equal, if_pos hlen, forall_prop_of_true hlen]
    exact exists_pairwise_iff his hjs
  · rw [equal, if_neg hlen]
    exact iff_of_true ⟨false, rfl⟩ fun h => absurd h hlen

/-! ### Intersections -/

/-- Whatever two declarable ranges have in common can be compared. -/
lemma comparable_of_intersectAll (his : is.Declarable) (hjs : js.Declarable)
    (h : intersectAll is js = .ok ks) : ks.Comparable := by
  intro k hk
  obtain ⟨i, hi, j, hj, hij⟩ := ((intersectAll_spec h).2 k).mp hk
  exact (Interval.exists_intersect_iff (his i hi) (hjs j hj)).2 k hij

/-- The fault of an intersection is the one of two intervals that clash or are at a limit. -/
theorem failsOnly_intersect (his : is.Declarable) (hjs : js.Declarable) :
    FailsOnly (intersect is js) fun f => ∃ i ∈ is, ∃ j ∈ js, i.Clashes j ∨ i.StuckWith j f := by
  apply FailsOnly.bind
  · refine failsOnly_intersectAll.imp ?_
    rintro f ⟨i, hi, j, hj, hf⟩
    exact ⟨i, hi, j, hj, Interval.clashes_or_stuckWith (his i hi) (hjs j hj) hf⟩
  · intro all hall f hf
    obtain ⟨ks, hks⟩ := exists_canonical (comparable_of_intersectAll his hjs hall)
    exact absurd (hks.symm.trans hf) nofun

/-- An intersection returns if and only if no two intervals clash or are at a limit. -/
theorem exists_intersect_iff (his : is.Declarable) (hjs : js.Declarable) :
    (∃ ks, intersect is js = .ok ks) ↔
      ∀ i ∈ is, ∀ j ∈ js, ¬ i.Clashes j ∧ ∀ f, ¬ i.StuckWith j f := by
  constructor
  · rintro ⟨ks, hks⟩ i hi j hj
    obtain ⟨all, hall, -⟩ := bind_eq_ok.mp hks
    exact (Interval.exists_intersect_iff (his i hi) (hjs j hj)).1.mp
      ((intersectAll_spec hall).1 i hi j hj)
  · intro hnone
    apply FailsOnly.exists_ok
    refine (failsOnly_intersect his hjs).imp ?_
    rintro f ⟨i, hi, j, hj, hclash | hstuck⟩
    · exact (hnone i hi j hj).1 hclash
    · exact (hnone i hi j hj).2 f hstuck

/-- The bounds of an intersection can be compared. -/
lemma comparable_of_intersect (his : is.Declarable) (hjs : js.Declarable)
    (h : intersect is js = .ok ks) : ks.Comparable := by
  intro k hk
  obtain ⟨i, hi, j, hj, hij⟩ := exists_of_mem_intersect h hk
  exact (Interval.exists_intersect_iff (his i hi) (hjs j hj)).2 k hij

end Range

end VersionConstraints
