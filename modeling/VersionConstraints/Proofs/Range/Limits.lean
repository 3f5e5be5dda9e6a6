import VersionConstraints.Proofs.Interval.Limits
import VersionConstraints.Proofs.Range.Normal
import VersionConstraints.Proofs.Range.Rereading
import VersionConstraints.Proofs.Sorting.Failure

/-!
# Limits of ranges

On ranges whose bounds can be compared, sorting and text do not fail. An intersection fails only as
that of two intervals does. Reading an expression whose versions can be compared fails exactly if
one of the alternatives of its canonical text is at a limit.
-/

namespace VersionConstraints

namespace Range

variable {is js ks : Range} {i : Interval} {v : Semver} {as : List Alternative} {f : Fault}

def Comparable (is : Range) : Prop :=
  ∀ i ∈ is, i.Comparable

lemma Normal.comparable (h : is.Normal) : is.Comparable :=
  fun i hi => (h i hi).1

/-! ### What does not fail -/

lemma exists_dropRepeated (hi : i.Comparable) (his : is.Comparable) :
    ∃ js, dropRepeated i is = .ok js := by
  induction is generalizing i with
  | nil => exact ⟨[], rfl⟩
  | cons j is ih =>
    obtain ⟨hj, his⟩ := List.forall_mem_cons.mp his
    obtain ⟨o, ho⟩ := hi.exists_compare hj
    rw [dropRepeated, ho, ok_bind]
    cases o with
    | eq => exact ih hi his
    | lt | gt =>
      obtain ⟨js, hjs⟩ := ih hj his
      rw [hjs]
      exact ⟨_, rfl⟩

/-- Making a range canonical does not fail. -/
lemma exists_canonical (his : is.Comparable) : ∃ js, canonical is = .ok js := by
  cases hsort : Sorting.sort Interval.isBefore is with
  | error f =>
    obtain ⟨i, hi, j, hj, he⟩ := Sorting.exists_of_sort_eq_error hsort
    obtain ⟨ok, hok⟩ := (his i hi).exists_isBefore (his j hj)
    rw [hok] at he
    cases he
  | ok ks =>
    have hks : Comparable ks := fun k hk => his k ((Sorting.perm_of_sort hsort).mem_iff.mp hk)
    rw [canonical, hsort, ok_bind]
    cases ks with
    | nil => exact ⟨[], rfl⟩
    | cons k ks =>
      obtain ⟨hk, hks⟩ := List.forall_mem_cons.mp hks
      obtain ⟨js, hjs⟩ := exists_dropRepeated hk hks
      dsimp only
      rw [hjs]
      exact ⟨_, rfl⟩

lemma exists_text (his : is.Comparable) : ∃ t, text is = .ok t := by
  have hmapM : ∃ ts, is.mapM Interval.text = .ok ts := by
    induction is with
    | nil => exact ⟨[], rfl⟩
    | cons i is ih =>
      obtain ⟨hi, his⟩ := List.forall_mem_cons.mp his
      obtain ⟨t, ht⟩ := hi.exists_text
      obtain ⟨ts, hts⟩ := ih his
      rw [List.mapM_cons, ht, hts]
      exact ⟨_, rfl⟩
  obtain ⟨ts, hts⟩ := hmapM
  rw [text, hts]
  exact ⟨_, rfl⟩

/-! ### Intersections -/

lemma failsOnly_intersectAll :
    FailsOnly (intersectAll is js) fun f => ∃ i ∈ is, ∃ j ∈ js, i.intersect j = .error f := by
  induction is with
  | nil => exact .ok
  | cons i is ih =>
    apply FailsOnly.bind
    · refine (Collects.failsOnly (F := intersectWith i) rfl (fun _ _ => rfl) js).imp ?_
      exact fun f hf => ⟨i, List.mem_cons_self, hf⟩
    · intro first _
      refine (ih.imp ?_).bind fun _ _ => .ok
      rintro f ⟨k, hk, hf⟩
      exact ⟨k, List.mem_cons_of_mem i hk, hf⟩

/-! ### Expressions -/

section Alternatives

variable (has : ∀ a ∈ as, ∀ c ∈ a, c.Comparable)

include has

/-- The fault of a fold is the one of an alternative that is at a limit. -/
theorem failsOnly_ofAlternatives :
    FailsOnly (ofAlternatives as) fun f => ∃ a ∈ as, a.Stuck f := by
  apply FailsOnly.bind
  · refine (Collects.failsOnly (F := intervals) rfl (fun _ _ => rfl) as).imp ?_
    rintro f ⟨a, ha, hf⟩
    exact ⟨a, ha, (Interval.ofAlternative_error_iff (has a ha)).mp hf⟩
  · intro all hall f hf
    obtain ⟨ks, hks⟩ := exists_canonical (normal_of_intervals has hall).comparable
    exact absurd (hks.symm.trans hf) nofun

/-- A fold returns if and only if no alternative is at a limit. -/
theorem exists_ofAlternatives_iff :
    (∃ is, ofAlternatives as = .ok is) ↔ ∀ a ∈ as, ∀ f, ¬ a.Stuck f := by
  constructor
  · rintro ⟨is, his⟩ a ha f hstuck
    obtain ⟨all, hall, -⟩ := bind_eq_ok.mp his
    obtain ⟨o, ho⟩ := (intervals_spec hall).ok a ha
    rw [(Interval.ofAlternative_error_iff (has a ha)).mpr hstuck] at ho
    cases ho
  · intro hnone
    apply FailsOnly.exists_ok
    refine (failsOnly_ofAlternatives has).imp ?_
    rintro f ⟨a, ha, hstuck⟩
    exact hnone a ha f hstuck

end Alternatives

/-- Whether a range expression is folded from some alternatives: those of its canonical text. -/
def FoldedFrom (g : Grammar) (cs : Text) (as : List Alternative) : Prop :=
  ∃ t, (Expression.withoutCommas? cs.trim).bind (Expression.canonicalText? g) = some t ∧
    Expression.alternatives g t = .ok as

variable {g : Grammar} {cs : Text}

lemma FoldedFrom.ofText_eq (h : FoldedFrom g cs as) :
    ofText g cs = do return some (← ofAlternatives as) := by
  obtain ⟨t, ht, has⟩ := h
  rw [ofText, ht]
  dsimp only
  rw [has, ok_bind]

/-- Reading a range fails only at the limit of an alternative. -/
lemma FoldedFrom.failsOnly (h : FoldedFrom g cs as) (has : ∀ a ∈ as, ∀ c ∈ a, c.Comparable) :
    FailsOnly (ofText g cs) fun f => ∃ a ∈ as, a.Stuck f := by
  rw [h.ofText_eq]
  exact (failsOnly_ofAlternatives has).bind fun _ _ => .ok

/-- Reading an expression returns if and only if no alternative of its canonical text is at a limit.
-/
theorem FoldedFrom.exists_ofText_iff (h : FoldedFrom g cs as)
    (has : ∀ a ∈ as, ∀ c ∈ a, c.Comparable) :
    (∃ o, ofText g cs = .ok o) ↔ ∀ a ∈ as, ∀ f, ¬ a.Stuck f := by
  rw [h.ofText_eq, ← exists_ofAlternatives_iff has]
  constructor
  · rintro ⟨o, ho⟩
    obtain ⟨is, his, -⟩ := bind_eq_ok.mp ho
    exact ⟨is, his⟩
  · rintro ⟨is, his⟩
    rw [his]
    exact ⟨_, rfl⟩

/-- Whether the canonical text of a range expression cannot be read, and with which fault. -/
def NotReread (g : Grammar) (cs : Text) (f : Fault) : Prop :=
  ∃ t, (Expression.withoutCommas? cs.trim).bind (Expression.canonicalText? g) = some t ∧
    Expression.alternatives g t = .error f

lemma NotReread.ofText_eq (h : NotReread g cs f) : ofText g cs = .error f := by
  obtain ⟨t, ht, hf⟩ := h
  rw [ofText, ht]
  dsimp only
  rw [hf, error_bind]

/-- A text is no range expression, or is folded from alternatives, unless its canonical text cannot
be read. -/
theorem ofText_cases (g : Grammar) (cs : Text) : ofText g cs = .ok none ∨
    (∃ f, NotReread g cs f ∧ ofText g cs = .error f) ∨ ∃ as, FoldedFrom g cs as := by
  cases ht : (Expression.withoutCommas? cs.trim).bind (Expression.canonicalText? g) with
  | none =>
    left
    rw [ofText, ht]
  | some t =>
    right
    cases has : Expression.alternatives g t with
    | ok as => exact .inr ⟨as, t, ht, has⟩
    | error f =>
      have hne : NotReread g cs f := ⟨t, ht, has⟩
      exact .inl ⟨f, hne, hne.ofText_eq⟩

/-- A text cannot be read where its canonical text cannot, or where the fold of its alternatives
fails. -/
lemma failsOnly_ofText (g : Grammar) (cs : Text) : FailsOnly (ofText g cs) fun f =>
    NotReread g cs f ∨ ∃ as, FoldedFrom g cs as ∧
      ((∃ a ∈ as, ∃ c ∈ a, ¬ c.Comparable) ∨ ∃ a ∈ as, a.Stuck f) := by
  obtain hnone | ⟨f, hf, herror⟩ | ⟨as, hfold⟩ := ofText_cases g cs
  · rw [hnone]
    exact .ok
  · rw [herror]
    exact .error (.inl hf)
  · by_cases has : ∀ a ∈ as, ∀ c ∈ a, c.Comparable
    · exact (hfold.failsOnly has).imp fun f hf => .inr ⟨as, hfold, .inr hf⟩
    · push Not at has
      exact fun f _ => .inr ⟨as, hfold, .inl has⟩

/-! ### Strict expressions -/

lemma not_notReread_strict {f : Fault} : ¬ NotReread .strict cs f := by
  rintro ⟨t, ht, hf⟩
  obtain ⟨u, -, hu⟩ := Option.bind_eq_some_iff.mp ht
  obtain ⟨as, -, hread⟩ := Expression.exists_reread_of_canonicalText? hu
  rw [hread] at hf
  cases hf

/-- The strict grammar reads only what can be compared. -/
lemma FoldedFrom.comparable (h : FoldedFrom .strict cs as) : ∀ a ∈ as, ∀ c ∈ a, c.Comparable := by
  obtain ⟨t, -, has⟩ := h
  exact Expression.comparable_of_alternatives has

/-- Where a text is read strictly, only an alternative at a limit can make that fail. -/
theorem failsOnly_ofText_strict (cs : Text) : FailsOnly (ofText .strict cs) fun f =>
    ∃ as, FoldedFrom .strict cs as ∧ ∃ a ∈ as, a.Stuck f := by
  refine (failsOnly_ofText .strict cs).imp ?_
  rintro f (hf | ⟨as, hfold, ⟨a, ha, c, hc, hne⟩ | hstuck⟩)
  · exact absurd hf not_notReread_strict
  · exact absurd (hfold.comparable a ha c hc) hne
  · exact ⟨as, hfold, hstuck⟩

/-- Reading a text strictly returns if and only if no alternative of its canonical text, if it has
one, is at a limit. -/
theorem exists_ofText_strict_iff (cs : Text) : (∃ o, ofText .strict cs = .ok o) ↔
    ∀ as, FoldedFrom .strict cs as → ∀ a ∈ as, ∀ f, ¬ a.Stuck f := by
  constructor
  · exact fun hread as hfold => (hfold.exists_ofText_iff hfold.comparable).mp hread
  · intro hnone
    apply FailsOnly.exists_ok
    refine (failsOnly_ofText_strict cs).imp ?_
    rintro f ⟨as, hfold, a, ha, hstuck⟩
    exact hnone as hfold a ha f hstuck

end Range

end VersionConstraints
