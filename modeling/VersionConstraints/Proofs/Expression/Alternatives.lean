import VersionConstraints.Expression.Alternatives
import VersionConstraints.Proofs.Outcome
import VersionConstraints.Proofs.Text.Words

/-!
# The comparators of an expression are read

Each comparator of the alternatives of an expression was read with the grammar of the expression:
dropping what is superfluous makes no new comparators. An expression without bars is one alternative.
-/

namespace VersionConstraints

/-! ### Reading lists -/

/-- What stands in the list of results was made from a member of the list. -/
lemma exists_of_mem_mapM {ε α β : Type} {f : α → Except ε β} {as : List α} {bs : List β}
    (h : as.mapM f = .ok bs) : ∀ b ∈ bs, ∃ a ∈ as, f a = .ok b := by
  induction as generalizing bs with
  | nil =>
    cases h
    exact nofun
  | cons a as ih =>
    rw [List.mapM_cons] at h
    obtain ⟨b, hb, h⟩ := bind_eq_ok.mp h
    obtain ⟨bs', hbs, h⟩ := bind_eq_ok.mp h
    cases h
    refine List.forall_mem_cons.mpr ⟨⟨a, List.mem_cons_self, hb⟩, ?_⟩
    intro b' hb'
    obtain ⟨a', ha', heq⟩ := ih hbs b' hb'
    exact ⟨a', List.mem_cons_of_mem a ha', heq⟩

/-! ### Comparators -/

namespace Comparator

/-- Whether the version of a comparator was read with a grammar. -/
def ReadWith (g : Grammar) (c : Comparator) : Prop :=
  ∀ o v, c = .bounded o v → ∃ t, Semver.ofText g t = .ok v

/-- A comparator that was read is one that can be. -/
lemma readWith_of_ofText {g : Grammar} {cs : Text} {c : Comparator} (h : ofText g cs = .ok c) :
    c.ReadWith g := by
  rintro o v rfl
  simp only [ofText] at h
  split at h
  · cases h
  · split at h
    · obtain ⟨w, hw, h⟩ := bind_eq_ok.mp h
      cases h
      exact ⟨_, hw⟩
    · cases h

/-- Dropping repeated comparators adds none. -/
lemma distinct_subset (cs : List Comparator) : distinct cs ⊆ cs := by
  induction cs with
  | nil => exact List.Subset.refl _
  | cons c cs ih =>
    refine List.cons_subset_cons c fun d hd => ih ?_
    exact (List.mem_filter.mp hd).1

end Comparator

/-- Simplifying an alternative adds no comparator. -/
lemma Alternative.simplify_subset (cs : List Comparator) : simplify cs ⊆ cs := by
  rw [simplify]
  split
  · next c hc => exact List.cons_subset.mpr ⟨List.mem_of_find?_eq_some hc, List.nil_subset _⟩
  · dsimp only
    split
    · exact fun d hd => Comparator.distinct_subset cs (List.mem_filter.mp hd).1
    · exact Comparator.distinct_subset cs

namespace Expression

/-- Simplifying a list of alternatives adds none. -/
lemma simplify_subset (as : List Alternative) : simplify as ⊆ as := by
  have hfilter : as.filter (!·.isNull) ⊆ as := fun a ha => (List.mem_filter.mp ha).1
  simp only [simplify]
  split
  · exact List.Subset.refl _
  · split
    · exact List.take_subset 1 as
    · next a ha => exact ha ▸ hfilter
    · next kept _ _ =>
      cases hfind : (as.filter (!·.isNull)).find? Alternative.isUnrestricted with
      | none => exact hfilter
      | some a =>
        have hmem := hfilter (List.mem_of_find?_eq_some hfind)
        exact List.cons_subset.mpr ⟨hmem, List.nil_subset _⟩

/-- Each comparator of an alternative that was read was read itself. -/
lemma readWith_of_alternative {g : Grammar} {cs : Text} {a : Alternative}
    (h : alternative g cs = .ok a) : ∀ c ∈ a, c.ReadWith g := by
  obtain ⟨all, hall, h⟩ := bind_eq_ok.mp h
  cases h
  intro c hc
  obtain ⟨t, -, ht⟩ := exists_of_mem_mapM hall c (Alternative.simplify_subset all hc)
  exact Comparator.readWith_of_ofText ht

/-- The comparators of an expression are read with its grammar. -/
theorem readWith_of_alternatives {g : Grammar} {cs : Text} {as : List Alternative}
    (h : alternatives g cs = .ok as) : ∀ a ∈ as, ∀ c ∈ a, c.ReadWith g := by
  obtain ⟨all, hall, h⟩ := bind_eq_ok.mp h
  dsimp only at h
  split at h
  · cases h
  · cases h
    intro a ha
    have hmem := (List.mem_filter.mp (simplify_subset _ ha)).1
    obtain ⟨part, -, hpart⟩ := exists_of_mem_mapM hall a hmem
    exact readWith_of_alternative hpart

/-! ### Expressions without bars -/

variable {cs : Text}

/-- A text without bars is joined as the one part that it is. -/
lemma withoutCommas?_of_not_mem (hbar : '|' ∉ cs) : withoutCommas? cs = joinOperands? cs := by
  rw [withoutCommas?, Text.splitBars_of_not_mem hbar, List.mapM_cons, List.mapM_nil]
  cases joinOperands? cs with
  | none => rfl
  | some t => exact congrArg some List.intercalate_singleton

/-- Without commas there is nothing to join. -/
lemma joinOperands?_of_not_mem (hcomma : ',' ∉ cs) : joinOperands? cs = some cs.trim := by
  rw [joinOperands?, List.splitOn_eq_singleton hcomma, List.map_singleton,
    if_neg fun hlen => absurd hlen.1 (Nat.lt_irrefl 1), List.intercalate_singleton]

/-- A text without bars has one alternative, which must not be empty. -/
lemma alternatives_of_not_mem (g : Grammar) (hbar : '|' ∉ cs) : alternatives g cs = do
    let a ← alternative g cs.normalize
    if a.isEmpty then .error (.notRange cs.normalize) else return [a] := by
  rw [alternatives, Text.splitBars_of_not_mem (Text.not_mem_normalize hbar (by decide)),
    List.mapM_cons, List.mapM_nil, Text.trim_normalize]
  cases alternative g cs.normalize with
  | error f => rfl
  | ok a => cases a <;> rfl

end Expression

end VersionConstraints
