import Mathlib.Data.List.Chain
import VersionConstraints.Expression.Comparators
import VersionConstraints.Proofs.Expression.Scan
import VersionConstraints.Proofs.Semver.WellFormed

/-!
# Texts that spacing leaves alone

In the canonical text of an alternative each blank stands between two comparators: behind the last
character of a version, and before an operator or a digit. There is no build to delete in it, no
hyphen between blanks, and no blank behind an operator.
-/

namespace VersionConstraints

def isWritten (c : Char) : Bool := isPlain c || c == '<' || c == '>' || c == '='

lemma isWritten_of_isPlain {c : Char} (h : isPlain c = true) : isWritten c = true := by
  simp [isWritten, h]

lemma not_isBlank_of_isWritten {c : Char} (h : isWritten c = true) : isBlank c = false := by
  simp only [isWritten, Bool.or_eq_true, beq_iff_eq] at h
  rcases h with ((h | rfl) | rfl) | rfl
  · exact not_isBlank_of_isPlain h
  all_goals decide

/-- A blank stands behind a plain character only, and no hyphen stands behind a blank. -/
def Neighbours (c d : Char) : Prop :=
  (d = ' ' → isPlain c = true) ∧ (c = ' ' → d ≠ '-')

/-- A text like the canonical text of an alternative, as far as spacing looks at it. -/
structure Written (cs : Text) : Prop where
  chars : ∀ c ∈ cs, isWritten c = true ∨ c = ' '
  neighbours : cs.IsChain Neighbours

namespace Text

variable {c : Char} {cs s t : Text}

/-! ### Builds -/

/-- In front of the first plus there is no build to delete. -/
lemma deleteBuildsFrom_append (h : '+' ∉ s) (t : Text) :
    deleteBuildsFrom false (s ++ t) = s ++ deleteBuildsFrom false t := by
  induction s with
  | nil => rfl
  | cons c s ih =>
    obtain ⟨hc, hs⟩ := not_or.mp (mt List.mem_cons.mpr h)
    have hplus : (c == '+') = false := beq_eq_false_iff_ne.mpr (Ne.symm hc)
    rw [List.cons_append, deleteBuildsFrom]
    simp only [hplus, Bool.false_and, Bool.false_eq_true, if_false, ih hs, List.cons_append]

/-- Without a plus there is no build to delete. -/
lemma deleteBuilds_eq (h : '+' ∉ cs) : deleteBuilds cs = cs := by
  have hdelete := deleteBuildsFrom_append h []
  rwa [List.append_nil, deleteBuildsFrom, List.append_nil] at hdelete

/-! ### Operators -/

lemma split_suffix (cs : Text) : (Operator.split cs).2 <:+ cs := by
  unfold Operator.split
  split
  · exact (List.suffix_cons _ _).trans (List.suffix_cons _ _)
  · exact (List.suffix_cons _ _).trans (List.suffix_cons _ _)
  · exact List.suffix_cons _ _
  · exact List.suffix_cons _ _
  · exact List.suffix_cons _ _
  · exact List.suffix_rfl

lemma dropBlank_suffix (cs : Text) : dropBlank cs <:+ cs := by
  unfold dropBlank
  split
  · exact List.suffix_cons _ _
  · exact List.suffix_rfl

lemma behindOperator_suffix (cs : Text) : behindOperator cs <:+ cs :=
  (split_suffix _).trans (dropBlank_suffix cs)

/-- Only a plain character has a blank behind it. -/
lemma head?_ne_blank (h : (c :: cs).IsChain Neighbours) (hc : isPlain c = false) :
    cs.head? ≠ some ' ' := by
  cases cs with
  | nil => exact nofun
  | cons d cs =>
    rintro ⟨⟩
    have hplain := (List.isChain_cons_cons.mp h).1.1 rfl
    rw [hc] at hplain
    cases hplain

/-- No blank follows the operator of a text whose neighbours are as written. -/
lemma head?_split_ne_blank (h : cs.IsChain Neighbours) (hcs : cs.head? ≠ some ' ') :
    (Operator.split cs).2.head? ≠ some ' ' := by
  unfold Operator.split
  split
  · exact head?_ne_blank h.tail (by decide)
  · exact head?_ne_blank h.tail (by decide)
  · exact head?_ne_blank h (by decide)
  · exact head?_ne_blank h (by decide)
  · exact head?_ne_blank h (by decide)
  · exact hcs

lemma dropBlank_of_head?_ne (h : cs.head? ≠ some ' ') : dropBlank cs = cs := by
  unfold dropBlank
  split
  · exact absurd rfl h
  · rfl

/-- There is no blank to drop behind an operator. -/
lemma dropBlank_behindOperator (h : cs.IsChain Neighbours) :
    dropBlank (behindOperator cs) = behindOperator cs := by
  refine dropBlank_of_head?_ne (head?_split_ne_blank (h.suffix (dropBlank_suffix cs)) ?_)
  unfold dropBlank
  split
  · exact head?_ne_blank h (by decide)
  · next hne =>
    cases cs with
    | nil => exact nofun
    | cons d cs =>
      rintro ⟨⟩
      exact hne cs rfl

/-- A text is what stands in front of a suffix and the suffix. -/
lemma take_append_of_suffix (h : s <:+ t) : t.take (t.length - s.length) ++ s = t := by
  obtain ⟨u, rfl⟩ := h
  simp

/-- Comparisons are closed up already. -/
lemma closeComparisons_eq (h : cs.IsChain Neighbours) : closeComparisons cs = cs := by
  fun_induction closeComparisons cs with
  | case1 cs rest hscan operator version ih =>
    have hversion : version = behindOperator cs := dropBlank_behindOperator h
    have hrest : rest <:+ version := Grammar.leavesEnd_scanVersion? _ rest hscan
    rw [ih (h.suffix (hrest.trans (hversion ▸ behindOperator_suffix cs))), List.append_assoc,
      take_append_of_suffix hrest, hversion]
    exact take_append_of_suffix (behindOperator_suffix cs)
  | case2 => rfl
  | case3 c cs hscan ih => rw [ih h.tail]

lemma closeTildes_eq (h : '~' ∉ cs) : closeTildes cs = cs := by
  fun_induction closeTildes cs with
  | case1 | case2 => exact absurd List.mem_cons_self h
  | case3 c cs _ _ ih => rw [ih (mt (List.mem_cons_of_mem c) h)]
  | case4 => rfl

lemma closeCarets_eq (h : '^' ∉ cs) : closeCarets cs = cs := by
  fun_induction closeCarets cs with
  | case1 => exact absurd List.mem_cons_self h
  | case2 c cs _ ih => rw [ih (mt (List.mem_cons_of_mem c) h)]
  | case3 => rfl

end Text

namespace Expression

variable {cs : Text}

/-- No hyphen stands between blanks. -/
lemma splitHyphen?_eq_none (h : cs.IsChain Neighbours) : splitHyphen? cs = none := by
  fun_induction splitHyphen? cs with
  | case1 => rfl
  | case2 => exact absurd rfl ((List.isChain_cons_cons.mp h).1.2 rfl)
  | case3 c cs _ ih => rw [ih h.tail, Option.map_none]

lemma deleteStar_eq (h : '*' ∉ cs) : deleteStar cs = cs := by
  induction cs with
  | nil => rfl
  | cons c cs ih =>
    have hstar : starAtFront? (c :: cs) = none := by
      rw [starAtFront?]
      split
      · next rest heq =>
        exact absurd ((Text.split_suffix _).subset (heq ▸ List.mem_cons_self)) h
      · rfl
    rw [deleteStar, hstar, Option.getD_none, ih (mt (List.mem_cons_of_mem c) h)]

end Expression

namespace Written

variable {cs : Text} {c : Char}

lemma not_mem (h : Written cs) (hc : isWritten c = false) (hblank : c ≠ ' ') : c ∉ cs := by
  intro hmem
  rcases h.chars c hmem with hwritten | heq
  · rw [hc] at hwritten
    cases hwritten
  · exact hblank heq

lemma deleteBuilds_eq (h : Written cs) : cs.deleteBuilds = cs :=
  Text.deleteBuilds_eq (h.not_mem (by decide) (by decide))

/-- A written text is no hyphen range. -/
lemma hyphen?_eq_none (h : Written cs) (g : Grammar) : Expression.hyphen? g cs = none := by
  rw [Expression.hyphen?, Expression.splitHyphen?_eq_none h.neighbours]
  rfl

/-- All operators of a written text are closed up already. -/
lemma closeOperators_eq (h : Written cs) : cs.closeOperators = cs := by
  rw [Text.closeOperators, Text.closeComparisons_eq h.neighbours,
    Text.closeTildes_eq (h.not_mem (by decide) (by decide)),
    Text.closeCarets_eq (h.not_mem (by decide) (by decide))]

/-- Each piece between the blanks of such a text is expanded as it is. -/
lemma writtenOut_eq (h : Written cs) (g : Grammar) :
    Expression.writtenOut g cs =
      [' '].intercalate ((cs.splitOn ' ').map (Expression.expand g)) := by
  rw [Expression.writtenOut, h.deleteBuilds_eq, h.hyphen?_eq_none, Option.getD_none,
    h.closeOperators_eq]

end Written

end VersionConstraints
