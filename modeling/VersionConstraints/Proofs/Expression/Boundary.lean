import VersionConstraints.Proofs.Expression.Pieces
import VersionConstraints.Proofs.Expression.Stops

/-!
# Spacing on both sides of a blank

A text that is not cut off in front of a version is closed up by itself, and what stands behind the
next blank as if it stood alone. A text is cut off where it ends in an operator, or in a bare lead
behind a blank. A lead at the end that is not bare becomes the lead of the version that follows,
which only matters when that version has an equals sign with a blank behind it: alone it would lose
the blank.
-/

namespace VersionConstraints

def isOperatorChar (c : Char) : Bool :=
  c == '<' || c == '>' || c == '=' || c == '~' || c == '^'

namespace Text

variable {c : Char} {s t x y : Text}

/-- A suffix that is not empty ends as the text does. -/
lemma getLast?_of_suffix (h : s <:+ t) (hs : s ≠ []) : t.getLast? = s.getLast? := by
  obtain ⟨u, rfl⟩ := h
  exact List.getLast?_append_of_ne_nil u hs

lemma forall_getLast?_of_suffix {p : Char → Prop} (h : ∀ c ∈ t.getLast?, p c) (hs : s <:+ t) :
    ∀ c ∈ s.getLast?, p c := by
  intro c hc
  rw [← getLast?_of_suffix hs (List.ne_nil_of_mem (List.mem_of_getLast? hc))] at hc
  exact h c hc

/-- Whether a text is not cut off in front of a version. -/
structure Finished (x : Text) : Prop where
  last : ∀ c ∈ x.getLast?, isBlank c = false ∧ isOperatorChar c = false
  lead : ∀ u, ' ' :: u <:+ x → u.all isLead = false

/-- Whether a lead is left at the end of a text, behind the versions that are found in it. -/
def leavesLead (cs : Text) : Bool :=
  match _h : Grammar.scanVersion? (dropBlank (behindOperator cs)) with
  | some rest => leavesLead rest
  | none      =>
    match cs with
    | []      => false
    | c :: cs => (dropBlank (behindOperator (c :: cs))).all isLead || leavesLead cs
termination_by cs.length
decreasing_by
  · have := Grammar.length_scanVersion? _h
    have := length_dropBlank_le (behindOperator cs)
    have := length_behindOperator_le cs
    omega
  · simp

/-- Whether the comparisons of two texts with a blank between them can be closed up apart from each
other. -/
structure Apart (x y : Text) : Prop extends Finished x where
  head : y.head? ≠ some ' '
  equals : leavesLead x = true → ¬ ['=', ' '] <+: y

lemma Finished.suffix (h : Finished x) (hs : s <:+ x) : Finished s :=
  ⟨forall_getLast?_of_suffix h.last hs, fun u hu => h.lead u (hu.trans hs)⟩

/-- Behind a version the search for a lead left over starts anew. -/
lemma leavesLead_of_some (h : Grammar.scanVersion? (dropBlank (behindOperator x)) = some s) :
    leavesLead x = leavesLead s := by
  rw [leavesLead]
  split
  · next rest h' =>
    cases h.symm.trans h'
    rfl
  · next h' => cases h.symm.trans h'

/-- Where no version follows, the rest may be nothing but a lead. -/
lemma leavesLead_of_none (h : Grammar.scanVersion? (dropBlank (behindOperator (c :: x))) = none) :
    leavesLead (c :: x) = ((dropBlank (behindOperator (c :: x))).all isLead || leavesLead x) := by
  rw [leavesLead]
  split
  · next h' => cases h.symm.trans h'
  · rfl

/-! ### Builds -/

lemma deleteBuildsFrom_append_blank (inside : Bool) (x y : Text) :
    deleteBuildsFrom inside (x ++ ' ' :: y) =
      deleteBuildsFrom inside x ++ ' ' :: deleteBuilds y := by
  induction x generalizing inside with
  | nil => simp [deleteBuildsFrom, deleteBuilds, isIdentifierChar]
  | cons c x ih =>
    have hhead : (x ++ ' ' :: y).head?.any isIdentifierChar = x.head?.any isIdentifierChar := by
      cases x with
      | nil => rfl
      | cons d x => rfl
    rw [List.cons_append, deleteBuildsFrom, deleteBuildsFrom, hhead]
    split
    · exact ih true
    · split
      · exact ih true
      · exact congrArg (c :: ·) (ih false)

/-- A build ends at a blank, so builds are deleted on both sides of it. -/
lemma deleteBuilds_append_blank (x y : Text) :
    deleteBuilds (x ++ ' ' :: y) = deleteBuilds x ++ ' ' :: deleteBuilds y :=
  deleteBuildsFrom_append_blank false x y

/-! ### Operators -/

lemma dropBlank_append_blank (hx : x ≠ []) (y : Text) :
    dropBlank (x ++ ' ' :: y) = dropBlank x ++ ' ' :: y := by
  obtain ⟨c, x, rfl⟩ := List.exists_cons_of_ne_nil hx
  by_cases hc : c = ' '
  · rw [hc]
    rfl
  · simp [dropBlank, hc]

/-- The operator in front of a text does not depend on what follows a blank. -/
lemma split_append_blank (x y : Text) :
    (Operator.split (x ++ ' ' :: y)).2 = (Operator.split x).2 ++ ' ' :: y := by
  have hequal {cs : Text} (h : ∀ t, cs = '=' :: t → False) (t : Text) :
      cs ++ ' ' :: y ≠ '=' :: t := by
    cases cs with
    | nil => exact nofun
    | cons d cs =>
      rintro ⟨⟩
      exact h cs rfl
  fun_cases Operator.split x with
  | case1 | case2 | case5 => rfl
  | case3 cs h =>
    rw [List.cons_append, Operator.split]
    exact hequal h
  | case4 cs h =>
    rw [List.cons_append, Operator.split]
    exact hequal h
  | case6 =>
    cases x with
    | nil => rfl
    | cons c x => simp_all [Operator.split]

/-- What stands behind the operator of a text is there with more behind a blank, too. -/
lemma behindOperator_append_blank (hx : x ≠ []) (y : Text) :
    behindOperator (x ++ ' ' :: y) = behindOperator x ++ ' ' :: y := by
  rw [behindOperator, dropBlank_append_blank hx, split_append_blank]
  rfl

lemma eq_or_mem_dropBlank (hc : c ∈ x) : c = ' ' ∨ c ∈ dropBlank x := by
  unfold dropBlank
  split
  · exact List.mem_cons.mp hc
  · exact .inr hc

/-- Only blanks and operator characters are left in front. -/
lemma mem_of_behindOperator (hc : c ∈ x) :
    c ∈ behindOperator x ∨ c = ' ' ∨ isOperatorChar c = true := by
  have hsplit {t : Text} (hc : c ∈ t) : c ∈ (Operator.split t).2 ∨ isOperatorChar c = true := by
    fun_cases Operator.split t <;> simp_all [isOperatorChar] <;> tauto
  rcases eq_or_mem_dropBlank hc with hblank | hc
  · exact .inr (.inl hblank)
  · exact (hsplit hc).imp_right .inr

/-- The place where a version is looked for is in the text itself. -/
lemma dropBlank_behindOperator_suffix (x : Text) : dropBlank (behindOperator x) <:+ x :=
  (dropBlank_suffix _).trans (behindOperator_suffix x)

/-- A text that is not left at an operator has something behind its own. -/
lemma Finished.behindOperator_ne_nil (h : Finished x) (hx : x ≠ []) : behindOperator x ≠ [] := by
  intro hnil
  obtain ⟨c, hc⟩ : ∃ c, x.getLast? = some c := ⟨_, List.getLast?_eq_some_getLast hx⟩
  obtain ⟨hblank, hoperator⟩ := h.last c hc
  rcases mem_of_behindOperator (List.mem_of_getLast? hc) with hmem | rfl | hoperator'
  · rw [hnil] at hmem
    cases hmem
  · cases hblank
  · rw [hoperator] at hoperator'
    cases hoperator'

lemma Finished.dropBlank_behindOperator_append (h : Finished x) (hx : x ≠ []) (y : Text) :
    dropBlank (behindOperator (x ++ ' ' :: y)) = dropBlank (behindOperator x) ++ ' ' :: y := by
  rw [behindOperator_append_blank hx, dropBlank_append_blank (h.behindOperator_ne_nil hx)]

lemma front_append_behindOperator (hs : s ++ behindOperator x = x) (hx : x ≠ []) (y : Text) :
    s ++ behindOperator (x ++ ' ' :: y) = x ++ ' ' :: y := by
  rw [behindOperator_append_blank hx, ← List.append_assoc, hs]

/-! ### Comparisons -/

lemma closeComparisons_nil : closeComparisons [] = [] := by
  rw [closeComparisons]
  split
  · next rest h => cases h
  · rfl

/-- Where no version follows, the character stays and the search goes on. -/
lemma closeComparisons_of_none
    (h : Grammar.scanVersion? (dropBlank (behindOperator (c :: x))) = none) :
    closeComparisons (c :: x) = c :: closeComparisons x := by
  rw [closeComparisons]
  split
  · next h' => cases h.symm.trans h'
  · rfl

/-- What stands in front of a version stays, but for the blank directly before it. -/
lemma closeComparisons_of_some (hs : s ++ behindOperator x = x)
    (ht : t ++ y = dropBlank (behindOperator x)) (h : Grammar.scanVersion? (t ++ y) = some y) :
    closeComparisons x = s ++ (t ++ closeComparisons y) := by
  have htake {b : Text} (hb : s ++ b = x) : x.take (x.length - b.length) = s := by
    rw [← hb]
    simp
  rw [closeComparisons]
  split
  · next rest h' =>
    rw [← ht, h] at h'
    cases h'
    dsimp only
    rw [htake hs, ← ht, List.length_append, Nat.add_sub_cancel, List.take_left, List.append_assoc]
  · next h' =>
    rw [← ht, h] at h'
    cases h'

/-- Without digits and wildcards there is no version to close up to. -/
lemma closeComparisons_of_chars (h : ∀ c ∈ x, c.isDigit = false ∧ isWildcard c = false) :
    closeComparisons x = x := by
  induction x with
  | nil => exact closeComparisons_nil
  | cons c x ih =>
    have hsuffix := dropBlank_behindOperator_suffix (c :: x)
    rw [closeComparisons_of_none, ih fun d hd => h d (List.mem_cons_of_mem c hd)]
    exact Grammar.scanVersion?_eq_none fun d hd => h d (hsuffix.subset hd)

/-- A blank that no other follows stays where it is. -/
lemma closeComparisons_cons_blank (hy : y.head? ≠ some ' ') :
    closeComparisons (' ' :: y) = ' ' :: closeComparisons y := by
  have hbehind : behindOperator (' ' :: y) = behindOperator y := by
    rw [behindOperator, behindOperator, dropBlank_of_head?_ne hy]
    rfl
  cases hscan : Grammar.scanVersion? (dropBlank (behindOperator y)) with
  | none => exact closeComparisons_of_none (hbehind ▸ hscan)
  | some rest =>
    obtain ⟨s, hs⟩ := behindOperator_suffix y
    obtain ⟨t, ht⟩ := Grammar.leavesEnd_scanVersion? _ rest hscan
    rw [← ht] at hscan
    have hblank : (' ' :: s) ++ behindOperator (' ' :: y) = ' ' :: y := by
      rw [hbehind, List.cons_append, hs]
    rw [closeComparisons_of_some hs ht hscan,
      closeComparisons_of_some hblank (hbehind ▸ ht) hscan]
    rfl

/-- A version at the beginning stays, with its lead, unless the lead is an equals sign with a blank
behind it. -/
lemma exists_of_scanVersion? (hblank : y.head? ≠ some ' ') (hequals : ¬ ['=', ' '] <+: y)
    (h : Grammar.scanVersion? y = some s) :
    ∃ t, t ++ s = y ∧ closeComparisons y = t ++ closeComparisons s := by
  obtain ⟨t, ht⟩ := Grammar.leavesEnd_scanVersion? y s h
  refine ⟨t, ht, ?_⟩
  have hbehind : behindOperator y = (Operator.split y).2 := by
    rw [behindOperator, dropBlank_of_head?_ne hblank]
  fun_cases Operator.split y with
  | case1 | case2 | case3 | case4 => cases h
  | case5 cs =>
    cases t with
    | nil =>
      have hlt := Grammar.length_scanVersion? h
      rw [← ht] at hlt
      exact absurd hlt (lt_irrefl _)
    | cons c t =>
      obtain ⟨rfl, rfl⟩ := List.cons.inj ht
      have hdrop : dropBlank (t ++ s) = t ++ s := by
        refine dropBlank_of_head?_ne fun hhead => hequals ?_
        obtain ⟨cs, hcs⟩ := List.head?_eq_some_iff.mp hhead
        exact ⟨cs, congrArg ('=' :: ·) hcs.symm⟩
      refine closeComparisons_of_some (s := ['=']) ?_ ?_ h
      · rw [hbehind]
        rfl
      · rw [hbehind]
        exact hdrop.symm
  | case6 =>
    have hself : behindOperator y = y := by
      rw [hbehind, Operator.split] <;> assumption
    have hdrop : dropBlank (behindOperator y) = y := by
      rw [hself, dropBlank_of_head?_ne hblank]
    rw [← ht] at h
    exact closeComparisons_of_some (s := []) hself (ht.trans hdrop.symm) h

lemma isDigit_isWildcard_of_isLead (h : isLead c = true) :
    c.isDigit = false ∧ isWildcard c = false := by
  constructor
  · rw [← Bool.not_eq_true]
    intro hdigit
    rw [not_isLead_of_isDigit hdigit] at h
    cases h
  · rw [← Bool.not_eq_true]
    intro hwildcard
    simp only [isWildcard, Bool.or_eq_true, beq_iff_eq] at hwildcard
    rcases hwildcard with (rfl | rfl) | rfl <;> cases h

lemma isDigit_isWildcard_of_isOperatorChar (h : isOperatorChar c = true) :
    c.isDigit = false ∧ isWildcard c = false := by
  simp only [isOperatorChar, Bool.or_eq_true, beq_iff_eq] at h
  rcases h with (((rfl | rfl) | rfl) | rfl) | rfl <;> decide

/-- A text that is only a lead, but perhaps for an operator before it, has nothing to close up. -/
lemma closeComparisons_of_lead (hlead : (dropBlank (behindOperator x)).all isLead = true) :
    closeComparisons x = x := by
  refine closeComparisons_of_chars fun c hc => ?_
  rcases mem_of_behindOperator hc with hc | rfl | hc
  · rcases eq_or_mem_dropBlank hc with rfl | hc
    · decide
    · exact isDigit_isWildcard_of_isLead (List.all_eq_true.mp hlead c hc)
  · decide
  · exact isDigit_isWildcard_of_isOperatorChar hc

/-- Where only a lead is left of a text, with or without an operator before it, the version that may
follow behind the blank is found with that lead, and all stays as it is. -/
lemma closeComparisons_lead_append_blank (h : Finished x) (hne : x ≠ [])
    (hlead : (dropBlank (behindOperator x)).all isLead = true)
    (hscan : Grammar.scanVersion? (t ++ s) = some s) :
    closeComparisons (x ++ ' ' :: (t ++ s)) = x ++ ' ' :: (t ++ closeComparisons s) := by
  have hsuffix := behindOperator_suffix x
  have hdrop : dropBlank (behindOperator x) = behindOperator x := by
    refine dropBlank_of_head?_ne fun hhead => ?_
    obtain ⟨u, hu⟩ := List.head?_eq_some_iff.mp hhead
    have hnot := h.lead u (hu ▸ hsuffix)
    rw [hu] at hlead
    exact absurd (hnot.symm.trans hlead) Bool.false_ne_true
  rw [hdrop] at hlead
  obtain ⟨p, hp⟩ := hsuffix
  have hversion : (behindOperator x ++ ' ' :: t) ++ s =
      dropBlank (behindOperator (x ++ ' ' :: (t ++ s))) := by
    rw [h.dropBlank_behindOperator_append hne, hdrop, List.append_assoc, List.cons_append]
  have hfound : Grammar.scanVersion? ((behindOperator x ++ ' ' :: t) ++ s) = some s := by
    rw [List.append_assoc, List.cons_append, Grammar.scanVersion?_lead_append_blank hlead, hscan]
  rw [closeComparisons_of_some (front_append_behindOperator hp hne (t ++ s)) hversion hfound,
    List.append_assoc, List.cons_append, ← List.append_assoc p, hp]

/-- Where a version follows there is more than a lead. -/
lemma all_isLead_eq_false_of_scanVersion? (h : Grammar.scanVersion? x = some s) :
    x.all isLead = false := by
  rw [← Bool.not_eq_true]
  intro hlead
  rw [Grammar.scanVersion?_eq_none fun c hc =>
    isDigit_isWildcard_of_isLead (List.all_eq_true.mp hlead c hc)] at h
  cases h

/-- Blanks in front do not hide a version. -/
lemma scanVersion?_blanks_append (n : Nat) (y : Text) :
    Grammar.scanVersion? (List.replicate n ' ' ++ y) = Grammar.scanVersion? y := by
  induction n with
  | zero => rfl
  | succ n ih =>
    have hblank := Grammar.scanVersion?_lead_append_blank (x := []) rfl (List.replicate n ' ' ++ y)
    exact hblank.trans ih

/-- Of the blanks in front of a text at most the second one is dropped, if a version follows. -/
lemma exists_closeComparisons_blanks (hy : y.head? ≠ some ' ') {n : Nat}
    (hequals : n = 0 ∨ ¬ ['=', ' '] <+: y) :
    ∃ m, closeComparisons (' ' :: (List.replicate n ' ' ++ y)) =
      ' ' :: (List.replicate m ' ' ++ closeComparisons y) := by
  induction n with
  | zero => exact ⟨0, closeComparisons_cons_blank hy⟩
  | succ n ih =>
    have hnot := hequals.resolve_left (Nat.succ_ne_zero n)
    have hbehind : behindOperator (' ' :: ' ' :: (List.replicate n ' ' ++ y)) =
        ' ' :: (List.replicate n ' ' ++ y) := rfl
    have hdrop : dropBlank (behindOperator (' ' :: ' ' :: (List.replicate n ' ' ++ y))) =
        List.replicate n ' ' ++ y := rfl
    rw [List.replicate_succ, List.cons_append]
    cases hscan : Grammar.scanVersion? y with
    | none =>
      obtain ⟨m, hm⟩ := ih (.inr hnot)
      refine ⟨m + 1, ?_⟩
      rw [closeComparisons_of_none, hm]
      · rfl
      · rw [hdrop, scanVersion?_blanks_append, hscan]
    | some s =>
      obtain ⟨t, ht, hclose⟩ := exists_of_scanVersion? hy hnot hscan
      have hfront : [' '] ++ behindOperator (' ' :: ' ' :: (List.replicate n ' ' ++ y)) =
          ' ' :: ' ' :: (List.replicate n ' ' ++ y) := by rw [hbehind, List.singleton_append]
      have hversion : (List.replicate n ' ' ++ t) ++ s =
          dropBlank (behindOperator (' ' :: ' ' :: (List.replicate n ' ' ++ y))) := by
        rw [hdrop, List.append_assoc, ht]
      have hfound : Grammar.scanVersion? ((List.replicate n ' ' ++ t) ++ s) = some s := by
        rw [List.append_assoc, ht, scanVersion?_blanks_append, hscan]
      refine ⟨n, ?_⟩
      rw [closeComparisons_of_some hfront hversion hfound, hclose, List.singleton_append,
        List.append_assoc]

/-- A version in a finished text is closed up alike with more behind a blank. -/
lemma exists_closeComparisons_of_some (h : Finished x)
    (hscan : Grammar.scanVersion? (dropBlank (behindOperator x)) = some s) :
    s <:+ x ∧ ∃ u, closeComparisons x = u ++ closeComparisons s ∧
      ∀ z, closeComparisons (x ++ ' ' :: z) = u ++ closeComparisons (s ++ ' ' :: z) := by
  have hne : x ≠ [] := by
    rintro rfl
    cases hscan
  obtain ⟨p, hp⟩ := behindOperator_suffix x
  obtain ⟨t, ht⟩ := Grammar.leavesEnd_scanVersion? _ s hscan
  have hlead := all_isLead_eq_false_of_scanVersion? hscan
  refine ⟨(List.suffix_append t s).trans (ht ▸ dropBlank_behindOperator_suffix x), p ++ t, ?_,
    fun z => ?_⟩
  · rw [← ht] at hscan
    rw [closeComparisons_of_some hp ht hscan, List.append_assoc]
  · have hversion : t ++ (s ++ ' ' :: z) = dropBlank (behindOperator (x ++ ' ' :: z)) := by
      rw [h.dropBlank_behindOperator_append hne, ← ht, List.append_assoc]
    have hfound : Grammar.scanVersion? (t ++ (s ++ ' ' :: z)) = some (s ++ ' ' :: z) := by
      rw [← List.append_assoc, ht, Grammar.scanVersion?_append_blank hlead, hscan, Option.map_some]
    rw [closeComparisons_of_some (front_append_behindOperator hp hne z) hversion hfound,
      List.append_assoc]

/-- Comparisons on both sides of blanks are closed up apart. -/
theorem exists_closeComparisons_append_blanks (h : Apart x y) {n : Nat}
    (hn : n = 0 ∨ ¬ ['=', ' '] <+: y) :
    ∃ m, closeComparisons (x ++ ' ' :: (List.replicate n ' ' ++ y)) =
      closeComparisons x ++ ' ' :: (List.replicate m ' ' ++ closeComparisons y) := by
  induction x using closeComparisons.induct with
  | case1 x rest hscan ih =>
    obtain ⟨hrest, u, hclose, happend⟩ := exists_closeComparisons_of_some h.toFinished hscan
    have hapart : Apart rest y :=
      ⟨h.toFinished.suffix hrest, h.head, leavesLead_of_some hscan ▸ h.equals⟩
    obtain ⟨m, hm⟩ := ih hapart
    exact ⟨m, by rw [happend, hm, hclose, List.append_assoc]⟩
  | case2 hscan =>
    rw [closeComparisons_nil]
    exact exists_closeComparisons_blanks h.head hn
  | case3 c x hscan ih =>
    have hne : c :: x ≠ [] := List.cons_ne_nil c x
    have hversion := h.dropBlank_behindOperator_append hne (List.replicate n ' ' ++ y)
    have hequals := h.equals
    rw [leavesLead_of_none hscan, Bool.or_eq_true] at hequals
    have hapart : Apart x y :=
      ⟨h.toFinished.suffix (List.suffix_cons c x), h.head, fun hx => hequals (.inr hx)⟩
    have hgo (hnone : Grammar.scanVersion?
          (dropBlank (behindOperator (c :: x ++ ' ' :: (List.replicate n ' ' ++ y)))) = none) :
        ∃ m, closeComparisons (c :: x ++ ' ' :: (List.replicate n ' ' ++ y)) =
          closeComparisons (c :: x) ++ ' ' :: (List.replicate m ' ' ++ closeComparisons y) := by
      obtain ⟨m, hm⟩ := ih hapart
      refine ⟨m, ?_⟩
      rw [List.cons_append] at hnone ⊢
      rw [closeComparisons_of_none hnone, hm, closeComparisons_of_none hscan, List.cons_append]
    cases hlead : (dropBlank (behindOperator (c :: x))).all isLead with
    | false =>
      refine hgo ?_
      rw [hversion, Grammar.scanVersion?_append_blank hlead, hscan, Option.map_none]
    | true =>
      cases hy : Grammar.scanVersion? y with
      | none =>
        refine hgo ?_
        rw [hversion, Grammar.scanVersion?_lead_append_blank hlead, scanVersion?_blanks_append, hy]
      | some s =>
        obtain ⟨t, rfl, hclose⟩ := exists_of_scanVersion? h.head (hequals (.inl hlead)) hy
        have hfound : Grammar.scanVersion? ((List.replicate n ' ' ++ t) ++ s) = some s := by
          rw [List.append_assoc, scanVersion?_blanks_append, hy]
        have hlast := closeComparisons_lead_append_blank h.toFinished hne hlead hfound
        refine ⟨n, ?_⟩
        rw [closeComparisons_of_lead hlead, hclose, ← List.append_assoc, ← List.append_assoc]
        exact hlast

/-! ### Tildes and carets -/

/-- Closing up comparisons leaves the last character. -/
lemma getLast?_closeComparisons (x : Text) : (closeComparisons x).getLast? = x.getLast? := by
  induction x using closeComparisons.induct with
  | case1 x rest hscan ih =>
    obtain ⟨s, hs⟩ := behindOperator_suffix x
    obtain ⟨t, ht⟩ := Grammar.leavesEnd_scanVersion? _ rest hscan
    have hsuffix : t ++ rest <:+ x := ht ▸ dropBlank_behindOperator_suffix x
    rw [← ht] at hscan
    have hne : t ++ rest ≠ [] := by
      intro hnil
      rw [hnil] at hscan
      cases hscan
    obtain ⟨c, hc⟩ : ∃ c, (t ++ rest).getLast? = some c := ⟨_, List.getLast?_eq_some_getLast hne⟩
    rw [getLast?_of_suffix hsuffix hne, closeComparisons_of_some hs ht hscan, List.getLast?_append,
      List.getLast?_append, ih, ← List.getLast?_append, hc, Option.some_or]
  | case2 hscan => rw [closeComparisons_nil]
  | case3 c x hscan ih =>
    rw [closeComparisons_of_none hscan, List.getLast?_cons, List.getLast?_cons, ih]

/-- Tildes are closed up on both sides of a blank if none stands at its left. -/
lemma closeTildes_append_blank (h : ∀ c ∈ x.getLast?, isOperatorChar c = false) (y : Text) :
    closeTildes (x ++ ' ' :: y) = closeTildes x ++ ' ' :: closeTildes y := by
  fun_induction closeTildes x with
  | case1 x ih =>
    have hsuffix : x <:+ '~' :: '>' :: ' ' :: x := ⟨['~', '>', ' '], rfl⟩
    exact congrArg ('~' :: ·) (ih (forall_getLast?_of_suffix h hsuffix))
  | case2 x ih =>
    have hsuffix : x <:+ '~' :: ' ' :: x := ⟨['~', ' '], rfl⟩
    exact congrArg ('~' :: ·) (ih (forall_getLast?_of_suffix h hsuffix))
  | case3 c x h₁ h₂ ih =>
    rw [List.cons_append, closeTildes, ih (forall_getLast?_of_suffix h (List.suffix_cons c x)),
      List.cons_append]
    · rintro cs rfl heq
      rcases List.append_eq_cons_iff.mp heq with ⟨-, hrest⟩ | ⟨x, rfl, hrest⟩
      · cases hrest
      · rcases List.append_eq_cons_iff.mp hrest.symm with ⟨rfl, -⟩ | ⟨x, rfl, -⟩
        · cases h '>' rfl
        · exact h₁ x rfl rfl
    · rintro cs rfl heq
      rcases List.append_eq_cons_iff.mp heq with ⟨rfl, -⟩ | ⟨x, rfl, -⟩
      · cases h '~' rfl
      · exact h₂ x rfl rfl
  | case4 => rfl

lemma closeTildes_blanks_append (n : Nat) (y : Text) :
    closeTildes (List.replicate n ' ' ++ y) = List.replicate n ' ' ++ closeTildes y := by
  induction n with
  | zero => rfl
  | succ n ih => exact congrArg (' ' :: ·) ih

/-- Closing up tildes leaves the last character if that is no blank. -/
lemma getLast?_closeTildes (h : x.getLast? ≠ some ' ') :
    (closeTildes x).getLast? = x.getLast? := by
  fun_induction closeTildes x with
  | case1 x ih | case2 x ih =>
    cases hx : x.getLast? with
    | none => simp [List.getLast?_cons, hx] at h
    | some c =>
      have hne : x.getLast? ≠ some ' ' := by simpa [List.getLast?_cons, hx] using h
      simp [List.getLast?_cons, ih hne, hx]
  | case3 c x h₁ h₂ ih =>
    have hne : x.getLast? ≠ some ' ' := fun hx => h (by simp [List.getLast?_cons, hx])
    rw [List.getLast?_cons, List.getLast?_cons, ih hne]
  | case4 => rfl

/-- Carets are closed up on both sides of a blank if none stands at its left. -/
lemma closeCarets_append_blank (h : ∀ c ∈ x.getLast?, isOperatorChar c = false) (y : Text) :
    closeCarets (x ++ ' ' :: y) = closeCarets x ++ ' ' :: closeCarets y := by
  fun_induction closeCarets x with
  | case1 x ih =>
    have hsuffix : x <:+ '^' :: ' ' :: x := ⟨['^', ' '], rfl⟩
    exact congrArg ('^' :: ·) (ih (forall_getLast?_of_suffix h hsuffix))
  | case2 c x h₁ ih =>
    rw [List.cons_append, closeCarets, ih (forall_getLast?_of_suffix h (List.suffix_cons c x)),
      List.cons_append]
    rintro cs rfl heq
    rcases List.append_eq_cons_iff.mp heq with ⟨rfl, -⟩ | ⟨x, rfl, -⟩
    · cases h '^' rfl
    · exact h₁ x rfl rfl
  | case3 => rfl

lemma closeCarets_blanks_append (n : Nat) (y : Text) :
    closeCarets (List.replicate n ' ' ++ y) = List.replicate n ' ' ++ closeCarets y := by
  induction n with
  | zero => rfl
  | succ n ih => exact congrArg (' ' :: ·) ih

/-- Operators on both sides of blanks are closed up apart. -/
theorem exists_closeOperators_append_blanks (h : Apart x y) {n : Nat}
    (hn : n = 0 ∨ ¬ ['=', ' '] <+: y) :
    ∃ m, closeOperators (x ++ ' ' :: (List.replicate n ' ' ++ y)) =
      closeOperators x ++ ' ' :: (List.replicate m ' ' ++ closeOperators y) := by
  have hlast : ∀ c ∈ (closeComparisons x).getLast?, isOperatorChar c = false := by
    rw [getLast?_closeComparisons]
    exact fun c hc => (h.last c hc).2
  have hlast' : ∀ c ∈ (closeTildes (closeComparisons x)).getLast?, isOperatorChar c = false := by
    rw [getLast?_closeTildes]
    · exact hlast
    · rw [getLast?_closeComparisons]
      intro hc
      cases (h.last ' ' hc).1
  obtain ⟨m, hm⟩ := exists_closeComparisons_append_blanks h hn
  refine ⟨m, ?_⟩
  rw [closeOperators, hm, closeTildes_append_blank hlast, closeTildes_blanks_append,
    closeCarets_append_blank hlast', closeCarets_blanks_append]
  rfl

end Text

end VersionConstraints
