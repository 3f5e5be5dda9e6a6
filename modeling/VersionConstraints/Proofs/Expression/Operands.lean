import VersionConstraints.Proofs.Expression.Boundary
import VersionConstraints.Proofs.Expression.Restrictions

/-!
# Complete operands

Operands that are joined by blanks are read as if each stood alone, if they are complete: none is a
hyphen between versions, nor are they all together, and none is cut off in front of a version. What
is cut off goes on in the next operand. The conditions of the joined text are then those of the
operands, one after the other.

A word that is only a build leaves nothing but one more blank. That matters only in front of an
operand that begins with an equals sign and a blank: behind two blanks the sign is no operator.
-/

namespace VersionConstraints

variable {ws ps : List Text} {cs p q w x y : Text}

namespace Text

/-- The words of a text without their builds. A word that is only a build leaves an empty one. -/
def bareWords (cs : Text) : List Text :=
  cs.words.map deleteBuilds

/-- The words of a text without their builds, but for empty ones. -/
def visibleWords (cs : Text) : List Text :=
  cs.bareWords.filter (· ≠ [])

/-- Builds are deleted word by word. -/
lemma deleteBuilds_intercalate (ws : List Text) :
    deleteBuilds ([' '].intercalate ws) = [' '].intercalate (ws.map deleteBuilds) := by
  induction ws with
  | nil => rfl
  | cons w ws ih =>
    by_cases hnil : ws = []
    · simp [hnil]
    · have hne : ws.map deleteBuilds ≠ [] := by simpa using hnil
      rw [List.map_cons, List.intercalate_cons_of_ne_nil hnil, List.intercalate_cons_of_ne_nil hne,
        List.append_assoc, List.append_assoc, List.singleton_append, List.singleton_append,
        deleteBuilds_append_blank, ih]

/-- Deleting builds keeps the order of what stays. -/
lemma deleteBuildsFrom_sublist (inside : Bool) (cs : Text) :
    (deleteBuildsFrom inside cs).Sublist cs := by
  induction cs generalizing inside with
  | nil => exact List.Sublist.refl _
  | cons c cs ih =>
    rw [deleteBuildsFrom]
    split
    · exact (ih true).cons c
    · split
      · exact (ih true).cons c
      · exact (ih false).cons_cons c

/-- A sequence of words ends with its last word. -/
lemma suffix_intercalate (hw : w ∈ ws.getLast?) : w <:+ [' '].intercalate ws := by
  induction ws with
  | nil => cases hw
  | cons v ws ih =>
    by_cases hnil : ws = []
    · subst hnil
      obtain rfl : v = w := Option.some.inj hw
      exact ⟨[], List.intercalate_singleton.symm⟩
    · rw [← List.singleton_append, List.getLast?_append_of_ne_nil _ hnil] at hw
      rw [List.intercalate_cons_of_ne_nil hnil]
      exact (ih hw).trans (List.suffix_append _ _)

/-- Without its builds, a normalized text is the sequence of its bare words. -/
lemma deleteBuilds_normalize (cs : Text) :
    deleteBuilds (normalize cs) = [' '].intercalate (bareWords cs) :=
  deleteBuilds_intercalate cs.words

/-- A word without its build has no blanks. -/
lemma not_isBlank_of_mem_bareWords : ∀ w ∈ bareWords cs, ∀ c ∈ w, isBlank c = false := by
  intro b hb c hc
  obtain ⟨w, hw, rfl⟩ := List.mem_map.mp hb
  have hmem : c ∈ w := (deleteBuildsFrom_sublist false w).subset hc
  exact (solid_of_mem_words hw).not_blank c hmem

/-! ### Blanks at the ends -/

/-- A text is its trimmed form with blanks behind it. -/
lemma exists_append_blanks (x : Text) :
    ∃ n, x.rdropWhile (· == ' ') ++ List.replicate n ' ' = x := by
  have hblanks : ∀ c ∈ x.rtakeWhile (· == ' '), c = ' ' :=
    fun c hc => beq_iff_eq.mp (List.mem_rtakeWhile_imp (p := (· == ' ')) hc)
  refine ⟨(x.rtakeWhile (· == ' ')).length, ?_⟩
  rw [← List.eq_replicate_of_mem hblanks]
  exact List.rdropWhile_append_rtakeWhile

/-- A text is its trimmed form with blanks in front. -/
lemma exists_blanks_append (y : Text) :
    ∃ n, List.replicate n ' ' ++ y.dropWhile (· == ' ') = y := by
  have hblanks : ∀ c ∈ y.takeWhile (· == ' '), c = ' ' :=
    fun c hc => beq_iff_eq.mp (List.mem_takeWhile_imp (p := (· == ' ')) hc)
  refine ⟨(y.takeWhile (· == ' ')).length, ?_⟩
  rw [← List.eq_replicate_of_mem hblanks]
  exact List.takeWhile_append_dropWhile

lemma finished_nil : Finished [] := ⟨nofun, fun _ hu => nomatch List.suffix_nil.mp hu⟩

lemma closeOperators_nil : closeOperators [] = [] := by
  rw [closeOperators, closeComparisons_nil]
  rfl

section Words

variable (hws : ∀ w ∈ ws, ∀ c ∈ w, isBlank c = false)

include hws

/-- The last word that is not empty is at the end, but for blanks. -/
lemma suffix_rdropWhile_intercalate (hw : w ∈ (ws.filter (· ≠ [])).getLast?) :
    w <:+ ([' '].intercalate ws).rdropWhile (· == ' ') := by
  induction ws using List.reverseRecOn with
  | nil => cases hw
  | append_singleton ws v ih =>
    obtain ⟨hfront, hv⟩ := List.forall_mem_append.mp hws
    by_cases hnil : v = []
    · subst hnil
      by_cases hne : ws = []
      · subst hne
        cases hw
      · rw [intercalate_append hne (List.cons_ne_nil _ _), List.intercalate_singleton,
          List.rdropWhile_concat_pos _ _ _ rfl]
        exact ih hfront (by simpa using hw)
    · have hvw : v = w := by simpa [List.filter_append, hnil] using hw
      subst hvw
      have hsuffix : v <:+ [' '].intercalate (ws ++ [v]) := suffix_intercalate (by simp)
      rw [List.rdropWhile_eq_self_iff.mpr]
      · exact hsuffix
      · intro hne hlast
        have hget := getLast?_of_suffix hsuffix hnil
        rw [List.getLast?_eq_some_getLast hne, beq_iff_eq.mp hlast] at hget
        cases hv v List.mem_cons_self ' ' (List.mem_of_getLast? hget.symm)

/-- There are no blanks to trim behind a word that is not empty. -/
lemma rdropWhile_intercalate (hlast : ws.getLast? ≠ some []) :
    ([' '].intercalate ws).rdropWhile (· == ' ') = [' '].intercalate ws := by
  refine List.rdropWhile_eq_self_iff.mpr fun hne hspace => ?_
  have hnil : ws ≠ [] := by
    rintro rfl
    exact hne rfl
  obtain ⟨w, hw⟩ : ∃ w, ws.getLast? = some w := ⟨_, List.getLast?_eq_some_getLast hnil⟩
  have hget := getLast?_of_suffix (suffix_intercalate hw) fun hnil => hlast (hnil ▸ hw)
  rw [List.getLast?_eq_some_getLast hne, beq_iff_eq.mp hspace] at hget
  cases hws w (List.mem_of_getLast? hw) ' ' (List.mem_of_getLast? hget.symm)

/-- There are no blanks to trim in front of a word that is not empty. -/
lemma dropWhile_intercalate (hfirst : ws.head? ≠ some []) :
    ([' '].intercalate ws).dropWhile (· == ' ') = [' '].intercalate ws := by
  cases ws with
  | nil => rfl
  | cons w ws =>
    have hne : w ≠ [] := fun hnil => hfirst (congrArg some hnil)
    obtain ⟨c, w, rfl⟩ := List.exists_cons_of_ne_nil hne
    have hc : c ≠ ' ' := by
      rintro rfl
      cases hws _ List.mem_cons_self ' ' List.mem_cons_self
    obtain ⟨t, ht⟩ := List.head?_eq_some_iff.mp (Piece.head?_intercalate hne ws)
    rw [ht]
    exact List.dropWhile_cons_of_neg (by simpa using hc)

/-- A text is finished, but for blanks at its end, if its last word that is not empty is. -/
lemma finished_intercalate (hlast : ∀ w ∈ (ws.filter (· ≠ [])).getLast?, w.all isLead = false ∧
    ∀ c ∈ w.getLast?, isOperatorChar c = false) :
    Finished (([' '].intercalate ws).rdropWhile (· == ' ')) := by
  cases hw : (ws.filter (· ≠ [])).getLast? with
  | none =>
    have hempty : ∀ w ∈ ws, w = [] := by
      simpa [List.filter_eq_nil_iff] using List.getLast?_eq_none_iff.mp hw
    have hnil : ([' '].intercalate ws).rdropWhile (· == ' ') = [] := by
      refine List.rdropWhile_eq_nil_iff.mpr fun c hc => ?_
      by_contra hne
      have hblank : c ∉ [' '] := by simpa using hne
      refine not_mem_intercalate hblank (fun w hw => ?_) hc
      rw [hempty w hw]
      exact List.not_mem_nil
    rw [hnil]
    exact finished_nil
  | some w =>
    obtain ⟨hlead, hoperator⟩ := hlast w hw
    obtain ⟨hmem, hne⟩ := List.mem_filter.mp (List.mem_of_getLast? hw)
    have hblank := hws w hmem
    have hsuffix := suffix_rdropWhile_intercalate hws hw
    constructor
    · rw [getLast?_of_suffix hsuffix (of_decide_eq_true hne)]
      exact fun c hc => ⟨hblank c (List.mem_of_getLast? hc), hoperator c hc⟩
    · intro u hu
      -- What stands behind a blank has the whole last word in it.
      have hspace : ' ' ∉ w := fun hmem => nomatch hblank ' ' hmem
      have hwu : w <:+ u := by
        rcases List.suffix_or_suffix_of_suffix hsuffix hu with hwu | huw
        · refine (List.suffix_cons_iff.mp hwu).resolve_left ?_
          rintro rfl
          exact hspace List.mem_cons_self
        · exact absurd (huw.subset List.mem_cons_self) hspace
      obtain ⟨c, hc, hcl⟩ := List.all_eq_false.mp hlead
      exact List.all_eq_false.mpr ⟨c, hwu.subset hc, hcl⟩

/-- Where a text begins with an equals sign and a blank, but for blanks before them, that sign is the
first word that is not empty. -/
lemma head?_of_prefix (h : ['=', ' '] <+: ([' '].intercalate ws).dropWhile (· == ' ')) :
    (ws.filter (· ≠ [])).head? = some ['='] := by
  induction ws with
  | nil => cases List.prefix_nil.mp h
  | cons v ws ih =>
    obtain ⟨hv, htail⟩ := List.forall_mem_cons.mp hws
    cases v with
    | nil =>
      by_cases hnil : ws = []
      · subst hnil
        cases List.prefix_nil.mp h
      · rw [List.intercalate_cons_of_ne_nil hnil, List.nil_append, List.singleton_append,
          List.dropWhile_cons_of_pos rfl] at h
        exact ih htail h
    | cons c v =>
      have hc : c ≠ ' ' := by
        rintro rfl
        cases hv ' ' List.mem_cons_self
      have hsplit : ∃ t, [' '].intercalate ((c :: v) :: ws) = c :: (v ++ t) := by
        by_cases hnil : ws = []
        · exact ⟨[], by rw [hnil, List.intercalate_singleton, List.append_nil]⟩
        · exact ⟨' ' :: [' '].intercalate ws, by simp [List.intercalate_cons_of_ne_nil hnil]⟩
      obtain ⟨t, ht⟩ := hsplit
      rw [ht, List.dropWhile_cons_of_neg (by simpa using hc), List.cons_prefix_cons] at h
      obtain ⟨rfl, h⟩ := h
      -- The sign is the whole word, as no word has a blank.
      cases v with
      | nil => rfl
      | cons d v =>
        obtain ⟨rfl, -⟩ := List.cons_prefix_cons.mp h
        cases hv ' ' (List.mem_cons_of_mem _ List.mem_cons_self)

end Words

/-- Whether two texts are closed up apart from each other, whatever blanks stand at their ends. -/
structure Separate (x y : Text) : Prop where
  finished : Finished (x.rdropWhile (· == ' '))
  equals : ['=', ' '] <+: y.dropWhile (· == ' ') →
    x.rdropWhile (· == ' ') = x ∧ y.dropWhile (· == ' ') = y ∧ leavesLead x = false

end Text

namespace Expression

/-! ### Hyphens -/

/-- Whether a text is two versions with a hyphen between them. -/
def IsHyphenRange (cs : Text) : Prop :=
  (hyphen? .strict (Text.deleteBuilds cs.normalize)).isSome = true

instance (cs : Text) : Decidable (IsHyphenRange cs) :=
  inferInstanceAs (Decidable (_ = true))

/-! ### Conditions -/

/-- The conditions of a text of which the operators are closed up. -/
def closedConditions (cs : Text) : List Text :=
  (cs.splitOn ' ').flatMap fun t => Text.words (expand .strict t)

/-- A blank separates conditions. -/
lemma closedConditions_append_blank (x y : Text) :
    closedConditions (x ++ ' ' :: y) = closedConditions x ++ closedConditions y := by
  rw [closedConditions, List.splitOn_append_cons_self, List.flatMap_append]
  rfl

/-- More blanks separate no more conditions. -/
lemma closedConditions_blanks_append (n : Nat) (y : Text) :
    closedConditions (List.replicate n ' ' ++ y) = closedConditions y := by
  induction n with
  | zero => rfl
  | succ n ih => exact (closedConditions_append_blank [] _).trans ih

/-- The conditions of a text are those of the pieces it is closed up to. -/
lemma conditions_normalize (h : ¬ IsHyphenRange cs) : conditions (Text.normalize cs) =
    closedConditions (Text.closeOperators ([' '].intercalate (Text.bareWords cs))) := by
  have hnone : hyphen? .strict (Text.deleteBuilds (Text.normalize cs)) = none :=
    Option.not_isSome_iff_eq_none.mp h
  rw [conditions, writtenOut, hnone, Option.getD_none, Text.words_intercalate, List.flatMap_map,
    Text.deleteBuilds_normalize]
  rfl

section Blanks

open Text

/-- Texts that stand apart have the conditions of the one and those of the other. -/
lemma closedConditions_apart (h : Apart x y) {n : Nat} (hn : n = 0 ∨ ¬ ['=', ' '] <+: y) :
    closedConditions (closeOperators (x ++ ' ' :: (List.replicate n ' ' ++ y))) =
      closedConditions (closeOperators x) ++ closedConditions (closeOperators y) := by
  obtain ⟨m, hm⟩ := exists_closeOperators_append_blanks h hn
  rw [hm, closedConditions_append_blank, closedConditions_blanks_append]

/-- Blanks behind a finished text add no condition. -/
lemma closedConditions_append_blanks (h : Finished x) (n : Nat) :
    closedConditions (closeOperators (x ++ List.replicate n ' ')) =
      closedConditions (closeOperators x) := by
  cases n with
  | zero => rw [List.replicate_zero, List.append_nil]
  | succ n =>
    have hnot : ¬ ['=', ' '] <+: ([] : Text) := by simp
    have happend := closedConditions_apart ⟨h, by simp, fun _ => hnot⟩ (n := n) (.inr hnot)
    rw [List.append_nil, closeOperators_nil] at happend
    exact happend.trans (List.append_nil _)

lemma closedConditions_closeOperators_blanks (hy : y.head? ≠ some ' ') {n : Nat}
    (hn : n = 0 ∨ ¬ ['=', ' '] <+: y) :
    closedConditions (closeOperators (List.replicate n ' ' ++ y)) =
      closedConditions (closeOperators y) := by
  cases n with
  | zero => rfl
  | succ n =>
    have hnot := hn.resolve_left (Nat.succ_ne_zero n)
    have happend := closedConditions_apart ⟨finished_nil, hy, fun _ => hnot⟩ (n := n) (.inr hnot)
    rw [closeOperators_nil] at happend
    exact happend

/-- Texts that are closed up apart have their conditions apart. -/
theorem closedConditions_append (h : Separate x y) :
    closedConditions (closeOperators (x ++ ' ' :: y)) =
      closedConditions (closeOperators x) ++ closedConditions (closeOperators y) := by
  have hhead : (y.dropWhile (· == ' ')).head? ≠ some ' ' := by
    intro hhead
    simpa [hhead] using List.head?_dropWhile_not (· == ' ') y
  obtain ⟨k, hk⟩ := exists_append_blanks x
  obtain ⟨m, hm⟩ := exists_blanks_append y
  by_cases hequals : ['=', ' '] <+: y.dropWhile (· == ' ')
  · obtain ⟨hx, hy, hlead⟩ := h.equals hequals
    rw [hy] at hhead
    exact closedConditions_apart ⟨hx ▸ h.finished, hhead, by simp [hlead]⟩ (n := 0) (.inl rfl)
  · have hjoined : x ++ ' ' :: y = x.rdropWhile (· == ' ') ++
        ' ' :: (List.replicate (k + m) ' ' ++ y.dropWhile (· == ' ')) := by
      have hback (z : Text) : List.replicate k ' ' ++ ' ' :: z =
          ' ' :: (List.replicate k ' ' ++ z) := by
        rw [← List.cons_append, ← List.replicate_succ, List.replicate_succ', List.append_assoc,
          List.singleton_append]
      conv_lhs => rw [← hk, ← hm]
      rw [List.append_assoc, hback, ← List.append_assoc (List.replicate k ' '),
        List.replicate_append_replicate]
    rw [hjoined, closedConditions_apart ⟨h.finished, hhead, fun _ => hequals⟩ (.inr hequals)]
    congr 1
    · rw [← closedConditions_append_blanks h.finished k, hk]
    · rw [← closedConditions_closeOperators_blanks hhead (.inr hequals), hm]

end Blanks

/-! ### Operands -/

/-- Whether an operand ends before the next one begins: it is not cut off in front of a version, by
an operator or a bare lead at its end, and where the next one begins with an equals sign that has a
blank behind it, a single blank comes before the sign and no lead is left in front of that. -/
structure EndsBefore (p q : Text) : Prop where
  lead : ∀ w ∈ (Text.visibleWords p).getLast?, w.all isLead = false
  operator : ∀ w ∈ (Text.visibleWords p).getLast?, ∀ c ∈ w.getLast?, isOperatorChar c = false
  equals : (Text.visibleWords q).head? = some ['='] →
    (Text.bareWords p).getLast? ≠ some [] ∧ (Text.bareWords q).head? ≠ some [] ∧
      Text.leavesLead ([' '].intercalate (Text.bareWords p)) = false

/-- An operand whose last word is no lead and does not end with an operator ends before another one
that does not begin with a bare equals sign. -/
lemma EndsBefore.of_getLast? {w : Text} {c : Char}
    (hw : (Text.visibleWords p).getLast? = some w) (hlead : w.all isLead = false)
    (hc : w.getLast? = some c) (hoperator : isOperatorChar c = false)
    (hequals : (Text.visibleWords q).head? ≠ some ['=']) : EndsBefore p q where
  lead u hu := Option.mem_unique hw hu ▸ hlead
  operator u hu d hd := by
    obtain rfl := Option.mem_unique hw hu
    exact Option.mem_unique hc hd ▸ hoperator
  equals h := absurd h hequals

/-- An equals sign in front of all others is that of the first operand: behind one that is only
builds none may follow. -/
lemma head?_visibleWords (hwords : ∀ p ∈ q :: ps, Text.bareWords p ≠ [])
    (hends : (q :: ps).IsChain EndsBefore)
    (h : (((q :: ps).flatMap Text.bareWords).filter (· ≠ [])).head? = some ['=']) :
    (Text.visibleWords q).head? = some ['='] := by
  induction ps generalizing q with
  | nil => simpa [Text.visibleWords] using h
  | cons r ps ih =>
    obtain ⟨hqr, hends⟩ := List.isChain_cons_cons.mp hends
    obtain ⟨hq, hwords⟩ := List.forall_mem_cons.mp hwords
    rw [List.flatMap_cons, List.filter_append] at h
    by_cases hnil : Text.visibleWords q = []
    · rw [show (Text.bareWords q).filter (· ≠ []) = [] from hnil, List.nil_append] at h
      refine absurd ?_ (hqr.equals (ih hwords hends h)).1
      have hall : ∀ w ∈ Text.bareWords q, w = [] := by
        simpa [Text.visibleWords, List.filter_eq_nil_iff] using hnil
      rw [List.getLast?_eq_some_getLast hq, hall _ (List.getLast_mem hq)]
    · exact (List.head?_append_of_ne_nil _ hnil).symm.trans h

/-- Operands that end before the next one are separate as texts. -/
lemma EndsBefore.separate (h : EndsBefore p q)
    (hwords : ∀ p ∈ q :: ps, Text.bareWords p ≠ []) (hends : (q :: ps).IsChain EndsBefore) :
    Text.Separate ([' '].intercalate (Text.bareWords p))
      ([' '].intercalate ((q :: ps).flatMap Text.bareWords)) where
  finished := Text.finished_intercalate Text.not_isBlank_of_mem_bareWords
    fun w hw => ⟨h.lead w hw, h.operator w hw⟩
  equals hequals := by
    have hblank : ∀ w ∈ (q :: ps).flatMap Text.bareWords, ∀ c ∈ w, isBlank c = false := by
      intro w hw
      obtain ⟨p, -, hw⟩ := List.mem_flatMap.mp hw
      exact Text.not_isBlank_of_mem_bareWords w hw
    have hhead := head?_visibleWords hwords hends (Text.head?_of_prefix hblank hequals)
    obtain ⟨hlast, hfirst, hlead⟩ := h.equals hhead
    refine ⟨Text.rdropWhile_intercalate Text.not_isBlank_of_mem_bareWords hlast,
      Text.dropWhile_intercalate hblank ?_, hlead⟩
    rwa [List.flatMap_cons, List.head?_append_of_ne_nil _ (hwords q List.mem_cons_self)]

/-- Operands that end before the next ones have their conditions apart. -/
theorem closedConditions_flatMap (hne : ps ≠ []) (hwords : ∀ p ∈ ps, Text.bareWords p ≠ [])
    (hends : ps.IsChain EndsBefore) :
    closedConditions (Text.closeOperators ([' '].intercalate (ps.flatMap Text.bareWords))) =
      ps.flatMap fun p =>
        closedConditions (Text.closeOperators ([' '].intercalate (Text.bareWords p))) := by
  induction ps with
  | nil => exact absurd rfl hne
  | cons p ps ih =>
    cases ps with
    | nil => simp
    | cons q ps =>
      obtain ⟨hp, hrest⟩ := List.forall_mem_cons.mp hwords
      obtain ⟨hpq, hends⟩ := List.isChain_cons_cons.mp hends
      have hflat : (q :: ps).flatMap Text.bareWords ≠ [] := by
        rw [List.flatMap_cons]
        exact List.append_ne_nil_of_left_ne_nil (hrest q List.mem_cons_self) _
      rw [List.flatMap_cons, Text.intercalate_append hp hflat,
        closedConditions_append (hpq.separate hrest hends), ih (List.cons_ne_nil q ps) hrest hends]
      rfl

/-- The conditions of joined operands are those of the operands. -/
theorem conditions_flatMap (hne : ps ≠ []) (hwords : ∀ p ∈ ps, Text.words p ≠ [])
    (hends : ps.IsChain EndsBefore) (halone : ∀ p ∈ ps, ¬ IsHyphenRange p)
    (htogether : ¬ IsHyphenRange ([' '].intercalate ps)) :
    conditions (Text.normalize ([' '].intercalate ps)) =
      ps.flatMap fun p => conditions (Text.normalize p) := by
  have hbare : ∀ p ∈ ps, Text.bareWords p ≠ [] :=
    fun p hp => by simpa [Text.bareWords] using hwords p hp
  have hjoined : Text.bareWords ([' '].intercalate ps) = ps.flatMap Text.bareWords := by
    rw [Text.bareWords, Text.words_intercalate, List.map_flatMap]
    rfl
  rw [conditions_normalize htogether, hjoined, closedConditions_flatMap hne hbare hends]
  exact List.flatMap_congr fun p hp => (conditions_normalize (halone p hp)).symm

end Expression

end VersionConstraints
