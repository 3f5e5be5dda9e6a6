import Mathlib.Data.List.Basic
import Mathlib.Data.List.DropRight
import Mathlib.Tactic.Lemma
import VersionConstraints.Text.Blank

/-!
# Words and bars

Trimming leaves a text alone that neither begins nor ends with white space. Normalization leaves a
tidy text alone, which has one space between its words and no other white space. Texts without bars
that are joined by double bars can be told apart again, with or without space around the bars.
-/

namespace VersionConstraints

namespace Text

variable {c : Char} {s t v w pad pad' : Text} {ps ws ws' : List Text}

/-! ### Joined texts -/

/-- A joined text has no characters but those of its parts and of the separator. -/
lemma not_mem_intercalate {sep : Text} (hsep : c ∉ sep) (hps : ∀ p ∈ ps, c ∉ p) :
    c ∉ sep.intercalate ps := by
  induction ps with
  | nil => exact nofun
  | cons p ps ih =>
    obtain ⟨hp, hps⟩ := List.forall_mem_cons.mp hps
    by_cases hnil : ps = []
    · rw [hnil, List.intercalate_singleton]
      exact hp
    · rw [List.intercalate_cons_of_ne_nil hnil, List.mem_append, List.mem_append]
      exact not_or.mpr ⟨not_or.mpr ⟨hp, hsep⟩, ih hps⟩

lemma intercalate_append (h : ws ≠ []) (h' : ws' ≠ []) :
    [' '].intercalate (ws ++ ws') = [' '].intercalate ws ++ ' ' :: [' '].intercalate ws' := by
  induction ws with
  | nil => exact absurd rfl h
  | cons w ws ih =>
    by_cases hnil : ws = []
    · rw [hnil, List.singleton_append, List.intercalate_cons_of_ne_nil h', List.append_assoc,
        List.intercalate_singleton]
      rfl
    · have hne : ws ++ ws' ≠ [] := List.append_ne_nil_of_left_ne_nil hnil ws'
      rw [List.cons_append, List.intercalate_cons_of_ne_nil hne, ih hnil,
        List.intercalate_cons_of_ne_nil hnil, List.append_assoc _ _ (' ' :: _)]

/-! ### Trimming -/

structure Trimmed (t : Text) : Prop where
  head : ∀ c ∈ t.head?, isBlank c = false
  last : ∀ c ∈ t.getLast?, isBlank c = false

lemma dropWhile_isBlank (h : ∀ c ∈ t.head?, isBlank c = false) : t.dropWhile isBlank = t := by
  cases t with
  | nil => rfl
  | cons c t =>
    rw [List.dropWhile_cons_of_neg]
    simp [h c rfl]

/-- Trimming drops the padding in front of a text and nothing behind. -/
lemma dropWhile_isBlank_append (hpad : ∀ c ∈ pad, isBlank c = true)
    (h : ∀ c ∈ t.head?, isBlank c = false) (ht : t ≠ []) (s : Text) :
    (pad ++ (t ++ s)).dropWhile isBlank = t ++ s := by
  rw [List.dropWhile_append_of_pos hpad, dropWhile_isBlank]
  rwa [List.head?_append_of_ne_nil _ ht]

/-- Trimming drops white space around a trimmed text. -/
lemma trim_pad (hpad : ∀ c ∈ pad, isBlank c = true) (hpad' : ∀ c ∈ pad', isBlank c = true)
    (h : Trimmed t) (ht : t ≠ []) : trim (pad ++ (t ++ pad')) = t := by
  have hback : (pad'.reverse ++ (t.reverse ++ [])).dropWhile isBlank = t.reverse ++ [] :=
    dropWhile_isBlank_append (by simpa using hpad') (by simpa using h.last) (by simpa using ht) []
  rw [List.append_nil] at hback
  rw [trim, dropWhile_isBlank_append hpad h.head ht, List.reverse_append, hback,
    List.reverse_reverse]

lemma Trimmed.trim_eq (h : Trimmed t) : trim t = t := by
  rw [trim, dropWhile_isBlank h.head, dropWhile_isBlank (by simpa using h.last),
    List.reverse_reverse]

lemma trimmed_trim (t : Text) : Trimmed (trim t) := by
  have hdrop (u : Text) : ∀ c ∈ (u.dropWhile isBlank).head?, isBlank c = false := by
    intro c hc
    have := List.head?_dropWhile_not isBlank u
    rw [Option.mem_def.mp hc] at this
    simpa using this
  constructor
  · intro c hc
    refine hdrop t c ?_
    -- What is left in front of the white space at the end begins as before.
    rw [trim, List.head?_reverse] at hc
    obtain ⟨u, hu⟩ := List.dropWhile_suffix (l := (t.dropWhile isBlank).reverse) isBlank
    rw [← List.getLast?_reverse, ← hu, List.getLast?_append_of_ne_nil]
    · exact hc
    · intro hnil
      rw [hnil] at hc
      cases hc
  · rw [trim, List.getLast?_reverse]
    exact hdrop _

/-- A trimmed text has nothing left to trim. -/
@[simp] lemma trim_trim (t : Text) : trim (trim t) = trim t := (trimmed_trim t).trim_eq

/-! ### Tidy texts -/

structure Solid (w : Text) : Prop where
  ne_nil : w ≠ []
  not_blank : ∀ c ∈ w, isBlank c = false

lemma Solid.append (hv : Solid v) (hw : Solid w) : Solid (v ++ w) :=
  ⟨List.append_ne_nil_of_left_ne_nil hv.ne_nil w,
    fun c hc => (List.mem_append.mp hc).elim (hv.not_blank c) (hw.not_blank c)⟩

/-- A text of solid words with one space between any two of them. -/
inductive Tidy : Text → Prop
  | word {w : Text} (hw : Solid w) : Tidy w
  | cons {w t : Text} (hw : Solid w) (ht : Tidy t) : Tidy (w ++ ' ' :: t)

lemma Solid.tidy_append (hw : Solid w) (ht : Tidy t) : Tidy (w ++ t) := by
  cases ht with
  | word hv => exact .word (hw.append hv)
  | cons hv ht =>
    rw [← List.append_assoc]
    exact .cons (hw.append hv) ht

namespace Tidy

lemma append (hs : Tidy s) (ht : Tidy t) : Tidy (s ++ t) := by
  induction hs with
  | word hw => exact hw.tidy_append ht
  | cons hw _ ih =>
    rw [List.append_assoc, List.cons_append]
    exact .cons hw ih

/-- Two tidy texts with a space between them are tidy. -/
lemma append_space (hs : Tidy s) (ht : Tidy t) : Tidy (s ++ ' ' :: t) := by
  induction hs with
  | word hw => exact .cons hw ht
  | cons hw _ ih =>
    rw [List.append_assoc, List.cons_append]
    exact .cons hw ih

/-- Tidy texts with single spaces between them are tidy. -/
lemma intercalate_space (hps : ∀ p ∈ ps, Tidy p) (hne : ps ≠ []) :
    Tidy ([' '].intercalate ps) := by
  induction ps with
  | nil => exact absurd rfl hne
  | cons p ps ih =>
    obtain ⟨hp, hps⟩ := List.forall_mem_cons.mp hps
    by_cases hnil : ps = []
    · rw [hnil, List.intercalate_singleton]
      exact hp
    · rw [List.intercalate_cons_of_ne_nil hnil, List.append_assoc]
      exact hp.append_space (ih hps hnil)

lemma ne_nil (h : Tidy t) : t ≠ [] := by
  cases h with
  | word hw => exact hw.ne_nil
  | cons hw _ => exact List.append_ne_nil_of_left_ne_nil hw.ne_nil _

lemma trimmed (h : Tidy t) : Trimmed t := by
  induction h with
  | word hw =>
    exact ⟨fun c hc => hw.not_blank c (List.mem_of_mem_head? hc),
      fun c hc => hw.not_blank c (List.mem_of_getLast? hc)⟩
  | cons hw ht ih =>
    constructor
    · intro c hc
      rw [List.head?_append_of_ne_nil _ hw.ne_nil] at hc
      exact hw.not_blank c (List.mem_of_mem_head? hc)
    · intro c hc
      rw [List.getLast?_append_of_ne_nil _ (List.cons_ne_nil _ _),
        ← List.singleton_append, List.getLast?_append_of_ne_nil _ ht.ne_nil] at hc
      exact ih.last c hc

/-- Normalization leaves a tidy text alone. -/
theorem normalize_eq (h : Tidy t) : normalize t = t := by
  have hkept {w : Text} (hw : Solid w) (ws : List Text) :
      (w :: ws).filter (· ≠ []) = w :: ws.filter (· ≠ []) :=
    List.filter_cons_of_pos (decide_eq_true hw.ne_nil)
  have hwords : words t ≠ [] ∧ normalize t = t := by
    induction h with
    | word hw =>
      rw [normalize, words, List.splitOnP_eq_singleton hw.not_blank, hkept hw]
      exact ⟨List.cons_ne_nil _ _, by simp⟩
    | @cons w t hw ht ih =>
      have hsplit : words (w ++ ' ' :: t) = w :: words t := by
        rw [words, List.splitOnP_append_cons_of_forall_mem hw.not_blank ' ' (by decide), hkept hw]
        rfl
      rw [normalize, hsplit, List.intercalate_cons_of_ne_nil ih.1, List.append_assoc]
      exact ⟨List.cons_ne_nil _ _, congrArg (w ++ ' ' :: ·) ih.2⟩
  exact hwords.2

end Tidy

/-! ### Words -/

/-- The parts of a split text have characters of the text that the test does not hold of. -/
lemma of_mem_splitOnP {f : Char → Bool} : ∀ w ∈ t.splitOnP f, ∀ c ∈ w, c ∈ t ∧ f c = false := by
  induction t with
  | nil =>
    rw [List.splitOnP_nil]
    exact List.forall_mem_singleton.mpr nofun
  | cons d t ih =>
    have hrest : ∀ w ∈ t.splitOnP f, ∀ c ∈ w, c ∈ d :: t ∧ f c = false :=
      fun w hw c hc => (ih w hw c hc).imp_left (List.mem_cons_of_mem d)
    rw [List.splitOnP_cons_eq_if_modifyHead]
    split
    · exact List.forall_mem_cons.mpr ⟨nofun, hrest⟩
    · next hd =>
      cases hsplit : t.splitOnP f with
      | nil => exact nofun
      | cons w ws =>
        rw [hsplit] at hrest
        obtain ⟨hw, hws⟩ := List.forall_mem_cons.mp hrest
        refine List.forall_mem_cons.mpr ⟨List.forall_mem_cons.mpr ⟨?_, hw⟩, hws⟩
        exact ⟨List.mem_cons_self, by simpa using hd⟩

/-- Words are not empty and have no white space. -/
lemma solid_of_mem_words (h : w ∈ words t) : Solid w := by
  obtain ⟨hmem, hne⟩ := List.mem_filter.mp h
  exact ⟨of_decide_eq_true hne, fun c hc => (of_mem_splitOnP w hmem c hc).2⟩

lemma mem_of_mem_words (h : w ∈ words t) (hc : c ∈ w) : c ∈ t :=
  (of_mem_splitOnP w (List.mem_filter.mp h).1 c hc).1

/-- Normalization brings in no characters but spaces. -/
lemma not_mem_normalize (h : c ∉ t) (hc : c ≠ ' ') : c ∉ normalize t :=
  not_mem_intercalate (mt List.mem_singleton.mp hc) fun _ hw hmem => h (mem_of_mem_words hw hmem)

@[simp] lemma trim_normalize (t : Text) : trim (normalize t) = normalize t := by
  by_cases hnil : words t = []
  · rw [normalize, hnil]
    rfl
  · have htidy : Tidy (normalize t) :=
      Tidy.intercalate_space (fun w hw => .word (solid_of_mem_words hw)) hnil
    exact htidy.trimmed.trim_eq

/-- A text is cut into words at its white space. -/
lemma words_append_cons (hc : isBlank c = true) (s t : Text) :
    words (s ++ c :: t) = words s ++ words t := by
  rw [words, words, words, List.splitOnP_append_cons s t hc, List.filter_append]

/-- White space at the front belongs to no word. -/
lemma words_cons (hc : isBlank c = true) (t : Text) : words (c :: t) = words t :=
  words_append_cons hc [] t

/-- The words of texts with spaces between them are the words of each. -/
lemma words_intercalate (ps : List Text) : words ([' '].intercalate ps) = ps.flatMap words := by
  induction ps with
  | nil => rfl
  | cons p ps ih =>
    by_cases hnil : ps = []
    · simp [hnil]
    · rw [List.intercalate_cons_of_ne_nil hnil, List.append_assoc, List.singleton_append,
        words_append_cons (by decide), ih, List.flatMap_cons]

/-- A text without words is white space. -/
lemma isBlank_of_words_eq_nil (h : words t = []) : ∀ c ∈ t, isBlank c = true := by
  induction t with
  | nil => exact nofun
  | cons c t ih =>
    cases hc : isBlank c with
    | true =>
      rw [words_cons hc] at h
      exact List.forall_mem_cons.mpr ⟨hc, ih h⟩
    | false =>
      obtain ⟨w, ws, hws⟩ := List.exists_cons_of_ne_nil (List.splitOnP_ne_nil isBlank t)
      simp [words, List.splitOnP_cons_eq_if_modifyHead, hc, hws] at h

/-- White space at the end belongs to no word. -/
lemma words_append_blanks (s : Text) (hpad : ∀ c ∈ pad, isBlank c = true) :
    words (s ++ pad) = words s := by
  induction pad generalizing s with
  | nil => rw [List.append_nil]
  | cons c pad ih =>
    obtain ⟨hc, hpad⟩ := List.forall_mem_cons.mp hpad
    rw [words_append_cons hc, ← List.nil_append pad, ih [] hpad]
    exact List.append_nil _

lemma words_rdropWhile (t : Text) : words (t.rdropWhile isBlank) = words t := by
  conv_rhs => rw [← List.rdropWhile_append_rtakeWhile (p := isBlank) (l := t)]
  exact (words_append_blanks _ fun c hc => List.mem_rtakeWhile_imp hc).symm

lemma words_dropWhile (t : Text) : words (t.dropWhile isBlank) = words t := by
  induction t with
  | nil => rfl
  | cons c t ih =>
    cases hc : isBlank c with
    | true => rw [List.dropWhile_cons_of_pos hc, ih, words_cons hc]
    | false => rw [List.dropWhile_cons_of_neg (by simp [hc])]

/-- Trimming keeps the words. -/
@[simp] lemma words_trim (t : Text) : words (trim t) = words t :=
  (words_rdropWhile _).trans (words_dropWhile t)

lemma trim_eq_nil_of_words (h : words t = []) : trim t = [] := by
  have hdrop : t.dropWhile isBlank = [] := List.dropWhile_eq_nil_iff.mpr (isBlank_of_words_eq_nil h)
  rw [trim, hdrop]
  rfl

/-! ### Fields -/

/-- Words with single spaces between them are split at the spaces. -/
lemma splitOnP_intercalate (hps : ∀ p ∈ ps, Solid p) (hne : ps ≠ []) :
    ([' '].intercalate ps).splitOnP isBlank = ps := by
  induction ps with
  | nil => exact absurd rfl hne
  | cons p ps ih =>
    obtain ⟨hp, hps⟩ := List.forall_mem_cons.mp hps
    by_cases hnil : ps = []
    · rw [hnil, List.intercalate_singleton, List.splitOnP_eq_singleton hp.not_blank]
    · rw [List.intercalate_cons_of_ne_nil hnil, List.append_assoc, List.singleton_append,
        List.splitOnP_append_cons_of_forall_mem hp.not_blank ' ' (by decide), ih hps hnil]

lemma dropInnerEmpty_eq (h : ∀ p ∈ ps, p ≠ []) : dropInnerEmpty ps = ps := by
  fun_induction dropInnerEmpty ps with
  | case1 | case2 => rfl
  | case3 => exact absurd rfl (h [] List.mem_cons_self)
  | case4 p q ps _ ih => rw [ih (List.forall_mem_cons.mp h).2]

/-- Solid words with a space between any two of them are the fields of the text. -/
lemma fields_intercalate (hps : ∀ p ∈ ps, Solid p) (hne : ps ≠ []) :
    fields ([' '].intercalate ps) = ps := by
  rw [fields, splitOnP_intercalate hps hne]
  cases ps with
  | nil => exact absurd rfl hne
  | cons p ps =>
    have hrest := dropInnerEmpty_eq fun q hq => (hps q (List.mem_cons_of_mem p hq)).ne_nil
    exact congrArg (p :: ·) hrest

/-! ### Bars -/

lemma splitBars_of_not_mem (h : '|' ∉ s) : splitBars s = [s] := by
  induction s with
  | nil => rfl
  | cons c s ih =>
    obtain ⟨hc, hs⟩ := not_or.mp (mt List.mem_cons.mpr h)
    rw [splitBars, ih hs]
    · rfl
    · rintro cs rfl
      exact fun _ => absurd rfl hc

/-- The first double bar ends the first part. -/
lemma splitBars_append (h : '|' ∉ s) (t : Text) :
    splitBars (s ++ '|' :: '|' :: t) = s :: splitBars t := by
  induction s with
  | nil => rw [List.nil_append, splitBars]
  | cons c s ih =>
    obtain ⟨hc, hs⟩ := not_or.mp (mt List.mem_cons.mpr h)
    rw [List.cons_append, splitBars, ih hs]
    · rfl
    · rintro cs rfl
      exact fun _ => absurd rfl hc

/-- The parts between bars have no characters that the text has not. -/
lemma not_mem_of_mem_splitBars (h : c ∉ t) : ∀ s ∈ splitBars t, c ∉ s := by
  induction t using splitBars.induct with
  | case1 => exact List.forall_mem_singleton.mpr nofun
  | case2 t ih =>
    rw [splitBars]
    refine List.forall_mem_cons.mpr ⟨nofun, ih fun hc => h ?_⟩
    exact List.mem_cons_of_mem _ (List.mem_cons_of_mem _ hc)
  | case3 d t hbars ih =>
    obtain ⟨hd, ht⟩ := not_or.mp (mt List.mem_cons.mpr h)
    rw [splitBars]
    · cases hparts : splitBars t with
      | nil => exact nofun
      | cons s ss =>
        have hrest := ih ht
        rw [hparts] at hrest
        obtain ⟨hs, hss⟩ := List.forall_mem_cons.mp hrest
        exact List.forall_mem_cons.mpr ⟨not_or.mpr ⟨hd, hs⟩ ∘ List.mem_cons.mp, hss⟩
    · exact hbars

/-- Tidy texts that are joined by double bars, with or without space around them, are tidy. -/
lemma Tidy.intercalate_bars (hpad : pad = [] ∨ pad = [' ']) (hps : ∀ p ∈ ps, Tidy p)
    (hne : ps ≠ []) : Tidy ((pad ++ '|' :: '|' :: pad).intercalate ps) := by
  have hbars : Solid ['|', '|'] := ⟨List.cons_ne_nil _ _,
    List.forall_mem_cons.mpr ⟨by decide, List.forall_mem_singleton.mpr (by decide)⟩⟩
  induction ps with
  | nil => exact absurd rfl hne
  | cons p ps ih =>
    obtain ⟨hp, hps⟩ := List.forall_mem_cons.mp hps
    by_cases hnil : ps = []
    · rw [hnil, List.intercalate_singleton]
      exact hp
    · have hrest := ih hps hnil
      rw [List.intercalate_cons_of_ne_nil hnil, List.append_assoc]
      rcases hpad with rfl | rfl
      · exact hp.append (hbars.tidy_append hrest)
      · exact hp.append_space (.cons hbars hrest)

lemma isBlank_of_pad (hpad : pad = [] ∨ pad = [' ']) : ∀ c ∈ pad, isBlank c = true := by
  rcases hpad with rfl | rfl
  · exact nofun
  · exact List.forall_mem_singleton.mpr (by decide)

lemma not_mem_bar_of_blank (hpad : ∀ c ∈ pad, isBlank c = true) : '|' ∉ pad := by
  intro h
  cases hpad '|' h

/-- Trimmed texts without bars are the parts of their joined text. -/
theorem map_trim_splitBars (hpad : ∀ c ∈ pad, isBlank c = true)
    (hps : ∀ p ∈ ps, p ≠ [] ∧ Trimmed p ∧ '|' ∉ p) (hne : ps ≠ []) :
    (splitBars ((pad ++ '|' :: '|' :: pad).intercalate ps)).map trim = ps := by
  -- The first part may have white space before it, as all others do.
  have hpadded (pre : Text) (hpre : ∀ c ∈ pre, isBlank c = true) :
      (splitBars (pre ++ (pad ++ '|' :: '|' :: pad).intercalate ps)).map trim = ps := by
    induction ps generalizing pre with
    | nil => exact absurd rfl hne
    | cons p ps ih =>
      obtain ⟨⟨hp, htrimmed, hbar⟩, hps⟩ := List.forall_mem_cons.mp hps
      have hbars {u : Text} (hu : ∀ c ∈ u, isBlank c = true) : '|' ∉ pre ++ (p ++ u) := by
        simp [not_mem_bar_of_blank hpre, hbar, not_mem_bar_of_blank hu]
      cases ps with
      | nil =>
        have htrim : trim (pre ++ (p ++ [])) = p := trim_pad hpre nofun htrimmed hp
        have hnone := hbars (u := []) nofun
        rw [List.append_nil] at htrim hnone
        rw [List.intercalate_singleton, splitBars_of_not_mem hnone, List.map_singleton, htrim]
      | cons q ps =>
        rw [List.intercalate_cons_cons]
        simp only [List.append_assoc, List.cons_append]
        rw [← List.append_assoc p, ← List.append_assoc pre, splitBars_append (hbars hpad),
          List.map_cons, trim_pad hpre hpad htrimmed hp]
        exact congrArg (p :: ·) (ih hps (List.cons_ne_nil q ps) pad hpad)
  exact hpadded [] nofun

end Text

end VersionConstraints
