import Mathlib.Data.List.TakeWhile
import VersionConstraints.Expression.Scan

/-!
# Scans stop at blanks

Whatever a scan finds ends before the first blank, so a scan finds the same in a text with a blank
and more text behind it. Only the lead of a version may go on over blanks, up to the numeral that it
is a lead of.
-/

namespace VersionConstraints

/-- A bounded run of characters other than blanks ends at a blank. -/
lemma Text.dropUpTo_append_blank {p : Char → Bool} (hp : p ' ' = false) (n : Nat) (x y : Text) :
    dropUpTo p n (x ++ ' ' :: y) = dropUpTo p n x ++ ' ' :: y := by
  fun_induction dropUpTo p n x with
  | case1 => rfl
  | case2 n => simp [dropUpTo, hp]
  | case3 n c x hc ih => simp [dropUpTo, hc, ih]
  | case4 n c x hc => simp [dropUpTo, hc]

namespace Grammar

variable {g : Grammar} {scan scan' : Text → Option Text} {x y rest : Text}

/-- Whether what a scan finds does not change with a blank and more text behind. -/
def StopsAtBlank (scan : Text → Option Text) : Prop :=
  ∀ x y, scan (x ++ ' ' :: y) = (scan x).map (· ++ ' ' :: y)

/-! ### Identifiers -/

lemma stopsAtBlank_scanNumeral? : StopsAtBlank (scanNumeral? g) := by
  intro x y
  cases x with
  | nil => rfl
  | cons c x =>
    simp only [List.cons_append, scanNumeral?]
    split
    · rfl
    · split
      · rfl
      · rw [Text.dropUpTo_append_blank (by decide)]
        rfl

lemma stopsAtBlank_scanWord? : StopsAtBlank scanWord? := by
  intro x y
  simp only [scanWord?, Text.dropUpTo_append_blank (p := Char.isDigit) (by decide)]
  cases Text.dropUpTo Char.isDigit maxLeadingDigits x with
  | nil => rfl
  | cons c tail =>
    simp only [List.cons_append]
    split
    · rw [Text.dropUpTo_append_blank (by decide)]
      rfl
    · rfl

lemma StopsAtBlank.orElse (h : StopsAtBlank scan) (h' : StopsAtBlank scan') :
    StopsAtBlank fun cs => scan cs <|> scan' cs := by
  intro x y
  simp only [h x y, h' x y]
  cases scan x <;> rfl

lemma stopsAtBlank_scanIdentifier? : StopsAtBlank (scanIdentifier? g) :=
  stopsAtBlank_scanWord?.orElse stopsAtBlank_scanNumeral?

/-- Identifiers are scanned up to a blank. -/
lemma scanMoreIdentifiers_append_blank (g : Grammar) (x y : Text) :
    g.scanMoreIdentifiers (x ++ ' ' :: y) = g.scanMoreIdentifiers x ++ ' ' :: y := by
  fun_induction scanMoreIdentifiers g x with
  | case1 tail rest h ih =>
    have hscan := stopsAtBlank_scanIdentifier? (g := g) tail y
    rw [h, Option.map_some] at hscan
    rw [List.cons_append, scanMoreIdentifiers]
    split
    · next rest' h' =>
      cases hscan.symm.trans h'
      exact ih
    · next h' => cases hscan.symm.trans h'
  | case2 tail h =>
    have hscan := stopsAtBlank_scanIdentifier? (g := g) tail y
    rw [h, Option.map_none] at hscan
    rw [List.cons_append, scanMoreIdentifiers]
    split
    · next rest' h' => cases hscan.symm.trans h'
    · rfl
  | case3 x hx =>
    rw [scanMoreIdentifiers]
    cases x with
    | nil => rintro tail ⟨⟩
    | cons c x =>
      rintro tail ⟨⟩
      exact hx x rfl

lemma stopsAtBlank_scanIdentifiers? : StopsAtBlank (scanIdentifiers? g) := by
  intro x y
  rw [scanIdentifiers?, scanIdentifiers?, stopsAtBlank_scanIdentifier?, Option.map_map,
    Option.map_map]
  congr 1
  funext rest
  exact scanMoreIdentifiers_append_blank g rest y

/-! ### Prereleases -/

lemma stopsAtBlank_scanPrerelease? : StopsAtBlank (scanPrerelease? g) := by
  intro x y
  cases x with
  | nil => cases g <;> rfl
  | cons c x =>
    by_cases hc : c = '-'
    · subst hc
      cases g with
      | strict => exact stopsAtBlank_scanIdentifiers? x y
      | loose =>
        have hwhole := stopsAtBlank_scanIdentifiers? (g := .loose) ('-' :: x) y
        rw [List.cons_append] at hwhole
        simp only [List.cons_append, scanPrerelease?, stopsAtBlank_scanIdentifiers? x y, hwhole]
        cases scanIdentifiers? .loose x <;> rfl
    · cases g with
      | strict => simp [scanPrerelease?, hc]
      | loose =>
        have hwhole := stopsAtBlank_scanIdentifiers? (g := .loose) (c :: x) y
        simpa [scanPrerelease?, hc] using hwhole

/-- A prerelease is scanned up to a blank. -/
lemma scanPrerelease_append_blank (g : Grammar) (x y : Text) :
    g.scanPrerelease (x ++ ' ' :: y) = g.scanPrerelease x ++ ' ' :: y := by
  rw [scanPrerelease, scanPrerelease, stopsAtBlank_scanPrerelease?]
  cases g.scanPrerelease? x <;> rfl

/-! ### Versions -/

/-- A scan of a number or wildcard stops at a blank. -/
lemma stopsAtBlank_scanPart? : StopsAtBlank (scanPart? g) := by
  intro x y
  cases x with
  | nil => rfl
  | cons c x =>
    simp only [List.cons_append, scanPart?]
    split
    · rfl
    · exact stopsAtBlank_scanNumeral? (c :: x) y

lemma StopsAtBlank.afterDot (h : StopsAtBlank scan) : StopsAtBlank (scanAfterDot? scan) := by
  intro x y
  cases x with
  | nil => rfl
  | cons c x =>
    by_cases hc : c = '.'
    · subst hc
      exact h x y
    · simp [scanAfterDot?, hc]

lemma StopsAtBlank.bind (h : StopsAtBlank scan) (h' : StopsAtBlank scan') :
    StopsAtBlank fun cs => (scan cs).bind scan' := by
  intro x y
  simp only [h x y]
  cases scan x with
  | none => rfl
  | some rest => exact h' rest y

lemma scanPartialPatch_append_blank (x y : Text) :
    scanPartialPatch (x ++ ' ' :: y) = scanPartialPatch x ++ ' ' :: y := by
  rw [scanPartialPatch, scanPartialPatch, stopsAtBlank_scanPart?.afterDot]
  cases scanAfterDot? (scanPart? .strict) x with
  | none => rfl
  | some rest => exact scanPrerelease_append_blank .strict rest y

lemma scanPartialMinor_append_blank (x y : Text) :
    scanPartialMinor (x ++ ' ' :: y) = scanPartialMinor x ++ ' ' :: y := by
  rw [scanPartialMinor, scanPartialMinor, stopsAtBlank_scanPart?.afterDot]
  cases scanAfterDot? (scanPart? .strict) x with
  | none => rfl
  | some rest => exact scanPartialPatch_append_blank rest y

lemma StopsAtBlank.map {f : Text → Text} (h : StopsAtBlank scan)
    (hf : ∀ x y, f (x ++ ' ' :: y) = f x ++ ' ' :: y) : StopsAtBlank fun cs => (scan cs).map f := by
  intro x y
  simp only [h x y, Option.map_map]
  congr 1
  funext rest
  exact hf rest y

/-- Behind a text that is not a lead as a whole nothing more is found. -/
theorem scanVersion?_append_blank (hx : x.all isLead = false) (y : Text) :
    scanVersion? (x ++ ' ' :: y) = (scanVersion? x).map (· ++ ' ' :: y) := by
  have hlead : (x ++ ' ' :: y).dropWhile isLead = x.dropWhile isLead ++ ' ' :: y := by
    rw [List.dropWhile_append, if_neg]
    rw [List.isEmpty_iff, List.dropWhile_eq_nil_iff, ← List.all_eq_true, hx]
    exact Bool.false_ne_true
  have hnumeral : StopsAtBlank (scanNumeral? .loose) := stopsAtBlank_scanNumeral?
  have hfull := ((hnumeral.bind hnumeral.afterDot).bind hnumeral.afterDot).map
    (scanPrerelease_append_blank .loose)
  have hpartial := (stopsAtBlank_scanPart? (g := .strict)).map scanPartialMinor_append_blank
  have hversion := hfull.orElse hpartial
  have := hversion (x.dropWhile isLead) y
  simpa only [scanVersion?, scanFull?, scanPartial?, hlead] using this

/-- A lead, with the blank behind it, is a lead of what follows. -/
theorem scanVersion?_lead_append_blank (hx : x.all isLead = true) (y : Text) :
    scanVersion? (x ++ ' ' :: y) = scanVersion? y := by
  have hlead : (x ++ ' ' :: y).dropWhile isLead = y.dropWhile isLead := by
    rw [List.dropWhile_append_of_pos (List.all_eq_true.mp hx),
      List.dropWhile_cons_of_pos (by decide)]
  rw [scanVersion?, scanVersion?, scanFull?, scanFull?, scanPartial?, scanPartial?, hlead]

/-- A version has a digit or a wildcard. -/
lemma scanVersion?_eq_none (h : ∀ c ∈ x, c.isDigit = false ∧ isWildcard c = false) :
    scanVersion? x = none := by
  have hnone : scanNumeral? .loose (x.dropWhile isLead) = none ∧
      scanPart? .strict (x.dropWhile isLead) = none := by
    have hdrop := (List.dropWhile_sublist (l := x) isLead).subset
    cases hx : x.dropWhile isLead with
    | nil => exact ⟨rfl, rfl⟩
    | cons c cs =>
      obtain ⟨hdigit, hwildcard⟩ := h c (hdrop (hx ▸ List.mem_cons_self))
      simp [scanNumeral?, scanPart?, hdigit, hwildcard]
  rw [scanVersion?, scanFull?, scanPartial?, hnone.1, hnone.2]
  rfl

end Grammar

end VersionConstraints
