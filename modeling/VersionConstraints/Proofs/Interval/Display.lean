import VersionConstraints.Proofs.Expression.Rereading
import VersionConstraints.Proofs.Interval.Canonical
import VersionConstraints.Proofs.Interval.Relax

/-!
# Intervals read back

The text of an interval is that of an alternative with one or two comparators. When a normal
interval is read back from it, the bounds are canonical, and a lower bound that restricts nothing is
gone; so the span is the relaxed one.
-/

namespace VersionConstraints

/-! ### Bounds as comparators -/

namespace Bound

variable {b : Bound}

def lowerComparator (b : Bound) : Comparator :=
  .bounded (if b.inclusive then .atLeast else .above) b.version

def upperComparator (b : Bound) : Comparator :=
  .bounded (if b.inclusive then .atMost else .below) b.version

/-- A lower bound is displayed with the text of its comparator. -/
lemma text_lowerComparator (b : Bound) : b.lowerComparator.text = Interval.lowerText b := by
  obtain ⟨v, inclusive⟩ := b
  cases inclusive <;> rfl

/-- An upper bound is displayed with the text of its comparator. -/
lemma text_upperComparator (b : Bound) : b.upperComparator.text = Interval.upperText b := by
  obtain ⟨v, inclusive⟩ := b
  cases inclusive <;> rfl

lemma lowerComparator_ne_any (b : Bound) : b.lowerComparator ≠ .any := by
  rw [lowerComparator]
  exact nofun

lemma upperComparator_ne_any (b : Bound) : b.upperComparator ≠ .any := by
  rw [upperComparator]
  exact nofun

@[simp] lemma lower?_lowerComparator (b : Bound) : b.lowerComparator.lower? = some b := by
  obtain ⟨v, inclusive⟩ := b
  cases inclusive <;> rfl

@[simp] lemma upper?_lowerComparator (b : Bound) : b.lowerComparator.upper? = none := by
  obtain ⟨v, inclusive⟩ := b
  cases inclusive <;> rfl

@[simp] lemma lower?_upperComparator (b : Bound) : b.upperComparator.lower? = none := by
  obtain ⟨v, inclusive⟩ := b
  cases inclusive <;> rfl

@[simp] lemma upper?_upperComparator (b : Bound) : b.upperComparator.upper? = some b := by
  obtain ⟨v, inclusive⟩ := b
  cases inclusive <;> rfl

@[simp] lemma prereleaseOf?_lowerComparator (b : Bound) :
    b.lowerComparator.prereleaseOf? = b.prereleaseOf? := rfl

@[simp] lemma prereleaseOf?_upperComparator (b : Bound) :
    b.upperComparator.prereleaseOf? = b.prereleaseOf? := rfl

/-! ### Lower bounds that restrict nothing -/

lemma release_text_zero : Release.text .zero = tripleText zeroText zeroText zeroText := by decide

/-- Whether a lower bound is displayed as a comparator that is read back as the unrestricted one. -/
def IsIdle (b : Bound) : Prop :=
  Interval.lowerText b = Expression.fromZeroText

instance (b : Bound) : Decidable b.IsIdle :=
  inferInstanceAs (Decidable (_ = _))

lemma IsIdle.canonical_eq (h : b.IsIdle) (hb : b.version.Comparable) :
    b.canonical = ⟨.ofRelease .zero, true⟩ := by
  obtain ⟨v, inclusive⟩ := b
  cases inclusive with
  | false =>
    obtain ⟨d, ds, hds, hd⟩ := v.text_eq_cons
    have htext : '>' :: v.text = Expression.fromZeroText := h
    rw [hds] at htext
    obtain ⟨rfl, -⟩ := List.cons.inj (List.cons.inj htext).2
    cases hd
  | true =>
    have htext : '>' :: '=' :: v.text = Expression.fromZeroText := h
    have hread := hb.ofText_text
    have hzero : Semver.ofText .strict (Release.text .zero) = .ok (.ofRelease .zero) := by decide
    rw [(List.cons.inj (List.cons.inj htext).2).2, ← release_text_zero, hzero] at hread
    rw [canonical, ← Except.ok.inj hread]

/-- An idle lower bound is at the cut before the lowest release. -/
lemma isIdle_iff (hb : b.version.Comparable) :
    b.IsIdle ↔ b.lowerCut = .before (.ofRelease .zero) := by
  constructor
  · intro h
    have hcut : b.lowerCut = b.canonical.lowerCut := rfl
    rw [hcut, h.canonical_eq hb]
    rfl
  · intro h
    obtain ⟨hplace, hinclusive⟩ := Cut.beside_inj.mp h
    obtain ⟨hrelease, hranks⟩ := Prod.mk.inj (toLex.injective hplace)
    have hnil : b.version.prerelease = [] := by
      cases hp : b.version.prerelease with
      | nil => rfl
      | cons a as =>
        rw [hp] at hranks
        cases hranks
    have htext : b.version.text = tripleText zeroText zeroText zeroText := by
      rw [Semver.text_eq, hnil, hrelease]
      decide
    have hinclusive' : b.inclusive = true := by simpa using hinclusive
    rw [IsIdle, Interval.lowerText, hinclusive', if_pos rfl, htext]
    rfl

/-- A lower bound is read back as its canonical form, or as no restriction if it is idle. -/
lemma reread_lowerComparator (b : Bound) :
    b.lowerComparator.reread = if b.IsIdle then .any else b.canonical.lowerComparator := by
  have htext := b.text_lowerComparator
  rw [lowerComparator] at htext ⊢
  rw [Comparator.reread, htext]
  rfl

/-- An upper bound is read back as its canonical form. -/
lemma reread_upperComparator (b : Bound) :
    b.upperComparator.reread = b.canonical.upperComparator := by
  have hne : b.upperComparator.text ≠ Expression.fromZeroText := by
    obtain ⟨v, inclusive⟩ := b
    cases inclusive <;> exact nofun
  rw [upperComparator] at hne ⊢
  rw [Comparator.reread, if_neg hne]
  rfl

/-- Nothing is below an upper bound that is displayed as the comparator that nothing satisfies. -/
lemma upperCut_of_isNull (hb : b.version.Comparable) (h : b.upperComparator.isNull = true) :
    b.upperCut = .before (.lowest .zero) := by
  have htext := beq_iff_eq.mp h
  rw [text_upperComparator, Interval.upperText] at htext
  cases hinclusive : b.inclusive with
  | true =>
    rw [hinclusive, if_pos rfl] at htext
    cases (List.cons.inj (List.cons.inj htext).2).1
  | false =>
    rw [hinclusive, if_neg Bool.false_ne_true] at htext
    have hread := hb.ofText_text
    have hlowest : Semver.ofText .strict ['0', '.', '0', '.', '0', '-', '0'] =
        .ok (.lowestPrerelease .zero) := by decide
    have htext' : b.version.text = ['0', '.', '0', '.', '0', '-', '0'] := (List.cons.inj htext).2
    rw [htext', hlowest] at hread
    have hplace : b.version.precedence = b.version.canonical.precedence := rfl
    rw [upperCut, hinclusive, hplace, ← Except.ok.inj hread, Semver.precedence_lowestPrerelease]
    rfl

end Bound

namespace Interval

variable {i k : Interval} {a : Alternative} {lower upper : Bound} {v : Semver} {r : Release}

/-! ### The comparators of an interval -/

def ends (i : Interval) : Alternative :=
  match i.lower, i.upper with
  | none, none             => [.any]
  | some lower, none       => [lower.lowerComparator]
  | none, some upper       => [upper.upperComparator]
  | some lower, some upper => [lower.lowerComparator, upper.upperComparator]

@[simp] lemma ends_none : ends ⟨none, none⟩ = [.any] := rfl

@[simp] lemma ends_lower : ends ⟨some lower, none⟩ = [lower.lowerComparator] := rfl

@[simp] lemma ends_upper : ends ⟨none, some upper⟩ = [upper.upperComparator] := rfl

@[simp] lemma ends_both :
    ends ⟨some lower, some upper⟩ = [lower.lowerComparator, upper.upperComparator] := rfl

/-- The comparators that an interval is displayed with. -/
def comparators (i : Interval) : Except Fault Alternative :=
  match i.lower, i.upper with
  | some lower, some upper => do
    if ← isExact lower upper then return [.bounded .equal lower.version]
    else return i.ends
  | _, _                   => .ok i.ends

/-- The text of an interval is that of its comparators. -/
lemma text_of_comparators (h : i.comparators = .ok a) : i.text = .ok a.display := by
  obtain ⟨x, y⟩ := i
  cases x with
  | none =>
    cases y with
    | none =>
      cases h
      rfl
    | some upper =>
      cases h
      rw [ends_upper, Alternative.display_singleton upper.upperComparator_ne_any,
        upper.text_upperComparator]
      rfl
  | some lower =>
    cases y with
    | none =>
      cases h
      rw [ends_lower, Alternative.display_singleton lower.lowerComparator_ne_any,
        lower.text_lowerComparator]
      rfl
    | some upper =>
      obtain ⟨exact, hexact, h⟩ := bind_eq_ok.mp h
      simp only [text, hexact, ok_bind]
      cases exact with
      | true =>
        cases h
        exact congrArg Except.ok (Alternative.display_singleton (c := .bounded .equal _) nofun).symm
      | false =>
        cases h
        rw [if_neg Bool.false_ne_true, ends_both, Alternative.display_pair,
          lower.text_lowerComparator, upper.text_upperComparator]
        rfl

/-- An interval with two bounds is displayed as one version if they leave exactly one place. -/
lemma isExact_spec (hlower : lower.version.Regular) (hupper : upper.version.Regular) :
    Yields (isExact lower upper) fun ok =>
      ok = true ↔ ∃ p, lower.lowerCut = .before p ∧ upper.upperCut = .behind p := by
  have hcuts : (∃ p, lower.lowerCut = .before p ∧ upper.upperCut = .behind p) ↔
      (lower.inclusive = true ∧ upper.inclusive = true) ∧
        lower.version.precedence = upper.version.precedence := by
    constructor
    · rintro ⟨p, hp, hp'⟩
      obtain ⟨rfl, hl⟩ := Cut.beside_inj.mp hp
      obtain ⟨heq, hu⟩ := Cut.beside_inj.mp hp'
      exact ⟨⟨by simpa using hl, hu⟩, heq.symm⟩
    · rintro ⟨⟨hl, hu⟩, heq⟩
      refine ⟨lower.version.precedence, Cut.beside_inj.mpr ⟨rfl, ?_⟩,
        Cut.beside_inj.mpr ⟨heq.symm, hu⟩⟩
      rw [hl, Bool.not_true]
  rw [isExact]
  split
  · next hinclusive =>
    apply (hlower.toComparable.compare_spec hupper).bind
    intro o ho
    refine .ok ?_
    rw [beq_iff_eq, hcuts, and_iff_right ((Bool.and_eq_true _ _).mp hinclusive)]
    exact ho.eq_eq
  · next hinclusive =>
    refine .ok (iff_of_false Bool.false_ne_true fun h => hinclusive ?_)
    exact (Bool.and_eq_true _ _).mpr (hcuts.mp h).1

/-! ### Folding the comparators back -/

/-- The comparators of the bounds of a normal interval are folded into the interval. -/
theorem ofAlternative_ends (h : i.Normal) : ofAlternative i.ends = .ok (some i) := by
  have htighten : tightenAll ⟨none, none⟩ i.ends = .ok i := by
    obtain ⟨x, y⟩ := i
    have hany : Comparator.lower? .any = none ∧ Comparator.upper? .any = none := ⟨rfl, rfl⟩
    cases x <;> cases y <;>
      simp [tightenAll, tighten_eq, Bound.tighterLower, Bound.tighterUpper, hany]
  have hnames : ∀ r, r ∈ prereleasesOfComparators i.ends ↔ r ∈ i.prereleasesOf := by
    intro r
    rw [mem_prereleasesOfComparators, mem_prereleasesOf_iff]
    obtain ⟨x, y⟩ := i
    have hany : Comparator.prereleaseOf? .any = none := rfl
    cases x <;> cases y <;> simp [hany]
  rw [ofAlternative, htighten, ok_bind]
  exact h.normalize_eq hnames

/-- The comparator of one version gives the interval of that version. -/
lemma ofAlternative_equal (hv : v.Comparable) :
    ofAlternative [.bounded .equal v] = .ok (some (exact v)) := by
  have hnames : ∀ r, r ∈ prereleasesOfComparators [.bounded .equal v] ↔
      r ∈ (exact v).prereleasesOf := by
    intro r
    rw [mem_prereleasesOfComparators, mem_prereleasesOf_iff]
    simp [exact, Comparator.prereleaseOf?, Bound.prereleaseOf?]
  exact (normal_exact hv).normalize_eq hnames

/-! ### Reading back -/

/-- The interval that is read back from the comparators of the bounds: they are canonical, and an
idle lower bound is gone. -/
def readBack (i : Interval) : Interval :=
  ⟨(i.lower.filter (¬ ·.IsIdle)).map Bound.canonical, i.upper.map Bound.canonical⟩

/-- An idle lower bound is lost when an interval is read back. -/
lemma readBack_of_isIdle {y : Option Bound} (h : lower.IsIdle) :
    readBack ⟨some lower, y⟩ = ⟨none, y.map Bound.canonical⟩ := by
  simp [readBack, Option.filter, h]

/-- A lower bound that is not idle is kept when an interval is read back. -/
lemma readBack_of_not_isIdle {y : Option Bound} (h : ¬ lower.IsIdle) :
    readBack ⟨some lower, y⟩ = ⟨some lower.canonical, y.map Bound.canonical⟩ := by
  simp [readBack, Option.filter, h]

/-- Whether the comparator of the upper bound is not one that nothing satisfies. -/
def Satisfiable (i : Interval) : Prop :=
  ∀ b ∈ i.upper, b.upperComparator.isNull = false

lemma isNull_lowerComparator (b : Bound) : b.lowerComparator.isNull = false := by
  rw [Comparator.isNull, Bound.text_lowerComparator, beq_eq_false_iff_ne]
  cases hb : b.inclusive <;> simp [lowerText, hb, Operator.text]

lemma isNull_reread_lowerComparator (b : Bound) : b.lowerComparator.reread.isNull = false := by
  rw [b.reread_lowerComparator]
  split
  · decide
  · exact isNull_lowerComparator b.canonical

/-- The comparators of a satisfiable interval do not stand for nothing. -/
lemma isNull_ends (h : i.Satisfiable) : i.ends.isNull = false := by
  obtain ⟨x, y⟩ := i
  cases x with
  | none =>
    cases y with
    | none => rfl
    | some upper => exact h upper rfl
  | some lower =>
    cases y with
    | none => exact isNull_lowerComparator lower
    | some upper => exact isNull_lowerComparator lower

/-- The comparators of a lower and of an upper bound have different texts. -/
lemma text_reread_ne (lower upper : Bound) :
    upper.upperComparator.reread.text ≠ lower.lowerComparator.reread.text := by
  rw [lower.reread_lowerComparator, upper.reread_upperComparator, Bound.text_upperComparator]
  split
  · cases hu : upper.canonical.inclusive <;> simp [upperText, hu, Operator.text, Comparator.text]
  · rw [Bound.text_lowerComparator]
    cases hu : upper.canonical.inclusive <;> cases hl : lower.canonical.inclusive <;>
      simp [upperText, lowerText, hu, hl, Operator.text]

/-- The comparators of the bounds are read back as those of the interval that is read back. -/
lemma reread_ends (h : i.Satisfiable) : i.ends.reread = i.readBack.ends := by
  obtain ⟨x, y⟩ := i
  cases x with
  | none =>
    cases y with
    | none => rfl
    | some upper =>
      rw [ends_upper, Alternative.reread, List.map_singleton, Alternative.simplify_singleton,
        upper.reread_upperComparator]
      rfl
  | some lower =>
    cases y with
    | none =>
      rw [ends_lower, Alternative.reread, List.map_singleton, Alternative.simplify_singleton,
        lower.reread_lowerComparator]
      by_cases hidle : lower.IsIdle
      · rw [if_pos hidle, readBack_of_isIdle hidle]
        rfl
      · rw [if_neg hidle, readBack_of_not_isIdle hidle]
        rfl
    | some upper =>
      have hnull : upper.upperComparator.reread.isNull = false := by
        rw [upper.reread_upperComparator]
        exact h upper rfl
      rw [ends_both, Alternative.reread, List.map_cons, List.map_singleton,
        Alternative.simplify_pair (isNull_reread_lowerComparator lower) hnull
          (text_reread_ne lower upper),
        lower.reread_lowerComparator, upper.reread_upperComparator]
      have hany : Comparator.isAny .any = true := rfl
      have hupper := Comparator.isAny_eq_false.mpr upper.canonical.upperComparator_ne_any
      have hlower := Comparator.isAny_eq_false.mpr lower.canonical.lowerComparator_ne_any
      by_cases hidle : lower.IsIdle
      · rw [if_pos hidle, readBack_of_isIdle hidle]
        simp [hany, hupper]
      · rw [if_neg hidle, readBack_of_not_isIdle hidle]
        simp [hlower, hupper]

lemma Regular.readBack (h : i.Regular) : i.readBack.Regular := by
  refine ⟨?_, h.upper.canonical⟩
  intro b hb
  obtain ⟨c, hc, rfl⟩ := Option.map_eq_some_iff.mp hb
  exact (h.lower c (Option.filter_eq_some_iff.mp hc).1).canonical

/-- A lower bound at the lowest release can be left out of a normal interval. -/
lemma Normal.of_zero {y : Option Bound} (h : Normal ⟨some ⟨.ofRelease .zero, true⟩, y⟩) :
    Normal ⟨none, y⟩ := by
  have hnames : prereleasesOf ⟨some ⟨.ofRelease .zero, true⟩, y⟩ = prereleasesOf ⟨none, y⟩ := rfl
  constructor
  · intro r hr
    have hadmits := h.prerelease r (hnames ▸ hr)
    rw [admitsPrereleaseOf, lowestPrerelease?,
      if_neg (Bound.prereleaseOf?_ofRelease_ne .zero r true)] at hadmits
    obtain ⟨o, ho, hadmits⟩ := bind_eq_ok.mp hadmits
    obtain ⟨above, -, ho⟩ := bind_eq_ok.mp ho
    cases above with
    | true =>
      cases ho
      exact hadmits
    | false =>
      cases ho
      cases hadmits
  · intro hnil
    exact h.release (hnames.trans hnil)

/-- What is read back of a normal interval is normal. -/
theorem Normal.readBack (h : i.Normal) (hi : i.Comparable) : i.readBack.Normal := by
  have hcanonical := h.canonical hi
  obtain ⟨x, y⟩ := i
  cases x with
  | none => exact hcanonical
  | some lower =>
    by_cases hidle : lower.IsIdle
    · rw [readBack_of_isIdle hidle]
      refine Normal.of_zero ?_
      rw [← hidle.canonical_eq (hi.lower lower rfl)]
      exact hcanonical
    · rw [readBack_of_not_isIdle hidle]
      exact hcanonical

/-- What is read back of an interval has the relaxed span, if the interval is not displayed as one
version. -/
lemma span_readBack (hi : i.Regular)
    (hne : ¬ ∃ p, i.span.lower = .before p ∧ i.span.upper = .behind p) :
    i.readBack.span = i.span.relax := by
  have hcanonical := i.span_canonical
  obtain ⟨x, y⟩ := i
  cases x with
  | none =>
    have hzero : ¬ (span ⟨none, y⟩).FromZero := fun h => absurd h.1 Cut.bot_lt_beside.ne
    rw [Span.relax_of_not_fromZero hzero]
    exact hcanonical
  | some lower =>
    have hidle_iff := Bound.isIdle_iff (hi.lower lower rfl).toComparable
    by_cases hidle : lower.IsIdle
    · have hlower := hidle_iff.mp hidle
      have hzero : (span ⟨some lower, y⟩).FromZero := ⟨hlower, fun hu => hne ⟨_, hlower, hu⟩⟩
      rw [readBack_of_isIdle hidle, Span.relax_of_fromZero hzero]
      exact congrArg (Span.of ⊥) (Bound.upperCut?_canonical y)
    · have hzero : ¬ (span ⟨some lower, y⟩).FromZero := fun h => hidle (hidle_iff.mpr h.1)
      rw [readBack_of_not_isIdle hidle, Span.relax_of_not_fromZero hzero]
      exact hcanonical

/-- What holds of an interval, the comparators that it is displayed with and the interval that is
read back. -/
structure Displays (i : Interval) (a : Alternative) (k : Interval) : Prop where
  comparators : i.comparators = .ok a
  readable : a.Readable
  isNull : a.reread.isNull = false
  ofAlternative : ofAlternative a.reread = .ok (some k)
  regular : k.Regular
  span : k.span = i.span.relax

/-- The comparators of comparable bounds are read back. -/
lemma readable_ends (hi : i.Comparable) : i.ends.Readable := by
  obtain ⟨x, y⟩ := i
  have hlower (b : Bound) (hb : b.version.Comparable) :
      ∃ o v, b.lowerComparator = .bounded o v ∧ v.Comparable := ⟨_, _, rfl, hb⟩
  have hupper (b : Bound) (hb : b.version.Comparable) :
      ∃ o v, b.upperComparator = .bounded o v ∧ v.Comparable := ⟨_, _, rfl, hb⟩
  cases x with
  | none =>
    cases y with
    | none => exact .inl rfl
    | some upper =>
      exact .inr ⟨List.cons_ne_nil _ _, List.forall_mem_singleton.mpr (hupper _ (hi.upper _ rfl))⟩
  | some lower =>
    cases y with
    | none =>
      exact .inr ⟨List.cons_ne_nil _ _, List.forall_mem_singleton.mpr (hlower _ (hi.lower _ rfl))⟩
    | some upper =>
      exact .inr ⟨List.cons_ne_nil _ _, List.forall_mem_cons.mpr ⟨hlower _ (hi.lower _ rfl),
        List.forall_mem_singleton.mpr (hupper _ (hi.upper _ rfl))⟩⟩

/-- The upper bound of a normal interval with regular bounds lets something in. -/
lemma Normal.satisfiable (h : i.Normal) (hi : i.Regular) : i.Satisfiable := by
  intro b hb
  rw [← Bool.not_eq_true]
  intro hnull
  obtain ⟨w, -, ⟨-, hw⟩, -⟩ := h.exists_holds hi
  have hupper : i.span.upper = b.upperCut := congrArg Bound.upperCut? hb
  rw [hupper, Bound.upperCut_of_isNull (hi.upper b hb).toComparable hnull] at hw
  exact absurd (Precedence.lowest_zero_le _) (not_le.mpr (Cut.before_lt_before.mp hw))

/-- What is read back of a satisfiable interval is satisfiable. -/
lemma Satisfiable.readBack (h : i.Satisfiable) : i.readBack.Satisfiable := by
  intro b hb
  obtain ⟨c, hc, rfl⟩ := Option.map_eq_some_iff.mp hb
  exact h c hc

/-- An interval that leaves one version is displayed as that version. -/
lemma displays_exact (hlower : lower.version.Regular)
    (hc : comparators ⟨some lower, some upper⟩ = .ok [.bounded .equal lower.version])
    (hexact : ∃ p, lower.lowerCut = .before p ∧ upper.upperCut = .behind p) :
    Displays ⟨some lower, some upper⟩ [.bounded .equal lower.version]
      (exact lower.version.canonical) := by
  obtain ⟨d, ds, hds, hd⟩ := lower.version.text_eq_cons
  have htext : (Comparator.bounded .equal lower.version).text = d :: ds := hds
  have hne {c : Char} {cs : Text} (hc : c.isDigit = false) : d :: ds ≠ c :: cs := by
    rintro ⟨⟩
    rw [hd] at hc
    cases hc
  have hzero : d :: ds ≠ Expression.fromZeroText := hne (by decide)
  have hreread : Alternative.reread [.bounded .equal lower.version] =
      [.bounded .equal lower.version.canonical] := by
    rw [Alternative.reread, List.map_singleton, Alternative.simplify_singleton, Comparator.reread,
      htext, if_neg hzero]
  have hcomparable := hlower.toComparable.canonical
  obtain ⟨p, hp, hp'⟩ := hexact
  constructor
  · exact hc
  · exact .inr ⟨List.cons_ne_nil _ _,
      List.forall_mem_singleton.mpr ⟨_, _, rfl, hlower.toComparable⟩⟩
  · rw [hreread]
    exact beq_eq_false_iff_ne.mpr (htext ▸ hne (by decide))
  · rw [hreread]
    exact ofAlternative_equal hcomparable
  · exact regular_exact hlower.canonical
  · have hspan : span ⟨some lower, some upper⟩ = .of (.before p) (.behind p) :=
      congrArg₂ Span.of hp hp'
    have hplace : lower.version.canonical.precedence = p := (Cut.beside_inj.mp hp).1
    rw [hspan, Span.relax_of_not_fromZero]
    · rw [← hplace]
      rfl
    · rintro ⟨hzero, hupper⟩
      exact hupper (congrArg Cut.behind (Cut.beside_inj.mp hzero).1)

/-- A normal interval with regular bounds is displayed and read back. -/
theorem Normal.exists_displays (h : i.Normal) (hi : i.Regular) : ∃ a k, Displays i a k := by
  have hsatisfiable := h.satisfiable hi
  have hreread := reread_ends hsatisfiable
  have displays_ends (hc : i.comparators = .ok i.ends)
      (hne : ¬ ∃ p, i.span.lower = .before p ∧ i.span.upper = .behind p) :
      Displays i i.ends i.readBack :=
    { comparators := hc
      readable := readable_ends hi.comparable
      isNull := hreread ▸ isNull_ends hsatisfiable.readBack
      ofAlternative := hreread ▸ ofAlternative_ends (h.readBack hi.comparable)
      regular := hi.readBack
      span := span_readBack hi hne }
  obtain ⟨x, y⟩ := i
  cases x with
  | none =>
    refine ⟨_, _, displays_ends rfl ?_⟩
    rintro ⟨p, hp, -⟩
    exact Cut.bot_lt_beside.ne hp
  | some lower =>
    cases y with
    | none =>
      refine ⟨_, _, displays_ends rfl ?_⟩
      rintro ⟨p, -, hp⟩
      exact Cut.beside_lt_top.ne' hp
    | some upper =>
      have hlower : lower.version.Regular := hi.lower lower rfl
      obtain ⟨ok, hok, hspec⟩ := isExact_spec hlower (hi.upper upper rfl)
      have hc : comparators ⟨some lower, some upper⟩ =
          if ok then .ok [.bounded .equal lower.version]
          else .ok (ends ⟨some lower, some upper⟩) := by
        simp only [comparators, hok, ok_bind, pure_eq_ok]
      cases ok with
      | true => exact ⟨_, _, displays_exact hlower hc (hspec.mp rfl)⟩
      | false => exact ⟨_, _, displays_ends hc (mt hspec.mpr Bool.false_ne_true)⟩

end Interval

end VersionConstraints
