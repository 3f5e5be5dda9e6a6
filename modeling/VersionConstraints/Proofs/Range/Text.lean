import VersionConstraints.Proofs.Range.Display

/-!
# Texts of ranges

The canonical text of a version tells its release and its prerelease. The text of a comparator tells
its operator besides, and the text of an interval tells the comparators that it is displayed with.
These have the bounds of the interval between them; so the text of a range determines the spans of
its intervals, whether or not they are normal or in order, as the spans determine the text.
-/

namespace VersionConstraints

/-! ### Comparators -/

namespace Comparator

variable {c d : Comparator}

lemma span_bounded_canonical (o : Operator) (v : Semver) :
    (bounded o v.canonical).span = (bounded o v).span := by
  cases o <;> rfl

/-- The text of a comparator tells its bounds. -/
lemma span_eq_of_text_eq (hc : c.Regular) (hd : d.Regular) (h : c.text = d.text) :
    c.span = d.span := by
  have hne (o : Operator) {v : Semver} (hv : v.Regular) : (bounded o v).text ≠ [] :=
    (hv.wellFormed.piece o).ne_nil
  cases c with
  | any =>
    cases d with
    | any => rfl
    | bounded p w => exact absurd h.symm (hne p hd)
  | bounded o v =>
    cases d with
    | any => exact absurd h (hne o hc)
    | bounded p w =>
      have hsplit : Operator.split (o.text ++ v.text) = Operator.split (p.text ++ w.text) :=
        congrArg Operator.split h
      rw [Operator.split_text, Operator.split_text] at hsplit
      obtain ⟨rfl, htext⟩ := Prod.mk.inj hsplit
      have hcanonical := hc.toComparable.canonical_eq_of_text_eq hd.toComparable htext
      rw [← span_bounded_canonical o v, hcanonical, span_bounded_canonical]

end Comparator

lemma map_eq_map_of_forall {α β γ : Type} {f : α → β} {g : α → γ} {as bs : List α}
    (h : ∀ a ∈ as, ∀ b ∈ bs, f a = f b → g a = g b) (heq : as.map f = bs.map f) :
    as.map g = bs.map g := by
  induction as generalizing bs with
  | nil => rw [List.map_eq_nil_iff.mp heq.symm]
  | cons a as ih =>
    cases bs with
    | nil => cases heq
    | cons b bs =>
      obtain ⟨hab, hrest⟩ := List.cons.inj heq
      rw [List.map_cons, List.map_cons, h a List.mem_cons_self b List.mem_cons_self hab,
        ih (fun a ha b hb => h a (List.mem_cons_of_mem _ ha) b (List.mem_cons_of_mem _ hb)) hrest]

namespace Alternative

variable {a b : Alternative}

/-- The cuts between which all comparators of an alternative leave something. -/
noncomputable def span (a : Alternative) : Span :=
  (a.map Comparator.span).foldr
    (fun s t => .of (max s.lower t.lower) (min s.upper t.upper)) .unrestricted

lemma span_singleton (c : Comparator) : span [c] = c.span :=
  Span.ext (max_eq_left bot_le) (min_eq_left le_top)

/-- The text of an alternative tells the texts of its comparators. -/
lemma map_text_eq_of_display_eq (ha : a.Readable) (hb : b.Readable) (h : a.display = b.display) :
    a.map Comparator.text = b.map Comparator.text := by
  have hstar {a : Alternative} (hne : a ≠ [])
      (ha : ∀ c ∈ a, ∃ o v, c = .bounded o v ∧ v.Comparable) :
      a ≠ [.any] ∧ a.display ≠ ['*'] ∧ a.display.splitOn ' ' = a.map Comparator.text := by
    have hpiece := Readable.piece ha
    have hany : a ≠ [.any] := by
      rintro rfl
      obtain ⟨o, v, heq, -⟩ := ha .any List.mem_cons_self
      cases heq
    refine ⟨hany, ?_, ?_⟩
    · intro heq
      have hnot := (Piece.written_intercalate hpiece).not_mem (c := '*') (by decide) (by decide)
      rw [display_of_ne hany, text] at heq
      exact hnot (heq ▸ List.mem_singleton_self _)
    · rw [display_of_ne hany]
      exact List.splitOn_intercalate ' ' (fun t ht => (hpiece t ht).not_mem (by decide))
        (by simpa using hne)
  rcases ha with rfl | ⟨hne, ha⟩
  · rcases hb with rfl | ⟨hne', hb⟩
    · rfl
    · exact absurd h.symm (hstar hne' hb).2.1
  · obtain ⟨-, hnot, hsplit⟩ := hstar hne ha
    rcases hb with rfl | ⟨hne', hb⟩
    · exact absurd h hnot
    · rw [← hsplit, h, (hstar hne' hb).2.2]

/-- Alternatives that are displayed alike have the same span. -/
lemma span_eq_of_display_eq (ha : a.Readable) (hb : b.Readable) (hra : ∀ c ∈ a, c.Regular)
    (hrb : ∀ c ∈ b, c.Regular) (h : a.display = b.display) : a.span = b.span := by
  have hspans : a.map Comparator.span = b.map Comparator.span :=
    map_eq_map_of_forall (fun c hc d hd => Comparator.span_eq_of_text_eq (hra c hc) (hrb d hd))
      (map_text_eq_of_display_eq ha hb h)
  rw [span, span, hspans]

end Alternative

/-! ### Intervals -/

namespace Interval

variable {i j : Interval}

lemma regular_ends (hi : i.Regular) : ∀ c ∈ i.ends, c.Regular := by
  obtain ⟨hlower, hupper⟩ := hi
  obtain ⟨x, y⟩ := i
  cases x with
  | none =>
    cases y with
    | none => exact List.forall_mem_singleton.mpr trivial
    | some upper => exact List.forall_mem_singleton.mpr (hupper upper rfl)
  | some lower =>
    cases y with
    | none => exact List.forall_mem_singleton.mpr (hlower lower rfl)
    | some upper =>
      exact List.forall_mem_cons.mpr
        ⟨hlower lower rfl, List.forall_mem_singleton.mpr (hupper upper rfl)⟩

/-- The comparators of the bounds of an interval leave what is between the bounds. -/
lemma span_ends (i : Interval) : i.ends.span = i.span := by
  have hlower (b : Bound) : b.lowerComparator.span = .of b.lowerCut ⊤ := by
    rw [Comparator.span, b.lower?_lowerComparator, b.upper?_lowerComparator]
    rfl
  have hupper (b : Bound) : b.upperComparator.span = .of ⊥ b.upperCut := by
    rw [Comparator.span, b.lower?_upperComparator, b.upper?_upperComparator]
    rfl
  obtain ⟨x, y⟩ := i
  cases x with
  | none =>
    cases y with
    | none => exact Alternative.span_singleton _
    | some upper => rw [ends_upper, Alternative.span_singleton, hupper]; rfl
  | some lower =>
    cases y with
    | none => rw [ends_lower, Alternative.span_singleton, hlower]; rfl
    | some upper =>
      rw [ends_both, Alternative.span, List.map_cons, List.map_singleton, hlower, hupper]
      exact Span.ext (max_eq_left bot_le)
        ((min_eq_right le_top).trans (min_eq_left le_top))

/-- An interval with regular bounds is displayed with comparators that can be read back and leave
what is between its bounds. -/
lemma exists_comparators (hi : i.Regular) : ∃ a, i.comparators = .ok a ∧ a.Readable ∧
    (∀ c ∈ a, c.Regular) ∧ a.span = i.span := by
  have hends (h : i.comparators = .ok i.ends) : ∃ a, i.comparators = .ok a ∧ a.Readable ∧
      (∀ c ∈ a, c.Regular) ∧ a.span = i.span :=
    ⟨_, h, readable_ends hi.comparable, regular_ends hi, i.span_ends⟩
  obtain ⟨x, y⟩ := i
  cases x with
  | none => exact hends rfl
  | some lower =>
    cases y with
    | none => exact hends rfl
    | some upper =>
      have hlower : lower.version.Regular := hi.lower lower rfl
      obtain ⟨exact, hexact, hspec⟩ := isExact_spec hlower (hi.upper upper rfl)
      cases exact with
      | false => exact hends (by simp only [comparators, hexact, ok_bind]; rfl)
      | true =>
        obtain ⟨p, hp, hp'⟩ := hspec.mp rfl
        refine ⟨[.bounded .equal lower.version], ?_, ?_, ?_, ?_⟩
        · simp only [comparators, hexact, ok_bind]
          rfl
        · exact .inr ⟨List.cons_ne_nil _ _,
            List.forall_mem_singleton.mpr ⟨_, _, rfl, hlower.toComparable⟩⟩
        · exact List.forall_mem_singleton.mpr hlower
        · have hplace : lower.version.precedence = p := (Cut.beside_inj.mp hp).1
          have hspan : span ⟨some lower, some upper⟩ = .of (.before p) (.behind p) :=
            congrArg₂ Span.of hp hp'
          rw [Alternative.span_singleton, hspan, ← hplace]
          rfl

/-- Intervals with one text have one span. -/
theorem span_eq_of_text_eq (hi : i.Regular) (hj : j.Regular) (h : i.text = j.text) :
    i.span = j.span := by
  obtain ⟨a, ha, hreadable, hregular, hspan⟩ := exists_comparators hi
  obtain ⟨b, hb, hreadable', hregular', hspan'⟩ := exists_comparators hj
  rw [text_of_comparators ha, text_of_comparators hb, Except.ok.injEq] at h
  rw [← hspan, ← hspan', Alternative.span_eq_of_display_eq hreadable hreadable' hregular hregular' h]

end Interval

/-! ### Ranges -/

namespace Range

variable {is js : Range}

/-- Ranges with one text have the same spans in the same order. -/
lemma map_span_eq_of_display_eq {f : Interval → Alternative}
    (hf : ∀ i : Interval, i.Regular → i.comparators = .ok (f i) ∧ (f i).Readable)
    (his : is.Regular) (hjs : js.Regular)
    (h : Expression.display [' '] (is.map f) = Expression.display [' '] (js.map f)) :
    is.map Interval.span = js.map Interval.span := by
  have hreadable {ks : Range} (hks : ks.Regular) (hne : ks ≠ []) :
      Expression.Readable (ks.map f) := by
    refine ⟨by simpa using hne, fun a ha => ?_⟩
    obtain ⟨k, hk, rfl⟩ := List.mem_map.mp ha
    exact (hf k (hks k hk)).2
  have hne {ks : Range} (hks : ks.Regular) (hne : ks ≠ []) :
      Expression.display [' '] (ks.map f) ≠ [] :=
    ((hreadable hks hne).wellFormed.tidy_display (.inr rfl)).ne_nil
  by_cases hnil : is = []
  · by_cases hnil' : js = []
    · rw [hnil, hnil']
    · rw [hnil] at h
      exact absurd h.symm (hne hjs hnil')
  · by_cases hnil' : js = []
    · rw [hnil'] at h
      exact absurd h (hne his hnil)
    · have hblank : ∀ c ∈ [' '], isBlank c = true := List.forall_mem_singleton.mpr (by decide)
      have hparts := (hreadable his hnil).wellFormed.splitBars_display hblank
      rw [h, (hreadable hjs hnil').wellFormed.splitBars_display hblank, List.map_map, List.map_map] at hparts
      refine map_eq_map_of_forall (fun i hi j hj hij => ?_) hparts.symm
      refine Interval.span_eq_of_text_eq (his i hi) (hjs j hj) ?_
      rw [Interval.text_of_comparators (hf i (his i hi)).1,
        Interval.text_of_comparators (hf j (hjs j hj)).1]
      exact congrArg Except.ok hij

/-- Ranges with regular bounds have one canonical text if and only if they are equal. -/
theorem text_eq_iff_equal (his : is.Regular) (hjs : js.Regular) : ∃ t u same,
    text is = .ok t ∧ text js = .ok u ∧ equal is js = .ok same ∧ (t = u ↔ same = true) := by
  have hcomparators : ∀ i : Interval, i.Regular → ∃ a, i.comparators = .ok a ∧ a.Readable := by
    intro i hi
    obtain ⟨a, ha, hreadable, -⟩ := Interval.exists_comparators hi
    exact ⟨a, ha, hreadable⟩
  choose! f hf using hcomparators
  have htext {ks : Range} (hks : ks.Regular) :
      text ks = .ok (Expression.display [' '] (ks.map f)) :=
    text_of_comparators fun k hk => (hf k (hks k hk)).1
  obtain ⟨same, hsame, hspec⟩ := equal_spec his hjs
  refine ⟨_, _, same, htext his, htext hjs, hsame, ?_⟩
  rw [hspec]
  constructor
  · exact map_span_eq_of_display_eq hf his hjs
  · intro hspans
    have heq := mapM_text_eq his hjs hspans
    have htexts : text is = text js := by rw [text, text, heq]
    rw [htext his, htext hjs] at htexts
    exact Except.ok.inj htexts

/-- The interval `>=2.0.0 <1.2.0-beta.3`, which holds nothing, and then the one of `Range.sample`. -/
def sampleInverted : Range :=
  ⟨some ⟨.ofRelease ⟨2, 0, 0⟩, true⟩, some ⟨.sample, false⟩⟩ :: sample

theorem text_eq_iff_equal_sample : ∃ t u same, text sample = .ok t ∧ text sampleInverted = .ok u ∧
    equal sample sampleInverted = .ok same ∧ (t = u ↔ same = true) := by
  have hrelease : (Semver.ofRelease ⟨2, 0, 0⟩).Ordinary := Semver.ordinary_ofRelease (by decide)
  have hinverted : sampleInverted.Regular :=
    List.forall_mem_cons.mpr ⟨⟨Bound.regular_some.mpr hrelease.regular,
      Bound.regular_some.mpr Semver.ordinary_sample.regular⟩, regular_sample⟩
  exact text_eq_iff_equal regular_sample hinverted

end Range

end VersionConstraints
