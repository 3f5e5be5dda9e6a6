import VersionConstraints.Proofs.Interval.Reading
import VersionConstraints.Proofs.Range.Normal
import VersionConstraints.Proofs.Range.Rereading

/-!
# Ranges read back

The canonical text of a normal range is read back as a range with the relaxed spans, or with the
unrestricted one alone.
-/

namespace VersionConstraints

namespace Range

variable {is js : Range} {as : List Alternative}

/-! ### Folding alternatives that were read back -/

lemma intervals_map {f : Interval → Alternative} {g : Interval → Interval}
    (h : ∀ i ∈ is, Interval.ofAlternative (f i) = .ok (some (g i))) :
    intervals (is.map f) = .ok (is.map g) := by
  induction is with
  | nil => rfl
  | cons i is ih =>
    obtain ⟨hi, his⟩ := List.forall_mem_cons.mp h
    rw [List.map_cons, intervals, hi, ok_bind, ih his]
    rfl

lemma ofAlternatives_unrestricted : ofAlternatives [[.any]] = .ok [⟨none, none⟩] := by
  decide +kernel

lemma eq_of_span_eq {i : Interval} (h : i.span = Span.unrestricted) : i = ⟨none, none⟩ := by
  obtain ⟨x, y⟩ := i
  cases x with
  | some lower => exact absurd (congrArg Span.lower h) Cut.bot_lt_beside.ne'
  | none =>
    cases y with
    | some upper => exact absurd (congrArg Span.upper h) Cut.beside_lt_top.ne
    | none => rfl

/-- The display of an interval is read as unrestricted if its relaxed span is. -/
lemma reread_eq_any_iff {i k : Interval} {a : Alternative} (h : Interval.Displays i a k) :
    a.reread = [.any] ↔ i.span.relax = Span.unrestricted := by
  have hfold := h.ofAlternative
  rw [← h.span]
  constructor
  · intro heq
    rw [heq] at hfold
    cases hfold
    rfl
  · intro hspan
    rw [eq_of_span_eq hspan] at hfold
    exact Interval.eq_any_of_ofAlternative h.readable.reread hfold

lemma spans_map {f : Span → Span} {g : Interval → Interval}
    (h : ∀ i ∈ is, (g i).span = f i.span) : spans (is.map g) = f '' is.spans := by
  ext s
  constructor
  · rintro ⟨_, hk, rfl⟩
    obtain ⟨i, hi, rfl⟩ := List.mem_map.mp hk
    exact ⟨_, ⟨i, hi, rfl⟩, (h i hi).symm⟩
  · rintro ⟨_, ⟨i, hi, rfl⟩, rfl⟩
    exact ⟨_, List.mem_map.mpr ⟨i, hi, rfl⟩, h i hi⟩

lemma spans_singleton (i : Interval) : spans [i] = {i.span} := by
  ext s
  simp [spans, eq_comm]

/-- The text of a range is that of the comparators of its intervals. -/
lemma text_of_comparators {f : Interval → Alternative}
    (h : ∀ i ∈ is, i.comparators = .ok (f i)) :
    text is = .ok (Expression.display [' '] (is.map f)) := by
  rw [text, mapM_eq_pure_map fun i hi => Interval.text_of_comparators (h i hi),
    Expression.display, List.map_map]
  rfl

section Displays

variable {f : Interval → Alternative} {g : Interval → Interval}
  (h : ∀ i ∈ is, Interval.Displays i (f i) (g i))

include h

/-- The alternatives that intervals are displayed with are folded into the relaxed spans. -/
lemma exists_ofAlternatives_reread : ∃ js, ofAlternatives (Expression.reread (is.map f)) = .ok js ∧
    js.Regular ∧ js.Ascending ∧ js.spans = Span.reread is.spans := by
  have hnull : ∀ a ∈ (is.map f).map Alternative.reread, a.isNull = false := by
    rw [List.map_map, List.forall_mem_map]
    exact fun i hi => (h i hi).isNull
  rw [Expression.reread]
  by_cases hunrestricted : Span.unrestricted ∈ Span.relax '' is.spans
  · have hany : [.any] ∈ (is.map f).map Alternative.reread := by
      obtain ⟨_, ⟨i, hi, rfl⟩, heq⟩ := hunrestricted
      rw [List.map_map]
      exact List.mem_map.mpr ⟨i, hi, (reread_eq_any_iff (h i hi)).mpr heq⟩
    rw [Expression.simplify_eq_of_any_mem hnull hany, ofAlternatives_unrestricted]
    refine ⟨_, rfl, ?_, List.pairwise_singleton _ _, ?_⟩
    · exact List.forall_mem_singleton.mpr ⟨Bound.regular_none, Bound.regular_none⟩
    · rw [Span.reread, if_pos hunrestricted, spans_singleton]
      rfl
  · have hkept : ∀ a ∈ (is.map f).map Alternative.reread, a.isNull = false ∧ a ≠ [.any] := by
      refine fun a ha => ⟨hnull a ha, ?_⟩
      rw [List.map_map] at ha
      obtain ⟨i, hi, rfl⟩ := List.mem_map.mp ha
      exact fun heq => hunrestricted ⟨_, ⟨i, hi, rfl⟩, (reread_eq_any_iff (h i hi)).mp heq⟩
    have hregular : Regular (is.map g) := by
      intro k hk
      obtain ⟨i, hi, rfl⟩ := List.mem_map.mp hk
      exact (h i hi).regular
    obtain ⟨js, hjs, hsub, hasc, hspans⟩ := canonical_spec hregular
    rw [Expression.simplify_eq_self hkept, ofAlternatives, List.map_map,
      intervals_map (f := Alternative.reread ∘ f) fun i hi => (h i hi).ofAlternative, ok_bind, hjs]
    refine ⟨js, rfl, fun j hj => hregular j (hsub j hj), hasc, ?_⟩
    rw [Span.reread, if_neg hunrestricted, hspans, spans_map fun i hi => (h i hi).span]

end Displays

/-- The canonical text of a normal range with regular bounds is read back as a range with the
relaxed spans, or with the unrestricted one alone. -/
theorem exists_ofText_text (his : is.Regular) (hn : is.Normal) (hne : is ≠ []) :
    ∃ t js, text is = .ok t ∧ ofText .strict t = .ok (some js) ∧ js.Regular ∧ js.Ascending ∧
      js.spans = Span.reread is.spans := by
  have hdisplays : ∀ i ∈ is, ∃ a k, Interval.Displays i a k := fun i hi =>
    (hn i hi).2.exists_displays (his i hi)
  choose! f g hfg using hdisplays
  have hreadable : Expression.Readable (is.map f) := by
    refine ⟨by simpa using hne, fun a ha => ?_⟩
    obtain ⟨i, hi, rfl⟩ := List.mem_map.mp ha
    exact (hfg i hi).readable
  obtain ⟨js, hjs, hspec⟩ := exists_ofAlternatives_reread hfg
  refine ⟨_, js, text_of_comparators fun i hi => (hfg i hi).comparators, ?_, hspec⟩
  rw [ofText_display hreadable, hjs]
  rfl

/-! ### Ranges that were read -/

/-- The spans of a range that was read are read back as they are. -/
lemma rereadable_of_ofText {cs : Text} (h : ofText .strict cs = .ok (some is)) (his : is.Regular) :
    Span.Rereadable is.spans := by
  obtain ⟨as, hreadable, hread⟩ := exists_reread_of_ofText h
  obtain ⟨all, hall, hcanonical⟩ := bind_eq_ok.mp hread
  have hmem : ∀ i ∈ is, ∃ a ∈ Expression.reread as, Interval.ofAlternative a = .ok (some i) :=
    fun i hi => ((intervals_spec hall).mem_iff i).mp ((canonical_covers hcanonical).1 i hi)
  constructor
  · rintro _ ⟨i, hi, rfl⟩
    obtain ⟨a, ha, hai⟩ := hmem i hi
    refine Interval.not_fromZero_of_ofAlternative (hreadable.reread.readable a ha)
      (fun c hc => ?_) hai (his i hi)
    obtain ⟨b, -, rfl⟩ := List.mem_map.mp (Expression.simplify_subset _ ha)
    exact Alternative.text_ne_of_mem_reread hc
  · rintro ⟨i, hi, hspan⟩
    obtain ⟨a, ha, hai⟩ := hmem i hi
    rw [eq_of_span_eq hspan] at hai
    rw [Interval.eq_any_of_ofAlternative (hreadable.reread.readable a ha) hai] at ha
    rw [Expression.reread, Expression.simplify_eq_of_mem ha, ofAlternatives_unrestricted] at hread
    cases hread
    rw [spans_singleton]
    rfl

/-- The canonical text of a range that was read is read back as the same range, which has the same
canonical text. -/
theorem text_reads_back {cs : Text} (h : ofText .strict cs = .ok (some is)) (hne : is ≠ [])
    (his : is.Regular) : ∃ t js, text is = .ok t ∧ ofText .strict t = .ok (some js) ∧
      equal js is = .ok true ∧ text js = .ok t := by
  obtain ⟨t, js, ht, hread, hjs, hasc, hspans⟩ := exists_ofText_text his (normal_of_ofText h) hne
  rw [(rereadable_of_ofText h his).reread_eq] at hspans
  have hasc' : is.Ascending := by
    obtain ⟨u, as, -, has, hfold⟩ := exists_alternatives_of_ofText h
    exact ascending_of_ofAlternatives (Expression.comparable_of_alternatives has) hfold his
  refine ⟨t, js, ht, hread, equal_eq_true hjs his hasc hasc' hspans, ?_⟩
  rw [text_eq_of_spans_eq hjs his hasc hasc' hspans, ht]

theorem text_reads_back_sample : ∃ t js, text sample = .ok t ∧ ofText .strict t = .ok (some js) ∧
    equal js sample = .ok true ∧ text js = .ok t := by
  have hread : ofText .strict "^1.2.0-beta.3".toList = .ok (some sample) := by decide +kernel
  exact text_reads_back hread (List.cons_ne_nil _ _) regular_sample

end Range

end VersionConstraints
