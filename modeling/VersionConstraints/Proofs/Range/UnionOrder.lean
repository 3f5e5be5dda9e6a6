import VersionConstraints.Proofs.Expression.Union
import VersionConstraints.Proofs.Range.Limits

/-!
# Order and repetition

The range of joined texts depends on the set of the texts only. The order of its alternatives is
lost when the intervals are sorted, and an interval that is repeated is kept once. Where nothing
satisfies any of the alternatives only the first of them is kept, but then all have one canonical
text, and it has no interval.
-/

namespace VersionConstraints

namespace Expression

variable {g : Grammar} {t : Text} {ps qs : List Text} {as bs : List Alternative}

/-- The texts of the alternatives that are kept depend on the set of all alternatives only. -/
lemma mem_map_display_simplify_congr (hmem : ∀ a, a ∈ as ↔ a ∈ bs)
    (has : ∀ a ∈ as, Alternative.simplify a = a) (hne : as ≠ []) :
    t ∈ (simplify as).map Alternative.display ↔ t ∈ (simplify bs).map Alternative.display := by
  by_cases hlive : ∃ a ∈ as, a.isNull = false
  · have hlive' : ∃ a ∈ bs, a.isNull = false := by simpa only [hmem] using hlive
    simp only [List.mem_map, mem_simplify_iff hlive, mem_simplify_iff hlive', hmem]
  · -- The two lists may begin with different alternatives, but both are written alike.
    have hnull : ∀ a ∈ as, a.isNull = true := fun a ha =>
      Bool.eq_true_of_not_eq_false fun h => hlive ⟨a, ha, h⟩
    have hdisplay {a : Alternative} (ha : a ∈ as) :=
      Alternative.display_of_isNull (has a ha) (hnull a ha)
    obtain ⟨c, hc⟩ := List.exists_mem_of_ne_nil as hne
    obtain ⟨a, ha, heq⟩ := exists_simplify_eq_of_isNull hne hnull
    obtain ⟨b, hb, heq'⟩ := exists_simplify_eq_of_isNull
      (List.ne_nil_of_mem ((hmem c).mp hc)) fun b hb => hnull b ((hmem b).mpr hb)
    rw [heq, heq', List.map_singleton, List.map_singleton, hdisplay ha, hdisplay ((hmem b).mpr hb)]

/-- What the canonical text of alternatives is read as depends on the set of their texts only, but
for what is superfluous. -/
lemma exists_of_alternatives_display (h : WellFormed as)
    (hbs : alternatives g (display [] as) = .ok bs) :
    ∃ kept, bs = simplify kept ∧ ∀ b, b ∈ kept ↔
      b ≠ [] ∧ ∃ t ∈ as.map Alternative.display, alternative g t = .ok b := by
  rw [h.alternatives_display (.inl rfl)] at hbs
  obtain ⟨all, hall, hbs⟩ := bind_eq_ok.mp hbs
  dsimp only at hbs
  split at hbs
  · cases hbs
  · cases hbs
    refine ⟨_, rfl, fun b => ?_⟩
    simp [mem_mapM_iff hall, and_comm]

end Expression

namespace Range

variable {g : Grammar} {cs : Text} {ps qs : List Text} {is js all all' : Range}
  {as bs : List Alternative} {i : Interval} {o o' : Option Range}

/-! ### Intervals -/

/-- The intervals of alternatives depend on the set of the alternatives only, whatever is left out
of them as superfluous. -/
lemma mem_intervals_simplify_congr (hmem : ∀ a, a ∈ as ↔ a ∈ bs)
    (has : ∀ a ∈ as, ∃ t, Expression.alternative g t = .ok a)
    (h : intervals (Expression.simplify as) = .ok is)
    (h' : intervals (Expression.simplify bs) = .ok js) : i ∈ is ↔ i ∈ js := by
  have hnull : ∀ a ∈ as, a.isNull = true → ¬ Interval.ofAlternative a = .ok (some i) := by
    intro a ha hnull hi
    obtain ⟨t, ht⟩ := has a ha
    cases Expression.eq_none_of_isNull ht hnull hi
  rw [(intervals_spec h).mem_iff, (intervals_spec h').mem_iff,
    Expression.exists_simplify_iff hnull,
    Expression.exists_simplify_iff fun b hb => hnull b ((hmem b).mpr hb)]
  simp only [hmem]

/-- Canonical ranges that were made of the same intervals are equal and have one text, however often
the intervals were repeated. -/
lemma canonical_congr (hread : ∀ i ∈ all, i.Read) (hmem : ∀ i, i ∈ all ↔ i ∈ all')
    (h : canonical all = .ok is) (h' : canonical all' = .ok js) (his : is.Regular) :
    equal is js = .ok true ∧ ∃ t, text is = .ok t ∧ text js = .ok t := by
  have hregular := regular_of_canonical hread h his
  have hregular' : all'.Regular := fun i hi => hregular i ((hmem i).mpr hi)
  obtain ⟨-, hasc, hspans⟩ := (canonical_spec hregular).of_eq_ok h
  obtain ⟨hsub, hasc', hspans'⟩ := (canonical_spec hregular').of_eq_ok h'
  have hjs : js.Regular := fun j hj => hregular' j (hsub j hj)
  have heq : is.spans = js.spans := by
    rw [hspans, hspans']
    ext s
    exact exists_congr fun i => and_congr_left fun _ => hmem i
  obtain ⟨t, ht⟩ := exists_text fun i hi => (his i hi).comparable
  exact ⟨equal_eq_true his hjs hasc hasc' heq, t, ht,
    (text_eq_of_spans_eq his hjs hasc hasc' heq).symm.trans ht⟩

/-! ### Joined texts -/

lemma eq_none_iff_of_ofText (h : ofText g cs = .ok o) :
    o = none ↔ (Expression.withoutCommas? cs.trim).bind (Expression.canonicalText? g) = none := by
  simp only [ofText] at h
  split at h
  · next hnone =>
    cases h
    exact iff_of_true rfl hnone
  · next t ht =>
    obtain ⟨as, -, h⟩ := bind_eq_ok.mp h
    obtain ⟨is, -, h⟩ := bind_eq_ok.mp h
    cases h
    rw [ht]
    exact iff_of_false (Option.some_ne_none is) (Option.some_ne_none t)

/-- The range of joined texts is made of the intervals of what the texts are read as. -/
lemma exists_of_ofText_bars (hps : ∀ p ∈ ps, '|' ∉ p) (hne : ps ≠ [])
    (h : ofText g (Text.bars.intercalate ps) = .ok (some is)) :
    Expression.readEach g ps ≠ [] ∧ ∃ kept all,
      (∀ b, b ∈ kept ↔ b ≠ [] ∧
        ∃ t ∈ (Expression.simplify (Expression.readEach g ps)).map Alternative.display,
          Expression.alternative g t = .ok b) ∧
      intervals (Expression.simplify kept) = .ok all ∧ canonical all = .ok is := by
  obtain ⟨t, bs, ht, hbs, h⟩ := exists_alternatives_of_ofText h
  obtain ⟨-, hnil, rfl⟩ := (Expression.canonicalText?_bars_eq_some_iff hps hne).mp ht
  obtain ⟨kept, rfl, hkept⟩ :=
    Expression.exists_of_alternatives_display (Expression.wellFormed_readEach hnil) hbs
  obtain ⟨all, hall, h⟩ := bind_eq_ok.mp h
  exact ⟨hnil, kept, all, hkept, hall, h⟩

section Congruence

variable (hps : ∀ p ∈ ps, '|' ∉ p) (hqs : ∀ q ∈ qs, '|' ∉ q) (hne : ps ≠ []) (hne' : qs ≠ [])
  (hmem : ∀ p, p ∈ ps ↔ p ∈ qs)

/-- The alternatives of texts do not depend on their order and repetition. -/
lemma mem_readEach_congr {a : Alternative} (hmem : ∀ p, p ∈ ps ↔ p ∈ qs) :
    a ∈ Expression.readEach g ps ↔ a ∈ Expression.readEach g qs := by
  simp only [Expression.mem_readEach, hmem]

include hps hqs hne hne' hmem

/-- Whether joined texts are a range depends on the set of the texts only. -/
lemma eq_none_congr_of_ofText_bars (h : ofText g (Text.bars.intercalate ps) = .ok o)
    (h' : ofText g (Text.bars.intercalate qs) = .ok o') : o = none ↔ o' = none := by
  have hnil : Expression.readEach g ps = [] ↔ Expression.readEach g qs = [] := by
    simp only [List.eq_nil_iff_forall_not_mem, mem_readEach_congr hmem]
  rw [eq_none_iff_of_ofText h, eq_none_iff_of_ofText h', ← Option.not_isSome_iff_eq_none,
    ← Option.not_isSome_iff_eq_none, Option.isSome_iff_exists, Option.isSome_iff_exists]
  simp only [Expression.canonicalText?_bars_eq_some_iff hps hne,
    Expression.canonicalText?_bars_eq_some_iff hqs hne', exists_and_left, exists_eq', hmem, hnil,
    ne_eq]

/-- The range of joined texts depends on the set of the texts only. -/
lemma equal_congr_of_ofText_bars (h : ofText g (Text.bars.intercalate ps) = .ok (some is))
    (h' : ofText g (Text.bars.intercalate qs) = .ok (some js)) (his : is.Regular) :
    equal is js = .ok true ∧ ∃ t, text is = .ok t ∧ text js = .ok t := by
  obtain ⟨hnil, kept, all, hkept, hall, hcanonical⟩ := exists_of_ofText_bars hps hne h
  obtain ⟨-, kept', all', hkept', hall', hcanonical'⟩ := exists_of_ofText_bars hqs hne' h'
  have hsimple : ∀ a ∈ Expression.readEach g ps, Alternative.simplify a = a := by
    intro a ha
    obtain ⟨t, ht, -⟩ := Expression.exists_alternative_of_mem_readEach ha
    exact Expression.simplify_eq_of_alternative ht
  have hread : ∀ b ∈ kept, ∃ t, Expression.alternative g t = .ok b := by
    intro b hb
    obtain ⟨-, t, -, ht⟩ := (hkept b).mp hb
    exact ⟨t, ht⟩
  -- Different alternatives may have one text, so what is read back need not come from the same.
  have hsame (b : Alternative) : b ∈ kept ↔ b ∈ kept' := by
    rw [hkept, hkept']
    simp only [Expression.mem_map_display_simplify_congr (fun _ => mem_readEach_congr hmem) hsimple
      hnil]
  have hbounds : ∀ i ∈ all, i.Read := by
    intro i hi
    obtain ⟨b, hb, hbi⟩ := ((intervals_spec hall).mem_iff i).mp hi
    obtain ⟨t, ht⟩ := hread b (Expression.simplify_subset _ hb)
    exact Interval.read_of_ofAlternative (Expression.readWith_of_alternative ht) hbi
  exact canonical_congr hbounds (fun i => mem_intervals_simplify_congr hsame hread hall hall')
    hcanonical hcanonical' his

end Congruence

/-- Joined texts give the same range in whatever order they are joined, and however often each of
them is repeated: none of both, or ranges that are equal and have one canonical text. -/
theorem ofText_bars_congr (hps : ∀ p ∈ ps, '|' ∉ p) (hne : ps ≠ []) (hmem : ∀ p, p ∈ ps ↔ p ∈ qs)
    (h : ofText g (Text.bars.intercalate ps) = .ok o)
    (h' : ofText g (Text.bars.intercalate qs) = .ok o') (hregular : ∀ is ∈ o, is.Regular) :
    (o = none ↔ o' = none) ∧ ∀ is ∈ o, ∀ js ∈ o',
      equal is js = .ok true ∧ ∃ t, text is = .ok t ∧ text js = .ok t := by
  have hqs : ∀ q ∈ qs, '|' ∉ q := fun q hq => hps q ((hmem q).mpr hq)
  have hne' : qs ≠ [] := by
    obtain ⟨p, hp⟩ := List.exists_mem_of_ne_nil ps hne
    exact List.ne_nil_of_mem ((hmem p).mp hp)
  refine ⟨eq_none_congr_of_ofText_bars hps hqs hne hne' hmem h h', ?_⟩
  rintro is rfl js rfl
  exact equal_congr_of_ofText_bars hps hqs hne hne' hmem h h' (hregular is rfl)

def sampleParts : List Text := ["1.0.0".toList, "2.0.0".toList]

/-- The texts of `Range.sampleParts` in another order, and one of them twice. -/
def sampleShuffled : List Text := ["2.0.0".toList, "1.0.0".toList, "2.0.0".toList]

def sampleUnion : Range :=
  [⟨some ⟨.ofRelease ⟨1, 0, 0⟩, true⟩, some ⟨.ofRelease ⟨1, 0, 0⟩, true⟩⟩,
    ⟨some ⟨.ofRelease ⟨2, 0, 0⟩, true⟩, some ⟨.ofRelease ⟨2, 0, 0⟩, true⟩⟩]

theorem ofText_bars_congr_sample : ∃ is js,
    ofText .strict (Text.bars.intercalate sampleParts) = .ok (some is) ∧
      ofText .strict (Text.bars.intercalate sampleShuffled) = .ok (some js) ∧
        equal is js = .ok true ∧ ∃ t, text is = .ok t ∧ text js = .ok t := by
  have hread : ofText .strict (Text.bars.intercalate sampleParts) = .ok (some sampleUnion) := by
    decide +kernel
  have hread' : ofText .strict (Text.bars.intercalate sampleShuffled) = .ok (some sampleUnion) := by
    decide +kernel
  have hrelease {r : Release} (hr : r.Safe) : Interval.Regular
      ⟨some ⟨.ofRelease r, true⟩, some ⟨.ofRelease r, true⟩⟩ :=
    ⟨Bound.regular_some.mpr (Semver.ordinary_ofRelease hr).regular,
      Bound.regular_some.mpr (Semver.ordinary_ofRelease hr).regular⟩
  have hregular : sampleUnion.Regular := List.forall_mem_cons.mpr
    ⟨hrelease (by decide), List.forall_mem_singleton.mpr (hrelease (by decide))⟩
  have hmem (p : Text) : p ∈ sampleParts ↔ p ∈ sampleShuffled := by
    simp only [sampleParts, sampleShuffled, List.mem_cons, List.not_mem_nil, or_false]
    exact ⟨fun h => h.elim (.inr ∘ .inl) .inl, fun h => h.elim .inr (Or.imp_right id)⟩
  refine ⟨_, _, hread, hread', ?_⟩
  exact (ofText_bars_congr (by decide) (by decide) hmem hread hread' fun is his =>
    Option.some.inj his ▸ hregular).2 _ rfl _ rfl

end Range

end VersionConstraints
