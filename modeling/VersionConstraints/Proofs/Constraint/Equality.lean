import VersionConstraints.Proofs.Constraint.Regrouping

/-!
# Equality of constraints

Equality looks at the spans of a range in their order, and at any other constraint as a whole. It is
an equivalence therefore. The spans tell what a range contains and what it makes together with
others, so nothing that is done with constraints tells equal ones apart but their texts.
-/

namespace VersionConstraints

namespace Constraint

variable {a b c d x y : Constraint} {v : Version}

/-! ### Outlines -/

/-- What equality looks at: the spans of a range in their order, or else the constraint. -/
def outline : Constraint → List Span ⊕ Constraint
  | .range is _ => .inl (is.map Interval.span)
  | c           => .inr c

/-- Constraints are equal if and only if they have the same outline. -/
theorem equal_spec (hc : c.Regular) (hd : d.Regular) :
    Yields (c.equal d) fun ok => ok = true ↔ c.outline = d.outline := by
  cases c with
  | range is s =>
    cases d with
    | range js t => exact (Range.equal_spec hc hd).imp fun ok hok => by simpa [outline] using hok
    | universal | empty | revision b | branch b | literal b => exact .ok (by simp [outline])
  | universal | empty | revision a | branch a | literal a =>
    cases d <;> exact .ok (by simp [outline])

/-- Constraints are equal if their outlines are. -/
lemma equal_iff (hc : c.Regular) (hd : d.Regular) :
    c.equal d = .ok true ↔ c.outline = d.outline :=
  (equal_spec hc hd).eq_ok_true_iff

/-- Constraints with one outline are ranges with the same spans, or one constraint. -/
lemma outline_eq_cases (h : c.outline = d.outline) :
    (∃ is s js t, c = .range is s ∧ d = .range js t ∧
      is.map Interval.span = js.map Interval.span) ∨ c = d := by
  cases c with
  | range is s =>
    cases d with
    | range js t => exact .inl ⟨is, s, js, t, rfl, rfl, Sum.inl.inj h⟩
    | universal | empty | revision b | branch b | literal b => cases h
  | universal | empty | revision a | branch a | literal a =>
    cases d with
    | range js t => cases h
    | universal | empty | revision b | branch b | literal b => exact .inr (Sum.inr.inj h)

lemma eq_universal_iff (h : c.outline = d.outline) : c = .universal ↔ d = .universal := by
  obtain ⟨is, s, js, t, rfl, rfl, -⟩ | rfl := outline_eq_cases h
  · exact iff_of_false nofun nofun
  · exact Iff.rfl

/-- Constraints of one outline are empty together. -/
lemma isEmpty_congr (h : c.outline = d.outline) : c.isEmpty = d.isEmpty := by
  obtain ⟨is, s, js, t, rfl, rfl, -⟩ | rfl := outline_eq_cases h <;> rfl

/-- Constraints of one outline have the same content. -/
lemma content_congr (h : c.outline = d.outline) : c.content = d.content := by
  obtain ⟨is, s, js, t, rfl, rfl, hspans⟩ | rfl := outline_eq_cases h
  · rw [content, content, Range.spans_eq_of_map_span_eq hspans]
  · rfl

/-! ### Congruence -/

/-- Constraints with one outline contain the same versions. -/
lemma contains_congr (hc : c.Regular) (hd : d.Regular) (h : c.outline = d.outline)
    (hv : v.Comparable) : c.contains v = d.contains v := by
  obtain ⟨is, s, js, t, rfl, rfl, hspans⟩ | rfl := outline_eq_cases h
  · rw [contains, contains]
    cases hs : v.semver? with
    | none => rfl
    | some w =>
      refine Range.contains_congr hc hd (hv w hs) ?_
      rw [Range.spans_eq_of_map_span_eq hspans]
  · rfl

/-- What constraints make together has one outline if they have. -/
lemma outline_intersect (ha : a.Regular) (hb : b.Regular) (hc : c.Regular) (hd : d.Regular)
    (hab : a.outline = b.outline) (hcd : c.outline = d.outline) (hx : a.intersect c = .ok x)
    (hy : b.intersect d = .ok y) : x.outline = y.outline := by
  have hxr := (makes_of_intersect ha hc hx).regular ha hc
  have hyr := (makes_of_intersect hb hd hy).regular hb hd
  by_cases hau : a = .universal
  · obtain rfl := (eq_universal_iff hab).mp hau
    subst hau
    cases hx
    cases hy
    exact hcd
  by_cases hcu : c = .universal
  · obtain rfl := (eq_universal_iff hcd).mp hcu
    subst hcu
    rw [intersect_universal_right] at hx hy
    cases hx
    cases hy
    exact hab
  -- Otherwise both results are computed, and their contents determine their outlines.
  have hbu : b ≠ .universal := mt (eq_universal_iff hab).mpr hau
  have hdu : d ≠ .universal := mt (eq_universal_iff hcd).mpr hcu
  have hcontent : x.content = y.content := by
    rw [(makes_of_intersect ha hc hx).content_eq, (makes_of_intersect hb hd hy).content_eq,
      content_congr hab, content_congr hcd]
  have hsame : Same x y := same_of_content_eq (canonical_of_intersect ha hc hau hcu hx).1
    (canonical_of_intersect hb hd hbu hdu hy).1 hcontent
  exact (equal_iff hxr hyr).mp hsame.equal

/-- Equality is an equivalence. Equal constraints contain the same versions, make equal constraints
together with others, on either side, and are compatible with the same ones. -/
theorem equal_congruence :
    (∀ a : Constraint, a.Regular → a.equal a = .ok true) ∧
    (∀ a b : Constraint, a.Regular → b.Regular →
      ∃ same, a.equal b = .ok same ∧ b.equal a = .ok same) ∧
    (∀ a b c : Constraint, a.Regular → b.Regular → c.Regular →
      a.equal b = .ok true → b.equal c = .ok true → a.equal c = .ok true) ∧
    ∀ a b : Constraint, a.Regular → b.Regular → a.equal b = .ok true →
      (∀ v : Version, v.Comparable → ∃ ok, a.contains v = .ok ok ∧ b.contains v = .ok ok) ∧
      ∀ c : Constraint, c.Regular →
        (∀ x y, a.intersect c = .ok x → b.intersect c = .ok y → x.equal y = .ok true ∧
          ∃ ok, a.compatible c = .ok ok ∧ b.compatible c = .ok ok) ∧
        ∀ x y, c.intersect a = .ok x → c.intersect b = .ok y → x.equal y = .ok true := by
  refine ⟨fun a ha => (equal_iff ha ha).mpr rfl, ?_, ?_, ?_⟩
  · intro a b ha hb
    obtain ⟨p, hp, hpspec⟩ := equal_spec ha hb
    obtain ⟨q, hq, hqspec⟩ := equal_spec hb ha
    refine ⟨p, hp, hq.trans (congrArg Except.ok ?_)⟩
    rw [Bool.eq_iff_iff, hpspec, hqspec, eq_comm]
  · intro a b c ha hb hc hab hbc
    rw [equal_iff ha hb] at hab
    rw [equal_iff hb hc] at hbc
    exact (equal_iff ha hc).mpr (hab.trans hbc)
  · intro a b ha hb hab
    rw [equal_iff ha hb] at hab
    refine ⟨?_, fun c hc => ⟨?_, ?_⟩⟩
    · intro v hv
      obtain ⟨ok, hok⟩ := contains_total ha hv
      exact ⟨ok, hok, contains_congr ha hb hab hv ▸ hok⟩
    · intro x y hx hy
      have hxr := (makes_of_intersect ha hc hx).regular ha hc
      have hyr := (makes_of_intersect hb hc hy).regular hb hc
      have hxy := outline_intersect ha hb hc hc hab rfl hx hy
      refine ⟨(equal_iff hxr hyr).mpr hxy, !x.isEmpty, ?_, ?_⟩
      · rw [compatible, hx, ok_bind, pure_eq_ok]
      · rw [compatible, hy, ok_bind, pure_eq_ok, isEmpty_congr hxy]
    · intro x y hx hy
      have hxr := (makes_of_intersect hc ha hx).regular hc ha
      have hyr := (makes_of_intersect hc hb hy).regular hc hb
      exact (equal_iff hxr hyr).mpr (outline_intersect hc hc ha hb rfl hab hx hy)

theorem equal_congruence_sampleBuilt :
    let built := sampleBuilt ">=1.2.0-beta.3+7 <2"
    sample ≠ built ∧ sample.equal sample = .ok true ∧
      (∃ same, sample.equal built = .ok same ∧ built.equal sample = .ok same) ∧
      sample.equal built = .ok true ∧
      (∃ ok, sample.contains samplePair = .ok ok ∧ built.contains samplePair = .ok ok) ∧
      ∃ x y, sample.intersect sampleOther = .ok x ∧ built.intersect sampleOther = .ok y ∧
        x.equal y = .ok true := by
  intro built
  have hsample : sample.Regular := Range.regular_sample
  have hbuilt : built.Regular := regular_sampleBuilt _
  have hequal : sample.equal built = .ok true := by decide +kernel
  have hcomparable : samplePair.Comparable := by
    rintro _ ⟨⟩
    exact Semver.ordinary_sample.regular.toComparable
  have hmade : built.intersect sampleOther = .ok (sampleBuilt ">=1.2.0-beta.3 <2.0.0") := by
    decide +kernel
  obtain ⟨hrefl, hsymm, htrans, hcongr⟩ := equal_congruence
  obtain ⟨hcontains, hintersect⟩ := hcongr sample built hsample hbuilt hequal
  refine ⟨by decide, hrefl sample hsample, hsymm sample built hsample hbuilt,
    htrans sample sample built hsample hsample hbuilt (hrefl sample hsample) hequal,
    hcontains samplePair hcomparable, sample, _, intersect_sample, hmade, ?_⟩
  exact ((hintersect sampleOther Range.regular_sampleOther).1 _ _ intersect_sample hmade).1

end Constraint

end VersionConstraints
