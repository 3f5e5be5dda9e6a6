import VersionConstraints.Proofs.Expression.Rereading
import VersionConstraints.Range.Parser

/-!
# Reading ranges back

A range expression is read twice, and the second reading is that of a canonical text. So what is
folded into intervals was read back, and the text of alternatives that can be read back is itself a
range expression with the same alternatives, but for what is superfluous.
-/

namespace VersionConstraints

/-! ### What was read can be read back -/

lemma Alternative.Readable.reread {a : Alternative} (h : a.Readable) : a.reread.Readable := by
  by_cases hany : .any ∈ a.reread
  · exact .inl (simplify_eq_of_any_mem hany)
  · refine .inr ⟨reread_ne_nil h.ne_nil, fun c hc => ?_⟩
    have hne : c ≠ .any := fun heq => hany (heq ▸ hc)
    obtain ⟨d, hd, rfl⟩ := List.mem_map.mp (simplify_subset _ hc)
    rcases h with rfl | ⟨-, hbounded⟩
    · exact absurd (List.mem_singleton.mp hd ▸ Comparator.reread_any) hne
    · obtain ⟨o, v, rfl, hv⟩ := hbounded d hd
      rw [Comparator.reread] at hne ⊢
      split at hne
      · exact absurd rfl hne
      · next htext =>
        rw [if_neg htext]
        exact ⟨o, v.canonical, rfl, hv.canonical⟩

namespace Expression

variable {g : Grammar} {as : List Alternative} {a : Alternative} {cs : Text}

/-- An alternative that was read and is not empty is well-formed. -/
lemma wellFormed_of_alternative (h : alternative g cs = .ok a) (hne : a ≠ []) : a.WellFormed := by
  have hread := readWith_of_alternative h
  obtain ⟨all, -, h⟩ := bind_eq_ok.mp h
  cases h
  by_cases hany : .any ∈ Alternative.simplify all
  · exact .inl (Alternative.simplify_eq_of_any_mem hany)
  · refine .inr ⟨hne, fun c hc => ?_⟩
    cases c with
    | any => exact absurd hc hany
    | bounded o v =>
      obtain ⟨t, ht⟩ := hread _ hc o v rfl
      exact ⟨o, v, rfl, Semver.wellFormed_of_ofText ht⟩

/-- Alternatives that were read are well formed, and the unrestricted comparator stands for all of
them. -/
theorem wellFormed_of_alternatives (h : alternatives g cs = .ok as) :
    WellFormed as ∧ ([.any] ∈ as → as = [[.any]]) := by
  obtain ⟨all, hall, h⟩ := bind_eq_ok.mp h
  dsimp only at h
  split at h
  · cases h
  · next hkept =>
    cases h
    refine ⟨⟨simplify_ne_nil (by simpa using hkept), fun a ha => ?_⟩, simplify_eq_of_mem⟩
    obtain ⟨hmem, hne⟩ := List.mem_filter.mp (simplify_subset _ ha)
    obtain ⟨part, -, hpart⟩ := exists_of_mem_mapM hall a hmem
    exact wellFormed_of_alternative hpart (by simpa using hne)

lemma WellFormed.readable (h : WellFormed as)
    (has : ∀ a ∈ as, ∀ o v, .bounded o v ∈ a → v.Comparable) : Readable as := by
  refine ⟨h.ne_nil, fun a ha =>
    (h.wellFormed a ha).imp_right (And.imp_right fun hbounded c hc => ?_)⟩
  obtain ⟨o, v, rfl, -⟩ := hbounded c hc
  exact ⟨o, v, rfl, has a ha o v hc⟩

/-- Alternatives that were read strictly can be read back, and the unrestricted comparator stands
for all of them. -/
theorem readable_of_alternatives (h : alternatives .strict cs = .ok as) :
    Readable as ∧ ([.any] ∈ as → as = [[.any]]) := by
  refine (wellFormed_of_alternatives h).imp_left fun hwell => hwell.readable fun a ha o v hv => ?_
  obtain ⟨t, ht⟩ := readWith_of_alternatives h a ha _ hv o v rfl
  exact Semver.comparable_of_ofText ht

/-- The canonical text of an expression is the text of its alternatives. -/
lemma canonicalText?_eq (h : alternatives g cs = .ok as) :
    canonicalText? g cs = some (display [] as) := by
  obtain ⟨hwell, halone⟩ := wellFormed_of_alternatives h
  rw [canonicalText?, h]
  dsimp only
  by_cases hany : [.any] ∈ as
  · rw [halone hany]
    rfl
  · have htext : alternativesText as = display [] as := by
      rw [alternativesText, display, List.map_congr_left fun a ha =>
        Alternative.display_of_ne fun heq => hany (heq ▸ ha)]
      rfl
    have hne : (display [] as).isEmpty = false :=
      List.isEmpty_eq_false_iff.mpr (hwell.tidy_display (.inl rfl)).ne_nil
    rw [htext, hne]
    rfl

namespace Readable

lemma reread (h : Readable as) : Readable (reread as) := by
  refine ⟨simplify_ne_nil (by simpa using h.ne_nil), fun a ha => ?_⟩
  obtain ⟨b, hb, rfl⟩ := List.mem_map.mp (simplify_subset _ ha)
  exact (h.readable b hb).reread

/-- Reading alternatives back once more changes nothing. -/
lemma reread_reread (h : Readable as) :
    Expression.reread (Expression.reread as) = Expression.reread as := by
  have hmap : (Expression.reread as).map Alternative.reread = Expression.reread as := by
    refine (List.map_congr_left fun a ha => ?_).trans (List.map_id _)
    obtain ⟨b, -, rfl⟩ := List.mem_map.mp (simplify_subset _ ha)
    exact b.reread_reread
  rw [Expression.reread, hmap, Expression.reread, simplify_simplify (by simpa using h.ne_nil)]

/-- There are no commas to leave out of the text of readable alternatives. -/
lemma withoutCommas?_display (h : Readable as) :
    withoutCommas? (display [' '] as) = some (display [' '] as) := by
  have hcomma : ',' ∉ display [' '] as := by
    refine Text.not_mem_intercalate (by decide) fun t ht => ?_
    obtain ⟨a, ha, rfl⟩ := List.mem_map.mp ht
    exact (h.readable a ha).wellFormed.display_spec.2.2
  have hjoin : (display [' '] as).splitBars.mapM joinOperands? =
      some ((display [' '] as).splitBars.map Text.trim) := by
    refine mapM_eq_pure_map fun t ht => ?_
    rw [joinOperands?, List.splitOn_eq_singleton (Text.not_mem_of_mem_splitBars hcomma t ht),
      List.map_singleton, if_neg fun hlen => absurd hlen.1 (Nat.lt_irrefl 1),
      List.intercalate_singleton]
    rfl
  rw [withoutCommas?, hjoin, h.wellFormed.splitBars_display (Text.isBlank_of_pad (.inr rfl))]
  rfl

end Readable

/-- A canonical text is always read back, and as alternatives that were. -/
lemma exists_reread_of_canonicalText? {s t : Text} (h : canonicalText? .strict s = some t) :
    ∃ as, Readable as ∧ alternatives .strict t = .ok (reread as) := by
  cases has : alternatives .strict s with
  | error f =>
    rw [canonicalText?, has] at h
    cases h
  | ok as =>
    have hreadable := (readable_of_alternatives has).1
    rw [canonicalText?_eq has] at h
    cases h
    exact ⟨as, hreadable, hreadable.alternatives_display (.inl rfl)⟩

end Expression

/-! ### Ranges -/

namespace Range

variable {as : List Alternative} {is : Range} {cs : Text}

/-- The text of readable alternatives is a range expression with these alternatives. -/
theorem ofText_display (h : Expression.Readable as) :
    ofText .strict (Expression.display [' '] as) =
      (do return some (← ofAlternatives (Expression.reread as))) := by
  have hread := h.alternatives_display (.inr rfl)
  have hread' := h.reread.alternatives_display (.inl rfl)
  rw [ofText, (h.wellFormed.tidy_display (.inr rfl)).trimmed.trim_eq, h.withoutCommas?_display,
    Option.bind_some, Expression.canonicalText?_eq hread]
  dsimp only
  rw [hread', ok_bind, h.reread_reread]

/-- The alternatives of which a range was made were read back. -/
theorem exists_reread_of_ofText (h : ofText .strict cs = .ok (some is)) :
    ∃ as, Expression.Readable as ∧ ofAlternatives (Expression.reread as) = .ok is := by
  simp only [ofText] at h
  split at h
  · cases h
  · next t ht =>
    obtain ⟨u, -, hu⟩ := Option.bind_eq_some_iff.mp ht
    obtain ⟨bs, hreadable, hread⟩ := Expression.exists_reread_of_canonicalText? hu
    obtain ⟨as, has, h⟩ := bind_eq_ok.mp h
    obtain ⟨js, hjs, h⟩ := bind_eq_ok.mp h
    cases h
    rw [hread] at has
    cases has
    exact ⟨bs, hreadable, hjs⟩

end Range

end VersionConstraints
