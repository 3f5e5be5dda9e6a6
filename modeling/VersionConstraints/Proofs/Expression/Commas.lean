import VersionConstraints.Proofs.Expression.Alternatives
import VersionConstraints.Proofs.Text.Parts

/-!
# Operands between commas

The commas of an expression become blanks, so what is left of operands that were joined by commas
are their words: those of the first operand, then those of the second, and so on. White space around
the operands and around the whole makes no difference.
-/

namespace VersionConstraints

variable {ps : List Text} {cs : Text}

namespace Text

/-- The operands between the commas of a trimmed text have the words of the operands that were
joined. -/
theorem map_words_splitOn_trim (hps : ∀ p ∈ ps, ',' ∉ p) (hne : ps ≠ []) :
    ((trim ([','].intercalate ps)).splitOn ',').map words = ps.map words := by
  have hwords (qs : List Text) : qs.map words = (qs.map trim).map words := by
    rw [List.map_map]
    exact List.map_congr_left fun q _ => (words_trim q).symm
  rw [hwords, map_trim_splitOn_trim, ← hwords, List.splitOn_intercalate ',' hps hne]

end Text

namespace Expression

/-- Operands of which none is blank are joined to a text with all their words. -/
lemma exists_joinOperands? (hbar : '|' ∉ cs) (h : ∀ p ∈ cs.splitOn ',', Text.words p ≠ []) :
    ∃ t, joinOperands? cs = some t ∧ '|' ∉ t ∧
      Text.words t = (cs.splitOn ',').flatMap Text.words := by
  have hany : ((cs.splitOn ',').map Text.trim).any List.isEmpty = false := by
    rw [List.any_map, List.any_eq_false]
    intro p hp hempty
    refine h p hp ?_
    rw [← Text.words_trim, List.isEmpty_iff.mp hempty]
    rfl
  refine ⟨_, by rw [joinOperands?, if_neg (by simp [hany])], ?_, ?_⟩
  · refine Text.not_mem_intercalate (by decide) fun q hq => ?_
    obtain ⟨p, hp, rfl⟩ := List.mem_map.mp hq
    exact fun hmem => hbar (Text.of_mem_splitOnP p hp _ (Text.mem_of_mem_trim hmem)).1
  · rw [Text.words_intercalate, List.flatMap_map]
    simp only [Text.words_trim]

/-- What joined operands come to without their commas. -/
theorem exists_withoutCommas? (hcomma : ∀ p ∈ ps, ',' ∉ p) (hbar : ∀ p ∈ ps, '|' ∉ p)
    (hblank : ∀ p ∈ ps, Text.words p ≠ []) (hne : ps ≠ []) :
    ∃ t, withoutCommas? (Text.trim ([','].intercalate ps)) = some t ∧ '|' ∉ t ∧
      Text.words t = ps.flatMap Text.words := by
  have hwords := Text.map_words_splitOn_trim hcomma hne
  have hjoined : '|' ∉ Text.trim ([','].intercalate ps) := fun hmem =>
    Text.not_mem_intercalate (by decide) hbar (Text.mem_of_mem_trim hmem)
  have hnone : ∀ p ∈ (Text.trim ([','].intercalate ps)).splitOn ',', Text.words p ≠ [] := by
    intro p hp hnil
    obtain ⟨q, hq, heq⟩ := List.mem_map.mp (hwords ▸ List.mem_map_of_mem hp)
    exact hblank q hq (heq.trans hnil)
  obtain ⟨t, ht, hbart, hwordst⟩ := exists_joinOperands? hjoined hnone
  refine ⟨t, (withoutCommas?_of_not_mem hjoined).trans ht, hbart, ?_⟩
  rw [hwordst, List.flatMap_def, hwords, ← List.flatMap_def]

end Expression

end VersionConstraints
