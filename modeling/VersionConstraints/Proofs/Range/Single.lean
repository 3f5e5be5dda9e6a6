import VersionConstraints.Proofs.Range.Canonical
import VersionConstraints.Proofs.Range.Rereading

/-!
# Ranges of one alternative

An expression without bars is one alternative once its commas are gone. Its range has at most one
interval: the one that the alternative, as it is read back from its canonical text, is folded into.
-/

namespace VersionConstraints

/-! ### Alternatives that were read strictly -/

lemma Text.fields_ne_nil (cs : Text) : cs.fields ≠ [] := by
  rw [fields]
  split
  · next hnil => exact absurd hnil (List.splitOnP_ne_nil _ _)
  · exact List.cons_ne_nil _ _

lemma length_eq_of_mapM {ε α β : Type} {f : α → Except ε β} {as : List α} {bs : List β}
    (h : as.mapM f = .ok bs) : bs.length = as.length := by
  induction as generalizing bs with
  | nil =>
    cases h
    rfl
  | cons a as ih =>
    rw [List.mapM_cons] at h
    obtain ⟨b, -, h⟩ := bind_eq_ok.mp h
    obtain ⟨bs', hbs, h⟩ := bind_eq_ok.mp h
    cases h
    rw [List.length_cons, List.length_cons, ih hbs]

lemma Expression.alternative_ne_nil {cs : Text} {a : Alternative}
    (h : alternative .strict cs = .ok a) : a ≠ [] := by
  obtain ⟨all, hall, h⟩ := bind_eq_ok.mp h
  cases h
  refine Alternative.simplify_ne_nil fun hnil => ?_
  have hlen := length_eq_of_mapM hall
  rw [hnil, comparatorTexts, List.length_map] at hlen
  exact Text.fields_ne_nil _ (List.length_eq_zero_iff.mp hlen.symm)

/-! ### Ranges -/

namespace Range

variable {cs t : Text} {a : Alternative} {f : Fault}

lemma ofAlternatives_singleton (a : Alternative) : ofAlternatives [a] = do
    let i ← Interval.ofAlternative a
    return i.toList := by
  rw [ofAlternatives, intervals, intervals]
  cases Interval.ofAlternative a with
  | error f => rfl
  | ok o =>
    simp only [ok_bind, pure_eq_ok, List.append_nil]
    exact canonical_toList o

/-- A text without bars is read as its only alternative. -/
lemma alternatives_of_alternative (hbar : '|' ∉ t)
    (h : Expression.alternative .strict t.normalize = .ok a) :
    Expression.alternatives .strict t = .ok [a] := by
  rw [Expression.alternatives_of_not_mem .strict hbar, h, ok_bind,
    List.isEmpty_eq_false_iff.mpr (Expression.alternative_ne_nil h)]
  rfl

/-- The range of an expression with one alternative has the interval of the alternative that is read
back. -/
theorem ofText_of_alternative (hjoin : Expression.withoutCommas? cs.trim = some t) (hbar : '|' ∉ t)
    (h : Expression.alternative .strict t.normalize = .ok a) : ofText .strict cs = do
      let i ← Interval.ofAlternative a.reread
      return some i.toList := by
  have hread := alternatives_of_alternative hbar h
  have hreadable := (Expression.readable_of_alternatives hread).1
  have hreread : Expression.reread [a] = [a.reread] := Expression.simplify_singleton _
  rw [ofText, hjoin, Option.bind_some, Expression.canonicalText?_eq hread]
  dsimp only
  rw [hreadable.alternatives_display (.inl rfl), hreread, ok_bind, ofAlternatives_singleton]
  cases Interval.ofAlternative a.reread <;> rfl

/-- A text whose only alternative is not read is no range. -/
lemma ofText_of_alternative_error (hjoin : Expression.withoutCommas? cs.trim = some t)
    (hbar : '|' ∉ t) (h : Expression.alternative .strict t.normalize = .error f) :
    ofText .strict cs = .ok none := by
  have herror : Expression.alternatives .strict t = .error f := by
    rw [Expression.alternatives_of_not_mem .strict hbar, h]
    rfl
  rw [ofText, hjoin, Option.bind_some, Expression.canonicalText?, herror]

end Range

end VersionConstraints
