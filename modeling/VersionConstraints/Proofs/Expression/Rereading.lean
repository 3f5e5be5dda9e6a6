import VersionConstraints.Proofs.Expression.Alternatives
import VersionConstraints.Proofs.Expression.Pieces

/-!
# Reading canonical expressions

The canonical text of alternatives is read as the same alternatives, but for the grammars and the
builds of versions, and but for what is superfluous: a comparator that includes the lowest release
of all restricts nothing, and an alternative that restricts nothing stands for all. Reading once
more what was read from such a text changes nothing.
-/

namespace VersionConstraints

lemma mapM_eq_pure_map {m : Type → Type} [Monad m] [LawfulMonad m] {α β : Type} {f : α → m β}
    {g : α → β} {as : List α} (h : ∀ a ∈ as, f a = pure (g a)) : as.mapM f = pure (as.map g) := by
  induction as with
  | nil => rw [List.mapM_nil, List.map_nil]
  | cons a as ih =>
    obtain ⟨ha, has⟩ := List.forall_mem_cons.mp h
    rw [List.mapM_cons, ha, pure_bind, ih has, pure_bind, List.map_cons]

/-- A list of at most one element with a member is that member alone. -/
lemma eq_singleton_of_mem {α : Type} {a : α} {as : List α} (has : as.length ≤ 1) (ha : a ∈ as) :
    as = [a] := by
  obtain ⟨b, rfl⟩ := List.length_eq_one_iff.mp (le_antisymm has (List.length_pos_of_mem ha))
  rw [List.mem_singleton.mp ha]

/-! ### Superfluous comparators -/

namespace Comparator

variable {c : Comparator} {cs : List Comparator}

/-- No two comparators that are kept have one text. -/
lemma pairwise_distinct (cs : List Comparator) :
    (distinct cs).Pairwise fun c d => d.text ≠ c.text := by
  induction cs with
  | nil => exact List.Pairwise.nil
  | cons c cs ih =>
    refine List.pairwise_cons.mpr ⟨fun d hd => ?_, ih.filter _⟩
    exact bne_iff_ne.mp (List.mem_filter.mp hd).2

/-- Comparators of different texts are all kept. -/
lemma distinct_eq_self (h : cs.Pairwise fun c d => d.text ≠ c.text) : distinct cs = cs := by
  induction cs with
  | nil => rfl
  | cons c cs ih =>
    obtain ⟨hc, hcs⟩ := List.pairwise_cons.mp h
    rw [distinct, ih hcs, List.filter_eq_self.mpr fun d hd => bne_iff_ne.mpr (hc d hd)]

lemma distinct_ne_nil (h : cs ≠ []) : distinct cs ≠ [] := by
  cases cs with
  | nil => exact absurd rfl h
  | cons c cs => exact List.cons_ne_nil _ _

lemma isAny_eq_true : c.isAny = true ↔ c = .any := by
  cases c <;> simp [isAny]

lemma isAny_eq_false : c.isAny = false ↔ c ≠ .any := by
  cases c <;> simp [isAny]

end Comparator

namespace Alternative

variable {a : Alternative} {c : Comparator} {cs : List Comparator}

/-- The two outcomes of leaving out what is superfluous: one comparator that nothing satisfies, or
comparators with different texts, among which the unrestricted one stands alone. -/
lemma simplify_cases (cs : List Comparator) :
    (∃ c ∈ cs, c.isNull = true ∧ simplify cs = [c]) ∨
      (∀ c ∈ cs, c.isNull = false) ∧
        ((∀ c ∈ simplify cs, c ≠ .any) ∨ (simplify cs).length ≤ 1) ∧
        (simplify cs).Pairwise fun c d => d.text ≠ c.text := by
  rw [simplify]
  split
  · next c hc => exact .inl ⟨c, List.mem_of_find?_eq_some hc, List.find?_some hc, rfl⟩
  · next hnone =>
    refine .inr ⟨fun c hc => by simpa using List.find?_eq_none.mp hnone c hc, ?_⟩
    have hpairwise := Comparator.pairwise_distinct cs
    dsimp only
    split
    · refine ⟨.inl ?_, hpairwise.filter _⟩
      rintro c hc rfl
      cases (List.mem_filter.mp hc).2
    · next hlen => exact ⟨.inr (Nat.not_lt.mp hlen), hpairwise⟩

lemma simplify_ne_nil (h : cs ≠ []) : simplify cs ≠ [] := by
  rw [simplify]
  split
  · exact List.cons_ne_nil _ _
  · dsimp only
    split
    · next hlen =>
      -- Of two comparators with different texts one is not the unrestricted one.
      intro hnil
      have hall : ∀ c ∈ Comparator.distinct cs, c = .any := by
        simpa [List.filter_eq_nil_iff, Comparator.isAny_eq_true] using hnil
      have hpairwise := Comparator.pairwise_distinct cs
      obtain ⟨c, rest, hds⟩ := List.exists_cons_of_ne_nil (Comparator.distinct_ne_nil h)
      rw [hds] at hlen hall hpairwise
      obtain ⟨d, ds, rfl⟩ := List.exists_cons_of_length_pos (Nat.lt_of_succ_lt_succ hlen)
      have hne := (List.pairwise_cons.mp hpairwise).1 d List.mem_cons_self
      rw [hall c (by simp), hall d (by simp)] at hne
      exact hne rfl
    · exact Comparator.distinct_ne_nil h

lemma simplify_singleton (c : Comparator) : simplify [c] = [c] := by
  cases hnull : c.isNull <;> simp [simplify, Comparator.distinct, hnull]

/-- Of two different comparators, both stay unless one is unrestricted. -/
lemma simplify_pair {d : Comparator} (hc : c.isNull = false) (hd : d.isNull = false)
    (hne : d.text ≠ c.text) : simplify [c, d] = [c, d].filter (!·.isAny) := by
  have hdistinct : Comparator.distinct [c, d] = [c, d] :=
    Comparator.distinct_eq_self (List.pairwise_pair.mpr hne)
  have hfind : [c, d].find? Comparator.isNull = none := by
    simp [hc, hd]
  rw [simplify, hfind]
  dsimp only
  rw [hdistinct]
  rfl

/-- The unrestricted comparator stands alone. -/
lemma simplify_eq_of_any_mem (h : .any ∈ simplify cs) : simplify cs = [.any] := by
  rcases simplify_cases cs with ⟨c, -, -, heq⟩ | ⟨-, hany | hlen, -⟩
  · rw [heq] at h ⊢
    rw [List.mem_singleton.mp h]
  · exact absurd rfl (hany _ h)
  · exact eq_singleton_of_mem hlen h

lemma simplify_simplify (cs : List Comparator) : simplify (simplify cs) = simplify cs := by
  rcases simplify_cases cs with ⟨c, -, hnull, heq⟩ | ⟨hnull, hany, hpairwise⟩
  · rw [heq, simplify, List.find?_cons_of_pos hnull]
  · have hnone : (simplify cs).find? Comparator.isNull = none :=
      List.find?_eq_none.mpr fun c hc => by simp [hnull c (simplify_subset cs hc)]
    rw [simplify, hnone]
    dsimp only
    rw [Comparator.distinct_eq_self hpairwise]
    split
    · next hlen =>
      refine List.filter_eq_self.mpr fun c hc => ?_
      have hne := hany.resolve_right (Nat.not_le.mpr hlen) c hc
      rw [Comparator.isAny_eq_false.mpr hne, Bool.not_false]
    · rfl

/-! ### Alternatives -/

/-- What the canonical text of an alternative is read as. -/
def reread (a : Alternative) : Alternative :=
  simplify (a.map Comparator.reread)

def rereadIn (g : Grammar) (a : Alternative) : Alternative :=
  simplify (a.map (Comparator.rereadIn g))

/-- The text of an alternative within an expression, with a star for the unrestricted one. -/
def display (a : Alternative) : Text :=
  if a.isUnrestricted then ['*'] else a.text

/-- Whether an alternative is the unrestricted comparator alone, or has comparators with well-formed
versions. -/
def WellFormed (a : Alternative) : Prop :=
  a = [.any] ∨ a ≠ [] ∧ ∀ c ∈ a, ∃ o v, c = .bounded o v ∧ v.WellFormed

/-- Whether an alternative is the unrestricted comparator alone, or has comparators with versions
that can be read back. -/
def Readable (a : Alternative) : Prop :=
  a = [.any] ∨ a ≠ [] ∧ ∀ c ∈ a, ∃ o v, c = .bounded o v ∧ v.Comparable

/-- An alternative is unrestricted if it is the unrestricted comparator alone. -/
@[simp] lemma isUnrestricted_iff : a.isUnrestricted = true ↔ a = [.any] := by
  rw [isUnrestricted, beq_iff_eq]

lemma display_of_ne (h : a ≠ [.any]) : display a = a.text := by
  rw [display, if_neg (mt isUnrestricted_iff.mp h)]

lemma display_singleton (h : c ≠ .any) : display [c] = c.text := by
  rw [display_of_ne (by simpa using h), text, List.map_singleton, List.intercalate_singleton]

lemma display_pair (c d : Comparator) : display [c, d] = c.text ++ ' ' :: d.text := by
  rw [display_of_ne (by simp), text, List.map_cons, List.map_singleton, List.intercalate_cons_cons,
    List.intercalate_singleton, List.append_assoc]
  rfl

lemma reread_ne_nil (h : a ≠ []) : reread a ≠ [] :=
  simplify_ne_nil (by simpa using h)

/-- No comparator that was read again is written as the one from zero. -/
lemma text_ne_of_mem_reread (h : c ∈ reread a) : c.text ≠ Expression.fromZeroText := by
  obtain ⟨d, -, rfl⟩ := List.mem_map.mp (simplify_subset _ h)
  exact d.text_reread_ne

/-- Reading an alternative back once more changes nothing. -/
@[simp] lemma reread_reread (a : Alternative) : reread (reread a) = reread a := by
  have hmap : (reread a).map Comparator.reread = reread a := by
    refine (List.map_congr_left fun c hc => ?_).trans (List.map_id _)
    obtain ⟨d, -, rfl⟩ := List.mem_map.mp (simplify_subset _ hc)
    exact d.reread_reread
  rw [reread, hmap, reread, simplify_simplify]

@[simp] lemma rereadIn_strict (a : Alternative) : rereadIn .strict a = reread a := by
  rw [rereadIn, reread, Comparator.rereadIn_strict]

lemma rereadIn_ne_nil (g : Grammar) (h : a ≠ []) : rereadIn g a ≠ [] :=
  simplify_ne_nil (by simpa using h)

namespace WellFormed

lemma ne_nil (h : a.WellFormed) : a ≠ [] := by
  rcases h with rfl | h
  · exact List.cons_ne_nil _ _
  · exact h.1

/-- The texts of comparators with well-formed versions are pieces. -/
lemma piece (h : ∀ c ∈ a, ∃ o v, c = .bounded o v ∧ v.WellFormed) :
    ∀ t ∈ a.map Comparator.text, Piece t := by
  intro t ht
  obtain ⟨c, hc, rfl⟩ := List.mem_map.mp ht
  obtain ⟨o, v, rfl, hv⟩ := h c hc
  exact hv.piece o

/-- The text of a well-formed alternative is tidy and has neither bars nor commas. -/
lemma display_spec (h : a.WellFormed) : a.display.Tidy ∧ '|' ∉ a.display ∧ ',' ∉ a.display := by
  by_cases hany : a = [.any]
  · subst hany
    exact ⟨.word ⟨List.cons_ne_nil _ _, List.forall_mem_singleton.mpr (by decide)⟩, by decide,
      by decide⟩
  · obtain ⟨hne, hbounded⟩ := h.resolve_left hany
    have hpiece := piece hbounded
    have hwritten := Piece.written_intercalate hpiece
    rw [display_of_ne hany]
    refine ⟨.intercalate_space (fun t ht => .word (hpiece t ht).solid) (by simpa using hne), ?_, ?_⟩
    · exact hwritten.not_mem (by decide) (by decide)
    · exact hwritten.not_mem (by decide) (by decide)

end WellFormed

namespace Readable

lemma wellFormed (h : a.Readable) : a.WellFormed := by
  refine h.imp_right (And.imp_right fun hbounded c hc => ?_)
  obtain ⟨o, v, hcv, hv⟩ := hbounded c hc
  exact ⟨o, v, hcv, hv.wellFormed⟩

lemma ne_nil (h : a.Readable) : a ≠ [] := h.wellFormed.ne_nil

/-- The texts of the comparators of a readable alternative are pieces. -/
lemma piece (h : ∀ c ∈ a, ∃ o v, c = .bounded o v ∧ v.Comparable) :
    ∀ t ∈ a.map Comparator.text, Piece t := by
  refine WellFormed.piece fun c hc => ?_
  obtain ⟨o, v, hcv, hv⟩ := h c hc
  exact ⟨o, v, hcv, hv.wellFormed⟩

/-- The texts of readable comparators are read back one by one. -/
lemma mapM_ofText (h : ∀ c ∈ a, ∃ o v, c = .bounded o v ∧ v.Comparable) (g : Grammar) :
    (a.map fun c => if c.text = Expression.fromZeroText then [] else c.text).mapM
      (Comparator.ofText g) = .ok (a.map (Comparator.rereadIn g)) := by
  rw [List.mapM_map]
  refine mapM_eq_pure_map fun c hc => ?_
  obtain ⟨o, v, rfl, hv⟩ := h c hc
  rw [Comparator.rereadIn]
  dsimp only [Function.comp_apply]
  split
  · rfl
  · exact Comparator.ofText_text_in hv g

/-- The text of a readable alternative is read back. -/
theorem alternative_display_in (h : a.Readable) (g : Grammar) :
    Expression.alternative g a.display = .ok (a.rereadIn g) := by
  by_cases hany : a = [.any]
  · subst hany
    cases g <;> decide +kernel
  · obtain ⟨hne, hbounded⟩ := h.resolve_left hany
    have hpiece := piece hbounded
    have hnil : a.map Comparator.text ≠ [] := by simpa using hne
    have hsplit : a.text.splitOn ' ' = a.map Comparator.text :=
      List.splitOn_intercalate ' ' (fun t ht => (hpiece t ht).not_mem (by decide)) hnil
    have hexpand : (a.map Comparator.text).map (Expression.expand g) =
        a.map Comparator.text := by
      refine (List.map_congr_left fun t ht => ?_).trans (List.map_id _)
      obtain ⟨c, hc, rfl⟩ := List.mem_map.mp ht
      obtain ⟨o, v, rfl, hv⟩ := hbounded c hc
      exact Expression.expand_text hv.wellFormed
    have hwritten : Written a.text := Piece.written_intercalate hpiece
    have hwrittenOut : Expression.writtenOut g a.text = a.text := by
      rw [hwritten.writtenOut_eq, hsplit, hexpand]
      rfl
    have hfields : a.text.fields = a.map Comparator.text :=
      Text.fields_intercalate (fun t ht => (hpiece t ht).solid) hnil
    have htexts : Expression.comparatorTexts g a.text =
        a.map fun c => if c.text = Expression.fromZeroText then [] else c.text := by
      rw [Expression.comparatorTexts.eq_def, hwrittenOut, hfields, List.map_map]
      cases g with
      | strict => rfl
      | loose =>
        -- Each text is taken as a comparator, so the loose grammar leaves none out.
        refine List.filter_eq_self.mpr (List.forall_mem_map.mpr fun c hc => ?_)
        obtain ⟨o, v, rfl, hv⟩ := hbounded c hc
        dsimp only [Function.comp_apply]
        split
        · rfl
        · rw [Comparator.text, o.split_text v, hv.accepts_text, Bool.or_true]
    rw [display_of_ne hany, Expression.alternative, htexts, mapM_ofText hbounded]
    rfl

/-- A readable alternative is read again from its display. -/
theorem alternative_display (h : a.Readable) :
    Expression.alternative .strict a.display = .ok a.reread := by
  rw [h.alternative_display_in, rereadIn_strict]

end Readable

end Alternative

/-! ### Superfluous alternatives -/

namespace Expression

variable {as : List Alternative} {a : Alternative} {cs pad : Text}

/-- The two outcomes of leaving out superfluous alternatives: one alternative, or alternatives of
which none is the unrestricted comparator or one that nothing satisfies. -/
lemma simplify_cases (h : as ≠ []) :
    (∃ a ∈ as, simplify as = [a]) ∨
      simplify as ≠ [] ∧ ∀ a ∈ simplify as, a.isNull = false ∧ a ≠ [.any] := by
  rw [simplify]
  split
  · next hlen =>
    obtain ⟨a, as, rfl⟩ := List.exists_cons_of_ne_nil h
    exact .inl ⟨a, List.mem_cons_self, eq_singleton_of_mem hlen List.mem_cons_self⟩
  · split
    · obtain ⟨a, as, rfl⟩ := List.exists_cons_of_ne_nil h
      exact .inl ⟨a, List.mem_cons_self, rfl⟩
    · next a hkept =>
      exact .inl ⟨a, (List.mem_filter.mp (hkept ▸ List.mem_cons_self)).1, rfl⟩
    · next kept hnil _ =>
      cases hfind : (as.filter (!·.isNull)).find? Alternative.isUnrestricted with
      | some a =>
        exact .inl ⟨a, (List.mem_filter.mp (List.mem_of_find?_eq_some hfind)).1, rfl⟩
      | none =>
        refine .inr ⟨?_, fun a ha => ⟨?_, fun hany => ?_⟩⟩
        · exact hnil
        · simpa using (List.mem_filter.mp ha).2
        · exact List.find?_eq_none.mp hfind a ha (Alternative.isUnrestricted_iff.mpr hany)

lemma simplify_ne_nil (h : as ≠ []) : simplify as ≠ [] := by
  rcases simplify_cases h with ⟨a, -, heq⟩ | ⟨hne, -⟩
  · rw [heq]
    exact List.cons_ne_nil a []
  · exact hne

/-- The unrestricted comparator stands for all alternatives. -/
lemma simplify_eq_of_mem (h : [.any] ∈ simplify as) : simplify as = [[.any]] := by
  have hne : as ≠ [] := by
    rintro rfl
    cases h
  rcases simplify_cases hne with ⟨a, -, heq⟩ | ⟨-, hall⟩
  · rw [heq] at h ⊢
    rw [List.mem_singleton.mp h]
  · exact absurd rfl (hall _ h).2

lemma simplify_singleton (a : Alternative) : simplify [a] = [a] := rfl

/-- Nothing is dropped from alternatives that can be satisfied. -/
lemma filter_isNull_eq_self (h : ∀ a ∈ as, a.isNull = false) : as.filter (!·.isNull) = as :=
  List.filter_eq_self.mpr fun a ha => by rw [h a ha, Bool.not_false]

/-- Nothing is left out if no alternative is the unrestricted comparator or one that nothing
satisfies. -/
lemma simplify_eq_self (h : ∀ a ∈ as, a.isNull = false ∧ a ≠ [.any]) : simplify as = as := by
  have hfind : as.find? Alternative.isUnrestricted = none :=
    List.find?_eq_none.mpr fun a ha => mt Alternative.isUnrestricted_iff.mp (h a ha).2
  rw [simplify, filter_isNull_eq_self fun a ha => (h a ha).1]
  split
  · rfl
  · split
    · rfl
    · rfl
    · rw [hfind, Option.elim_none]

lemma simplify_eq_of_any_mem (h : ∀ a ∈ as, a.isNull = false) (hany : [.any] ∈ as) :
    simplify as = [[.any]] := by
  obtain ⟨a, hfind⟩ := Option.isSome_iff_exists.mp
    (List.find?_isSome.mpr ⟨_, hany, Alternative.isUnrestricted_iff.mpr rfl⟩)
  have ha : a = [.any] := Alternative.isUnrestricted_iff.mp (List.find?_some hfind)
  rw [simplify, filter_isNull_eq_self h]
  split
  · next hlen => exact eq_singleton_of_mem hlen hany
  · split
    · cases hany
    · rw [List.mem_singleton.mp hany]
    · rw [hfind, ha, Option.elim_some]

lemma simplify_simplify (h : as ≠ []) : simplify (simplify as) = simplify as := by
  rcases simplify_cases h with ⟨a, -, heq⟩ | ⟨-, hall⟩
  · rw [heq, simplify_singleton]
  · exact simplify_eq_self hall

/-! ### Expressions -/

/-- What the canonical text of alternatives is read as. -/
def reread (as : List Alternative) : List Alternative :=
  simplify (as.map Alternative.reread)

/-- What a grammar reads the canonical text of alternatives as. -/
def rereadIn (g : Grammar) (as : List Alternative) : List Alternative :=
  simplify (as.map (Alternative.rereadIn g))

/-- The text of alternatives with double bars between them, and with padding around the bars. -/
def display (pad : Text) (as : List Alternative) : Text :=
  (pad ++ '|' :: '|' :: pad).intercalate (as.map Alternative.display)

@[simp] lemma rereadIn_strict (as : List Alternative) : rereadIn .strict as = reread as := by
  rw [rereadIn, reread, List.map_congr_left fun a _ => a.rereadIn_strict]

structure WellFormed (as : List Alternative) : Prop where
  ne_nil : as ≠ []
  wellFormed : ∀ a ∈ as, a.WellFormed

structure Readable (as : List Alternative) : Prop where
  ne_nil : as ≠ []
  readable : ∀ a ∈ as, a.Readable

namespace WellFormed

/-- The display of alternatives is split where they were joined. -/
lemma splitBars_display (h : WellFormed as) (hpad : ∀ c ∈ pad, isBlank c = true) :
    (display pad as).splitBars.map Text.trim = as.map Alternative.display := by
  refine Text.map_trim_splitBars hpad (fun t ht => ?_) (by simpa using h.ne_nil)
  obtain ⟨a, ha, rfl⟩ := List.mem_map.mp ht
  obtain ⟨htidy, hbar, -⟩ := (h.wellFormed a ha).display_spec
  exact ⟨htidy.ne_nil, htidy.trimmed, hbar⟩

/-- The display of alternatives has no blanks to normalize. -/
lemma tidy_display (h : WellFormed as) (hpad : pad = [] ∨ pad = [' ']) :
    (display pad as).Tidy := by
  refine .intercalate_bars hpad (fun t ht => ?_) (by simpa using h.ne_nil)
  obtain ⟨a, ha, rfl⟩ := List.mem_map.mp ht
  exact (h.wellFormed a ha).display_spec.1

/-- The text of well-formed alternatives is read one alternative after the other. -/
theorem alternatives_display (h : WellFormed as) (hpad : pad = [] ∨ pad = [' ']) (g : Grammar) :
    alternatives g (display pad as) = do
      let all ← as.mapM fun a => alternative g a.display
      let kept := all.filter (!·.isEmpty)
      if kept.isEmpty then .error (.notRange (display pad as)) else return simplify kept := by
  have htrim := List.mapM_map (f := Text.trim) (g := alternative g)
    (l := (display pad as).splitBars)
  rw [h.splitBars_display (Text.isBlank_of_pad hpad), List.mapM_map] at htrim
  rw [alternatives, (h.tidy_display hpad).normalize_eq]
  exact congrArg (· >>= _) htrim.symm

end WellFormed

namespace Readable

lemma wellFormed (h : Readable as) : WellFormed as :=
  ⟨h.ne_nil, fun a ha => (h.readable a ha).wellFormed⟩

/-- The text of readable alternatives is read back. -/
theorem alternatives_display_in (h : Readable as) (hpad : pad = [] ∨ pad = [' ']) (g : Grammar) :
    alternatives g (display pad as) = .ok (rereadIn g as) := by
  have hread : (as.mapM fun a => alternative g a.display) =
      .ok (as.map (Alternative.rereadIn g)) :=
    mapM_eq_pure_map fun a ha => (h.readable a ha).alternative_display_in g
  have hkept : (as.map (Alternative.rereadIn g)).filter (!·.isEmpty) =
      as.map (Alternative.rereadIn g) := by
    refine List.filter_eq_self.mpr fun a ha => ?_
    obtain ⟨b, hb, rfl⟩ := List.mem_map.mp ha
    rw [List.isEmpty_eq_false_iff.mpr (Alternative.rereadIn_ne_nil g (h.readable b hb).ne_nil),
      Bool.not_false]
  have hne : (as.map (Alternative.rereadIn g)).isEmpty = false :=
    List.isEmpty_eq_false_iff.mpr (by simpa using h.ne_nil)
  rw [h.wellFormed.alternatives_display hpad, hread, ok_bind]
  dsimp only
  rw [hkept, hne]
  rfl

theorem alternatives_display (h : Readable as) (hpad : pad = [] ∨ pad = [' ']) :
    alternatives .strict (display pad as) = .ok (reread as) := by
  rw [h.alternatives_display_in hpad, rereadIn_strict]

end Readable

end Expression

end VersionConstraints
