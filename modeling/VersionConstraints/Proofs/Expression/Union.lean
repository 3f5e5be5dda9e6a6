import VersionConstraints.Proofs.Expression.Superfluous
import VersionConstraints.Proofs.Range.Rereading
import VersionConstraints.Proofs.Text.Parts

/-!
# Joined alternatives

An expression that is joined of texts without bars is read one text after the other, each as it
would be by itself. What is read depends on the set of the texts therefore, but for the order in
which their alternatives are listed.
-/

namespace VersionConstraints

lemma mapM_eq_some_filterMap {α β : Type} {f : α → Option β} {as : List α}
    (h : ∀ a ∈ as, (f a).isSome = true) : as.mapM f = some (as.filterMap f) := by
  induction as with
  | nil => rfl
  | cons a as ih =>
    obtain ⟨ha, has⟩ := List.forall_mem_cons.mp h
    obtain ⟨b, hb⟩ := Option.isSome_iff_exists.mp ha
    rw [List.mapM_cons, hb, ih has, List.filterMap_cons_some hb]
    rfl

lemma mapM_eq_none {α β : Type} {f : α → Option β} {as : List α} {a : α} (ha : a ∈ as)
    (h : f a = none) : as.mapM f = none := by
  induction as with
  | nil => cases ha
  | cons b as ih =>
    rw [List.mapM_cons]
    rcases List.mem_cons.mp ha with rfl | ha
    · rw [h]
      rfl
    · rw [ih ha]
      cases f b <;> rfl

namespace Expression

open Text (bars)

variable {g : Grammar} {p q t : Text} {ps qs : List Text} {as : List Alternative} {a : Alternative}

/-! ### Operands -/

/-- Joining the operands of a part trims it first. -/
@[simp] lemma joinOperands?_trim (p : Text) : joinOperands? p.trim = joinOperands? p := by
  rw [joinOperands?, joinOperands?, Text.map_trim_splitOn_trim]

/-- Joining operands adds no bars. -/
lemma not_mem_of_joinOperands? (hp : '|' ∉ p) (h : joinOperands? p = some q) : '|' ∉ q := by
  simp only [joinOperands?, Option.ite_none_left_eq_some, Option.some.injEq] at h
  obtain ⟨-, rfl⟩ := h
  refine Text.not_mem_intercalate (by decide) fun t ht => ?_
  obtain ⟨u, hu, rfl⟩ := List.mem_map.mp ht
  exact fun hmem => hp (Text.of_mem_splitOnP u hu _ (Text.mem_of_mem_trim hmem)).1

/-- The commas of joined texts are those of the texts. -/
lemma withoutCommas?_bars (hps : ∀ p ∈ ps, '|' ∉ p) (hne : ps ≠ []) :
    withoutCommas? (Text.trim (bars.intercalate ps)) =
      (ps.mapM joinOperands?).map (' ' :: bars ++ [' ']).intercalate := by
  have htrim (qs : List Text) : qs.mapM joinOperands? = (qs.map Text.trim).mapM joinOperands? := by
    rw [List.mapM_map]
    exact congrArg (List.mapM · qs) (funext fun q => (joinOperands?_trim q).symm)
  rw [withoutCommas?, htrim, Text.map_trim_splitBars_trim hps hne, ← htrim]
  rfl

/-! ### Alternatives -/

/-- Joined texts are read one after the other. -/
lemma alternatives_bars (g : Grammar) (hqs : ∀ q ∈ qs, '|' ∉ q) (hne : qs ≠ []) :
    alternatives g ((' ' :: bars ++ [' ']).intercalate qs) = do
      let all ← qs.mapM fun q => alternative g q.normalize
      let kept := all.filter (!·.isEmpty)
      if kept.isEmpty then
        .error (.notRange (Text.normalize ((' ' :: bars ++ [' ']).intercalate qs)))
      else return simplify kept := by
  have htrim := List.mapM_map (f := Text.trim) (g := alternative g)
    (l := (Text.normalize ((' ' :: bars ++ [' ']).intercalate qs)).splitBars)
  rw [Text.map_trim_splitBars_normalize hqs hne, List.mapM_map] at htrim
  rw [alternatives]
  exact congrArg (· >>= _) htrim.symm

/-- The alternative that a text without bars is read as, if it is one. -/
def readAlone? (g : Grammar) (p : Text) : Option Alternative :=
  (joinOperands? p).bind fun q => (alternative g q.normalize).toOption

/-- The alternatives that texts without bars are read as. In the loose grammar a text may have no
comparators and be left out. -/
def readEach (g : Grammar) (ps : List Text) : List Alternative :=
  (ps.filterMap (readAlone? g)).filter (!·.isEmpty)

/-- The parts read each on its own are those that give an alternative that is not empty. -/
lemma mem_readEach : a ∈ readEach g ps ↔ a ≠ [] ∧ ∃ p ∈ ps, readAlone? g p = some a := by
  simp [readEach, and_comm]

/-- A part read alone gives the alternative of its joined operands. -/
lemma readAlone?_eq_some : readAlone? g p = some a ↔
    ∃ q, joinOperands? p = some q ∧ alternative g q.normalize = .ok a := by
  rw [readAlone?, Option.bind_eq_some_iff]
  refine exists_congr fun q => and_congr_right fun _ => ?_
  cases alternative g q.normalize <;> simp [Except.toOption]

lemma exists_alternative_of_mem_readEach (h : a ∈ readEach g ps) :
    ∃ t : Text, alternative g t = .ok a ∧ a ≠ [] := by
  obtain ⟨hne, p, -, hp⟩ := mem_readEach.mp h
  obtain ⟨q, -, hq⟩ := readAlone?_eq_some.mp hp
  exact ⟨q.normalize, hq, hne⟩

/-- Parts read each on its own give a well-formed list of alternatives. -/
lemma wellFormed_readEach (h : readEach g ps ≠ []) : WellFormed (simplify (readEach g ps)) := by
  refine ⟨simplify_ne_nil h, fun a ha => ?_⟩
  obtain ⟨t, ht, hne⟩ := exists_alternative_of_mem_readEach (simplify_subset _ ha)
  exact wellFormed_of_alternative ht hne

/-- If each part can be read alone, all can be read together. -/
lemma mapM_alternative (h : ∀ p ∈ ps, (readAlone? g p).isSome = true) :
    ((ps.filterMap joinOperands?).mapM fun q => alternative g q.normalize) =
      .ok (ps.filterMap (readAlone? g)) := by
  induction ps with
  | nil => rfl
  | cons p ps ih =>
    obtain ⟨hp, hps⟩ := List.forall_mem_cons.mp h
    obtain ⟨a, ha⟩ := Option.isSome_iff_exists.mp hp
    obtain ⟨q, hq, halternative⟩ := readAlone?_eq_some.mp ha
    rw [List.filterMap_cons_some hq, List.filterMap_cons_some ha, List.mapM_cons, halternative,
      ih hps]
    rfl

section Bars

variable (hps : ∀ p ∈ ps, '|' ∉ p) (hne : ps ≠ [])

include hps hne

/-- Joined texts without blank operands are their operands, with blanks for the commas. -/
lemma operands_bars (h : ∀ p ∈ ps, (joinOperands? p).isSome = true) :
    withoutCommas? (Text.trim (bars.intercalate ps)) =
        some ((' ' :: bars ++ [' ']).intercalate (ps.filterMap joinOperands?)) ∧
      (∀ q ∈ ps.filterMap joinOperands?, '|' ∉ q) ∧ ps.filterMap joinOperands? ≠ [] := by
  refine ⟨by rw [withoutCommas?_bars hps hne, mapM_eq_some_filterMap h, Option.map_some], ?_, ?_⟩
  · intro q hq
    obtain ⟨p, hp, hpq⟩ := List.mem_filterMap.mp hq
    exact not_mem_of_joinOperands? (hps p hp) hpq
  · obtain ⟨p, hp⟩ := List.exists_mem_of_ne_nil ps hne
    obtain ⟨q, hq⟩ := Option.isSome_iff_exists.mp (h p hp)
    exact List.ne_nil_of_mem (List.mem_filterMap.mpr ⟨p, hp, hq⟩)

/-- The alternatives of joined texts are those of the texts, but for superfluous ones. -/
theorem canonicalText?_bars_of_some (h : ∀ p ∈ ps, (readAlone? g p).isSome = true) :
    (withoutCommas? (Text.trim (bars.intercalate ps))).bind (canonicalText? g) =
      if readEach g ps = [] then none else some (display [] (simplify (readEach g ps))) := by
  have hoperands : ∀ p ∈ ps, (joinOperands? p).isSome = true := by
    intro p hp
    obtain ⟨a, ha⟩ := Option.isSome_iff_exists.mp (h p hp)
    obtain ⟨q, hq, -⟩ := readAlone?_eq_some.mp ha
    rw [hq]
    rfl
  obtain ⟨hjoin, hqs, hnil⟩ := operands_bars hps hne hoperands
  have hread := alternatives_bars g hqs hnil
  rw [mapM_alternative h, ok_bind] at hread
  rw [hjoin, Option.bind_some]
  split
  · next hempty =>
    rw [canonicalText?, hread]
    exact if_pos (List.isEmpty_iff.mpr hempty) ▸ rfl
  · next hsome =>
    exact canonicalText?_eq (hread.trans (if_neg (mt List.isEmpty_iff.mp hsome)))

/-- Joined texts are no expression if one of them is not read. -/
lemma canonicalText?_bars_of_none (hp : p ∈ ps) (h : readAlone? g p = none) :
    (withoutCommas? (Text.trim (bars.intercalate ps))).bind (canonicalText? g) = none := by
  by_cases hoperands : ∀ p ∈ ps, (joinOperands? p).isSome = true
  · obtain ⟨hjoin, hqs, hnil⟩ := operands_bars hps hne hoperands
    obtain ⟨q, hq⟩ := Option.isSome_iff_exists.mp (hoperands p hp)
    have hread := alternatives_bars g hqs hnil
    rw [hjoin, Option.bind_some, canonicalText?]
    cases hall : (ps.filterMap joinOperands?).mapM fun q => alternative g q.normalize with
    | error f =>
      rw [hall] at hread
      rw [hread]
      rfl
    | ok all =>
      obtain ⟨a, ha⟩ := exists_mapM_iff.mp ⟨all, hall⟩ q (List.mem_filterMap.mpr ⟨p, hp, hq⟩)
      rw [readAlone?_eq_some.mpr ⟨q, hq, ha⟩] at h
      cases h
  · obtain ⟨r, hr, hnone⟩ : ∃ r ∈ ps, joinOperands? r = none := by simpa using hoperands
    rw [withoutCommas?_bars hps hne, mapM_eq_none hr hnone]
    rfl

/-- Joined texts are an expression if and only if each of them is read and has comparators, unless
some of them are left out. -/
theorem canonicalText?_bars_eq_some_iff :
    (withoutCommas? (Text.trim (bars.intercalate ps))).bind (canonicalText? g) = some t ↔
      (∀ p ∈ ps, (readAlone? g p).isSome = true) ∧ readEach g ps ≠ [] ∧
        display [] (simplify (readEach g ps)) = t := by
  by_cases h : ∀ p ∈ ps, (readAlone? g p).isSome = true
  · rw [canonicalText?_bars_of_some hps hne h, and_iff_right h, Option.ite_none_left_eq_some,
      Option.some.injEq]
  · obtain ⟨p, hp, hnone⟩ : ∃ p ∈ ps, readAlone? g p = none := by simpa using h
    rw [canonicalText?_bars_of_none hps hne hp hnone]
    exact iff_of_false nofun fun hsome => h hsome.1

end Bars

end Expression

end VersionConstraints
