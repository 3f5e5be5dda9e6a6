import VersionConstraints.Proofs.Expression.Restrictions
import VersionConstraints.Proofs.Interval.Folding

/-!
# What is superfluous

Which comparators and alternatives are left out depends on the others, but not on their order: a
comparator is kept once, alternatives that nothing satisfies are kept only by themselves, and an
unrestricted one replaces all others. No version tells the comparators of an alternative from those
that are kept. Of alternatives only the unrestricted one makes a difference, and to prereleases
only, because it takes away those that another alternative lets in.
-/

namespace VersionConstraints

/-! ### Comparators -/

namespace Comparator

variable {c d : Comparator} {v : Semver}

/-- The text of a comparator tells of which release it is a prerelease. -/
lemma prereleaseOf?_congr (hc : c.Comparable) (hd : d.Comparable) (h : c.text = d.text) :
    c.prereleaseOf? = d.prereleaseOf? := by
  have hread {o : Operator} {w : Semver} (hw : w.Comparable) : (bounded o w).text ≠ [] :=
    (hw.wellFormed.piece o).ne_nil
  cases c with
  | any =>
    cases d with
    | any => rfl
    | bounded o w => exact absurd h.symm (hread hd)
  | bounded o v =>
    cases d with
    | any => exact absurd h (hread hc)
    | bounded o' w =>
      have hsplit := congrArg Operator.split h
      rw [text, text, o.split_text v, o'.split_text w] at hsplit
      have hcanonical := hc.canonical_eq_of_text_eq hd (Prod.mk.inj hsplit).2
      have hv : (bounded o v.canonical).prereleaseOf? = (bounded o' w.canonical).prereleaseOf? := by
        rw [hcanonical]
        rfl
      exact hv

/-- The comparator that includes the lowest release is no prerelease of any. -/
lemma prereleaseOf?_of_fromZeroText (hc : c.Comparable) (h : c.text = Expression.fromZeroText) :
    c.prereleaseOf? = none := by
  have hzero : (bounded .atLeast (.ofRelease .zero)).Comparable :=
    (Semver.ordinary_ofRelease (by decide)).regular.toComparable
  rw [prereleaseOf?_congr hc hzero h]
  rfl

/-- A comparator is read back as no restriction, or as one that means the same. -/
lemma rereadIn_cases (c : Comparator) (g : Grammar) :
    c.text = Expression.fromZeroText ∧ c.rereadIn g = .any ∨
      c.text ≠ Expression.fromZeroText ∧ (c.rereadIn g).prereleaseOf? = c.prereleaseOf? ∧
        ∀ v : Semver, (c.rereadIn g).Satisfies v ↔ c.Satisfies v := by
  cases c with
  | any => exact .inr ⟨by decide, rfl, fun _ => Iff.rfl⟩
  | bounded o w =>
    by_cases htext : (bounded o w).text = Expression.fromZeroText
    · exact .inl ⟨htext, if_pos htext⟩
    · rw [rereadIn, if_neg htext]
      exact .inr ⟨htext, rfl, fun _ => Iff.rfl⟩

end Comparator

namespace Alternative

variable {a : Alternative} {cs : List Comparator} {v : Semver}

/-- An alternative satisfies what its comparators do, whatever is left out of them. -/
theorem satisfies_simplify (hcs : ∀ c ∈ cs, c.Comparable) :
    Satisfies v (simplify cs) ↔ Satisfies v cs := by
  rw [Satisfies, Satisfies, forall_satisfies_simplify hcs]
  refine and_congr_right fun hall => imp_congr_right fun _ => ?_
  have hnone : cs.find? Comparator.isNull = none := List.find?_eq_none.mpr fun c hc hnull =>
    Comparator.not_satisfies_of_isNull (hcs c hc) hnull (hall c hc)
  refine ⟨fun ⟨c, hc, hcr⟩ => ⟨c, simplify_subset cs hc, hcr⟩, fun ⟨c, hc, hcr⟩ => ?_⟩
  obtain ⟨d, hd, htext⟩ := Comparator.exists_mem_distinct hc
  have hdr : d.prereleaseOf? = some v.release := by
    rw [Comparator.prereleaseOf?_congr (hcs d (Comparator.distinct_subset cs hd)) (hcs c hc) htext,
      hcr]
  refine ⟨d, ?_, hdr⟩
  rw [simplify, hnone]
  dsimp only
  split
  · refine List.mem_filter.mpr ⟨hd, ?_⟩
    cases d with
    | any => cases hdr
    | bounded o w => rfl
  · exact hd

/-- Nothing satisfies an alternative with the null comparator. -/
lemma not_satisfies_of_isNull (ha : ∀ c ∈ a, c.Comparable) (h : a.isNull = true) :
    ¬ Satisfies v a := by
  cases a with
  | nil => cases h
  | cons c a =>
    exact fun hsatisfies => Comparator.not_satisfies_of_isNull (ha c List.mem_cons_self) h
      (hsatisfies.1 c List.mem_cons_self)

/-- The unrestricted alternative is satisfied by the releases. -/
@[simp] lemma satisfies_any : Satisfies v [.any] ↔ v.isPrerelease = false := by
  cases hp : v.isPrerelease <;> simp [Satisfies, Comparator.Satisfies, Comparator.prereleaseOf?, hp]

/-- The unrestricted comparator is kept only if there are no others. -/
lemma eq_any_of_any_mem_simplify (h : .any ∈ simplify cs) : ∀ c ∈ cs, c = .any := by
  rw [simplify] at h
  split at h
  · next d hd =>
    rw [← List.mem_singleton.mp h] at hd
    cases List.find?_some hd
  · dsimp only at h
    split at h
    · cases (List.mem_filter.mp h).2
    · next hlen =>
      intro c hc
      obtain ⟨d, hd, htext⟩ := Comparator.exists_mem_distinct hc
      rw [eq_singleton_of_mem (Nat.not_lt.mp hlen) h, List.mem_singleton] at hd
      rw [hd] at htext
      cases c with
      | any => rfl
      | bounded o v =>
        obtain ⟨d, ds, hds, -⟩ := v.text_eq_cons
        have hne : (Comparator.bounded o v).text ≠ [] := by simp [Comparator.text, hds]
        exact absurd htext.symm hne

/-! ### Alternatives that are read back -/

/-- The comparators that restrict an alternative where its canonical text is read. One that includes
the lowest release of all does not. -/
def restricting (a : Alternative) : Alternative :=
  a.filter fun c => c.text ≠ Expression.fromZeroText

lemma mem_restricting {c : Comparator} :
    c ∈ a.restricting ↔ c ∈ a ∧ c.text ≠ Expression.fromZeroText := by
  rw [restricting, List.mem_filter, decide_eq_true_iff]

/-- All comparators restrict if none is written as the one from zero. -/
lemma restricting_eq_self (h : ∀ c ∈ a, c.text ≠ Expression.fromZeroText) : a.restricting = a :=
  List.filter_eq_self.mpr fun c hc => decide_eq_true (h c hc)

section Rereading

variable {g : Grammar} (ha : ∀ c ∈ a, c.Comparable)

include ha

/-- What an alternative is read back as has the same meaning as the comparators that restrict it. -/
theorem satisfies_rereadIn : Satisfies v (a.rereadIn g) ↔ Satisfies v a.restricting := by
  have hmap : ∀ c ∈ a.map (Comparator.rereadIn g), c.Comparable :=
    List.forall_mem_map.mpr fun c hc => (ha c hc).rereadIn g
  rw [rereadIn, satisfies_simplify hmap, Satisfies, Satisfies, List.forall_mem_map]
  refine and_congr ⟨fun h c hc => ?_, fun h c hc => ?_⟩ (imp_congr_right fun _ => ⟨?_, ?_⟩)
  · obtain ⟨hca, htext⟩ := mem_restricting.mp hc
    obtain ⟨-, -, hsatisfies⟩ := (c.rereadIn_cases g).resolve_left fun hany => htext hany.1
    exact (hsatisfies v).mp (h c hca)
  · rcases c.rereadIn_cases g with ⟨-, hany⟩ | ⟨htext, -, hsatisfies⟩
    · rw [hany]
      trivial
    · exact (hsatisfies v).mpr (h c (mem_restricting.mpr ⟨hc, htext⟩))
  · rintro ⟨c, hc, hcr⟩
    obtain ⟨d, hd, rfl⟩ := List.mem_map.mp hc
    rcases d.rereadIn_cases g with ⟨-, hany⟩ | ⟨htext, hprerelease, -⟩
    · rw [hany] at hcr
      cases hcr
    · exact ⟨d, mem_restricting.mpr ⟨hd, htext⟩, hprerelease ▸ hcr⟩
  · rintro ⟨c, hc, hcr⟩
    obtain ⟨hca, htext⟩ := mem_restricting.mp hc
    obtain ⟨-, hprerelease, -⟩ := (c.rereadIn_cases g).resolve_left fun hany => htext hany.1
    exact ⟨_, List.mem_map_of_mem hca, hprerelease ▸ hcr⟩

/-- What satisfies all comparators of an alternative satisfies those that restrict it. -/
lemma Satisfies.restricting (h : Satisfies v a) : Satisfies v a.restricting := by
  refine ⟨fun c hc => h.1 c (mem_restricting.mp hc).1, fun hp => ?_⟩
  obtain ⟨c, hc, hcr⟩ := h.2 hp
  refine ⟨c, mem_restricting.mpr ⟨hc, fun htext => ?_⟩, hcr⟩
  rw [Comparator.prereleaseOf?_of_fromZeroText (ha c hc) htext] at hcr
  cases hcr

/-- Only below all releases it makes a difference which comparators restrict. -/
lemma satisfies_restricting (hv : ¬ v.BelowReleases) :
    Satisfies v a.restricting ↔ Satisfies v a := by
  refine ⟨fun h => ⟨fun c hc => ?_, fun hp => ?_⟩, Satisfies.restricting ha⟩
  · by_cases htext : c.text = Expression.fromZeroText
    · rw [← Comparator.admits_text (ha c hc), htext]
      exact Comparator.admits_fromZeroText hv
    · exact h.1 c (mem_restricting.mpr ⟨hc, htext⟩)
  · obtain ⟨c, hc, hcr⟩ := h.2 hp
    exact ⟨c, (mem_restricting.mp hc).1, hcr⟩

end Rereading

/-- An alternative is read back as the unrestricted comparator if no comparator restricts it. -/
lemma rereadIn_eq_any_iff (g : Grammar) (ha : a.WellFormed) :
    a.rereadIn g = [.any] ↔ a = [.any] ∨ a.restricting = [] := by
  constructor
  · intro h
    have hall := eq_any_of_any_mem_simplify (h ▸ List.mem_cons_self : .any ∈ a.rereadIn g)
    refine ha.imp_right fun ⟨_, hbounded⟩ => List.filter_eq_nil_iff.mpr fun c hc => ?_
    obtain ⟨o, v, rfl, -⟩ := hbounded c hc
    have hany := hall _ (List.mem_map_of_mem hc)
    rw [Comparator.rereadIn] at hany
    split at hany
    · next htext => simp [htext]
    · cases hany
  · rintro (rfl | hnil)
    · cases g <;> decide
    · have hall : ∀ c ∈ a.map (Comparator.rereadIn g), c = .any := by
        refine List.forall_mem_map.mpr fun c hc => ?_
        have htext : c.text = Expression.fromZeroText := by
          simpa using List.filter_eq_nil_iff.mp hnil c hc
        cases c with
        | any => rfl
        | bounded o v => exact if_pos htext
      obtain ⟨c, hc⟩ := List.exists_mem_of_ne_nil _ (rereadIn_ne_nil g ha.ne_nil)
      have hany : .any ∈ a.rereadIn g := hall c (simplify_subset _ hc) ▸ hc
      exact simplify_eq_of_any_mem hany

end Alternative

/-! ### Alternatives that nothing satisfies -/

/-- The version of a comparator that nothing satisfies is ordinary. -/
lemma Comparator.ReadWith.regular_of_isNull {c : Comparator} {g : Grammar} (h : c.ReadWith g)
    (hnull : c.isNull = true) : c.Regular := by
  cases c with
  | any => trivial
  | bounded o v =>
    obtain ⟨t, ht⟩ := h o v rfl
    have hsplit := congrArg (fun u => (Operator.split u).2) (beq_iff_eq.mp hnull)
    rw [Comparator.text, o.split_text v] at hsplit
    have hv : v.text = ['0', '.', '0', '.', '0', '-', '0'] := hsplit
    have hread : Semver.ofText .strict v.text = .ok (.lowestPrerelease .zero) := by
      rw [hv]
      decide
    exact Semver.regular_of_text ht hread (Semver.ordinary_lowestPrerelease (by decide))

namespace Alternative

variable {a : Alternative}

/-- A comparator that nothing satisfies stands alone. -/
lemma exists_eq_of_isNull (ha : simplify a = a) (h : a.isNull = true) :
    ∃ c, a = [c] ∧ c.isNull = true := by
  rcases simplify_cases a with ⟨c, -, hc, heq⟩ | ⟨hnone, -⟩
  · exact ⟨c, ha.symm.trans heq, hc⟩
  · cases a with
    | nil => cases h
    | cons c a =>
      have hc : c.isNull = true := h
      rw [hnone c List.mem_cons_self] at hc
      cases hc

/-- A simplified alternative that cannot be satisfied is displayed as the null comparator. -/
lemma display_of_isNull (ha : simplify a = a) (h : a.isNull = true) :
    a.display = ['<', '0', '.', '0', '.', '0', '-', '0'] := by
  obtain ⟨c, rfl, hc⟩ := exists_eq_of_isNull ha h
  have hne : c ≠ .any := by
    rintro rfl
    cases hc
  rw [display_singleton hne, beq_iff_eq.mp hc]

/-- A null alternative is null when it is read again. -/
lemma isNull_reread (ha : simplify a = a) (h : a.isNull = true) : a.reread.isNull = true := by
  obtain ⟨c, rfl, hc⟩ := exists_eq_of_isNull ha h
  have hreread : c.reread.isNull = true := by
    cases c with
    | any => cases hc
    | bounded o v =>
      rw [Comparator.reread, if_neg (by rw [beq_iff_eq.mp hc]; decide)]
      exact hc
  rw [reread, List.map_singleton, simplify_singleton]
  exact hreread

end Alternative

namespace Expression

variable {a : Alternative} {o : Option Interval} {g : Grammar} {cs : Text}

/-- An alternative that was read is simplified. -/
lemma simplify_eq_of_alternative (h : alternative g cs = .ok a) : Alternative.simplify a = a := by
  obtain ⟨all, -, h⟩ := bind_eq_ok.mp h
  cases h
  exact Alternative.simplify_simplify all

/-- An alternative that nothing satisfies has no interval. -/
lemma eq_none_of_isNull (ha : alternative g cs = .ok a) (h : a.isNull = true)
    (ho : Interval.ofAlternative a = .ok o) : o = none := by
  obtain ⟨c, rfl, hc⟩ := Alternative.exists_eq_of_isNull (simplify_eq_of_alternative ha) h
  have hregular : ∀ d ∈ [c], d.Regular := List.forall_mem_singleton.mpr
    ((readWith_of_alternative ha c List.mem_cons_self).regular_of_isNull hc)
  obtain ⟨s, hs, hsatisfies⟩ := Interval.ofAlternative_spec hregular ho
  cases o with
  | none => rfl
  | some i =>
    obtain ⟨-, -, w, hw, hholds⟩ := hs
    exact absurd ((hsatisfies w hw.toComparable).mp hholds)
      (Alternative.not_satisfies_of_isNull (fun d hd => (hregular d hd).comparable) h)

end Expression

/-! ### Alternatives -/

namespace Expression

variable {as : List Alternative} {a : Alternative} {v : Semver}

/-- Of alternatives that cannot be satisfied, one is left. -/
lemma exists_simplify_eq_of_isNull (hne : as ≠ []) (h : ∀ a ∈ as, a.isNull = true) :
    ∃ a ∈ as, simplify as = [a] := by
  rcases simplify_cases hne with heq | ⟨hne, hall⟩
  · exact heq
  · obtain ⟨a, ha⟩ := List.exists_mem_of_ne_nil _ hne
    have hnull := h a (simplify_subset as ha)
    rw [(hall a ha).1] at hnull
    cases hnull

/-- Where there is an alternative that is not written as one that nothing satisfies, all such are
kept, unless one of them is the unrestricted comparator and stands for all. -/
theorem mem_simplify_iff (h : ∃ b ∈ as, b.isNull = false) :
    a ∈ simplify as ↔ a ∈ as ∧ a.isNull = false ∧ ([.any] ∈ as → a = [.any]) := by
  obtain ⟨b, hb, hbnull⟩ := h
  have hmem (a : Alternative) : a ∈ as.filter (!·.isNull) ↔ a ∈ as ∧ a.isNull = false := by
    simp [List.mem_filter]
  have hbmem := (hmem b).mpr ⟨hb, hbnull⟩
  have hany : [.any] ∈ as ↔ [.any] ∈ as.filter (!·.isNull) :=
    ((hmem [.any]).trans (and_iff_left rfl)).symm
  rw [← and_assoc, ← hmem, simplify]
  split
  · next hlen =>
    obtain rfl := eq_singleton_of_mem hlen hb
    rw [List.filter_singleton, hbnull]
    simp +contextual [eq_comm]
  · split
    · next hnil =>
      rw [hnil] at hbmem
      cases hbmem
    · next c hc =>
      rw [hc] at hany ⊢
      refine ⟨fun ha => ⟨ha, fun h => ?_⟩, And.left⟩
      rw [List.mem_singleton.mp ha, ← List.mem_singleton.mp (hany.mp h)]
    · next kept _ _ =>
      rw [hany]
      cases hfind : (as.filter (!·.isNull)).find? Alternative.isUnrestricted with
      | none =>
        refine (and_iff_left fun h => ?_).symm
        exact absurd (Alternative.isUnrestricted_iff.mpr rfl) (List.find?_eq_none.mp hfind _ h)
      | some c =>
        obtain rfl : c = [.any] := Alternative.isUnrestricted_iff.mp (List.find?_some hfind)
        have hkept := List.mem_of_find?_eq_some hfind
        rw [Option.elim_some, List.mem_singleton]
        exact ⟨fun ha => ⟨ha ▸ hkept, fun _ => ha⟩, fun ha => ha.2 hkept⟩

/-- What no alternative has that nothing satisfies, one of those that are kept has if one of all has
it, unless the unrestricted one stands for all and does not have it. -/
theorem exists_simplify_iff {P : Alternative → Prop}
    (hnull : ∀ a ∈ as, a.isNull = true → ¬ P a) :
    (∃ a ∈ simplify as, P a) ↔ (∃ a ∈ as, P a) ∧ ([.any] ∈ as → P [.any]) := by
  have hlive {a : Alternative} (ha : a ∈ as) (h : P a) : a.isNull = false :=
    Bool.eq_false_of_not_eq_true fun hisNull => hnull a ha hisNull h
  constructor
  · rintro ⟨a, ha, h⟩
    have hmem := simplify_subset as ha
    obtain ⟨-, -, halone⟩ := (mem_simplify_iff ⟨a, hmem, hlive hmem h⟩).mp ha
    exact ⟨⟨a, hmem, h⟩, fun hany => halone hany ▸ h⟩
  · rintro ⟨⟨a, ha, h⟩, hunrestricted⟩
    have hiff (b : Alternative) := mem_simplify_iff (a := b) ⟨a, ha, hlive ha h⟩
    by_cases hany : [.any] ∈ as
    · exact ⟨_, (hiff [.any]).mpr ⟨hany, rfl, fun _ => rfl⟩, hunrestricted hany⟩
    · exact ⟨a, (hiff a).mpr ⟨ha, hlive ha h, fun h => absurd h hany⟩, h⟩

/-- Leaving out alternatives takes away the prereleases of all but an unrestricted one, and nothing
else. -/
lemma exists_satisfies_simplify (has : ∀ a ∈ as, ∀ c ∈ a, c.Comparable) :
    (∃ a ∈ simplify as, a.Satisfies v) ↔
      (∃ a ∈ as, a.Satisfies v) ∧ (v.isPrerelease = true → [.any] ∉ as) := by
  rw [exists_simplify_iff fun a ha => Alternative.not_satisfies_of_isNull (has a ha),
    Alternative.satisfies_any]
  exact and_congr_right fun _ =>
    ⟨fun h hp hany => by simp [h hany] at hp, fun h hany => by simpa using fun hp => h hp hany⟩

end Expression

end VersionConstraints
