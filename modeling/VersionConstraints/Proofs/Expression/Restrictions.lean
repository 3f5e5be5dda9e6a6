import VersionConstraints.Proofs.Expression.Rereading
import VersionConstraints.Proofs.Interval.Release

/-!
# What an alternative says about releases

An alternative is read if each of its words, once it is written out, is a comparator; and a release
satisfies its comparators if it satisfies those that are written. What is left out as superfluous
makes no difference to what must be satisfied, and to releases reading the canonical text back makes
none either.
-/

namespace VersionConstraints

/-! ### The lowest version of all -/

lemma Identifier.listOrder_zero_ne_lt {as : List Identifier} (h : as ≠ []) :
    listOrder as [.number 0] ≠ .lt := by
  obtain ⟨a, as, rfl⟩ := List.exists_cons_of_ne_nil h
  rw [listOrder]
  split
  · cases as <;> simp [listOrder]
  · rw [order]
    cases a.rank? with
    | none =>
      intro hlt
      cases hlt
    | some m => exact fun hlt => Nat.not_lt_zero m (compare_lt_iff_lt.mp hlt)

/-- No version is below the lowest prerelease of the first release. -/
lemma Semver.order_lowestPrerelease_zero_ne_lt (v : Semver) :
    v.order (.lowestPrerelease .zero) ≠ .lt := by
  intro hlt
  rcases Ordering.then_eq_lt.mp hlt with hrelease | ⟨-, hprerelease⟩
  · exact (v.release.zero_le).not_gt ((compares_compare _ _).eq_lt.mp hrelease)
  · cases hp : v.prerelease with
    | nil =>
      rw [hp] at hprerelease
      cases hprerelease
    | cons a as =>
      rw [hp] at hprerelease
      exact Identifier.listOrder_zero_ne_lt (List.cons_ne_nil a as) hprerelease

/-- Whether a version is below all releases, as the prereleases of the lowest one are. -/
def Semver.BelowReleases (v : Semver) : Prop :=
  v.isPrerelease = true ∧ v.release = .zero

/-- No release is below all releases. -/
lemma Semver.not_belowReleases {v : Semver} (hv : v.isPrerelease = false) : ¬ v.BelowReleases := by
  rintro ⟨hp, -⟩
  rw [hv] at hp
  cases hp

/-- What is below the lowest release is below all releases. -/
lemma Semver.belowReleases_of_order_eq_lt {v : Semver} (h : v.order (.ofRelease .zero) = .lt) :
    v.BelowReleases := by
  rcases Ordering.then_eq_lt.mp h with hrelease | ⟨hrelease, hprerelease⟩
  · exact absurd ((compares_compare _ _).eq_lt.mp hrelease) v.release.zero_le.not_gt
  · refine ⟨?_, (compares_compare _ _).eq_eq.mp hrelease⟩
    cases hp : v.prerelease with
    | nil =>
      rw [hp] at hprerelease
      cases hprerelease
    | cons a as => simp [isPrerelease, hp]

/-- Whether a text is read as a comparator that a version satisfies. -/
def Admits (v : Semver) (t : Text) : Prop :=
  ∃ c, Comparator.ofText .strict t = .ok c ∧ c.Satisfies v

namespace Comparator

variable {c d : Comparator} {cs : List Comparator} {v : Semver} {t : Text}

/-- What the strict grammar reads can be compared. -/
lemma ReadWith.comparable (h : c.ReadWith .strict) : c.Comparable := by
  cases c with
  | any => trivial
  | bounded o w =>
    obtain ⟨u, hu⟩ := h o w rfl
    exact Semver.comparable_of_ofText hu

/-- A version satisfies a comparator if it satisfies what the text of the comparator is read as. -/
lemma admits_text (hc : c.Comparable) : Admits v c.text ↔ c.Satisfies v := by
  cases c with
  | any => exact iff_of_true ⟨.any, rfl, trivial⟩ trivial
  | bounded o w =>
    have hread := ofText_text (o := o) hc
    constructor
    · rintro ⟨d, hd, hsatisfies⟩
      cases hread.symm.trans hd
      exact hsatisfies
    · exact fun hsatisfies => ⟨_, hread, hsatisfies⟩

/-- Comparators of one text are satisfied by the same versions. -/
lemma satisfies_congr (hc : c.Comparable) (hd : d.Comparable) (h : c.text = d.text) :
    c.Satisfies v ↔ d.Satisfies v := by
  rw [← admits_text hc, ← admits_text hd, h]

/-- For each comparator, one of the same text is kept. -/
lemma exists_mem_distinct (hc : c ∈ cs) : ∃ d ∈ distinct cs, d.text = c.text := by
  induction cs with
  | nil => cases hc
  | cons e cs ih =>
    by_cases htext : c.text = e.text
    · exact ⟨e, List.mem_cons_self, htext.symm⟩
    · have hmem : c ∈ cs := (List.mem_cons.mp hc).resolve_left fun heq => htext (heq ▸ rfl)
      obtain ⟨d, hd, hdc⟩ := ih hmem
      exact ⟨d, List.mem_cons_of_mem e (List.mem_filter.mpr ⟨hd, bne_iff_ne.mpr (hdc ▸ htext)⟩), hdc⟩

/-- Dropping repeated comparators changes nothing about what satisfies them all. -/
lemma forall_satisfies_distinct (hcs : ∀ c ∈ cs, c.Comparable) :
    (∀ c ∈ distinct cs, c.Satisfies v) ↔ ∀ c ∈ cs, c.Satisfies v := by
  refine ⟨fun h c hc => ?_, fun h c hc => h c (distinct_subset cs hc)⟩
  obtain ⟨d, hd, htext⟩ := exists_mem_distinct hc
  exact (satisfies_congr (hcs d (distinct_subset cs hd)) (hcs c hc) htext).mp (h d hd)

/-- Nothing is below the lowest prerelease of all. -/
lemma not_satisfies_of_isNull (hc : c.Comparable) (h : c.isNull = true) : ¬ c.Satisfies v := by
  rw [← admits_text hc, beq_iff_eq.mp h]
  rintro ⟨d, hd, hsatisfies⟩
  have hread : ofText .strict ['<', '0', '.', '0', '.', '0', '-', '0'] =
      .ok (.bounded .below (.lowestPrerelease .zero)) := by decide
  cases hread.symm.trans hd
  exact v.order_lowestPrerelease_zero_ne_lt hsatisfies

/-- Only the prereleases of the lowest release of all are below it. -/
lemma admits_fromZeroText (hv : ¬ v.BelowReleases) : Admits v Expression.fromZeroText := by
  have hread : ofText .strict Expression.fromZeroText =
      .ok (.bounded .atLeast (.ofRelease .zero)) := by decide
  exact ⟨_, hread, mt Semver.belowReleases_of_order_eq_lt hv⟩

/-- For a release, a comparator is as restrictive when it is read again. -/
lemma satisfies_reread (hv : v.isPrerelease = false) (hc : c.Comparable) :
    c.reread.Satisfies v ↔ c.Satisfies v := by
  cases c with
  | any => rfl
  | bounded o w =>
    rw [reread]
    split
    · next htext =>
      rw [← admits_text hc, htext]
      exact iff_of_true trivial (admits_fromZeroText (Semver.not_belowReleases hv))
    · rfl

lemma Comparable.rereadIn (hc : c.Comparable) (g : Grammar) : (c.rereadIn g).Comparable := by
  cases c with
  | any => trivial
  | bounded o w =>
    rw [Comparator.rereadIn]
    split
    · trivial
    · exact Semver.Comparable.canonicalIn hc g

lemma comparable_reread (hc : c.Comparable) : c.reread.Comparable := by
  rw [← rereadIn_strict]
  exact hc.rereadIn .strict

end Comparator

/-! ### Superfluous comparators -/

namespace Alternative

variable {a : Alternative} {cs : List Comparator} {v : Semver}

/-- Leaving out what is superfluous makes no difference to what must be satisfied. -/
lemma forall_satisfies_simplify (hcs : ∀ c ∈ cs, c.Comparable) :
    (∀ c ∈ simplify cs, c.Satisfies v) ↔ ∀ c ∈ cs, c.Satisfies v := by
  rw [simplify]
  split
  · next c hc =>
    have hmem := List.mem_of_find?_eq_some hc
    have hnot := Comparator.not_satisfies_of_isNull (v := v) (hcs c hmem) (List.find?_some hc)
    exact iff_of_false (fun h => hnot (h c List.mem_cons_self)) fun h => hnot (h c hmem)
  · rw [← Comparator.forall_satisfies_distinct hcs]
    dsimp only
    split
    · refine ⟨fun h c hc => ?_, fun h c hc => h c (List.mem_filter.mp hc).1⟩
      cases hany : c.isAny with
      | true =>
        rw [Comparator.isAny_eq_true.mp hany]
        trivial
      | false => exact h c (List.mem_filter.mpr ⟨hc, by rw [hany, Bool.not_false]⟩)
    · rfl

/-- For a release, an alternative is as restrictive when it is read again. -/
lemma forall_satisfies_reread (hv : v.isPrerelease = false) (ha : ∀ c ∈ a, c.Comparable) :
    (∀ c ∈ reread a, c.Satisfies v) ↔ ∀ c ∈ a, c.Satisfies v := by
  have hmap : ∀ c ∈ a.map Comparator.reread, c.Comparable :=
    List.forall_mem_map.mpr fun c hc => Comparator.comparable_reread (ha c hc)
  rw [reread, forall_satisfies_simplify hmap, List.forall_mem_map]
  exact forall₂_congr fun c hc => Comparator.satisfies_reread hv (ha c hc)

end Alternative

/-! ### Words -/

lemma exists_mapM_iff {ε α β : Type} {f : α → Except ε β} {as : List α} :
    (∃ bs, as.mapM f = .ok bs) ↔ ∀ a ∈ as, ∃ b, f a = .ok b := by
  induction as with
  | nil => exact iff_of_true ⟨[], rfl⟩ nofun
  | cons a as ih =>
    rw [List.forall_mem_cons, ← ih]
    simp only [List.mapM_cons, bind_eq_ok]
    constructor
    · rintro ⟨-, b, hb, bs, hbs, -⟩
      exact ⟨⟨b, hb⟩, bs, hbs⟩
    · rintro ⟨⟨b, hb⟩, bs, hbs⟩
      exact ⟨b :: bs, b, hb, bs, hbs, rfl⟩

lemma forall_mem_mapM {ε α β : Type} {f : α → Except ε β} {as : List α} {bs : List β}
    (h : as.mapM f = .ok bs) {P : β → Prop} :
    (∀ b ∈ bs, P b) ↔ ∀ a ∈ as, ∃ b, f a = .ok b ∧ P b := by
  induction as generalizing bs with
  | nil =>
    cases h
    exact iff_of_true nofun nofun
  | cons a as ih =>
    rw [List.mapM_cons] at h
    obtain ⟨b, hb, h⟩ := bind_eq_ok.mp h
    obtain ⟨bs', hbs, h⟩ := bind_eq_ok.mp h
    cases h
    simp [ih hbs, hb]

lemma mem_mapM_iff {ε α β : Type} {f : α → Except ε β} {as : List α} {bs : List β} {b : β}
    (h : as.mapM f = .ok bs) : b ∈ bs ↔ ∃ a ∈ as, f a = .ok b := by
  refine ⟨exists_of_mem_mapM h b, fun ⟨a, ha, hb⟩ => ?_⟩
  obtain ⟨c, hc, hmem⟩ := (forall_mem_mapM h).mp (fun c hc => hc) a ha
  rwa [Except.ok.inj (hb.symm.trans hc)]

namespace Text

variable {ps : List Text} {t w : Text}

/-- Only empty words are dropped. -/
lemma mem_dropInnerEmpty (hw : w ≠ []) : w ∈ dropInnerEmpty ps ↔ w ∈ ps := by
  fun_induction dropInnerEmpty ps with
  | case1 | case2 => rfl
  | case3 q ps ih =>
    rw [ih, List.mem_cons (a := w) (b := [])]
    exact (or_iff_right hw).symm
  | case4 p q ps _ ih => rw [List.mem_cons, List.mem_cons, ih]

/-- The fields of a text are its words, but for empty ones at its ends. -/
lemma mem_fields_iff (hw : w ≠ []) : w ∈ fields t ↔ w ∈ words t := by
  rw [words, List.mem_filter, and_iff_left (decide_eq_true hw), fields]
  cases t.splitOnP isBlank with
  | nil => rfl
  | cons p ps => rw [List.mem_cons, List.mem_cons, mem_dropInnerEmpty hw]

end Text

namespace Expression

variable {cs : Text} {a : Alternative} {v : Semver}

/-- The words of an alternative as it is written out. -/
def conditions (cs : Text) : List Text :=
  (writtenOut .strict cs).words

/-- A property of the empty text and the one from zero holds of all comparator texts if it holds of
all conditions. -/
lemma forall_comparatorTexts {P : Text → Prop} (hnil : P []) (hzero : P fromZeroText) :
    (∀ t ∈ comparatorTexts .strict cs, P t) ↔ ∀ w ∈ conditions cs, P w := by
  have hread (t : Text) : P (if t = fromZeroText then [] else t) ↔ P t := by
    split
    · next heq => exact iff_of_true hnil (heq ▸ hzero)
    · rfl
  rw [comparatorTexts, List.forall_mem_map, conditions]
  simp only [hread]
  constructor
  · intro h w hw
    exact h w ((Text.mem_fields_iff (Text.solid_of_mem_words hw).ne_nil).mpr hw)
  · intro h t ht
    by_cases heq : t = []
    · exact heq ▸ hnil
    · exact h t ((Text.mem_fields_iff heq).mp ht)

/-- An alternative is read if each of its conditions is a comparator. -/
theorem exists_alternative_iff :
    (∃ a, alternative .strict cs = .ok a) ↔
      ∀ w ∈ conditions cs, ∃ c, Comparator.ofText .strict w = .ok c := by
  have hzero : ∃ c, Comparator.ofText .strict fromZeroText = .ok c :=
    ⟨.bounded .atLeast (.ofRelease .zero), by decide⟩
  rw [← forall_comparatorTexts ⟨.any, rfl⟩ hzero, ← exists_mapM_iff, alternative]
  simp [bind_eq_ok]

/-- A release satisfies the comparators of an alternative if it satisfies its conditions. -/
theorem forall_satisfies_alternative (hv : v.isPrerelease = false)
    (h : alternative .strict cs = .ok a) :
    (∀ c ∈ a, c.Satisfies v) ↔ ∀ w ∈ conditions cs, Admits v w := by
  obtain ⟨all, hall, h⟩ := bind_eq_ok.mp h
  cases h
  have hcomparable : ∀ c ∈ all, c.Comparable := by
    intro c hc
    obtain ⟨t, -, ht⟩ := exists_of_mem_mapM hall c hc
    exact (Comparator.readWith_of_ofText ht).comparable
  rw [Alternative.forall_satisfies_simplify hcomparable, forall_mem_mapM hall]
  exact forall_comparatorTexts ⟨.any, rfl, trivial⟩
    (Comparator.admits_fromZeroText (Semver.not_belowReleases hv))

end Expression

end VersionConstraints
