import VersionConstraints.Proofs.Expression.Union
import VersionConstraints.Proofs.Range.Single
import VersionConstraints.Proofs.Range.Text

/-!
# Unions

The range of joined texts contains what one of their ranges contains, because each text is read as
it would be by itself, and because alternatives that nothing satisfies have no interval. An
unrestricted alternative takes the place of all others, and with them go the prereleases that they
let in.
-/

namespace VersionConstraints

/-! ### Alternatives -/

namespace Alternative

def Contains (a : Alternative) (v : Semver) : Prop :=
  ∃ i, Interval.ofAlternative a = .ok (some i) ∧ i.contains v = .ok true

/-- Whether an alternative is folded, into regular bounds. -/
def FoldsRegularly (a : Alternative) : Prop :=
  ∃ o, Interval.ofAlternative a = .ok o ∧ Range.Regular o.toList

variable {a : Alternative} {v : Semver}

lemma contains_any (hv : v.isPrerelease = false) : Contains [.any] v := by
  refine ⟨⟨none, none⟩, rfl, ?_⟩
  simp [Interval.contains, Interval.isAboveLower, Interval.isBelowUpper, hv]

/-- The star is the text of the unrestricted comparator only. -/
lemma eq_any_of_display_eq (ha : a.Readable) (h : a.display = ['*']) : a = [.any] := by
  have htexts : a.map Comparator.text = [[]] := map_text_eq_of_display_eq ha (.inl rfl) h
  refine ha.resolve_right fun ⟨hne, hbounded⟩ => ?_
  obtain ⟨c, hc⟩ := List.exists_mem_of_ne_nil a hne
  obtain ⟨o, w, rfl, hw⟩ := hbounded c hc
  have htext := htexts ▸ List.mem_map_of_mem hc
  exact (hw.wellFormed.piece o).ne_nil (List.mem_singleton.mp htext)

end Alternative

namespace Expression

variable {p t : Text} {ps : List Text} {as : List Alternative} {a : Alternative} {v : Semver}

/-- What one of the alternatives contains that are read back, one of all contains. -/
lemma exists_of_contains_reread (h : ∃ b ∈ reread (simplify as), b.Contains v) :
    ∃ a ∈ as, a.reread.Contains v := by
  obtain ⟨b, hb, h⟩ := h
  obtain ⟨a, ha, rfl⟩ := List.mem_map.mp (simplify_subset _ hb)
  exact ⟨a, simplify_subset as ha, h⟩

/-- Alternatives that were read contain together what one of them contains, unless one is read back
as the unrestricted comparator. To releases that makes no difference. -/
lemma exists_contains_reread (has : ∀ a ∈ as, a.Readable ∧ Alternative.simplify a = a)
    (hv : v.isPrerelease = false ∨ ∀ a ∈ as, a.reread ≠ [.any])
    (h : ∃ a ∈ as, a.reread.Contains v) : ∃ b ∈ reread (simplify as), b.Contains v := by
  have hnull : ∀ a ∈ as, a.reread.isNull = true → ¬ a.reread.Contains v := by
    rintro a ha hnull ⟨i, hi, -⟩
    cases eq_none_of_isNull (has a ha).1.alternative_display hnull hi
  have hany (hmem : ∃ a ∈ as, a.reread = [.any]) : v.isPrerelease = false := by
    obtain ⟨a, ha, heq⟩ := hmem
    exact hv.resolve_right fun hne => hne a ha heq
  -- Superfluous alternatives are left out twice: once they are read, and once they are read back.
  refine (exists_simplify_iff ?_).mpr ⟨?_, fun hmem => ?_⟩
  · refine List.forall_mem_map.mpr fun a ha => hnull a (simplify_subset as ha)
  · simp only [List.mem_map, exists_exists_and_eq_and]
    refine (exists_simplify_iff fun a ha hisNull => ?_).mpr ⟨h, fun hmem => ?_⟩
    · exact hnull a ha (Alternative.isNull_reread (has a ha).2 hisNull)
    · exact Alternative.contains_any (hany ⟨[.any], hmem, rfl⟩)
  · obtain ⟨a, ha, heq⟩ := List.mem_map.mp hmem
    exact Alternative.contains_any (hany ⟨a, simplify_subset as ha, heq⟩)

/-- What texts are read as strictly has comparators that can be read back. -/
lemma readable_of_mem_readEach (h : a ∈ readEach .strict ps) :
    a.Readable ∧ Alternative.simplify a = a := by
  obtain ⟨t, ht, hne⟩ := exists_alternative_of_mem_readEach h
  refine ⟨(wellFormed_of_alternative ht hne).imp_right fun ⟨_, hbounded⟩ => ⟨hne, fun c hc => ?_⟩,
    simplify_eq_of_alternative ht⟩
  obtain ⟨o, v, rfl, -⟩ := hbounded c hc
  exact ⟨o, v, rfl, (readWith_of_alternative ht _ hc).comparable⟩

lemma mem_readEach_of_readAlone? (hp : p ∈ ps) (h : readAlone? .strict p = some a) :
    a ∈ readEach .strict ps := by
  obtain ⟨q, -, hq⟩ := readAlone?_eq_some.mp h
  exact mem_readEach.mpr ⟨alternative_ne_nil hq, p, hp, h⟩

lemma readEach_ne_nil (hne : ps ≠ []) (h : ∀ p ∈ ps, (readAlone? .strict p).isSome = true) :
    readEach .strict ps ≠ [] := by
  obtain ⟨p, hp⟩ := List.exists_mem_of_ne_nil ps hne
  obtain ⟨a, ha⟩ := Option.isSome_iff_exists.mp (h p hp)
  exact List.ne_nil_of_mem (mem_readEach_of_readAlone? hp ha)

end Expression

namespace Range

variable {p : Text} {ps : List Text} {as : List Alternative} {a : Alternative} {is js : Range}
  {v : Semver}

/-! ### Ranges of alternatives -/

lemma intervals_regular (has : ∀ a ∈ as, a.FoldsRegularly) : Yields (intervals as) Regular := by
  induction as with
  | nil => exact .ok nofun
  | cons a as ih =>
    obtain ⟨⟨o, ho, hregular⟩, has⟩ := List.forall_mem_cons.mp has
    rw [intervals, ho, ok_bind]
    exact (ih has).bind fun is his => .ok (List.forall_mem_append.mpr ⟨hregular, his⟩)

lemma exists_holds_iff (his : is.Regular) (hv : v.Comparable) :
    (∃ s ∈ is.spans, s.Holds v.precedence) ↔ ∃ i ∈ is, i.contains v = .ok true := by
  simp only [spans, Set.mem_ofPred_eq, exists_exists_and_eq_and]
  exact exists_congr fun i => and_congr_right fun hi =>
    (Interval.contains_spec (his i hi) hv).eq_ok_true_iff.symm

/-- The range of alternatives contains what one of their intervals contains. -/
theorem contains_ofAlternatives (has : ∀ a ∈ as, a.FoldsRegularly) :
    Yields (ofAlternatives as) fun is => ∀ v : Semver, v.Comparable →
      Yields (contains v is) fun ok => ok = true ↔ ∃ a ∈ as, a.Contains v := by
  obtain ⟨all, hall, hregular⟩ := intervals_regular has
  have hmem := (intervals_spec hall).mem_iff
  rw [ofAlternatives, hall, ok_bind]
  apply (canonical_spec hregular).imp
  rintro is ⟨hsub, -, hspans⟩ v hv
  refine (contains_spec (fun i hi => hregular i (hsub i hi)) hv).imp fun ok hok => hok.trans ?_
  rw [hspans, exists_holds_iff hregular hv]
  constructor
  · rintro ⟨i, hi, h⟩
    obtain ⟨a, ha, hai⟩ := (hmem i).mp hi
    exact ⟨a, ha, i, hai, h⟩
  · rintro ⟨a, ha, i, hai, h⟩
    exact ⟨i, (hmem i).mpr ⟨a, ha, hai⟩, h⟩

/-! ### Joined texts -/

/-- The range of joined texts that are read strictly is that of all their alternatives, once they
are read back. -/
theorem ofText_bars (hps : ∀ p ∈ ps, '|' ∉ p) (hne : ps ≠ [])
    (h : ∀ p ∈ ps, (Expression.readAlone? .strict p).isSome = true) :
    ofText .strict (Text.bars.intercalate ps) = do
      let is ← ofAlternatives
        (Expression.reread (Expression.simplify (Expression.readEach .strict ps)))
      return some is := by
  have hnil := Expression.readEach_ne_nil hne h
  have hreadable : Expression.Readable (Expression.simplify (Expression.readEach .strict ps)) :=
    ⟨Expression.simplify_ne_nil hnil, fun a ha =>
      (Expression.readable_of_mem_readEach (Expression.simplify_subset _ ha)).1⟩
  rw [ofText, (Expression.canonicalText?_bars_eq_some_iff hps hne).mpr ⟨h, hnil, rfl⟩]
  dsimp only
  rw [hreadable.alternatives_display (.inl rfl), ok_bind]

/-! ### Single texts -/

lemma contains_toList {o : Option Interval} :
    contains v o.toList = .ok true ↔ ∃ i, o = some i ∧ i.contains v = .ok true := by
  cases o with
  | none => exact iff_of_false nofun nofun
  | some i =>
    rw [Option.toList_some, contains]
    cases hi : i.contains v with
    | error f => simp [hi]
    | ok ok => cases ok <;> simp [contains, hi]

section Alone

variable (hp : '|' ∉ p)

include hp

/-- A text without bars has the interval of the alternative that it is read as. -/
lemma ofText_alone (h : Expression.readAlone? .strict p = some a) : ofText .strict p = do
    let i ← Interval.ofAlternative a.reread
    return some i.toList := by
  obtain ⟨q, hq, ha⟩ := Expression.readAlone?_eq_some.mp h
  refine ofText_of_alternative ?_ (Expression.not_mem_of_joinOperands? hp hq) ha
  rw [Expression.withoutCommas?_of_not_mem fun hmem => hp (Text.mem_of_mem_trim hmem),
    Expression.joinOperands?_trim, hq]

/-- A part with a canonical text can be read alone. -/
lemma exists_readAlone? {t : Text}
    (h : (Expression.withoutCommas? p.trim).bind (Expression.canonicalText? .strict) = some t) :
    ∃ a, Expression.readAlone? .strict p = some a ∧ a.display = t := by
  have hjoin := Expression.canonicalText?_bars_eq_some_iff (g := .strict) (t := t)
    (List.forall_mem_singleton.mpr hp) (List.cons_ne_nil p [])
  rw [List.intercalate_singleton, h] at hjoin
  obtain ⟨hread, -, ht⟩ := hjoin.mp rfl
  obtain ⟨a, ha⟩ := Option.isSome_iff_exists.mp (hread p List.mem_cons_self)
  obtain ⟨q, -, hq⟩ := Expression.readAlone?_eq_some.mp ha
  have heach : Expression.readEach .strict [p] = [a] := by
    simp [Expression.readEach, ha, Expression.alternative_ne_nil hq]
  rw [heach, Expression.simplify_singleton, Expression.display, List.map_singleton,
    List.intercalate_singleton] at ht
  exact ⟨a, ha, ht⟩

/-- A text without bars that is a range is read as an alternative that is folded. -/
lemma exists_of_ofText_alone (h : ofText .strict p = .ok (some js)) :
    ∃ a o, Expression.readAlone? .strict p = some a ∧ Interval.ofAlternative a.reread = .ok o ∧
      o.toList = js := by
  obtain ⟨t, -, ht, -⟩ := exists_alternatives_of_ofText h
  obtain ⟨a, ha, -⟩ := exists_readAlone? hp ht
  rw [ofText_alone hp ha] at h
  obtain ⟨o, ho, h⟩ := bind_eq_ok.mp h
  cases h
  exact ⟨a, o, ha, ho, rfl⟩

/-- The range of a text without bars contains what the interval of its alternative contains. -/
lemma contains_alone_iff (h : Expression.readAlone? .strict p = some a) :
    (∃ js, ofText .strict p = .ok (some js) ∧ contains v js = .ok true) ↔ a.reread.Contains v := by
  rw [ofText_alone hp h]
  constructor
  · rintro ⟨js, hjs, hcontains⟩
    obtain ⟨o, ho, hjs⟩ := bind_eq_ok.mp hjs
    cases hjs
    obtain ⟨i, rfl, hi⟩ := contains_toList.mp hcontains
    exact ⟨i, ho, hi⟩
  · rintro ⟨i, hi, hcontains⟩
    refine ⟨[i], ?_, contains_toList.mpr ⟨i, rfl, hcontains⟩⟩
    rw [hi]
    rfl

end Alone

/-! ### Unions -/

/-- Whether the range of one of some texts contains a version. -/
def OneContains (ps : List Text) (v : Semver) : Prop :=
  ∃ p ∈ ps, ∃ js, ofText .strict p = .ok (some js) ∧ contains v js = .ok true

section Joined

variable (hps : ∀ p ∈ ps, '|' ∉ p)

include hps

/-- One of the texts contains a version if one of their alternatives does. -/
lemma oneContains_iff : OneContains ps v ↔
    ∃ a ∈ Expression.readEach .strict ps, a.reread.Contains v := by
  constructor
  · rintro ⟨p, hp, js, hjs, h⟩
    obtain ⟨a, o, ha, -⟩ := exists_of_ofText_alone (hps p hp) hjs
    exact ⟨a, Expression.mem_readEach_of_readAlone? hp ha,
      (contains_alone_iff (hps p hp) ha).mp ⟨js, hjs, h⟩⟩
  · rintro ⟨a, ha, h⟩
    obtain ⟨-, p, hp, hpa⟩ := Expression.mem_readEach.mp ha
    exact ⟨p, hp, (contains_alone_iff (hps p hp) hpa).mpr h⟩

/-- A text that is read back as the unrestricted comparator has the unrestricted range. -/
lemma exists_unrestricted_of_reread_eq (ha : a ∈ Expression.readEach .strict ps)
    (h : a.reread = [.any]) : ∃ p ∈ ps, ofText .strict p = .ok (some [⟨none, none⟩]) := by
  obtain ⟨-, p, hp, hpa⟩ := Expression.mem_readEach.mp ha
  refine ⟨p, hp, ?_⟩
  rw [ofText_alone (hps p hp) hpa, h]
  rfl

/-- The unrestricted comparator takes the place of all alternatives. -/
lemma simplify_readEach_of_star (h : ∃ p ∈ ps, (Expression.withoutCommas? p.trim).bind
    (Expression.canonicalText? .strict) = some ['*']) :
    Expression.simplify (Expression.readEach .strict ps) = [[.any]] := by
  obtain ⟨p, hp, hstar⟩ := h
  obtain ⟨a, ha, hdisplay⟩ := exists_readAlone? (hps p hp) hstar
  have hmem := Expression.mem_readEach_of_readAlone? hp ha
  obtain rfl := Alternative.eq_any_of_display_eq
    (Expression.readable_of_mem_readEach hmem).1 hdisplay
  exact Expression.simplify_eq_of_mem
    ((Expression.mem_simplify_iff ⟨_, hmem, rfl⟩).mpr ⟨hmem, rfl, fun _ => rfl⟩)

variable (hread : ∀ p ∈ ps, ∃ js, ofText .strict p = .ok (some js) ∧ js.Regular)

include hread

lemma isSome_readAlone? : ∀ p ∈ ps, (Expression.readAlone? .strict p).isSome = true := by
  intro p hp
  obtain ⟨js, hjs, -⟩ := hread p hp
  obtain ⟨a, o, ha, -⟩ := exists_of_ofText_alone (hps p hp) hjs
  rw [ha]
  rfl

lemma foldsRegularly_reread : ∀ b ∈ Expression.reread (Expression.simplify
    (Expression.readEach .strict ps)), b.FoldsRegularly := by
  intro b hb
  obtain ⟨a, ha, rfl⟩ := List.mem_map.mp (Expression.simplify_subset _ hb)
  obtain ⟨-, p, hp, hpa⟩ := Expression.mem_readEach.mp (Expression.simplify_subset _ ha)
  obtain ⟨js, hjs, hregular⟩ := hread p hp
  obtain ⟨c, o, hc, ho, rfl⟩ := exists_of_ofText_alone (hps p hp) hjs
  rw [hpa] at hc
  cases hc
  exact ⟨o, ho, hregular⟩

end Joined

/-- The range of joined texts contains only what the range of one of them contains, and all of that
but for prereleases where one of these ranges is unrestricted. Where one of the texts is written as
a star canonically, the range of all is unrestricted and contains no prerelease. -/
theorem contains_ofText_bars_iff (hps : ∀ p ∈ ps, '|' ∉ p) (hne : ps ≠ [])
    (hread : ∀ p ∈ ps, ∃ js, ofText .strict p = .ok (some js) ∧ js.Regular) :
    ∃ is, ofText .strict (Text.bars.intercalate ps) = .ok (some is) ∧
      (∀ v : Semver, v.Comparable → ∃ ok, contains v is = .ok ok ∧
        (ok = true → OneContains ps v) ∧
        (v.isPrerelease = false ∨ (∀ p ∈ ps, ofText .strict p ≠ .ok (some [⟨none, none⟩])) →
          (ok = true ↔ OneContains ps v))) ∧
      ((∃ p ∈ ps, (Expression.withoutCommas? p.trim).bind (Expression.canonicalText? .strict) =
        some ['*']) → is = [⟨none, none⟩]) := by
  obtain ⟨is, his, hcontains⟩ := contains_ofAlternatives (foldsRegularly_reread hps hread)
  refine ⟨is, ?_, fun v hv => ?_, fun hstar => ?_⟩
  · rw [ofText_bars hps hne (isSome_readAlone? hps hread), his]
    rfl
  · obtain ⟨ok, hok, hiff⟩ := hcontains v hv
    have hsub : ok = true → OneContains ps v := fun h =>
      (oneContains_iff hps).mpr (Expression.exists_of_contains_reread (hiff.mp h))
    refine ⟨ok, hok, hsub, fun hsafe => ⟨hsub, fun h => hiff.mpr ?_⟩⟩
    refine Expression.exists_contains_reread
      (fun a ha => Expression.readable_of_mem_readEach ha) (hsafe.imp_right fun hnone a ha h => ?_)
      ((oneContains_iff hps).mp h)
    obtain ⟨p, hp, hunrestricted⟩ := exists_unrestricted_of_reread_eq hps ha h
    exact hnone p hp hunrestricted
  · rw [simplify_readEach_of_star hps hstar] at his
    exact Except.ok.inj (his.symm.trans (ofAlternatives_singleton [.any]))

def point (v : Semver) : Range := [⟨some ⟨v, true⟩, some ⟨v, true⟩⟩]

lemma regular_point (hv : v.Regular) : (point v).Regular :=
  List.forall_mem_singleton.mpr ⟨Bound.regular_some.mpr hv, Bound.regular_some.mpr hv⟩

/-- A text of which the range is one prerelease. -/
def prereleaseText : Text := "1.2.0-beta.3".toList

/-- Two texts, of which one lets in a prerelease. -/
def sampleTexts : List Text := [prereleaseText, ['2']]

/-- What texts are read as that let in all releases, some of them or a prerelease. -/
lemma readings_sampleTexts :
    ofText .strict prereleaseText = .ok (some (point .sample)) ∧
      ofText .strict ['2'] = .ok (some [⟨some ⟨.ofRelease ⟨2, 0, 0⟩, true⟩,
        some ⟨.ofRelease ⟨3, 0, 0⟩, false⟩⟩]) ∧
        ofText .strict ['*'] = .ok (some [⟨none, none⟩]) ∧
          ofText .strict (Text.bars.intercalate [['*'], prereleaseText]) =
            .ok (some [⟨none, none⟩]) := by
  decide +kernel

theorem contains_ofText_bars_iff_sample :
    (∀ p ∈ sampleTexts, ∃ js, ofText .strict p = .ok (some js) ∧ js.Regular) ∧
      ∃ is ok, ofText .strict (Text.bars.intercalate sampleTexts) = .ok (some is) ∧
        contains .sample is = .ok ok ∧ (ok = true ↔ OneContains sampleTexts .sample) := by
  obtain ⟨hpoint, hmajor, -, -⟩ := readings_sampleTexts
  have hregular : Interval.Regular
      ⟨some ⟨.ofRelease ⟨2, 0, 0⟩, true⟩, some ⟨.ofRelease ⟨3, 0, 0⟩, false⟩⟩ :=
    ⟨Bound.regular_some.mpr (Semver.ordinary_ofRelease (by decide)).regular,
      Bound.regular_some.mpr (Semver.ordinary_ofRelease (by decide)).regular⟩
  have hread : ∀ p ∈ sampleTexts, ∃ js, ofText .strict p = .ok (some js) ∧ js.Regular :=
    List.forall_mem_cons.mpr ⟨⟨_, hpoint, regular_point Semver.ordinary_sample.regular⟩,
      List.forall_mem_singleton.mpr ⟨_, hmajor, List.forall_mem_singleton.mpr hregular⟩⟩
  have hrestricted : ∀ p ∈ sampleTexts, ofText .strict p ≠ .ok (some [⟨none, none⟩]) := by
    refine List.forall_mem_cons.mpr ⟨?_, List.forall_mem_singleton.mpr ?_⟩
    · rw [hpoint]
      decide
    · rw [hmajor]
      decide
  obtain ⟨is, his, hcontains, -⟩ := contains_ofText_bars_iff (by decide) (by decide) hread
  obtain ⟨ok, hok, -, hiff⟩ := hcontains .sample Semver.ordinary_sample.regular.toComparable
  exact ⟨hread, is, ok, his, hok, hiff (.inr hrestricted)⟩

/-- The star takes away a prerelease that another text lets in. -/
theorem star_union_loses_prerelease : Semver.sample.Ordinary ∧
    ofText .strict ['*'] = .ok (some [⟨none, none⟩]) ∧ Regular [⟨none, none⟩] ∧
      ofText .strict prereleaseText = .ok (some (point .sample)) ∧ (point .sample).Regular ∧
        contains .sample (point .sample) = .ok true ∧
          ofText .strict (Text.bars.intercalate [['*'], prereleaseText]) =
              .ok (some [⟨none, none⟩]) ∧
            contains .sample [⟨none, none⟩] = .ok false := by
  obtain ⟨hpoint, -, hstar, hjoined⟩ := readings_sampleTexts
  have hunrestricted : Regular [⟨none, none⟩] :=
    List.forall_mem_singleton.mpr ⟨Bound.regular_none, Bound.regular_none⟩
  exact ⟨Semver.ordinary_sample, hstar, hunrestricted, hpoint,
    regular_point Semver.ordinary_sample.regular, by decide, hjoined, by decide⟩

end Range

end VersionConstraints
