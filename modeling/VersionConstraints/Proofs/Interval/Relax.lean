import VersionConstraints.Proofs.Interval.Span

/-!
# Relaxed spans

A span that begins with the lowest release of all, and has more than that release, is displayed with
a lower bound that restricts nothing when it is read back. The relaxed span has no lower cut
instead. It holds the same, as long as it holds anything.

When one relaxed span of a set holds all releases, the set is read back as that span alone. This
changes nothing as long as no span of the set names a release, and meets keep to that. Meets of sets
that are read back as they are need not be so themselves: one of them can begin with the lowest
release, and that is then all there is in the way.
-/

namespace VersionConstraints

namespace Precedence

variable {p : Precedence}

/-- No place is below that of the lowest prerelease of the lowest release. -/
lemma lowest_zero_le (p : Precedence) : lowest .zero ≤ p := by
  rcases p.eq_ofRelease_or_exists with heq | hprerelease
  · rw [heq, ← not_lt, ofRelease_lt_lowest, not_lt]
    exact Release.zero_le _
  · have hle := (lowest_le_and_lt_iff.mpr hprerelease).1
    refine le_trans ?_ hle
    rw [Prod.Lex.le_iff']
    exact ⟨Release.zero_le _, fun _ => le_rfl⟩

/-- Above a prerelease there is another one of the same release. -/
lemma exists_lt_of_prerelease {r : Release} (x : Rank ×ₗ List Rank) :
    ∃ y : Rank ×ₗ List Rank, (toLex (r, ↑x) : Precedence) < toLex (r, ↑y) := by
  refine ⟨toLex ((ofLex x).1, (ofLex x).2 ++ [⊥]), Prod.Lex.lt_iff'.mpr ⟨le_rfl, fun _ => ?_⟩⟩
  refine WithTop.coe_lt_coe.mpr (Prod.Lex.lt_iff'.mpr ⟨le_rfl, fun _ => ?_⟩)
  exact append_bot_le_iff.mp le_rfl

end Precedence

namespace Cut

variable {c : Cut} {r : Release} {D : Set Release} {x : Bool}

lemma eq_beside (hbot : c ≠ ⊥) (htop : c ≠ ⊤) : ∃ p x, c = beside p x := by
  obtain ⟨d, rfl⟩ := WithBot.ne_bot_iff_exists.mp hbot
  have hd : d ≠ ⊤ := fun heq => htop (congrArg _ heq)
  obtain ⟨q, rfl⟩ := WithTop.ne_top_iff_exists.mp hd
  exact ⟨(ofLex q).1, (ofLex q).2, rfl⟩

/-- Above a cut at a prerelease there is a prerelease of the same release. -/
lemma exists_before_mem_zone (h : c ∈ zone r) : ∃ p, before p ∈ zone r ∧ c ≤ before p := by
  have hbot : c ≠ ⊥ := by
    rintro rfl
    exact bot_not_mem_zone h
  have htop : c ≠ ⊤ := by
    rintro rfl
    exact top_not_mem_zone h
  obtain ⟨q, x, rfl⟩ := eq_beside hbot htop
  obtain ⟨y, rfl⟩ := beside_mem_zone.mp h
  obtain ⟨z, hz⟩ := Precedence.exists_lt_of_prerelease (r := r) y
  refine ⟨toLex (r, ↑z), beside_mem_zone.mpr ⟨z, rfl⟩, ?_⟩
  cases x with
  | false => exact before_le_before.mpr hz.le
  | true => exact behind_le_before.mpr hz

/-- A cut below the lowest release is at one of its prereleases, or is no cut at all. -/
lemma eq_bot_or_mem_zone (h : c < before (.ofRelease .zero)) : c = ⊥ ∨ c ∈ zone .zero := by
  by_cases hbot : c = ⊥
  · exact .inl hbot
  · obtain ⟨p, x, rfl⟩ := eq_beside hbot (h.trans beside_lt_top).ne
    refine .inr ⟨?_, h⟩
    cases x with
    | false => exact before_le_before.mpr (Precedence.lowest_zero_le p)
    | true => exact before_le_behind.mpr (Precedence.lowest_zero_le p)

lemma eq_top_of_settle_eq_top (h : settle D c = ⊤) : c = ⊤ := by
  by_cases hc : Settled D c
  · rwa [settle_of_settled hc] at h
  · obtain ⟨r, hmem, hr⟩ : ∃ r, c ∈ zone r ∧ r ∉ D := by simpa [Settled] using hc
    rw [settle_of_mem_zone hr hmem] at h
    exact absurd h beside_lt_top.ne

end Cut

namespace Span

variable {s t u : Span} {S T : Set Span} {p : Precedence} {r : Release}

/-! ### Relaxing -/

/-- The span of everything but the prereleases. -/
def unrestricted : Span := of ⊥ ⊤

/-- Whether a span begins with the lowest release of all and has more than that release. -/
def FromZero (s : Span) : Prop :=
  s.lower = .before (.ofRelease .zero) ∧ s.upper ≠ .behind (.ofRelease .zero)

open Classical in
/-- A span without its lower cut, if that cut restricts nothing. -/
noncomputable def relax (s : Span) : Span :=
  if s.FromZero then of ⊥ s.upper else s

/-- A span that begins at the lowest release is relaxed to begin nowhere. -/
lemma relax_of_fromZero (h : s.FromZero) : s.relax = of ⊥ s.upper := if_pos h

/-- Every other span is left as it is. -/
lemma relax_of_not_fromZero (h : ¬ s.FromZero) : s.relax = s := if_neg h

/-- Relaxing a span changes none of the releases it names. -/
lemma names_relax : s.relax.Names r ↔ s.Names r := by
  by_cases h : s.FromZero
  · rw [relax_of_fromZero h, Names, Names, h.1]
    exact or_congr_left (iff_of_false Cut.bot_not_mem_zone Cut.before_ofRelease_not_mem_zone)
  · rw [relax_of_not_fromZero h]

/-- A relaxed span holds what the span holds, if that is anything. -/
theorem holds_relax (hs : s.Inhabited) : s.relax.Holds p ↔ s.Holds p := by
  by_cases h : s.FromZero
  · have hupper : s.relax.upper = s.upper := by
      rw [relax_of_fromZero h, upper_of]
    constructor
    · rintro ⟨⟨-, hp⟩, hnamed⟩
      rw [hupper] at hp
      refine ⟨⟨?_, hp⟩, fun r hr => names_relax.mp (hnamed r hr)⟩
      by_contra hlow
      rw [h.1, not_le] at hlow
      -- A place below the lowest release is one of its prereleases, and so is then the upper cut.
      have hzone := (Cut.eq_bot_or_mem_zone hlow).resolve_left Cut.bot_lt_beside.ne'
      have hnames := names_relax.mp (hnamed .zero hzone)
      rw [Names, h.1] at hnames
      have hzone' := hnames.resolve_left Cut.before_ofRelease_not_mem_zone
      obtain ⟨q, ⟨hlower, hq⟩, -⟩ := hs
      rw [h.1] at hlower
      exact absurd (hlower.trans_lt hq) hzone'.2.not_gt
    · rintro ⟨⟨-, hp⟩, hnamed⟩
      refine ⟨⟨?_, hupper ▸ hp⟩, fun r hr => names_relax.mpr (hnamed r hr)⟩
      rw [relax_of_fromZero h, lower_of]
      exact bot_le
  · rw [relax_of_not_fromZero h]

/-- The spans relaxed to the unrestricted one are that one and the span of all that begins with the
lowest release. -/
lemma relax_eq_unrestricted : s.relax = unrestricted ↔
    s.upper = ⊤ ∧ (s.lower = ⊥ ∨ s.lower = .before (.ofRelease .zero)) := by
  by_cases h : s.FromZero
  · rw [relax_of_fromZero h]
    constructor
    · exact fun heq => ⟨congrArg upper heq, .inr h.1⟩
    · rintro ⟨hupper, -⟩
      rw [hupper]
      rfl
  · rw [relax_of_not_fromZero h]
    constructor
    · rintro rfl
      exact ⟨rfl, .inl rfl⟩
    · rintro ⟨hupper, hlower⟩
      refine ext (hlower.resolve_right fun hzero => h ⟨hzero, ?_⟩) hupper
      rw [hupper]
      exact Cut.beside_lt_top.ne'

/-! ### Reading back -/

open Classical in
/-- The relaxed spans of a set, or the unrestricted one alone if it is among them. -/
noncomputable def reread (S : Set Span) : Set Span :=
  if unrestricted ∈ relax '' S then {unrestricted} else relax '' S

/-- Whether no span of a set names a release, if one of them is relaxed to the unrestricted one. -/
def Collapsible (S : Set Span) : Prop :=
  unrestricted ∈ relax '' S → ∀ s ∈ S, ∀ r, ¬ s.Names r

/-- Whether no span of a set begins with the lowest release in vain, and the unrestricted span is
the only one if it is there. -/
structure Rereadable (S : Set Span) : Prop where
  not_fromZero : ∀ s ∈ S, ¬ s.FromZero
  alone : unrestricted ∈ S → S = {unrestricted}

namespace Rereadable

/-- Rereadable spans are not moved by relaxing. -/
lemma image_relax (h : Rereadable S) : relax '' S = S := by
  refine (Set.image_congr fun s hs => relax_of_not_fromZero (h.not_fromZero s hs)).trans ?_
  exact Set.image_id S

/-- Rereadable spans are read back as they stand. -/
lemma reread_eq (h : Rereadable S) : reread S = S := by
  rw [reread, h.image_relax]
  split
  · next hmem => exact (h.alone hmem).symm
  · rfl

/-- A rereadable set that has the unrestricted span has no span that names a release. -/
lemma collapsible (h : Rereadable S) : Collapsible S := by
  intro hmem s hs r hr
  rw [h.image_relax] at hmem
  rw [h.alone hmem] at hs
  obtain rfl := hs
  exact hr.elim Cut.bot_not_mem_zone Cut.top_not_mem_zone

end Rereadable

/-- Reading a set of spans back keeps what it holds. -/
theorem exists_mem_reread_holds (h : Collapsible S) (hS : ∀ s ∈ S, s.Inhabited) :
    (∃ s ∈ reread S, s.Holds p) ↔ ∃ s ∈ S, s.Holds p := by
  by_cases hunrestricted : unrestricted ∈ relax '' S
  · rw [reread, if_pos hunrestricted]
    have hnone := h hunrestricted
    obtain ⟨s, hs, heq⟩ := hunrestricted
    constructor
    · rintro ⟨_, rfl, hp⟩
      exact ⟨s, hs, (holds_relax (hS s hs)).mp (heq ▸ hp)⟩
    · rintro ⟨t, ht, -, hnamed⟩
      refine ⟨unrestricted, rfl, ⟨bot_le, Cut.beside_lt_top⟩, fun r hr => ?_⟩
      exact absurd (hnamed r hr) (hnone t ht r)
  · rw [reread, if_neg hunrestricted]
    constructor
    · rintro ⟨_, ⟨s, hs, rfl⟩, hp⟩
      exact ⟨s, hs, (holds_relax (hS s hs)).mp hp⟩
    · rintro ⟨s, hs, hp⟩
      exact ⟨_, ⟨s, hs, rfl⟩, (holds_relax (hS s hs)).mpr hp⟩

/-- A meet names only releases that both spans name. -/
lemma names_of_names_meet (h : (meet s t).Names r) : s.Names r ∧ t.Names r :=
  (mem_of_names_trim h).1

/-- A meet is relaxed to the unrestricted span only if one of both spans is. Two lower cuts at
prereleases of the lowest release would leave one at a prerelease, since there is always one more.
-/
lemma relax_eq_of_relax_meet_eq (h : (meet s t).relax = unrestricted) :
    s.relax = unrestricted ∨ t.relax = unrestricted := by
  obtain ⟨hupper, hlower⟩ := relax_eq_unrestricted.mp h
  obtain ⟨hsu, htu⟩ := min_eq_top.mp (Cut.eq_top_of_settle_eq_top hupper)
  rw [relax_eq_unrestricted, relax_eq_unrestricted, and_iff_right hsu, and_iff_right htu]
  by_contra hnone
  obtain ⟨hs, ht⟩ := not_or.mp hnone
  set c := max s.lower t.lower with hc
  have hle : c ≤ .before (.ofRelease .zero) := by
    refine (Cut.le_settle (D := populated c (min s.upper t.upper) (common s t))).trans ?_
    rcases hlower with hlower | hlower
    · exact hlower.trans_le bot_le
    · exact hlower.le
  have mem_zone {d : Cut} (hd : ¬ (d = ⊥ ∨ d = .before (.ofRelease .zero))) (hdc : d ≤ c) :
      d ∈ Cut.zone .zero := by
    obtain ⟨hbot, hzero⟩ := not_or.mp hd
    exact (Cut.eq_bot_or_mem_zone ((hdc.trans hle).lt_of_ne hzero)).resolve_left hbot
  have hszone := mem_zone hs (le_max_left _ _)
  have htzone := mem_zone ht (le_max_right _ _)
  have hzone : c ∈ Cut.zone .zero := by
    rcases max_choice s.lower t.lower with heq | heq
    · rw [hc, heq]
      exact hszone
    · rw [hc, heq]
      exact htzone
  have hpopulated : .zero ∈ populated c (min s.upper t.upper) (common s t) := by
    obtain ⟨p, hp, hcp⟩ := Cut.exists_before_mem_zone hzone
    refine ⟨⟨.inl hszone, .inl htzone⟩, p, hp, hcp, ?_⟩
    rw [hsu, htu, min_self]
    exact Cut.beside_lt_top
  have hsettled : (meet s t).lower = c := Cut.settle_of_settled fun r hr =>
    Cut.eq_of_mem_zone hzone hr ▸ hpopulated
  rw [hsettled] at hlower
  rcases hlower with hlower | hlower
  · exact Cut.bot_not_mem_zone (hlower ▸ hzone)
  · exact Cut.before_ofRelease_not_mem_zone (hlower ▸ hzone)

/-- Meets keep a collapsible set collapsible. -/
theorem Collapsible.meets (hS : Collapsible S) (hT : Collapsible T) : Collapsible (meets S T) := by
  rintro ⟨_, ⟨-, s, hs, t, ht, rfl⟩, heq⟩ _ ⟨-, s', hs', t', ht', rfl⟩ r hr
  obtain ⟨hrs, hrt⟩ := names_of_names_meet hr
  rcases relax_eq_of_relax_meet_eq heq with hrelax | hrelax
  · exact hS ⟨s, hs, hrelax⟩ s' hs' r hrs
  · exact hT ⟨t, ht, hrelax⟩ t' ht' r hrt

/-! ### Sets that are read back as they are -/

lemma not_fromZero_relax : ¬ s.relax.FromZero := by
  by_cases h : s.FromZero
  · rw [relax_of_fromZero h]
    exact fun hrelax => Cut.bot_lt_beside.ne hrelax.1
  · rw [relax_of_not_fromZero h]
    exact h

lemma relax_unrestricted : unrestricted.relax = unrestricted :=
  relax_of_not_fromZero fun h => Cut.bot_lt_beside.ne h.1

/-- The sets that are read back as they are. -/
theorem reread_eq_iff : reread S = S ↔ Rereadable S := by
  refine ⟨fun h => ?_, Rereadable.reread_eq⟩
  by_cases hmem : unrestricted ∈ relax '' S
  · rw [reread, if_pos hmem] at h
    refine ⟨?_, fun _ => h.symm⟩
    rw [← h]
    rintro _ rfl
    rw [← relax_unrestricted]
    exact not_fromZero_relax
  · rw [reread, if_neg hmem] at h
    refine ⟨?_, fun hunrestricted => absurd ⟨_, hunrestricted, relax_unrestricted⟩ hmem⟩
    rw [← h]
    rintro _ ⟨s, -, rfl⟩
    exact not_fromZero_relax

/-- Two spans meet in the unrestricted one only if both are unrestricted. -/
lemma eq_unrestricted_of_meet_eq (h : meet s t = unrestricted) :
    s = unrestricted ∧ t = unrestricted := by
  have hupper : min s.upper t.upper = ⊤ := Cut.eq_top_of_settle_eq_top (congrArg upper h)
  have hlower : max s.lower t.lower = ⊥ :=
    le_bot_iff.mp (Cut.le_settle.trans (congrArg lower h).le)
  obtain ⟨hsu, htu⟩ := min_eq_top.mp hupper
  obtain ⟨hsl, htl⟩ := max_eq_bot.mp hlower
  exact ⟨ext hsl hsu, ext htl htu⟩

/-- Meets can begin with the lowest release in vain, but nothing else keeps them from being read
back as they are. -/
theorem Rereadable.meets_iff (hS : Rereadable S) (hT : Rereadable T) :
    Rereadable (Span.meets S T) ↔ ∀ u ∈ Span.meets S T, ¬ u.FromZero := by
  refine ⟨not_fromZero, fun h => ⟨h, fun hmem => ?_⟩⟩
  obtain ⟨-, s, hs, t, ht, hst⟩ := id hmem
  obtain ⟨rfl, rfl⟩ := eq_unrestricted_of_meet_eq hst
  refine Set.eq_singleton_iff_unique_mem.mpr ⟨hmem, ?_⟩
  rintro _ ⟨-, s', hs', t', ht', rfl⟩
  rw [hS.alone hs] at hs'
  rw [hT.alone ht] at ht'
  rw [Set.mem_singleton_iff.mp hs', Set.mem_singleton_iff.mp ht', hst]

end Span

end VersionConstraints
