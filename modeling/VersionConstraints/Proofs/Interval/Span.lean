import VersionConstraints.Proofs.Interval.Cut

/-!
# Spans

A span is what the two bounds of an interval come to: a pair of cuts. It holds the releases between
the cuts, and the prereleases between them whose zone has one of the cuts.

Trimming takes two cuts and a set of releases. It drops the releases that have no prerelease between
the cuts, and settles the cuts for the others. If each release of the set has a cut that is not
inside, the trimmed span holds what lies between the cuts, up to prereleases of releases that are
not in the set. The meet of two spans is trimmed, and it is commutative and associative.
-/

namespace VersionConstraints

/-- A pair of cuts, compared by the lower one first. -/
def Span := Cut ×ₗ Cut

noncomputable instance : LinearOrder Span :=
  inferInstanceAs (LinearOrder (Cut ×ₗ Cut))

namespace Span

def of (lower upper : Cut) : Span := toLex (lower, upper)

def lower (s : Span) : Cut := (ofLex s).1

def upper (s : Span) : Cut := (ofLex s).2

variable {s t u : Span} {lower upper : Cut} {allowed : Set Release} {p : Precedence} {r : Release}

@[simp] lemma lower_of : (of lower upper).lower = lower := rfl

@[simp] lemma upper_of : (of lower upper).upper = upper := rfl

lemma ext (hlower : s.lower = t.lower) (hupper : s.upper = t.upper) : s = t :=
  ofLex.injective (Prod.ext hlower hupper)

/-! ### Membership -/

def Between (lower upper : Cut) (p : Precedence) : Prop :=
  lower ≤ .before p ∧ .before p < upper

/-- Whether one of the cuts is in the zone of a release. -/
def Names (s : Span) (r : Release) : Prop :=
  s.lower ∈ Cut.zone r ∨ s.upper ∈ Cut.zone r

def Holds (s : Span) (p : Precedence) : Prop :=
  Between s.lower s.upper p ∧ ∀ r, .before p ∈ Cut.zone r → s.Names r

/-! ### Trimming -/

/-- The releases of a set that have a prerelease between two cuts. -/
def populated (lower upper : Cut) (allowed : Set Release) : Set Release :=
  { r ∈ allowed | ∃ p, .before p ∈ Cut.zone r ∧ Between lower upper p }

/-- The span between two cuts that lets in prereleases of the given releases only. -/
noncomputable def trim (lower upper : Cut) (allowed : Set Release) : Span :=
  of (Cut.settle (populated lower upper allowed) lower)
    (Cut.settle (populated lower upper allowed) upper)

/-- Each release of a set has a cut in its zone that is not between two cuts. -/
def Backed (lower upper : Cut) (allowed : Set Release) : Prop :=
  ∀ r ∈ allowed, ∃ c ∈ Cut.zone r, c ≤ lower ∨ upper ≤ c

/-- A cut in the zone of a populated release survives on one of the sides. -/
lemma names_trim (h : Backed lower upper allowed) (hr : r ∈ populated lower upper allowed) :
    (trim lower upper allowed).Names r := by
  obtain ⟨hallowed, p, hp, hlower, hupper⟩ := hr
  have hsettle {c : Cut} (hc : c ∈ Cut.zone r) :
      Cut.settle (populated lower upper allowed) c = c := by
    apply Cut.settle_of_settled
    intro q hq
    rw [← Cut.eq_of_mem_zone hc hq]
    exact ⟨hallowed, p, hp, hlower, hupper⟩
  obtain ⟨c, hc, hle | hle⟩ := h r hallowed
  · have hzone : lower ∈ Cut.zone r := ⟨hc.1.trans hle, hlower.trans_lt hp.2⟩
    left
    rw [trim, lower_of, hsettle hzone]
    exact hzone
  · have hzone : upper ∈ Cut.zone r := ⟨hp.1.trans hupper.le, hle.trans_lt hc.2⟩
    right
    rw [trim, upper_of, hsettle hzone]
    exact hzone

/-- A trimmed span names only releases with a prerelease in it. -/
lemma mem_of_names_trim (h : (trim lower upper allowed).Names r) :
    r ∈ populated lower upper allowed := by
  rcases h with h | h
  · exact Cut.settled_settle r h
  · exact Cut.settled_settle r h

/-- Trimming neither adds nor loses anything but the prereleases of other releases. -/
theorem holds_trim (h : Backed lower upper allowed) :
    (trim lower upper allowed).Holds p ↔
      Between lower upper p ∧ ∀ r, .before p ∈ Cut.zone r → r ∈ allowed := by
  have hbetween (hs : Cut.Settled (populated lower upper allowed) (.before p)) :
      Between (trim lower upper allowed).lower (trim lower upper allowed).upper p ↔
        Between lower upper p :=
    and_congr (Cut.settle_le_iff hs) (Cut.lt_settle_iff hs)
  constructor
  · rintro ⟨hp, hnames⟩
    have hs : Cut.Settled (populated lower upper allowed) (.before p) := fun r hr =>
      mem_of_names_trim (hnames r hr)
    exact ⟨(hbetween hs).mp hp, fun r hr => (hs r hr).1⟩
  · rintro ⟨hp, hallowed⟩
    have hs : Cut.Settled (populated lower upper allowed) (.before p) := fun r hr =>
      ⟨hallowed r hr, p, hr, hp⟩
    exact ⟨(hbetween hs).mpr hp, fun r hr => names_trim h (hs r hr)⟩

/-! ### Meets -/

def common (s t : Span) : Set Release :=
  { r | s.Names r ∧ t.Names r }

noncomputable def meet (s t : Span) : Span :=
  trim (max s.lower t.lower) (min s.upper t.upper) (common s t)

/-- What lies between the tighter ends lies between both pairs of ends. -/
lemma between_max_min : Between (max s.lower t.lower) (min s.upper t.upper) p ↔
    Between s.lower s.upper p ∧ Between t.lower t.upper p := by
  rw [Between, max_le_iff, lt_min_iff]
  exact and_and_and_comm

/-- The ends of a meet are backed by the releases that both spans name. -/
lemma backed_common : Backed (max s.lower t.lower) (min s.upper t.upper) (common s t) := by
  rintro r ⟨h | h, -⟩
  · exact ⟨s.lower, h, .inl (le_max_left _ _)⟩
  · exact ⟨s.upper, h, .inr (min_le_left _ _)⟩

/-- The meet of two spans holds what both of them hold. -/
theorem holds_meet : (meet s t).Holds p ↔ s.Holds p ∧ t.Holds p := by
  rw [meet, holds_trim backed_common, between_max_min]
  constructor
  · rintro ⟨⟨hs, ht⟩, hcommon⟩
    exact ⟨⟨hs, fun r hr => (hcommon r hr).1⟩, ht, fun r hr => (hcommon r hr).2⟩
  · rintro ⟨⟨hs, hs'⟩, ht, ht'⟩
    exact ⟨⟨hs, ht⟩, fun r hr => ⟨hs' r hr, ht' r hr⟩⟩

/-- The releases of which some prerelease has a property. -/
def prereleased (P : Precedence → Prop) : Set Release :=
  { r | ∃ p, .before p ∈ Cut.zone r ∧ P p }

/-- A weaker property holds of a prerelease of more releases. -/
lemma prereleased_mono {P Q : Precedence → Prop} (h : ∀ p, P p → Q p) :
    prereleased P ⊆ prereleased Q := by
  rintro r ⟨p, hp, hP⟩
  exact ⟨p, hp, h p hP⟩

/-- The populated releases of a meet are those of which both spans hold one prerelease. -/
lemma populated_common (s t : Span) :
    populated (max s.lower t.lower) (min s.upper t.upper) (common s t) =
      prereleased fun p => s.Holds p ∧ t.Holds p := by
  ext r
  constructor
  · rintro ⟨⟨hs, ht⟩, p, hp, hbetween⟩
    obtain ⟨hps, hpt⟩ := between_max_min.mp hbetween
    refine ⟨p, hp, ⟨hps, fun q hq => ?_⟩, hpt, fun q hq => ?_⟩
    · exact Cut.eq_of_mem_zone hp hq ▸ hs
    · exact Cut.eq_of_mem_zone hp hq ▸ ht
  · rintro ⟨p, hp, ⟨hps, hs⟩, hpt, ht⟩
    exact ⟨⟨hs r hp, ht r hp⟩, p, hp, between_max_min.mpr ⟨hps, hpt⟩⟩

theorem meet_comm (s t : Span) : meet s t = meet t s := by
  have hcommon : common s t = common t s := Set.ext fun r => and_comm
  rw [meet, meet, max_comm, min_comm, hcommon]

/-- A meet of three spans can settle the outermost cuts at once. -/
lemma meet_meet (s t u : Span) :
    let held := prereleased fun p => s.Holds p ∧ t.Holds p ∧ u.Holds p
    meet (meet s t) u = of (Cut.settle held (max (max s.lower t.lower) u.lower))
      (Cut.settle held (min (min s.upper t.upper) u.upper)) := by
  intro held
  have hpopulated : populated (max (meet s t).lower u.lower) (min (meet s t).upper u.upper)
      (common (meet s t) u) = held := by
    simp only [populated_common, holds_meet, and_assoc, held]
  have hsub : held ⊆ populated (max s.lower t.lower) (min s.upper t.upper) (common s t) := by
    rw [populated_common]
    exact prereleased_mono fun p ⟨hs, ht, _⟩ => ⟨hs, ht⟩
  have hlower : Cut.settle held (meet s t).lower = Cut.settle held (max s.lower t.lower) :=
    Cut.settle_settle hsub
  have hupper : Cut.settle held (meet s t).upper = Cut.settle held (min s.upper t.upper) :=
    Cut.settle_settle hsub
  rw [meet, trim, hpopulated, Cut.settle_max, Cut.settle_min, hlower, hupper, ← Cut.settle_max,
    ← Cut.settle_min]

theorem meet_assoc (s t u : Span) : meet (meet s t) u = meet s (meet t u) := by
  rw [meet_comm s (meet t u), meet_meet, meet_meet]
  have hheld : ∀ p, (t.Holds p ∧ u.Holds p ∧ s.Holds p) = (s.Holds p ∧ t.Holds p ∧ u.Holds p) :=
    fun p => propext (by rw [← and_assoc, and_comm])
  simp only [hheld]
  rw [max_comm (max t.lower u.lower), min_comm (min t.upper u.upper), max_assoc, min_assoc]

/-! ### Sets of spans -/

def Inhabited (s : Span) : Prop := ∃ p, s.Holds p

variable {S T U : Set Span}

/-- The meets of the spans of two sets, as far as they hold anything. -/
def meets (S T : Set Span) : Set Span :=
  { u | u.Inhabited ∧ ∃ s ∈ S, ∃ t ∈ T, s.meet t = u }

/-- A family of meets holds what both families hold. -/
lemma exists_mem_meets_holds :
    (∃ u ∈ meets S T, u.Holds p) ↔ (∃ s ∈ S, s.Holds p) ∧ ∃ t ∈ T, t.Holds p := by
  constructor
  · rintro ⟨u, ⟨-, s, hs, t, ht, rfl⟩, hp⟩
    obtain ⟨hps, hpt⟩ := holds_meet.mp hp
    exact ⟨⟨s, hs, hps⟩, t, ht, hpt⟩
  · rintro ⟨⟨s, hs, hps⟩, t, ht, hpt⟩
    have hp := holds_meet.mpr ⟨hps, hpt⟩
    exact ⟨s.meet t, ⟨⟨p, hp⟩, s, hs, t, ht, rfl⟩, hp⟩

lemma meets_comm (S T : Set Span) : meets S T = meets T S := by
  ext u
  constructor
  · rintro ⟨hu, s, hs, t, ht, rfl⟩
    exact ⟨hu, t, ht, s, hs, meet_comm t s⟩
  · rintro ⟨hu, t, ht, s, hs, rfl⟩
    exact ⟨hu, s, hs, t, ht, meet_comm s t⟩

/-- The meets of three families are the inhabited meets of three spans. -/
lemma mem_meets_meets : u ∈ meets (meets S T) U ↔
    u.Inhabited ∧ ∃ s ∈ S, ∃ t ∈ T, ∃ x ∈ U, (s.meet t).meet x = u := by
  constructor
  · rintro ⟨hu, _, ⟨-, s, hs, t, ht, rfl⟩, x, hx, rfl⟩
    exact ⟨hu, s, hs, t, ht, x, hx, rfl⟩
  · rintro ⟨⟨p, hp⟩, s, hs, t, ht, x, hx, rfl⟩
    exact ⟨⟨p, hp⟩, _, ⟨⟨p, (holds_meet.mp hp).1⟩, s, hs, t, ht, rfl⟩, x, hx, rfl⟩

lemma meets_assoc (S T U : Set Span) : meets (meets S T) U = meets S (meets T U) := by
  rw [meets_comm S (meets T U)]
  ext u
  rw [mem_meets_meets, mem_meets_meets]
  apply and_congr_right
  intro _
  constructor
  · rintro ⟨s, hs, t, ht, x, hx, rfl⟩
    exact ⟨t, ht, x, hx, s, hs, by rw [meet_assoc s, meet_comm s]⟩
  · rintro ⟨t, ht, x, hx, s, hs, rfl⟩
    exact ⟨s, hs, t, ht, x, hx, by rw [meet_assoc s, meet_comm s]⟩

end Span

end VersionConstraints
