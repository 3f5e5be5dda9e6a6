import VersionConstraints.Proofs.Expression.Alternatives
import VersionConstraints.Proofs.Interval.Normal

/-!
# Bounds that were read

The bounds of the interval of an alternative are versions of its comparators or releases, so all of
them were read, or could be, with one of the grammars. A bound that was read can be compared if one
comparison with it returns.
-/

namespace VersionConstraints

/-- A version that was read can be compared if one comparison with it returns. -/
lemma Semver.comparable_of_compare {v w : Semver} {o : Ordering} (hw : ∃ g t, ofText g t = .ok w)
    (h : v.compare w = .ok o) : w.Comparable := by
  obtain ⟨v', -, h⟩ := bind_eq_ok.mp h
  obtain ⟨w', hw', -⟩ := bind_eq_ok.mp h
  exact ⟨hw, w', hw'⟩

namespace Bound

variable {x y z : Option Bound} {rs : List Release} {inclusive : Bool}

def Read (x : Option Bound) : Prop :=
  ∀ b ∈ x, ∃ g t, Semver.ofText g t = .ok b.version

lemma read_none : Read none := nofun

lemma read_some {b : Bound} : Read (some b) ↔ ∃ g t, Semver.ofText g t = .ok b.version := by
  simp [Read]

lemma Comparable.read (h : Comparable x) : Read x :=
  fun b hb => (h b hb).read

/-- The tighter of two lower bounds is one of the two. -/
lemma eq_or_eq_of_tighterLower (h : tighterLower x y = .ok z) : z = x ∨ z = y := by
  cases x with
  | none => exact .inr (Except.ok.inj h).symm
  | some a =>
    cases y with
    | none => exact .inl (Except.ok.inj h).symm
    | some b =>
      obtain ⟨o, -, h⟩ := bind_eq_ok.mp h
      cases o with
      | gt => exact .inl (Except.ok.inj h).symm
      | lt => exact .inr (Except.ok.inj h).symm
      | eq =>
        cases h
        split
        · exact .inr rfl
        · exact .inl rfl

/-- The tighter of two upper bounds is one of the two. -/
lemma eq_or_eq_of_tighterUpper (h : tighterUpper x y = .ok z) : z = x ∨ z = y := by
  cases x with
  | none => exact .inr (Except.ok.inj h).symm
  | some a =>
    cases y with
    | none => exact .inl (Except.ok.inj h).symm
    | some b =>
      obtain ⟨o, -, h⟩ := bind_eq_ok.mp h
      cases o with
      | lt => exact .inl (Except.ok.inj h).symm
      | gt => exact .inr (Except.ok.inj h).symm
      | eq =>
        cases h
        split
        · exact .inr rfl
        · exact .inl rfl

/-- Settling leaves a bound that was read from a text one that can be. -/
lemma Read.settle (hx : Read x) : Read (x.map (Interval.settle rs inclusive)) := by
  intro c hc
  obtain ⟨b, hb, rfl⟩ := Option.map_eq_some_iff.mp hc
  obtain ⟨g, t, ht⟩ := hx b hb
  obtain heq | ⟨r, -, htier, heq⟩ := Interval.settle_cases inclusive rs b
  · rw [heq]
    exact ⟨g, t, ht⟩
  · obtain ⟨-, rfl⟩ := Semver.tier_eq_below_iff.mp htier
    rw [heq]
    exact (Semver.comparable_ofRelease (Semver.wellFormed_of_ofText ht).release).read

end Bound

namespace Comparator

variable {c : Comparator} {g : Grammar}

lemma ReadWith.lower (h : c.ReadWith g) : Bound.Read c.lower? := by
  cases c with
  | any => exact Bound.read_none
  | bounded o v =>
    have hv : ∃ g t, Semver.ofText g t = .ok v := ⟨g, h o v rfl⟩
    cases o with
    | equal | atLeast | above => exact Bound.read_some.mpr hv
    | below | atMost => exact Bound.read_none

lemma ReadWith.upper (h : c.ReadWith g) : Bound.Read c.upper? := by
  cases c with
  | any => exact Bound.read_none
  | bounded o v =>
    have hv : ∃ g t, Semver.ofText g t = .ok v := ⟨g, h o v rfl⟩
    cases o with
    | equal | atMost | below => exact Bound.read_some.mpr hv
    | above | atLeast => exact Bound.read_none

end Comparator

namespace Interval

structure Read (i : Interval) : Prop where
  lower : Bound.Read i.lower
  upper : Bound.Read i.upper

variable {i j k : Interval} {cs : List Comparator} {g : Grammar}

lemma Comparable.read (h : i.Comparable) : i.Read :=
  ⟨h.lower.read, h.upper.read⟩

/-- The bounds that comparators tighten two bounds to are among these and their own. -/
lemma eq_or_exists_of_tightenAll (h : i.tightenAll cs = .ok j) :
    (j.lower = i.lower ∨ ∃ c ∈ cs, j.lower = c.lower?) ∧
      (j.upper = i.upper ∨ ∃ c ∈ cs, j.upper = c.upper?) := by
  induction cs generalizing i with
  | nil =>
    cases h
    exact ⟨.inl rfl, .inl rfl⟩
  | cons c cs ih =>
    obtain ⟨i', hi', h⟩ := bind_eq_ok.mp h
    rw [tighten_eq] at hi'
    obtain ⟨lower, hlower, hi'⟩ := bind_eq_ok.mp hi'
    obtain ⟨upper, hupper, hi'⟩ := bind_eq_ok.mp hi'
    cases hi'
    obtain ⟨htail, htail'⟩ := ih h
    constructor
    · rcases htail with heq | ⟨d, hd, heq⟩
      · exact (Bound.eq_or_eq_of_tighterLower hlower).imp heq.trans
          fun hl => ⟨c, List.mem_cons_self, heq.trans hl⟩
      · exact .inr ⟨d, List.mem_cons_of_mem c hd, heq⟩
    · rcases htail' with heq | ⟨d, hd, heq⟩
      · exact (Bound.eq_or_eq_of_tighterUpper hupper).imp heq.trans
          fun hu => ⟨c, List.mem_cons_self, heq.trans hu⟩
      · exact .inr ⟨d, List.mem_cons_of_mem c hd, heq⟩

/-- Tightening by comparators that were read keeps the bounds as they were read. -/
lemma Read.of_tightenAll (hi : i.Read) (hcs : ∀ c ∈ cs, c.ReadWith g)
    (h : i.tightenAll cs = .ok j) : j.Read := by
  obtain ⟨hlower, hupper⟩ := eq_or_exists_of_tightenAll h
  constructor
  · rcases hlower with heq | ⟨c, hc, heq⟩
    · exact heq ▸ hi.lower
    · exact heq ▸ (hcs c hc).lower
  · rcases hupper with heq | ⟨c, hc, heq⟩
    · exact heq ▸ hi.upper
    · exact heq ▸ (hcs c hc).upper

/-- The bounds of the interval of an alternative were read. -/
theorem read_of_ofAlternative {a : Alternative} (ha : ∀ c ∈ a, c.ReadWith g)
    (h : ofAlternative a = .ok (some k)) : k.Read := by
  obtain ⟨j, hj, h⟩ := bind_eq_ok.mp h
  have hread : j.Read := .of_tightenAll ⟨Bound.read_none, Bound.read_none⟩ ha hj
  obtain ⟨rs, -, rfl, -⟩ := exists_of_normalize h
  exact ⟨hread.lower.settle, hread.upper.settle⟩

end Interval

end VersionConstraints
