import VersionConstraints.Proofs.Range.Display

/-!
# Intersections read back

An intersection can begin with the lowest release of all: a bound at a prerelease of that release is
replaced by the release when the other range does not let in these prereleases. No range that was
read begins like that, since such a bound is read as no bound at all. So the canonical text of an
intersection is read back as a range that contains the same versions, and as the intersection itself
only if it does not begin with the lowest release.
-/

namespace VersionConstraints

namespace Interval

variable {i : Interval}

/-- Whether an interval is displayed with a lower bound that is read back as no bound at all. -/
def BeginsIdly (i : Interval) : Prop :=
  ∃ b ∈ i.lower, b.IsIdle ∧ ∀ c ∈ i.upper, isExact b c = .ok false

lemma isExact_eq_false_iff {b c : Bound} (hb : b.version.Regular) (hc : c.version.Regular)
    (hcut : b.lowerCut = .before (.ofRelease .zero)) :
    isExact b c = .ok false ↔ c.upperCut ≠ .behind (.ofRelease .zero) := by
  obtain ⟨ok, hok, hspec⟩ := isExact_spec hb hc
  have hiff : ok = true ↔ c.upperCut = .behind (.ofRelease .zero) := by
    rw [hspec, hcut]
    constructor
    · rintro ⟨p, hp, hupper⟩
      rw [(Cut.beside_inj.mp hp).1]
      exact hupper
    · exact fun hupper => ⟨_, rfl, hupper⟩
  rw [hok, Except.ok.injEq, ← Bool.not_eq_true, hiff]

lemma beginsIdly_iff (hi : i.Regular) : i.BeginsIdly ↔ i.span.FromZero := by
  obtain ⟨x, y⟩ := i
  cases x with
  | none => exact iff_of_false (fun ⟨_, hb, _⟩ => nomatch hb) fun h => Cut.bot_lt_beside.ne h.1
  | some b =>
    have hb : b.version.Regular := hi.lower b rfl
    have hbegins : BeginsIdly ⟨some b, y⟩ ↔ b.IsIdle ∧ ∀ c ∈ y, isExact b c = .ok false := by
      simp [BeginsIdly]
    rw [hbegins, Bound.isIdle_iff hb.toComparable]
    apply and_congr_right
    intro hcut
    cases y with
    | none => exact iff_of_true nofun Cut.beside_lt_top.ne'
    | some c =>
      have hc : c.version.Regular := hi.upper c rfl
      simp only [Option.mem_some_iff, forall_eq']
      exact isExact_eq_false_iff hb hc hcut

end Interval

namespace Range

variable {is js ks : Range} {s t : Text}

/-- The canonical text of an intersection of two ranges that were read is read back as a range that
contains the same versions. It is the intersection itself if and only if no interval of that begins
with the lowest release in vain. -/
theorem intersect_text_reads_back (hi : ofText .strict s = .ok (some is))
    (hj : ofText .strict t = .ok (some js)) (his : is.Regular) (hjs : js.Regular)
    (h : intersect is js = .ok ks) (hne : ks ≠ []) : ∃ u ls, text ks = .ok u ∧
      ofText .strict u = .ok (some ls) ∧
      (∀ v : Semver, v.Comparable → contains v ls = contains v ks) ∧
      ∃ same, equal ls ks = .ok same ∧ (same = true ↔ ∀ k ∈ ks, ¬ k.BeginsIdly) := by
  have hspec := intersect_spec his hjs h
  have hnormal : ks.Normal := normal_of_intersect (fun i hi => (his i hi).comparable)
    (fun j hj => (hjs j hj).comparable) h
  have his' := rereadable_of_ofText hi his
  have hjs' := rereadable_of_ofText hj hjs
  obtain ⟨u, ls, hu, hread, hls, hasc, hspans⟩ := exists_ofText_text hspec.regular hnormal hne
  obtain ⟨same, hsame, hiff⟩ := equal_spec_of_ascending hls hspec.regular hasc hspec.ascending
  refine ⟨u, ls, hu, hread, fun v hv => ?_, same, hsame, ?_⟩
  · refine contains_congr hls hspec.regular hv ?_
    rw [hspans]
    refine Span.exists_mem_reread_holds ?_ (hnormal.inhabited hspec.regular)
    rw [hspec.spans_eq]
    exact his'.collapsible.meets hjs'.collapsible
  · rw [hiff, hspans, Span.reread_eq_iff, hspec.spans_eq, his'.meets_iff hjs', ← hspec.spans_eq]
    constructor
    · exact fun hnone k hk => mt (Interval.beginsIdly_iff (hspec.regular k hk)).mp
        (hnone _ ⟨k, hk, rfl⟩)
    · rintro hnone _ ⟨k, hk, rfl⟩
      exact mt (Interval.beginsIdly_iff (hspec.regular k hk)).mpr (hnone k hk)

/-- What `^1.2.0-beta.3` and `>=1.0.0` have in common begins with `1.2.0`, as the second range does not
let in the prereleases of that release. -/
theorem intersect_text_reads_back_sample : ∃ is js ks u ls,
    ofText .strict "^1.2.0-beta.3".toList = .ok (some is) ∧
    ofText .strict ">=1.0.0".toList = .ok (some js) ∧ intersect is js = .ok ks ∧ ks ≠ is ∧
    text ks = .ok u ∧ ofText .strict u = .ok (some ls) ∧
    (∀ v : Semver, v.Comparable → contains v ls = contains v ks) ∧
    ∃ same, equal ls ks = .ok same ∧ (same = true ↔ ∀ k ∈ ks, ¬ k.BeginsIdly) := by
  have hread : ofText .strict "^1.2.0-beta.3".toList = .ok (some sample) := by decide +kernel
  have hother : ofText .strict ">=1.0.0".toList =
      .ok (some [⟨some ⟨.ofRelease ⟨1, 0, 0⟩, true⟩, none⟩]) := by decide +kernel
  have hregular : Regular [⟨some ⟨.ofRelease ⟨1, 0, 0⟩, true⟩, none⟩] :=
    List.forall_mem_singleton.mpr
      ⟨Bound.regular_some.mpr (Semver.ordinary_ofRelease (by decide)).regular, Bound.regular_none⟩
  have hmeet : intersect sample [⟨some ⟨.ofRelease ⟨1, 0, 0⟩, true⟩, none⟩] =
      .ok [⟨some ⟨.ofRelease ⟨1, 2, 0⟩, true⟩, some ⟨.ofRelease ⟨2, 0, 0⟩, false⟩⟩] := by
    decide +kernel
  obtain ⟨u, ls, hback⟩ := intersect_text_reads_back hread hother regular_sample hregular hmeet
    (List.cons_ne_nil _ _)
  exact ⟨_, _, _, u, ls, hread, hother, hmeet, by decide, hback⟩

/-- What `>=0.0.0-0` and `*` have in common is displayed as `>=0.0.0`, which is read as `*`. -/
theorem intersect_text_read_otherwise : ∃ is js ks ls u,
    ofText .strict ">=0.0.0-0".toList = .ok (some is) ∧ ofText .strict "*".toList = .ok (some js) ∧
      is.Regular ∧ js.Regular ∧ intersect is js = .ok ks ∧ ks ≠ [] ∧ text ks = .ok u ∧
      ofText .strict u = .ok (some ls) ∧ equal ls ks = .ok false := by
  have hlowest : (Semver.lowestPrerelease .zero).Ordinary :=
    Semver.ordinary_lowestPrerelease (by decide)
  refine ⟨[⟨some ⟨.lowestPrerelease .zero, true⟩, none⟩], [⟨none, none⟩],
    [⟨some ⟨.ofRelease .zero, true⟩, none⟩], [⟨none, none⟩], ">=0.0.0".toList, by decide +kernel,
    by decide +kernel, ?_, ?_, by decide +kernel, List.cons_ne_nil _ _, by decide +kernel,
    by decide +kernel, by decide +kernel⟩
  · exact List.forall_mem_singleton.mpr ⟨Bound.regular_some.mpr hlowest.regular, Bound.regular_none⟩
  · exact List.forall_mem_singleton.mpr ⟨Bound.regular_none, Bound.regular_none⟩

end Range

end VersionConstraints
