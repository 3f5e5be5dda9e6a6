import VersionConstraints.Proofs.Comparison
import VersionConstraints.Proofs.Interval.Bound
import VersionConstraints.Proofs.Interval.Span
import VersionConstraints.Proofs.Sorting.Search

/-!
# The meaning of intervals

An interval with regular bounds is known by its span: the span tells what the interval contains, how
it compares to others and, up to the grammars that its bounds were read with, its text.
-/

namespace VersionConstraints

namespace Interval

structure Regular (i : Interval) : Prop where
  lower : Bound.Regular i.lower
  upper : Bound.Regular i.upper

def span (i : Interval) : Span :=
  .of (Bound.lowerCut? i.lower) (Bound.upperCut? i.upper)

variable {i j : Interval} {v : Semver} {r : Release} {x y : Option Bound}

/-! ### Membership -/

/-- A lower bound names a release exactly when its cut lies in the zone of that release. -/
lemma bind_prereleaseOf?_lower :
    x.bind Bound.prereleaseOf? = some r ↔ Bound.lowerCut? x ∈ Cut.zone r := by
  cases x with
  | none => exact iff_of_false nofun Cut.bot_not_mem_zone
  | some b => exact Bound.beside_mem_zone.symm

/-- An upper bound names a release exactly when its cut lies in the zone of that release. -/
lemma bind_prereleaseOf?_upper :
    x.bind Bound.prereleaseOf? = some r ↔ Bound.upperCut? x ∈ Cut.zone r := by
  cases x with
  | none => exact iff_of_false nofun Cut.top_not_mem_zone
  | some b => exact Bound.beside_mem_zone.symm

/-- An interval admits the prereleases of the releases that its span names. -/
lemma mem_prereleasesOf : r ∈ i.prereleasesOf ↔ i.span.Names r := by
  rw [prereleasesOf, List.mem_eraseDups, List.mem_append, Option.mem_toList, Option.mem_toList,
    bind_prereleaseOf?_lower, bind_prereleaseOf?_upper]
  rfl

lemma safe_of_bind_prereleaseOf? (hx : Bound.Regular x) (h : x.bind Bound.prereleaseOf? = some r) :
    r.Safe := by
  obtain ⟨b, hb, hr⟩ := Option.bind_eq_some_iff.mp h
  exact Bound.safe_of_prereleaseOf? (hx b hb) hr

/-- Each release that a regular interval names has numbers small enough to be exact. -/
lemma Regular.safe_of_mem (hi : i.Regular) (hr : r ∈ i.prereleasesOf) : r.Safe := by
  rw [prereleasesOf, List.mem_eraseDups, List.mem_append, Option.mem_toList, Option.mem_toList] at hr
  exact hr.elim (safe_of_bind_prereleaseOf? hi.lower) (safe_of_bind_prereleaseOf? hi.upper)

/-- A version is above a lower bound when it lies behind the bound's cut. -/
lemma isAboveLower_spec (hx : Bound.Regular x) (hv : v.Comparable) :
    Yields (isAboveLower x v) fun ok =>
      ok = true ↔ Bound.lowerCut? x ≤ .before v.precedence := by
  cases x with
  | none => exact .ok (iff_of_true rfl bot_le)
  | some b => exact Bound.isBelow_spec (hx b rfl) hv

/-- A version is below an upper bound when it lies before the bound's cut. -/
lemma isBelowUpper_spec (hx : Bound.Regular x) (hv : v.Comparable) :
    Yields (isBelowUpper x v) fun ok =>
      ok = true ↔ .before v.precedence < Bound.upperCut? x := by
  cases x with
  | none => exact .ok (iff_of_true rfl Cut.beside_lt_top)
  | some b => exact Bound.isAbove_spec (hx b rfl) hv

/-- An interval contains the versions whose place its span holds. -/
theorem contains_spec (hi : i.Regular) (hv : v.Comparable) :
    Yields (i.contains v) fun ok => ok = true ↔ i.span.Holds v.precedence := by
  apply (isAboveLower_spec hi.lower hv).bind
  intro above habove
  cases above with
  | false => exact .ok (iff_of_false nofun fun h => nomatch habove.mpr h.1.1)
  | true =>
    apply (isBelowUpper_spec hi.upper hv).bind
    intro below hbelow
    cases below with
    | false => exact .ok (iff_of_false nofun fun h => nomatch hbelow.mpr h.1.2)
    | true =>
      refine .ok ?_
      have hbetween : Span.Between i.span.lower i.span.upper v.precedence :=
        ⟨habove.mp rfl, hbelow.mp rfl⟩
      simp only [Bool.or_eq_true, Bool.not_eq_true', decide_eq_true_eq, mem_prereleasesOf]
      constructor
      · intro h
        refine ⟨hbetween, ?_⟩
        intro r hr
        obtain ⟨hp, rfl⟩ := Cut.beside_precedence_mem_zone.mp hr
        exact h.resolve_left (by simp [hp])
      · rintro ⟨-, hnames⟩
        cases hp : v.isPrerelease with
        | false => exact .inl rfl
        | true => exact .inr (hnames _ (Cut.beside_precedence_mem_zone.mpr ⟨hp, rfl⟩))

/-! ### Order -/

/-- Intervals compare by their spans. -/
theorem compare_spec (hi : i.Regular) (hj : j.Regular) :
    Yields (i.compare j) fun o => o.Compares i.span j.span := by
  apply (Bound.compareLower_spec hi.lower hj.lower).bind
  intro o ho
  cases o with
  | lt => exact .ok (Prod.Lex.toLex_lt_toLex.mpr (.inl ho))
  | gt => exact .ok (Prod.Lex.toLex_lt_toLex.mpr (.inl ho))
  | eq =>
    exact (Bound.compareUpper_spec hi.upper hj.upper).imp fun o' ho' => compares_toLex ho ho'

/-- Regular intervals are compared as their spans are. -/
lemma comparedBy_span : ComparedBy Interval.compare span { i | i.Regular } :=
  fun _ hi _ hj => compare_spec hi hj

lemma compare_eq_ok_iff (hi : i.Regular) (hj : j.Regular) {o : Ordering} :
    i.compare j = .ok o ↔ o.Compares i.span j.span :=
  comparedBy_span.eq_ok_iff hi hj

/-- Whether an interval comes before another is decided by their spans. -/
theorem isBefore_decidedBy : DecidedBy isBefore span { i | i.Regular } := by
  intro i hi j hj
  obtain ⟨o, ho, hcompares⟩ := compare_spec hi hj
  rw [isBefore, ho, ok_bind, pure_eq_ok]
  congr 1
  rw [Bool.eq_iff_iff, beq_iff_eq, decide_eq_true_iff]
  exact hcompares.eq_lt

/-! ### Text -/

/-- Alike bounds are displayed alike from below. -/
lemma lowerText_congr {a b : Bound} (h : a.Alike b) : lowerText a = lowerText b := by
  rw [lowerText, lowerText, h.inclusive, h.text_eq]

/-- Alike bounds are displayed alike from above. -/
lemma upperText_congr {a b : Bound} (h : a.Alike b) : upperText a = upperText b := by
  rw [upperText, upperText, h.inclusive, h.text_eq]

/-- Whether two bounds display one exact version is the same for bounds alike. -/
lemma isExact_congr {a b a' b' : Bound} (ha : a.version.Regular) (hb : b.version.Regular)
    (ha' : a'.version.Regular) (hb' : b'.version.Regular) (h : a.Alike b) (h' : a'.Alike b') :
    isExact a a' = isExact b b' := by
  rw [isExact, isExact, h.inclusive, h'.inclusive, ha.compare_eq ha'.toComparable,
    hb.compare_eq hb'.toComparable, h.order_eq h']

/-- Intervals with one span have one text. -/
theorem text_eq_of_span_eq (hi : i.Regular) (hj : j.Regular) (h : i.span = j.span) :
    i.text = j.text := by
  have hlower : Option.Rel Bound.Alike i.lower j.lower :=
    Bound.alike_of_lowerCut?_eq hi.lower hj.lower (congrArg Span.lower h)
  have hupper : Option.Rel Bound.Alike i.upper j.upper :=
    Bound.alike_of_upperCut?_eq hi.upper hj.upper (congrArg Span.upper h)
  obtain ⟨hx, hy⟩ := hi
  obtain ⟨hx', hy'⟩ := hj
  obtain ⟨x, y⟩ := i
  obtain ⟨x', y'⟩ := j
  cases hlower with
  | none =>
    cases hupper with
    | none => rfl
    | some hab => exact congrArg Except.ok (upperText_congr hab)
  | some hab =>
    cases hupper with
    | none => exact congrArg Except.ok (lowerText_congr hab)
    | some hab' =>
      dsimp only [text]
      rw [lowerText_congr hab, upperText_congr hab', hab.text_eq,
        isExact_congr (hx _ rfl) (hx' _ rfl) (hy _ rfl) (hy' _ rfl) hab hab']

end Interval

end VersionConstraints
