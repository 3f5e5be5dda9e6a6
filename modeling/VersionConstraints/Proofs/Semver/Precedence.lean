import Mathlib.Data.Char
import Mathlib.Data.List.Lex
import Mathlib.Data.Prod.Lex
import Mathlib.Data.Sum.Order
import Mathlib.Order.Compare
import Mathlib.Order.WithBot
import Mathlib.Tactic.Lemma
import Mathlib.Tactic.Set
import VersionConstraints.Proofs.Semver.Reading

/-!
# Precedence

Each version has a place in a linear order: the release, and above all prereleases of a release the
release itself. The comparison of versions is this order wherever it tells identifiers apart, which
it does not for two numerals that are rounded to the same number.
-/

namespace VersionConstraints

/-! ### Orderings that are decided by an order -/

section Compares

variable {α β : Type} [LinearOrder α] [LinearOrder β] {o o' : Ordering}

lemma compares_compare (a b : α) : (compare a b).Compares a b := by
  rw [← cmp_eq_compare]
  exact cmp_compares a b

/-- Pairs compare by their first parts and then by their second ones. -/
lemma compares_toLex {a a' : α} {b b' : β} (h : o.Compares a a') (h' : o'.Compares b b') :
    (o.then o').Compares (toLex (a, b)) (toLex (a', b')) := by
  cases o with
  | lt => exact Prod.Lex.toLex_lt_toLex.mpr (.inl h)
  | gt => exact Prod.Lex.toLex_lt_toLex.mpr (.inl h)
  | eq =>
    obtain rfl : a = a' := h
    cases o' with
    | lt => exact Prod.Lex.toLex_lt_toLex.mpr (.inr ⟨rfl, h'⟩)
    | gt => exact Prod.Lex.toLex_lt_toLex.mpr (.inr ⟨rfl, h'⟩)
    | eq =>
      obtain rfl : b = b' := h'
      exact rfl

/-- Lists compare by their heads and then by their tails. -/
lemma compares_cons {a b : α} {as bs : List α} (h : o.Compares a b) (h' : o'.Compares as bs) :
    (o.then o').Compares (a :: as) (b :: bs) := by
  cases o with
  | lt => exact List.cons_lt_cons_iff.mpr (.inl h)
  | gt => exact List.cons_lt_cons_iff.mpr (.inl h)
  | eq =>
    obtain rfl : a = b := h
    cases o' with
    | lt => exact List.cons_lt_cons_iff.mpr (.inr ⟨rfl, h'⟩)
    | gt => exact List.cons_lt_cons_iff.mpr (.inr ⟨rfl, h'⟩)
    | eq =>
      obtain rfl : as = bs := h'
      exact rfl

/-- Nothing lies between a list and the one with the least element more. -/
lemma append_bot_le_iff [OrderBot α] {as bs : List α} : as ++ [⊥] ≤ bs ↔ as < bs := by
  induction as generalizing bs with
  | nil =>
    cases bs with
    | nil => simp
    | cons b bs =>
      refine iff_of_true (not_lt.mp fun h => ?_) (List.nil_lt_cons b bs)
      rcases List.cons_lt_cons_iff.mp h with h | ⟨-, h⟩
      · exact not_lt_bot h
      · exact List.not_lt_nil bs h
  | cons a as ih =>
    cases bs with
    | nil => simp
    | cons b bs =>
      rw [List.cons_append, le_iff_lt_or_eq, List.cons_lt_cons_iff, List.cons_lt_cons_iff,
        List.cons_eq_cons, ← ih, le_iff_lt_or_eq, and_or_left, or_assoc]

lemma compares_text (s t : Text) : (compare s t).Compares s t := by
  induction s generalizing t with
  | nil =>
    cases t with
    | nil => exact rfl
    | cons d t => exact List.nil_lt_cons d t
  | cons c s ih =>
    cases t with
    | nil => exact List.nil_lt_cons c s
    | cons d t =>
      have hcons : compare (c :: s) (d :: t) = (compare c d).then (compare s t) :=
        List.compareLex_cons_cons
      rw [hcons]
      exact compares_cons (compares_compare c d) (ih t)

end Compares

/-! ### Identifiers -/

/-- Where an identifier stands: a numeral by its value, and above all of them other words. -/
abbrev Rank := ℕ ⊕ₗ Text

instance : OrderBot Rank where
  bot := Sum.inlₗ 0
  bot_le a := by
    cases a with
    | inl n => exact Sum.Lex.inl_le_inl_iff.mpr (Nat.zero_le n)
    | inr t => exact Sum.Lex.inl_le_inr 0 t

namespace Identifier

def rank (a : Identifier) : Rank :=
  match a.rank? with
  | some n => Sum.inlₗ n
  | none   => Sum.inrₗ a.text

/-- Identifiers compare by their ranks. -/
lemma order_compares (a b : Identifier) : (a.order b).Compares a.rank b.rank := by
  simp only [order, rank]
  cases a.rank? with
  | some m =>
    cases b.rank? with
    | some n => exact Sum.Lex.inl_strictMono.compares.mpr (compares_compare m n)
    | none => exact Sum.Lex.inl_lt_inr m b.text
  | none =>
    cases b.rank? with
    | some n => exact Sum.Lex.inl_lt_inr n a.text
    | none => exact Sum.Lex.inr_strictMono.compares.mpr (compares_text a.text b.text)

/-- Whether the order tells two identifiers apart if they differ. -/
def Apart (a b : Identifier) : Prop :=
  a.rank = b.rank → a = b

/-- Lists of identifiers compare by their heads first where the order tells these apart. -/
lemma listOrder_cons {a b : Identifier} (h : a.Apart b) (as bs : List Identifier) :
    listOrder (a :: as) (b :: bs) = (a.order b).then (listOrder as bs) := by
  rw [listOrder]
  by_cases heq : a = b
  · have ho : a.order b = .eq := (order_compares a b).eq_eq.mpr (congrArg rank heq)
    rw [if_pos heq, ho]
    rfl
  · rw [if_neg heq]
    cases ho : a.order b with
    | eq => exact absurd (h ((order_compares a b).eq_eq.mp ho)) heq
    | lt => rfl
    | gt => rfl

/-- Lists of identifiers that the order tells apart compare by their ranks. -/
lemma listOrder_compares {as bs : List Identifier} (h : ∀ a ∈ as, ∀ b ∈ bs, a.Apart b) :
    (listOrder as bs).Compares (as.map rank) (bs.map rank) := by
  induction as generalizing bs with
  | nil =>
    cases bs with
    | nil => exact rfl
    | cons b bs => exact List.nil_lt_cons b.rank _
  | cons a as ih =>
    cases bs with
    | nil => exact List.nil_lt_cons a.rank _
    | cons b bs =>
      rw [listOrder_cons (h a List.mem_cons_self b List.mem_cons_self)]
      exact compares_cons (order_compares a b) (ih fun a' ha b' hb =>
        h a' (List.mem_cons_of_mem a ha) b' (List.mem_cons_of_mem b hb))

/-- Identifiers that the order tells apart have ranks of their own. -/
lemma eq_of_map_rank_eq {as bs : List Identifier} (h : ∀ a ∈ as, ∀ b ∈ bs, a.Apart b)
    (heq : as.map rank = bs.map rank) : as = bs := by
  induction as generalizing bs with
  | nil => exact (List.map_eq_nil_iff.mp heq.symm).symm
  | cons a as ih =>
    cases bs with
    | nil => cases heq
    | cons b bs =>
      obtain ⟨hrank, hranks⟩ := List.cons.inj heq
      rw [h a List.mem_cons_self b List.mem_cons_self hrank, ih (fun a' ha b' hb =>
        h a' (List.mem_cons_of_mem a ha) b' (List.mem_cons_of_mem b hb)) hranks]

end Identifier

/-! ### Telling identifiers apart -/

/-- A number that is too large to be safe is not rounded to a safe one. -/
lemma Numeral.maxSafe_le_round {n : Nat} (h : maxSafe ≤ n) : maxSafe ≤ round n := by
  by_cases hn : n < 1 <<< precision
  · rw [round_of_lt hn]
    exact h
  · have hle : 2 ^ precision ≤ n := Nat.one_shiftLeft precision ▸ Nat.not_lt.mp hn
    have hzero : n ≠ 0 := (Nat.lt_of_lt_of_le (Nat.two_pow_pos precision) hle).ne'
    have hlog : precision ≤ n.log2 := (Nat.le_log2 hzero).mpr hle
    set unit := 1 <<< (n.log2 + 1 - precision) with hunit
    have hpos : 0 < unit := by
      rw [hunit, Nat.one_shiftLeft]
      exact Nat.two_pow_pos _
    have hsplit : 2 ^ n.log2 = 2 ^ (precision - 1) * unit := by
      rw [hunit, Nat.one_shiftLeft, ← Nat.pow_add]
      congr 1
      simp only [precision] at hlog ⊢
      omega
    have hlow : 2 ^ (precision - 1) ≤ n / unit := by
      rw [Nat.le_div_iff_mul_le hpos, ← hsplit]
      exact Nat.log2_self_le hzero
    have hfloor : maxSafe ≤ n / unit * unit := by
      calc maxSafe ≤ 1 <<< precision := Nat.sub_le _ _
        _ = 2 ^ precision := Nat.one_shiftLeft precision
        _ ≤ 2 ^ n.log2 := Nat.pow_le_pow_right (by decide) hlog
        _ = 2 ^ (precision - 1) * unit := hsplit
        _ ≤ n / unit * unit := Nat.mul_le_mul_right unit hlow
    rw [round, if_neg hn]
    dsimp only
    split
    · exact hfloor.trans (Nat.mul_le_mul_right unit (Nat.le_succ _))
    · exact hfloor

namespace Identifier

lemma WellFormed.lt_maxSafe {n : Nat} (h : (number n).WellFormed) : n < Numeral.maxSafe := by
  have := h.ofText_text
  simp only [ofText] at this
  split at this
  · next hlt =>
    rw [text, Numeral.value_text] at hlt
    exact hlt.2
  · cases this

/-- A numeral that stays a word is too large for a number. -/
lemma WellFormed.maxSafe_le {t : Text} (h : (word t).WellFormed) (ht : Numeral.isDigits t = true) :
    Numeral.maxSafe ≤ Numeral.value t := by
  have := h.ofText_text
  simp only [ofText] at this
  split at this
  · cases this
  · next hlt => exact Nat.not_lt.mp fun hlt' => hlt ⟨ht, hlt'⟩

/-- A number ranks by its value. -/
lemma rank_number {n : Nat} (h : n < Numeral.maxSafe) : (number n).rank = Sum.inlₗ n := by
  have hn : Numeral.round n = n := Numeral.round_of_lt (Nat.lt_of_lt_of_le h (Nat.sub_le _ _))
  simp [rank, rank?, hn]

lemma rank_zero : (number 0).rank = ⊥ := rank_number (by decide)

/-- A numeral that stays a word ranks by its rounded value. -/
lemma rank_numeral {t : Text} (h : Numeral.isDigits t = true) :
    (word t).rank = Sum.inlₗ (Numeral.round (Numeral.value t)) := by
  simp [rank, rank?, h]

/-- A word that is no numeral ranks by its text, above all numerals. -/
lemma rank_word {t : Text} (h : Numeral.isDigits t = false) : (word t).rank = Sum.inrₗ t := by
  simp [rank, rank?, h, text]

/-- A number and a word that is not a numeral are told apart from all other identifiers. -/
lemma WellFormed.apart {a b : Identifier} (ha : a.WellFormed) (hb : b.WellFormed)
    (hword : ∀ t, b = .word t → Numeral.isDigits t = false) : a.Apart b := by
  intro heq
  cases b with
  | number n =>
    rw [rank_number hb.lt_maxSafe] at heq
    cases a with
    | number m =>
      rw [rank_number ha.lt_maxSafe] at heq
      rw [Sum.inl.inj heq]
    | word t =>
      cases ht : Numeral.isDigits t with
      | true =>
        rw [rank_numeral ht] at heq
        have hround := Numeral.maxSafe_le_round (ha.maxSafe_le ht)
        rw [Sum.inl.inj heq] at hround
        exact absurd hb.lt_maxSafe (Nat.not_lt.mpr hround)
      | false =>
        rw [rank_word ht] at heq
        cases heq
  | word u =>
    rw [rank_word (hword u rfl)] at heq
    cases a with
    | number m =>
      rw [rank_number ha.lt_maxSafe] at heq
      cases heq
    | word t =>
      cases ht : Numeral.isDigits t with
      | true =>
        rw [rank_numeral ht] at heq
        cases heq
      | false =>
        rw [rank_word ht] at heq
        rw [Sum.inr.inj heq]

end Identifier

/-! ### Versions -/

namespace Release

instance : LinearOrder Release :=
  LinearOrder.liftWithOrd' (fun r => toLex (r.major, toLex (r.minor, r.patch)))
    (fun r s h => by
      cases r
      cases s
      simpa using h)
    fun _ _ => rfl

/-- Nothing lies between a release and the one with the next patch. -/
lemma patch_succ_le_iff {r s : Release} : { r with patch := r.patch + 1 } ≤ s ↔ r < s := by
  change toLex (r.major, toLex (r.minor, r.patch + 1)) ≤ toLex (s.major, toLex (s.minor, s.patch)) ↔
    toLex (r.major, toLex (r.minor, r.patch)) < toLex (s.major, toLex (s.minor, s.patch))
  rw [Prod.Lex.toLex_le_toLex, Prod.Lex.toLex_lt_toLex, Prod.Lex.toLex_le_toLex,
    Prod.Lex.toLex_lt_toLex]
  rfl

/-- No release is below the first one. -/
lemma zero_le (r : Release) : zero ≤ r := by
  rw [← not_lt]
  intro h
  have : toLex (r.major, toLex (r.minor, r.patch)) < toLex (0, toLex (0, 0)) := h
  simp [Prod.Lex.toLex_lt_toLex] at this

end Release

/-- The place of a version: its release and the ranks of its identifiers, of which there is at least
one, and above all of these the release itself. -/
abbrev Precedence := Release ×ₗ WithTop (Rank ×ₗ List Rank)

namespace Precedence

def ofRelease (r : Release) : Precedence :=
  toLex (r, ⊤)

def lowest (r : Release) : Precedence :=
  toLex (r, ((toLex (⊥, []) : Rank ×ₗ List Rank) : WithTop (Rank ×ₗ List Rank)))

lemma ofRelease_lt_ofRelease {r s : Release} : ofRelease r < ofRelease s ↔ r < s := by
  rw [ofRelease, ofRelease, Prod.Lex.toLex_lt_toLex]
  simp

lemma ofRelease_le_ofRelease {r s : Release} : ofRelease r ≤ ofRelease s ↔ r ≤ s := by
  rw [← not_lt, ofRelease_lt_ofRelease, not_lt]

/-- A release lies below the prereleases of another one if it lies below that. -/
lemma ofRelease_lt_lowest {r s : Release} : ofRelease s < lowest r ↔ s < r := by
  rw [ofRelease, lowest, Prod.Lex.toLex_lt_toLex]
  simp

/-- A place is that of a release or of one of its prereleases. -/
lemma eq_ofRelease_or_exists (p : Precedence) :
    p = ofRelease (ofLex p).1 ∨ ∃ x : Rank ×ₗ List Rank, p = toLex ((ofLex p).1, ↑x) := by
  by_cases h : (ofLex p).2 = ⊤
  · left
    rw [ofRelease, ← h]
    rfl
  · right
    obtain ⟨x, hx⟩ := WithTop.ne_top_iff_exists.mp h
    exact ⟨x, by rw [hx]; rfl⟩

/-- The places between the lowest prerelease of a release and the release are its prereleases. -/
lemma lowest_le_and_lt_iff {r : Release} {p : Precedence} :
    lowest r ≤ p ∧ p < ofRelease r ↔ ∃ x : Rank ×ₗ List Rank, p = toLex (r, ↑x) := by
  constructor
  · rintro ⟨hle, hlt⟩
    obtain ⟨hrp, -⟩ := Prod.Lex.le_iff'.mp hle
    obtain ⟨hpr, htop⟩ := Prod.Lex.lt_iff'.mp hlt
    have hrelease : (ofLex p).1 = r := le_antisymm hpr hrp
    obtain ⟨x, hx⟩ := WithTop.ne_top_iff_exists.mp (htop hrelease).ne
    exact ⟨x, by rw [hx, ← hrelease]; rfl⟩
  · rintro ⟨x, rfl⟩
    have hleast : (toLex (⊥, []) : Rank ×ₗ List Rank) ≤ x := by
      rw [Prod.Lex.le_iff']
      exact ⟨bot_le, fun _ => not_lt.mp (List.not_lt_nil _)⟩
    refine ⟨Prod.Lex.le_iff'.mpr ⟨le_rfl, fun _ => WithTop.coe_le_coe.mpr hleast⟩, ?_⟩
    exact Prod.Lex.lt_iff'.mpr ⟨le_rfl, fun _ => WithTop.coe_lt_top x⟩

end Precedence

namespace Semver

/-- The ranks of the identifiers of a prerelease; no prerelease comes last. -/
def ranks : List Identifier → WithTop (Rank ×ₗ List Rank)
  | []      => ⊤
  | a :: as => (toLex (a.rank, as.map Identifier.rank) : Rank ×ₗ List Rank)

def precedence (v : Semver) : Precedence :=
  toLex (v.release, ranks v.prerelease)

variable {v w : Semver}

/-- Prereleases compare by the ranks of their identifiers, and last comes none. -/
lemma prereleaseOrder_compares {as bs : List Identifier} (h : ∀ a ∈ as, ∀ b ∈ bs, a.Apart b) :
    (prereleaseOrder as bs).Compares (ranks as) (ranks bs) := by
  cases as with
  | nil =>
    cases bs with
    | nil => exact rfl
    | cons b bs => exact WithTop.coe_lt_top _
  | cons a as =>
    cases bs with
    | nil => exact WithTop.coe_lt_top _
    | cons b bs =>
      rw [prereleaseOrder, Identifier.listOrder_cons (h a List.mem_cons_self b List.mem_cons_self)]
      refine WithTop.coe_strictMono.compares.mpr (compares_toLex (a.order_compares b) ?_)
      exact Identifier.listOrder_compares fun a' ha b' hb =>
        h a' (List.mem_cons_of_mem a ha) b' (List.mem_cons_of_mem b hb)

lemma WellFormed.apart (hv : v.WellFormed) (hw : w.Regular) :
    ∀ a ∈ v.prerelease, ∀ b ∈ w.prerelease, a.Apart b :=
  fun a ha b hb => (hv.identifiers a ha).apart (hw.wellFormed.identifiers b hb) fun t ht =>
    hw.words t (ht ▸ hb)

/-- Versions compare by their places. -/
lemma WellFormed.order_compares (hv : v.WellFormed) (hw : w.Regular) :
    (v.order w).Compares v.precedence w.precedence :=
  compares_toLex (compares_compare _ _) (prereleaseOrder_compares (hv.apart hw))

lemma eq_of_ranks_eq {as bs : List Identifier} (h : ∀ a ∈ as, ∀ b ∈ bs, a.Apart b)
    (heq : ranks as = ranks bs) : as = bs := by
  cases as with
  | nil =>
    cases bs with
    | nil => rfl
    | cons b bs => cases heq
  | cons a as =>
    cases bs with
    | nil => cases heq
    | cons b bs =>
      obtain ⟨hrank, hranks⟩ := Prod.mk.inj (toLex.injective (WithTop.coe_injective heq))
      rw [h a List.mem_cons_self b List.mem_cons_self hrank]
      congr 1
      exact Identifier.eq_of_map_rank_eq (fun a' ha b' hb =>
        h a' (List.mem_cons_of_mem a ha) b' (List.mem_cons_of_mem b hb)) hranks

/-- A regular version is compared with by its place. -/
theorem Comparable.compare_spec (hv : v.Comparable) (hw : w.Regular) :
    Yields (v.compare w) fun o => o.Compares v.precedence w.precedence :=
  ⟨_, hv.compare_eq hw.toComparable, hv.wellFormed.order_compares hw⟩

/-- A regular version is known by its place. -/
lemma WellFormed.eq_of_precedence_eq (hv : v.WellFormed) (hw : w.Regular)
    (h : v.precedence = w.precedence) : v.release = w.release ∧ v.prerelease = w.prerelease := by
  obtain ⟨hrelease, hranks⟩ := Prod.mk.inj (toLex.injective h)
  exact ⟨hrelease, eq_of_ranks_eq (hv.apart hw) hranks⟩

/-- A regular version is at the place of an ordinary one. -/
lemma Regular.exists_ordinary_at (h : v.Regular) :
    ∃ w : Semver, w.Ordinary ∧ w.precedence = v.precedence := by
  obtain ⟨w, hw, hrelease, hprerelease⟩ := h.exists_ordinary
  exact ⟨w, hw, by rw [precedence, precedence, hrelease, hprerelease]⟩

/-! ### Releases and prereleases -/

/-- The place of a release is its own. -/
lemma precedence_ofRelease (r : Release) : (ofRelease r).precedence = .ofRelease r := rfl

lemma precedence_lowestPrerelease (r : Release) :
    (lowestPrerelease r).precedence = .lowest r := by
  rw [precedence, lowestPrerelease, ranks, Identifier.rank_zero]
  rfl

/-- A version without a prerelease is at the place of its release. -/
lemma precedence_of_not_isPrerelease (h : v.isPrerelease = false) :
    v.precedence = .ofRelease v.release := by
  have hnil : v.prerelease = [] := by simpa [isPrerelease] using h
  rw [precedence, hnil]
  rfl

/-- A prerelease is at a place in front of its release. -/
lemma exists_precedence_of_isPrerelease (h : v.isPrerelease = true) :
    ∃ x : Rank ×ₗ List Rank, v.precedence = toLex (v.release, ↑x) := by
  obtain ⟨a, as, hcons⟩ : ∃ a as, v.prerelease = a :: as :=
    List.exists_cons_of_ne_nil (by simpa [isPrerelease] using h)
  exact ⟨_, by rw [precedence, hcons, ranks]⟩

/-- Nothing lies between a prerelease and the one with the identifier `0` more. -/
lemma Regular.precedence_nextPrerelease (hv : v.Regular) (hp : v.isPrerelease = true)
    (h : v.nextPrerelease = .ok w) {p : Precedence} :
    w.precedence ≤ p ↔ v.precedence < p := by
  obtain ⟨-, hrelease, hprerelease⟩ := hv.of_nextPrerelease hp h
  obtain ⟨a, as, hcons⟩ : ∃ a as, v.prerelease = a :: as :=
    List.exists_cons_of_ne_nil (by simpa [isPrerelease] using hp)
  have hlist : ∀ x : Rank ×ₗ List Rank, toLex (a.rank, as.map Identifier.rank ++ [⊥]) ≤ x ↔
      toLex (a.rank, as.map Identifier.rank) < x := fun x => by
    rw [Prod.Lex.le_iff, Prod.Lex.lt_iff]
    exact or_congr_right (and_congr_right fun _ => append_bot_le_iff)
  rw [precedence, hrelease, hprerelease, precedence, hcons, List.cons_append, ranks, ranks,
    List.map_append, List.map_singleton, Identifier.rank_zero, Prod.Lex.le_iff, Prod.Lex.lt_iff]
  refine or_congr_right (and_congr_right fun _ => ?_)
  cases (ofLex p).2 with
  | top => exact iff_of_true le_top (WithTop.coe_lt_top _)
  | coe x => exact WithTop.coe_le_coe.trans ((hlist x).trans WithTop.coe_lt_coe.symm)

/-- Nothing lies between a release and the one with the next patch. -/
lemma precedence_nextPatch {r : Release} {w : Semver} (h : nextPatch r = .ok w) {s : Release} :
    w.precedence ≤ .ofRelease s ↔ .ofRelease r < Precedence.ofRelease s := by
  obtain ⟨rfl, -⟩ := eq_of_nextPatch h
  rw [precedence_ofRelease, Precedence.ofRelease_le_ofRelease, Precedence.ofRelease_lt_ofRelease,
    Release.patch_succ_le_iff]

end Semver

end VersionConstraints
