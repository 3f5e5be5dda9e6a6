import Mathlib.Tactic.Lemma

/-!
# Outcomes

An operation that may fail answers with a value or a fault. `Yields x P` says that an outcome is a
value with a property, and `FailsOnly x P` that it is a value or a fault with a property; both pass
from the steps of a sequence to the whole. Where an operation may also find nothing,
`Collects f as bs` says what a list of them comes to.
-/

namespace VersionConstraints

variable {ε α β : Type}

@[simp] lemma ok_bind (a : α) (f : α → Except ε β) : (Except.ok a >>= f) = f a := rfl

@[simp] lemma error_bind (e : ε) (f : α → Except ε β) : (Except.error e >>= f) = .error e := rfl

@[simp] lemma pure_eq_ok (a : α) : (pure a : Except ε α) = .ok a := rfl

/-- A sequence has a value if both of its steps have one. -/
lemma bind_eq_ok {x : Except ε α} {f : α → Except ε β} {b : β} :
    (x >>= f) = .ok b ↔ ∃ a, x = .ok a ∧ f a = .ok b := by
  cases x with
  | error e => exact ⟨fun h => (nomatch h), fun ⟨_, h, _⟩ => (nomatch h)⟩
  | ok a => simp

/-- A sequence fails where its first step does, or its second one after that. -/
lemma bind_eq_error {x : Except ε α} {f : α → Except ε β} {e : ε} :
    (x >>= f) = .error e ↔ x = .error e ∨ ∃ a, x = .ok a ∧ f a = .error e := by
  cases x <;> simp

/-- An outcome is a value with a property. -/
def Yields (x : Except ε α) (P : α → Prop) : Prop :=
  ∃ a, x = .ok a ∧ P a

namespace Yields

variable {x : Except ε α} {f : α → Except ε β} {P : α → Prop} {Q : β → Prop} {a : α}

lemma ok (h : P a) : Yields (.ok a : Except ε α) P := ⟨a, rfl, h⟩

/-- What one step leads to the next one may rely on. -/
lemma bind (hx : Yields x P) (hf : ∀ a, P a → Yields (f a) Q) : Yields (x >>= f) Q := by
  obtain ⟨a, rfl, ha⟩ := hx
  exact hf a ha

lemma imp {Q : α → Prop} (hx : Yields x P) (h : ∀ a, P a → Q a) : Yields x Q := by
  obtain ⟨a, ha, hP⟩ := hx
  exact ⟨a, ha, h a hP⟩

lemma of_eq_ok (hx : Yields x P) (ha : x = .ok a) : P a := by
  obtain ⟨b, hb, h⟩ := hx
  rw [ha] at hb
  cases hb
  exact h

/-- A test that decides a question comes out true exactly if the answer is yes. -/
lemma eq_ok_true_iff {t : Except ε Bool} {p : Prop} (ht : Yields t fun ok => ok = true ↔ p) :
    t = .ok true ↔ p := by
  obtain ⟨ok, rfl, hok⟩ := ht
  rw [Except.ok.injEq, hok]

/-- The answers of two tests, and of one that decides what both of them decide. -/
lemma exists_and {s t u : Except ε Bool} {p q r : Prop} (hs : Yields s fun ok => ok = true ↔ p)
    (ht : Yields t fun ok => ok = true ↔ q) (hu : Yields u fun ok => ok = true ↔ r)
    (h : r ↔ p ∧ q) : ∃ b c, s = .ok b ∧ t = .ok c ∧ u = .ok (b && c) := by
  obtain ⟨b, rfl, hb⟩ := hs
  obtain ⟨c, rfl, hc⟩ := ht
  obtain ⟨d, rfl, hd⟩ := hu
  refine ⟨b, c, rfl, rfl, congrArg Except.ok ?_⟩
  rw [Bool.eq_iff_iff, Bool.and_eq_true, hd, hb, hc, h]

lemma ne_error (hx : Yields x P) (e : ε) : x ≠ .error e := by
  obtain ⟨a, rfl, -⟩ := hx
  exact nofun

end Yields

/-- An outcome is a value, or a fault with a property. -/
def FailsOnly (x : Except ε α) (P : ε → Prop) : Prop :=
  ∀ e, x = .error e → P e

namespace FailsOnly

variable {x : Except ε α} {f : α → Except ε β} {P Q : ε → Prop} {a : α} {e : ε}

lemma ok : FailsOnly (.ok a : Except ε α) P := nofun

lemma error (h : P e) : FailsOnly (.error e : Except ε α) P := by
  rintro _ ⟨⟩
  exact h

/-- The faults of a sequence are those of its steps. -/
lemma bind (hx : FailsOnly x P) (hf : ∀ a, x = .ok a → FailsOnly (f a) P) :
    FailsOnly (x >>= f) P := by
  cases x with
  | error e =>
    intro e' he
    obtain rfl : e = e' := Except.error.inj he
    exact hx e rfl
  | ok a => exact hf a rfl

lemma imp (hx : FailsOnly x P) (h : ∀ e, P e → Q e) : FailsOnly x Q :=
  fun e he => h e (hx e he)

/-- An outcome that fails for no reason is a value. -/
lemma exists_ok (hx : FailsOnly x fun _ => False) : ∃ a, x = .ok a := by
  cases x with
  | error e => exact (hx e rfl).elim
  | ok a => exact ⟨a, rfl⟩

end FailsOnly

/-! ### Collecting what is found -/

/-- No operation on a list of values fails, and the list of what they find is as given. -/
structure Collects (f : α → Except ε (Option β)) (as : List α) (bs : List β) : Prop where
  ok : ∀ a ∈ as, ∃ o, f a = .ok o
  mem_iff : ∀ b, b ∈ bs ↔ ∃ a ∈ as, f a = .ok (some b)

namespace Collects

variable {f : α → Except ε (Option β)} {a : α} {as : List α} {bs : List β} {o : Option β}

lemma nil : Collects f [] [] := ⟨nofun, fun b => by simp⟩

lemma cons (ha : f a = .ok o) (h : Collects f as bs) :
    Collects f (a :: as) (o.toList ++ bs) := by
  constructor
  · exact List.forall_mem_cons.mpr ⟨⟨o, ha⟩, h.ok⟩
  · intro b
    simp [h.mem_iff, ha]

/-- Collecting fails only as the operation fails on one of the values. -/
lemma failsOnly {F : List α → Except ε (List β)} (hnil : F [] = .ok [])
    (hcons : ∀ a as, F (a :: as) = do
      let o ← f a
      let bs ← F as
      return o.toList ++ bs) (as : List α) :
    FailsOnly (F as) fun e => ∃ a ∈ as, f a = .error e := by
  induction as with
  | nil =>
    rw [hnil]
    exact .ok
  | cons a as ih =>
    rw [hcons]
    apply FailsOnly.bind
    · exact fun e he => ⟨a, List.mem_cons_self, he⟩
    · intro o _
      refine (ih.imp ?_).bind fun _ _ => .ok
      rintro e ⟨b, hb, he⟩
      exact ⟨b, List.mem_cons_of_mem a hb, he⟩

end Collects

end VersionConstraints
