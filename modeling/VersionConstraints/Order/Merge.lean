import VersionConstraints.Order.Run

/-!
# Merging two runs

Two neighbouring runs are merged from the front or from the back, whichever keeps the shorter run
aside. Elements are taken one at a time until one run has given a number of them in a row; then
whole stretches are taken, whose ends are found by galloping, as long as the stretches are long.

How many elements in a row start the galloping is the threshold. It falls with each further round of
galloping and rises when galloping ends, and it is handed on to the next merge.
-/

namespace VersionConstraints

/-- How long a stretch must be for galloping to go on, and the threshold before the first merge. -/
def longStretch : Nat := 7

/-! ### A merge under way -/

/-- A merge under way: what is merged already, and the two lists that are left. The first list is
the one kept aside. -/
structure Merge (α : Type) where
  merged : List α
  first : List α
  second : List α

namespace Merge

variable {ε α : Type}

def remaining (m : Merge α) : Nat :=
  m.first.length + m.second.length

/-- Whether nothing is left to compare: the last element of the first list goes to the end. -/
def isSettled (m : Merge α) : Bool :=
  m.first.length ≤ 1 || m.second.isEmpty

/-- The elements in the order of a settled merge. -/
def result (m : Merge α) : List α :=
  m.merged ++ m.second ++ m.first

end Merge

/-! ### Directions -/

/-- What a merge needs to know of its direction. -/
structure Direction (ε α : Type) where
  /-- Whether the head of the second list goes before the head of the first. -/
  secondGoesFirst : α → α → Except ε Bool
  /-- How many elements of the first list go before the head of the second. -/
  firstStretch : List α → α → Except ε Nat
  /-- How many elements of the second list go before the head of the first. -/
  secondStretch : List α → α → Except ε Nat
  /-- Whether a round of galloping begins with the first list. -/
  beginsWithFirst : Bool

namespace Direction

variable {ε α : Type} (before : α → α → Except ε Bool)

/-- Merging from the front: the first list is the left run. -/
def forward : Direction ε α where
  secondGoesFirst x y := before y x
  firstStretch xs y := Search.galloping (isBehindAt before y xs) xs.length 0
  secondStretch ys x := Search.galloping (isBeforeAt before x ys) ys.length 0
  beginsWithFirst := true

/-- Merging from the back: the first list is the right run, and both runs are in reverse. -/
def backward : Direction ε α where
  secondGoesFirst x y := before x y
  firstStretch xs y := do
    let n ← Search.galloping (isBeforeAt before y xs.reverse) xs.length (xs.length - 1)
    return xs.length - n
  secondStretch ys x := do
    let n ← Search.galloping (isBehindAt before x ys.reverse) ys.length (ys.length - 1)
    return ys.length - n
  beginsWithFirst := false

variable (d : Direction ε α)

/-! ### One at a time -/

/-- Take elements one at a time until the merge is settled or one list has given as many in a row as
the threshold says. -/
def takeSingles (threshold firstWins secondWins : Nat) (m : Merge α) : Except ε (Merge α) :=
  match m with
  | ⟨merged, x :: x' :: xs, y :: ys⟩ => do
    if ← d.secondGoesFirst x y then
      if threshold ≤ secondWins + 1 then return ⟨merged ++ [y], x :: x' :: xs, ys⟩
      else takeSingles threshold 0 (secondWins + 1) ⟨merged ++ [y], x :: x' :: xs, ys⟩
    else
      if threshold ≤ firstWins + 1 then return ⟨merged ++ [x], x' :: xs, y :: ys⟩
      else takeSingles threshold (firstWins + 1) 0 ⟨merged ++ [x], x' :: xs, y :: ys⟩
  | m => .ok m
termination_by m.remaining
decreasing_by
  all_goals simp [Merge.remaining]

/-! ### Stretches -/

/-- Take the stretch of the first list that goes before the head of the second one, and that head
unless the merge is settled by then; also tell how long the stretch was. -/
def takeFirstStretch (m : Merge α) : Except ε (Merge α × Nat) :=
  match m with
  | ⟨merged, x :: x' :: xs, y :: ys⟩ => do
    let n ← d.firstStretch (x :: x' :: xs) y
    let taken := merged ++ (x :: x' :: xs).take n
    let rest := (x :: x' :: xs).drop n
    if rest.length ≤ 1 then return (⟨taken, rest, y :: ys⟩, n)
    else return (⟨taken ++ [y], rest, ys⟩, n)
  | m => .ok (m, 0)

/-- Take the stretch of the second list that goes before the head of the first one, and that head
unless the merge is settled by then; also tell how long the stretch was. -/
def takeSecondStretch (m : Merge α) : Except ε (Merge α × Nat) :=
  match m with
  | ⟨merged, x :: x' :: xs, y :: ys⟩ => do
    let n ← d.secondStretch (y :: ys) x
    let taken := merged ++ (y :: ys).take n
    let rest := (y :: ys).drop n
    if rest.isEmpty then return (⟨taken, x :: x' :: xs, rest⟩, n)
    else return (⟨taken ++ [x], x' :: xs, rest⟩, n)
  | m => .ok (m, 0)

/-- Take a stretch of each list; also tell whether one of them was long. -/
def takeStretches (m : Merge α) : Except ε (Merge α × Bool) := do
  if d.beginsWithFirst then
    let (m, i) ← d.takeFirstStretch m
    let (m, j) ← d.takeSecondStretch m
    return (m, longStretch ≤ i || longStretch ≤ j)
  else
    let (m, j) ← d.takeSecondStretch m
    let (m, i) ← d.takeFirstStretch m
    return (m, longStretch ≤ i || longStretch ≤ j)

/-! ### What is left -/

section Remaining

variable {d}

theorem remaining_takeSingles_le {threshold i j : Nat} {m m' : Merge α}
    (h : d.takeSingles threshold i j m = .ok m') : m'.remaining ≤ m.remaining := by
  fun_induction takeSingles d threshold i j m with
  | case1 i j merged x x' xs y ys ih₁ ih₂ =>
    simp only [bind, Except.bind, pure, Except.pure] at h
    split at h
    · cases h
    · repeat' split at h
      · cases h; simp [Merge.remaining]
      · exact Nat.le_trans (ih₁ h) (by simp [Merge.remaining])
      · cases h; simp [Merge.remaining]
      · exact Nat.le_trans (ih₂ h) (by simp [Merge.remaining])
  | case2 => cases h; exact Nat.le_refl _

/-- A stretch takes something, unless the merge is settled. -/
theorem remaining_takeFirstStretch {m m' : Merge α} {n : Nat}
    (h : d.takeFirstStretch m = .ok (m', n)) :
    m'.remaining ≤ m.remaining ∧ (m.isSettled = false → m'.remaining < m.remaining) := by
  unfold takeFirstStretch at h
  split at h
  · simp only [bind, Except.bind, pure, Except.pure] at h
    split at h
    · cases h
    · split at h
      · cases h
        simp_all [Merge.remaining]
        omega
      · cases h
        simp_all [Merge.remaining]
        omega
  · next hm =>
    cases h
    refine ⟨Nat.le_refl _, fun hs => ?_⟩
    obtain ⟨merged, first, second⟩ := m
    match first, second, hs with
    | x :: x' :: xs, y :: ys, _ => exact absurd rfl (hm merged x x' xs y ys)

theorem remaining_takeSecondStretch {m m' : Merge α} {n : Nat}
    (h : d.takeSecondStretch m = .ok (m', n)) :
    m'.remaining ≤ m.remaining ∧ (m.isSettled = false → m'.remaining < m.remaining) := by
  unfold takeSecondStretch at h
  split at h
  · simp only [bind, Except.bind, pure, Except.pure] at h
    split at h
    · cases h
    · split at h
      · cases h
        simp_all [Merge.remaining]
      · cases h
        simp_all [Merge.remaining]
        omega
  · next hm =>
    cases h
    refine ⟨Nat.le_refl _, fun hs => ?_⟩
    obtain ⟨merged, first, second⟩ := m
    match first, second, hs with
    | x :: x' :: xs, y :: ys, _ => exact absurd rfl (hm merged x x' xs y ys)

/-- The two stretches of a round take something. -/
theorem remaining_takeStretches_lt {m m' : Merge α} {long : Bool}
    (h : d.takeStretches m = .ok (m', long)) (hm : m.isSettled = false) :
    m'.remaining < m.remaining := by
  simp only [takeStretches, bind, Except.bind, pure, Except.pure] at h
  split at h
  · split at h
    · cases h
    · next h₁ =>
      split at h
      · cases h
      · next h₂ =>
        cases h
        exact Nat.lt_of_le_of_lt (remaining_takeSecondStretch h₂).1
          ((remaining_takeFirstStretch h₁).2 hm)
  · split at h
    · cases h
    · next h₁ =>
      split at h
      · cases h
      · next h₂ =>
        cases h
        exact Nat.lt_of_le_of_lt (remaining_takeFirstStretch h₂).1
          ((remaining_takeSecondStretch h₁).2 hm)

end Remaining

/-! ### Galloping -/

/-- Take stretches while they are long and the merge is not settled; also tell the threshold, which
falls with each round but the first. -/
def gallop (threshold : Nat) (m : Merge α) : Except ε (Merge α × Nat) :=
  if _hm : m.isSettled = true then .ok (m, threshold)
  else
    match _h : d.takeStretches m with
    | .error e       => .error e
    | .ok (m', long) =>
      if long && !m'.isSettled then gallop (max 1 (threshold - 1)) m'
      else .ok (m', threshold)
termination_by m.remaining
decreasing_by exact remaining_takeStretches_lt _h (by simpa using _hm)

theorem remaining_gallop {threshold threshold' : Nat} {m m' : Merge α}
    (h : d.gallop threshold m = .ok (m', threshold')) :
    m'.remaining ≤ m.remaining ∧ (m.isSettled = false → m'.remaining < m.remaining) := by
  fun_induction gallop d threshold m with
  | case1 => cases h; simp_all
  | case2 => cases h
  | case3 threshold m hm m' long hstep hlong ih =>
    have hlt := remaining_takeStretches_lt hstep (by simpa using hm)
    have hle := (ih h).1
    omega
  | case4 threshold m hm m' long hstep hlong =>
    cases h
    have hlt := remaining_takeStretches_lt hstep (by simpa using hm)
    omega

/-! ### The whole merge -/

/-- Take single elements and then stretches, until the merge is settled. -/
def finish (threshold : Nat) (m : Merge α) : Except ε (List α × Nat) :=
  if _hm : m.isSettled = true then .ok (m.result, threshold)
  else
    match _h₁ : d.takeSingles threshold 0 0 m with
    | .error e => .error e
    | .ok m₁   =>
      if _hm₁ : m₁.isSettled = true then .ok (m₁.result, threshold)
      else
        match _h₂ : d.gallop threshold m₁ with
        | .error e              => .error e
        | .ok (m₂, threshold₂) =>
          if m₂.isSettled then .ok (m₂.result, threshold₂)
          else finish (threshold₂ + 1) m₂
termination_by m.remaining
decreasing_by
  exact Nat.lt_of_lt_of_le ((remaining_gallop d _h₂).2 (by simpa using _hm₁))
    (remaining_takeSingles_le _h₁)

end Direction

/-! ### Neighbouring runs -/

namespace Run

variable {ε α : Type} (before : α → α → Except ε Bool)

/-- Merge two runs of which the right one begins before the left one and ends before it. -/
def mergeOverlapping (threshold : Nat) (left right : List α) : Except ε (List α × Nat) := do
  if left.length ≤ right.length then
    (Direction.forward before).finish threshold ⟨right.take 1, left, right.drop 1⟩
  else
    let (xs, threshold) ← (Direction.backward before).finish threshold
      ⟨left.reverse.take 1, right.reverse, left.reverse.drop 1⟩
    return (xs.reverse, threshold)

/-- Merge two neighbouring runs. What stands in place at both ends already is left there. -/
def merge (threshold : Nat) (left right : List α) : Except ε (List α × Nat) :=
  match right with
  | []      => .ok (left, threshold)
  | y :: ys => do
    let i ← Search.galloping (isBehindAt before y left) left.length 0
    match (left.drop i).getLast? with
    | none   => return (left ++ y :: ys, threshold)
    | some x =>
      let j ← Search.galloping (isBeforeAt before x (y :: ys)) (y :: ys).length ys.length
      if j = 0 then return (left ++ y :: ys, threshold)
      else
        let (merged, threshold) ←
          mergeOverlapping before threshold (left.drop i) ((y :: ys).take j)
        return (left.take i ++ merged ++ (y :: ys).drop j, threshold)

end Run

end VersionConstraints
