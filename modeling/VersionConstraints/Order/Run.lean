import VersionConstraints.Order.Search

/-!
# Sorted runs

A list is cut into sorted runs. A run goes on as long as no element comes before the last one, or as
long as each does, and is reversed in the second case. A run that is too short is filled up from the
elements behind it, each of which is inserted behind those that it does not come before.
-/

namespace VersionConstraints

variable {ε α : Type} (before : α → α → Except ε Bool)

/-! ### Tests by position -/

/-- Whether the element at a position of a list comes before a given one. -/
def isBeforeAt (x : α) (ys : List α) (i : Nat) : Except ε Bool :=
  match ys[i]? with
  | none   => .ok false
  | some y => before y x

/-- Whether a given element does not come before the one at a position of a list. -/
def isBehindAt (x : α) (ys : List α) (i : Nat) : Except ε Bool :=
  match ys[i]? with
  | none   => .ok false
  | some y => return !(← before x y)

namespace Run

/-! ### The run at the front -/

/-- Go on with a rising run behind its last element: the rest of the run, and what follows. -/
def rising (last : α) : List α → Except ε (List α × List α)
  | []      => .ok ([], [])
  | x :: xs => do
    if ← before x last then return ([], x :: xs)
    else
      let (run, rest) ← rising x xs
      return (x :: run, rest)

/-- Go on with a falling run, which is given in reverse behind its last element: the whole run in
reverse, and what follows. -/
def falling (last : α) (run : List α) : List α → Except ε (List α × List α)
  | []      => .ok (last :: run, [])
  | x :: xs => do
    if ← before x last then falling x (last :: run) xs
    else return (last :: run, x :: xs)

/-- Split a list into the run at the front, in order, and what follows. -/
def split : List α → Except ε (List α × List α)
  | x :: y :: xs => do
    if ← before y x then falling before y [x] xs
    else
      let (run, rest) ← rising before y xs
      return (x :: y :: run, rest)
  | xs           => .ok (xs, [])

/-! ### Filling up -/

/-- Insert an element into a run, behind those that it does not come before. -/
def insert (x : α) (run : List α) : Except ε (List α) := do
  let i ← Search.halving (isBehindAt before x run) 0 run.length
  return run.take i ++ x :: run.drop i

def insertAll (run : List α) : List α → Except ε (List α)
  | []      => .ok run
  | x :: xs => do insertAll (← insert before x run) xs

/-- Split a list into a run of a least length, if there are so many elements, and what follows. -/
def next (least : Nat) (xs : List α) : Except ε (List α × List α) := do
  let (run, rest) ← split before xs
  let filled ← insertAll before run (rest.take (least - run.length))
  return (filled, rest.drop (least - run.length))

/-! ### Lengths -/

variable {before}

theorem length_rising {last : α} {xs run rest : List α}
    (h : rising before last xs = .ok (run, rest)) : rest.length ≤ xs.length := by
  induction xs generalizing last run with
  | nil =>
    simp only [rising, Except.ok.injEq, Prod.mk.injEq] at h
    simp [← h.2]
  | cons x xs ih =>
    simp only [rising, bind, Except.bind, pure, Except.pure] at h
    split at h
    · cases h
    · split at h
      · cases h
        exact Nat.le_refl _
      · split at h
        · cases h
        · next hrec =>
          cases h
          exact Nat.le_succ_of_le (ih hrec)

theorem length_falling {last : α} {acc xs run rest : List α}
    (h : falling before last acc xs = .ok (run, rest)) : rest.length ≤ xs.length := by
  induction xs generalizing last acc with
  | nil =>
    simp only [falling, Except.ok.injEq, Prod.mk.injEq] at h
    simp [← h.2]
  | cons x xs ih =>
    simp only [falling, bind, Except.bind, pure, Except.pure] at h
    split at h
    · cases h
    · split at h
      · exact Nat.le_succ_of_le (ih h)
      · cases h
        exact Nat.le_refl _

/-- The run at the front of a list is not empty. -/
theorem length_split {x : α} {xs run rest : List α}
    (h : split before (x :: xs) = .ok (run, rest)) : rest.length < (x :: xs).length := by
  cases xs with
  | nil =>
    simp only [split, Except.ok.injEq, Prod.mk.injEq] at h
    simp [← h.2]
  | cons y xs =>
    simp only [split, bind, Except.bind, pure, Except.pure] at h
    split at h
    · cases h
    · split at h
      · have := length_falling h
        simp only [List.length_cons]
        omega
      · split at h
        · cases h
        · next hrec =>
          cases h
          have := length_rising hrec
          simp only [List.length_cons]
          omega

/-- A run takes at least one element. -/
theorem length_next {least : Nat} {x : α} {xs run rest : List α}
    (h : next before least (x :: xs) = .ok (run, rest)) : rest.length < (x :: xs).length := by
  simp only [next, bind, Except.bind, pure, Except.pure] at h
  split at h
  · cases h
  · next hsplit =>
    split at h
    · cases h
    · cases h
      have := length_split hsplit
      simp only [List.length_drop]
      omega

end Run

end VersionConstraints
