import Mathlib.Data.List.Basic

/-! # Maximal runs

A list is split into the maximal runs of elements with a property by a loop that collects
the current run. A run starts at every place whose element has the property and that has
no such element before it, and goes on as long as the property holds.
-/

namespace DistLab

variable {α : Type*} (p : α → Bool)

def fieldsLoop (cur : List α) : List α → List (List α)
  | [] => if cur.isEmpty then [] else [cur]
  | x :: xs =>
    if p x then fieldsLoop (cur ++ [x]) xs
    else if cur.isEmpty then fieldsLoop [] xs
    else cur :: fieldsLoop [] xs

def fields (xs : List α) : List (List α) := fieldsLoop p [] xs

/-- A run starts at a place, given whether the property holds before the list. -/
def startsRun (before : Bool) (xs : List α) (i : ℕ) : Bool :=
  xs[i]?.any p && !(if i = 0 then before else xs[i - 1]?.any p)

def runAt (xs : List α) (i : ℕ) : List α := (xs.drop i).takeWhile p

def runStarts (before : Bool) (xs : List α) : List ℕ :=
  (List.range xs.length).filter (startsRun p before xs)

variable {p} {x : α} {xs cur : List α} {before : Bool}

theorem startsRun_zero : startsRun p before (x :: xs) 0 = (p x && !before) := by
  simp [startsRun]

theorem startsRun_succ (i : ℕ) :
    startsRun p before (x :: xs) (i + 1) = startsRun p (p x) xs i := by
  cases i with
  | zero => simp [startsRun]
  | succ i => simp [startsRun]

theorem runStarts_cons : (runStarts p before (x :: xs)).map (runAt p (x :: xs)) =
    (if p x && !before then [x :: xs.takeWhile p] else []) ++
      (runStarts p (p x) xs).map (runAt p xs) := by
  have hsucc : startsRun p before (x :: xs) ∘ Nat.succ = startsRun p (p x) xs :=
    funext startsRun_succ
  have htail : ((List.range xs.length).map Nat.succ).filter (startsRun p before (x :: xs)) =
      (runStarts p (p x) xs).map Nat.succ := by
    rw [List.filter_map, hsucc, runStarts]
  have hrun : runAt p (x :: xs) ∘ Nat.succ = runAt p xs := rfl
  rw [runStarts, List.length_cons, List.range_succ_eq_map, List.filter_cons, htail, startsRun_zero]
  split
  case isTrue h =>
    have hx : p x = true := (Bool.and_eq_true_iff.mp h).1
    rw [List.map_cons, List.map_map, hrun, runAt, List.drop_zero, List.takeWhile_cons_of_pos hx]
    rfl
  case isFalse => rw [List.map_map, hrun, List.nil_append]

/-- The loop puts out the run it is in and all runs that start later. -/
theorem fieldsLoop_eq (cur : List α) : fieldsLoop p cur xs =
    (if cur.isEmpty then [] else [cur ++ xs.takeWhile p]) ++
      (runStarts p (!cur.isEmpty) xs).map (runAt p xs) := by
  induction xs generalizing cur with
  | nil => simp [fieldsLoop, runStarts]
  | cons x xs ih =>
    rw [runStarts_cons, fieldsLoop]
    by_cases hx : p x = true
    · rw [if_pos hx, ih]
      cases cur with
      | nil => simp [hx]
      | cons y cur => simp [hx]
    · cases cur with
      | nil => simp [hx, ih]
      | cons y cur => simp [hx, ih]

theorem fields_eq : fields p xs = (runStarts p false xs).map (runAt p xs) :=
  fieldsLoop_eq []

end DistLab
