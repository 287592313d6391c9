import Mathlib.Data.List.Basic

/-! # Slices over shared arrays

A slice names a range of a backing array. Appending to it writes into the array while
there is room and moves to a new array when there is none. Two slices of one array see
each other's writes, so what a slice reads stays only as long as no cell of its range
is written.
-/

namespace DistLab

/-- A range of a numbered array. -/
structure Slice where
  array : ℕ
  low : ℕ
  len : ℕ
  deriving DecidableEq

namespace Slice

def cut (s : Slice) (k : ℕ) : Slice := { s with len := k }

def tail (s : Slice) (k : ℕ) : Slice := { s with low := s.low + k, len := s.len - k }

def Covers (s : Slice) (p : ℕ) : Prop := s.low ≤ p ∧ p < s.low + s.len

instance (s : Slice) (p : ℕ) : Decidable (s.Covers p) := inferInstanceAs (Decidable (_ ∧ _))

end Slice

/-- The capacity of a new array, from its number, the capacity that was too small and the number
of elements it is made for. -/
structure Growth where
  cap : ℕ → ℕ → ℕ → ℕ
  le_cap : ∀ id old k, k ≤ cap id old k

def Growth.doubling : Growth := ⟨fun _ old k => max k (2 * old), fun _ _ _ => Nat.le_max_left ..⟩

/-- A slice variable with every array it has lived in. -/
structure Vec (α : Type*) where
  arrays : List (List α)
  slice : Slice

namespace Vec

variable {α : Type*} [Inhabited α] (A : Growth)

def cells (v : Vec α) (id : ℕ) : List α := (v.arrays[id]?).getD []

def read (v : Vec α) (t : Slice) : List α := ((v.cells t.array).drop t.low).take t.len

def contents (v : Vec α) : List α := v.read v.slice

def Has (v : Vec α) (t : Slice) : Prop :=
  t.array < v.arrays.length ∧ t.low + t.len ≤ (v.cells t.array).length

def move (v : Vec α) (old : ℕ) (xs : List α) : Vec α where
  arrays := v.arrays ++
    [xs ++ List.replicate (A.cap v.arrays.length old xs.length - xs.length) default]
  slice := ⟨v.arrays.length, 0, xs.length⟩

def push (v : Vec α) (x : α) : Vec α :=
  if v.slice.low + v.slice.len < (v.cells v.slice.array).length then
    { arrays := v.arrays.modify v.slice.array (·.set (v.slice.low + v.slice.len) x)
      slice := { v.slice with len := v.slice.len + 1 } }
  else v.move A ((v.cells v.slice.array).length - v.slice.low) (v.contents ++ [x])

/-- Cut the slice and append to what is left, element by element. -/
def splice (v : Vec α) (k : ℕ) (xs : List α) : Vec α :=
  xs.foldl (push A) { v with slice := v.slice.cut k }

/-- No cell that the splice may write in place belongs to the other slice. -/
def Spares (v : Vec α) (k : ℕ) (xs : List α) (t : Slice) : Prop :=
  t.array = v.slice.array → ∀ j < xs.length, ¬ t.Covers (v.slice.low + k + j)

instance (v : Vec α) (k : ℕ) (xs : List α) (t : Slice) : Decidable (v.Spares k xs t) :=
  inferInstanceAs (Decidable (_ → ∀ j < xs.length, ¬ t.Covers (v.slice.low + k + j)))

variable {A} {v : Vec α} {t : Slice} {x : α} {xs : List α} {k old : ℕ}

omit [Inhabited α] in
theorem length_read (h : v.Has t) : (v.read t).length = t.len := by
  obtain ⟨-, hlen⟩ := h
  rw [read, List.length_take, List.length_drop]
  omega

omit [Inhabited α] in
theorem Has.cut (h : v.Has t) (hk : k ≤ t.len) : v.Has (t.cut k) := by
  obtain ⟨ha, hlen⟩ := h
  exact ⟨ha, by simp only [Slice.cut]; omega⟩

omit [Inhabited α] in
theorem Has.tail (h : v.Has t) (hk : k ≤ t.len) : v.Has (t.tail k) := by
  obtain ⟨ha, hlen⟩ := h
  exact ⟨ha, by simp only [Slice.tail]; omega⟩

omit [Inhabited α] in
theorem read_cut (hk : k ≤ t.len) : v.read (t.cut k) = (v.read t).take k := by
  rw [read, read, List.take_take, Nat.min_eq_left hk]
  rfl

omit [Inhabited α] in
theorem read_tail : v.read (t.tail k) = (v.read t).drop k := by
  rw [read, read, List.drop_take, List.drop_drop]
  rfl

section Move

theorem cells_move (h : t.array < v.arrays.length) :
    (v.move A old xs).cells t.array = v.cells t.array := by
  rw [cells, cells, move, List.getElem?_append_left h]

theorem read_move (h : v.Has t) : (v.move A old xs).read t = v.read t := by
  rw [read, read, cells_move h.1]

theorem has_of_move (h : v.Has t) : (v.move A old xs).Has t := by
  constructor
  · rw [move, List.length_append]
    exact Nat.lt_add_right _ h.1
  · rw [cells_move h.1]
    exact h.2

theorem has_move : (v.move A old xs).Has (v.move A old xs).slice := by
  constructor
  · simp [move]
  · simp [move, cells]

theorem contents_move : (v.move A old xs).contents = xs := by
  rw [contents, read]
  simp [move, cells]

end Move

section Push

theorem push_cases :
    (v.slice.low + v.slice.len < (v.cells v.slice.array).length ∧
      (v.push A x).slice = { v.slice with len := v.slice.len + 1 } ∧
      (v.push A x).arrays =
        v.arrays.modify v.slice.array (·.set (v.slice.low + v.slice.len) x)) ∨
    ∃ old, v.push A x = v.move A old (v.contents ++ [x]) := by
  unfold push
  split_ifs with hlt
  · exact Or.inl ⟨hlt, rfl, rfl⟩
  · exact Or.inr ⟨_, rfl⟩

omit [Inhabited α] in
theorem cells_modify {w : Vec α} {p id : ℕ}
    (hw : w.arrays = v.arrays.modify v.slice.array (·.set p x)) :
    w.cells id = if v.slice.array = id then (v.cells id).set p x else v.cells id := by
  rw [cells, cells, hw, List.getElem?_modify]
  split_ifs with h
  · cases v.arrays[id]? <;> rfl
  · cases v.arrays[id]? <;> rfl

theorem has_push (h : v.Has v.slice) : (v.push A x).Has (v.push A x).slice := by
  rcases push_cases (v := v) (A := A) (x := x) with ⟨hlt, hs, ha⟩ | ⟨old, hm⟩
  · constructor
    · rw [hs, ha, List.length_modify]
      exact h.1
    · rw [hs, cells_modify ha, if_pos rfl, List.length_set]
      exact hlt
  · rw [hm]
    exact has_move

theorem has_of_push (ht : v.Has t) : (v.push A x).Has t := by
  rcases push_cases (v := v) (A := A) (x := x) with ⟨-, -, ha⟩ | ⟨old, hm⟩
  · constructor
    · rw [ha, List.length_modify]
      exact ht.1
    · rw [cells_modify ha, apply_ite List.length, List.length_set, ite_self]
      exact ht.2
  · rw [hm]
    exact has_of_move ht

theorem contents_push : (v.push A x).contents = v.contents ++ [x] := by
  rcases push_cases (v := v) (A := A) (x := x) with ⟨hlt, hs, ha⟩ | ⟨old, hm⟩
  · rw [contents, contents, hs, read, read, cells_modify ha, if_pos rfl]
    apply List.ext_getElem?
    intro j
    simp only [List.getElem?_take, List.getElem?_drop, List.getElem?_set, List.getElem?_append,
      List.length_take, List.length_drop]
    grind
  · rw [hm, contents_move]

/-- A write in place is seen by the slices that cover the cell only. -/
theorem read_push (ht : v.Has t)
    (hc : t.array = v.slice.array → ¬ t.Covers (v.slice.low + v.slice.len)) :
    (v.push A x).read t = v.read t := by
  rcases push_cases (v := v) (A := A) (x := x) with ⟨-, -, ha⟩ | ⟨old, hm⟩
  · rw [read, read, cells_modify ha]
    split_ifs with harr
    · have hout := hc harr.symm
      unfold Slice.Covers at hout
      apply List.ext_getElem?
      intro j
      simp only [List.getElem?_take, List.getElem?_drop]
      split_ifs with hj
      · rw [List.getElem?_set_ne (by omega)]
      · rfl
    · rfl
  · rw [hm, read_move ht]

theorem spares_push (ht : v.Has t) (hc : v.Spares v.slice.len (x :: xs) t) :
    (v.push A x).Spares (v.push A x).slice.len xs t := by
  intro harr j hj
  rcases push_cases (v := v) (A := A) (x := x) with ⟨-, hs, -⟩ | ⟨old, hm⟩
  · rw [hs] at harr ⊢
    have hout := hc harr (j + 1) (by simpa using hj)
    rwa [← Nat.add_assoc, Nat.add_right_comm] at hout
  · rw [hm] at harr
    exact absurd ht.1 (by simp [harr, move])

end Push

theorem contents_foldl_push (xs : List α) (h : v.Has v.slice) :
    (xs.foldl (push A) v).contents = v.contents ++ xs ∧
      (xs.foldl (push A) v).Has (xs.foldl (push A) v).slice := by
  induction xs generalizing v with
  | nil => exact ⟨(List.append_nil _).symm, h⟩
  | cons x xs ih =>
    obtain ⟨hc, hh⟩ := ih (has_push h)
    rw [contents_push, List.append_assoc] at hc
    exact ⟨hc, hh⟩

/-- What it leaves of another slice. -/
theorem read_foldl_push (ht : v.Has t) (hc : v.Spares v.slice.len xs t) :
    (xs.foldl (push A) v).read t = v.read t ∧ (xs.foldl (push A) v).Has t := by
  induction xs generalizing v with
  | nil => exact ⟨rfl, ht⟩
  | cons x xs ih =>
    have hcell : t.array = v.slice.array → ¬ t.Covers (v.slice.low + v.slice.len) := by
      intro harr
      exact hc harr 0 (Nat.succ_pos _)
    obtain ⟨hr, hh⟩ := ih (has_of_push ht) (spares_push ht hc)
    exact ⟨hr.trans (read_push ht hcell), hh⟩

theorem contents_splice (xs : List α) (h : v.Has v.slice) (hk : k ≤ v.slice.len) :
    (v.splice A k xs).contents = v.contents.take k ++ xs ∧
      (v.splice A k xs).Has (v.splice A k xs).slice := by
  have hcut : Vec.Has { v with slice := v.slice.cut k } (v.slice.cut k) := h.cut hk
  obtain ⟨hc, hh⟩ := contents_foldl_push (A := A) xs hcut
  refine ⟨hc.trans ?_, hh⟩
  rw [contents, contents, ← read_cut hk]
  rfl

theorem read_splice (ht : v.Has t) (hc : v.Spares k xs t) :
    (v.splice A k xs).read t = v.read t ∧ (v.splice A k xs).Has t :=
  read_foldl_push (v := { v with slice := v.slice.cut k }) ht hc

end Vec

end DistLab
