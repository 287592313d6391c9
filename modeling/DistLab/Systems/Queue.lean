import Mathlib.Data.List.Basic

/-! # Queues with a head index

A list that only grows, read from an index that only advances.
-/

namespace DistLab

structure HeadQueue (α : Type*) where
  items : List α
  head : ℕ
  head_le : head ≤ items.length

namespace HeadQueue

variable {α : Type*} (q : HeadQueue α)

def ofList (l : List α) : HeadQueue α := ⟨l, 0, Nat.zero_le _⟩

def pending : List α := q.items.drop q.head

def push (a : α) : HeadQueue α where
  items := q.items ++ [a]
  head := q.head
  head_le := by
    have := q.head_le
    simp only [List.length_append, List.length_singleton]
    omega

def pop : Option (α × HeadQueue α) :=
  if h : q.items.length ≠ q.head then
    have hlt : q.head < q.items.length := Nat.lt_of_le_of_ne q.head_le h.symm
    some (q.items.get ⟨q.head, hlt⟩, ⟨q.items, q.head + 1, hlt⟩)
  else none

variable {q} {q' : HeadQueue α} {a : α} {l : List α}

@[simp] theorem pending_ofList : (ofList l).pending = l := rfl

@[simp] theorem pending_push : (q.push a).pending = q.pending ++ [a] :=
  List.drop_append_of_le_length q.head_le

theorem pending_of_pop (h : q.pop = some (a, q')) : q.pending = a :: q'.pending := by
  unfold pop at h
  split_ifs at h with hne
  obtain ⟨rfl, rfl⟩ := Prod.mk.inj (Option.some.inj h)
  exact List.drop_eq_getElem_cons _

theorem pending_of_pop_none (h : q.pop = none) : q.pending = [] := by
  unfold pop at h
  split_ifs at h with hne
  exact List.drop_eq_nil_of_le (Nat.le_of_eq (not_not.mp hne))

end HeadQueue

end DistLab
