import Mathlib.Data.List.Basic
import Mathlib.Data.Nat.Basic

/-! # Blocks of memory and rings

A block of memory is what is read back at every offset. A stretch of it is read as a
list and overwritten by one. A ring of `K` cells is the first `K` cells of a block,
read and written from any cell on around its end.
-/

namespace DistLab

abbrev Block (α : Type*) := ℕ → α

namespace Block

variable {α : Type*} {m m' : Block α} {off i n k b t K : ℕ} {xs ys : List α}

section Stretch

def read (m : Block α) (off n : ℕ) : List α := (List.range n).map fun i => m (off + i)

def write (m : Block α) (off : ℕ) (xs : List α) : Block α := fun i =>
  if off ≤ i then xs[i - off]?.getD (m i) else m i

@[simp] theorem length_read : (m.read off n).length = n := by simp [read]

theorem getElem?_read (h : i < n) : (m.read off n)[i]? = some (m (off + i)) := by
  simp [read, h]

theorem read_congr (h : ∀ i, off ≤ i → i < off + n → m i = m' i) :
    m.read off n = m'.read off n := by
  refine List.map_congr_left fun i hi => h _ (Nat.le_add_right _ _) ?_
  have := List.mem_range.mp hi
  omega

theorem write_of_lt (h : i < off) : m.write off xs i = m i := by
  simp [write, Nat.not_le.mpr h]

theorem write_of_le (h : off + xs.length ≤ i) : m.write off xs i = m i := by
  have : xs[i - off]? = none := List.getElem?_eq_none (by omega)
  simp [write, this]

theorem write_add (m : Block α) (off : ℕ) (xs : List α) (i : ℕ) :
    m.write off xs (off + i) = xs[i]?.getD (m (off + i)) := by
  simp [write]

theorem read_write : (m.write off xs).read off xs.length = xs := by
  refine List.ext_getElem? fun i => ?_
  rcases lt_or_ge i xs.length with hi | hi
  · rw [getElem?_read hi, write_add, List.getElem?_eq_getElem hi, Option.getD_some]
  · simp [hi]

theorem read_write_of_le (h : off + xs.length ≤ i) : (m.write off xs).read i n = m.read i n :=
  read_congr fun _ hj _ => write_of_le (by omega)

theorem write_write_append (m : Block α) (off : ℕ) (xs ys : List α) :
    (m.write off xs).write (off + xs.length) ys = m.write off (xs ++ ys) := by
  funext i
  rcases lt_or_ge i off with hi | hi
  · rw [write_of_lt (by omega), write_of_lt hi, write_of_lt hi]
  · obtain ⟨j, rfl⟩ := Nat.exists_eq_add_of_le hi
    rcases lt_or_ge j xs.length with hj | hj
    · rw [write_of_lt (by omega), write_add, write_add, List.getElem?_append_left hj]
    · rw [write_add m off (xs ++ ys), List.getElem?_append_right hj]
      obtain ⟨l, rfl⟩ := Nat.exists_eq_add_of_le hj
      rw [← Nat.add_assoc, write_add, write_of_le (by omega), Nat.add_sub_cancel_left]

end Stretch

section Ring

/-- The values of `n` cells of the ring from a cell on. -/
def ring (m : Block α) (K b n : ℕ) : List α := (List.range n).map fun i => m ((b + i) % K)

/-- Overwrite the cells of the ring from a cell on, in two stretches when the end is passed. -/
def ringWrite (m : Block α) (K t : ℕ) (xs : List α) : Block α :=
  if xs.length > K - t then (m.write t (xs.take (K - t))).write 0 (xs.drop (K - t))
  else m.write t xs

@[simp] theorem length_ring : (m.ring K b n).length = n := by simp [ring]

theorem getElem?_ring (h : i < n) : (m.ring K b n)[i]? = some (m ((b + i) % K)) := by
  simp [ring, h]

theorem ring_index (hb : b < K) (hi : i ≤ K) :
    (b + i) % K = if b + i < K then b + i else b + i - K := by
  split_ifs with h
  · exact Nat.mod_eq_of_lt h
  · rw [Nat.mod_eq_sub_mod (Nat.not_lt.mp h), Nat.mod_eq_of_lt (by omega)]

theorem ring_add : m.ring K b (n + k) = m.ring K b n ++ m.ring K ((b + n) % K) k := by
  simp only [ring, List.range_add, List.map_append, List.map_map]
  congr 1
  refine List.map_congr_left fun i _ => ?_
  simp [Nat.add_assoc]

theorem take_ring (h : k ≤ n) : (m.ring K b n).take k = m.ring K b k := by
  obtain ⟨l, rfl⟩ := Nat.exists_eq_add_of_le h
  rw [ring_add, List.take_left' length_ring]

theorem drop_ring (h : k ≤ n) : (m.ring K b n).drop k = m.ring K ((b + k) % K) (n - k) := by
  obtain ⟨l, rfl⟩ := Nat.exists_eq_add_of_le h
  rw [ring_add, List.drop_left' length_ring, Nat.add_sub_cancel_left]

theorem ring_of_le (h : b + n ≤ K) : m.ring K b n = m.read b n := by
  refine List.map_congr_left fun i hi => ?_
  have := List.mem_range.mp hi
  rw [Nat.mod_eq_of_lt (by omega)]

/-- A stretch of the ring around its end is a stretch at the end and one at the start. -/
theorem ring_of_ge (hb : b < K) (h : K - b ≤ n) (hn : n ≤ K) :
    m.ring K b n = m.read b (K - b) ++ m.read 0 (n - (K - b)) := by
  obtain ⟨l, rfl⟩ := Nat.exists_eq_add_of_le h
  have h0 : (b + (K - b)) % K = 0 := by
    rw [Nat.add_sub_of_le (Nat.le_of_lt hb), Nat.mod_self]
  rw [ring_add, h0, ring_of_le (by omega), ring_of_le (by omega), Nat.add_sub_cancel_left]

theorem ringWrite_index (ht : t < K) (hx : xs.length ≤ K) (hi : i < K) :
    m.ringWrite K t xs i = xs[if t ≤ i then i - t else i + K - t]?.getD (m i) := by
  unfold ringWrite
  split_ifs with h hti hti
  · obtain ⟨j, rfl⟩ := Nat.exists_eq_add_of_le hti
    rw [write_of_le (by simp; omega), write_add, List.getElem?_take_of_lt (by omega),
      Nat.add_sub_cancel_left]
  · have h0 := write_add (m.write t (xs.take (K - t))) 0 (xs.drop (K - t)) i
    rw [Nat.zero_add] at h0
    rw [h0, write_of_lt (by omega), List.getElem?_drop, show K - t + i = i + K - t by omega]
  · obtain ⟨j, rfl⟩ := Nat.exists_eq_add_of_le hti
    rw [write_add, Nat.add_sub_cancel_left]
  · rw [write_of_lt (by omega), List.getElem?_eq_none (by omega), Option.getD_none]

/-- Writing behind a stretch of the ring appends to it. -/
theorem ring_ringWrite (m : Block α) (xs : List α) (hb : b < K) (h : n + xs.length ≤ K) :
    (m.ringWrite K ((b + n) % K) xs).ring K b (n + xs.length) = m.ring K b n ++ xs := by
  have ht : (b + n) % K < K := Nat.mod_lt _ (by omega)
  have hindex := ring_index (i := n) hb (by omega)
  refine List.ext_getElem? fun i => ?_
  rcases lt_or_ge i (n + xs.length) with hi | hi
  · have hindex' := ring_index (i := i) hb (by omega)
    have hlt : (b + i) % K < K := Nat.mod_lt _ (by omega)
    rw [getElem?_ring hi, ringWrite_index ht (by omega) hlt]
    rcases lt_or_ge i n with hin | hin
    · rw [List.getElem?_append_left (by simpa using hin), getElem?_ring hin,
        List.getElem?_eq_none, Option.getD_none]
      split_ifs at * <;> omega
    · rw [List.getElem?_append_right (by simpa using hin), length_ring]
      have hj : (if (b + n) % K ≤ (b + i) % K then (b + i) % K - (b + n) % K
          else (b + i) % K + K - (b + n) % K) = i - n := by
        split_ifs at * <;> omega
      rw [hj, List.getElem?_eq_getElem (by omega), Option.getD_some]
  · rw [List.getElem?_eq_none (by simpa using hi), List.getElem?_eq_none (by simpa using hi)]

end Ring

end Block

end DistLab
