import Mathlib.Data.List.Basic
import Mathlib.Data.Nat.Basic

/-! # Pieces of a sequence

A piece is a run of elements with the place it starts at. Pieces tile a sequence when
they are parts of it, overlap nowhere and leave nothing out. Writing them into an empty
file, each at its place and in any order, yields the sequence.
-/

namespace DistLab

structure Piece (α : Type*) where
  offset : ℕ
  data : List α
deriving DecidableEq

namespace Piece

variable {α : Type*} (p q : Piece α)

def stop : ℕ := p.offset + p.data.length

def Covers (k : ℕ) : Prop := p.offset ≤ k ∧ k < p.stop

instance (k : ℕ) : Decidable (p.Covers k) := inferInstanceAs (Decidable (_ ∧ _))

def Apart : Prop := ∀ k, p.Covers k → ¬ q.Covers k

def PartOf (xs : List α) : Prop := ∀ i a, p.data[i]? = some a → xs[p.offset + i]? = some a

/-- Write the piece at its place; a gap before it is filled. Nothing is done without data. -/
def write (z : α) (file : List α) : List α :=
  match p.data with
  | [] => file
  | _ => (file ++ List.replicate (p.offset - file.length) z).take p.offset ++ p.data ++
      file.drop p.stop

def lay (offset : ℕ) : List (List α) → List (Piece α)
  | [] => []
  | d :: ds => ⟨offset, d⟩ :: lay (offset + d.length) ds

variable {p q} {z : α} {file xs : List α} {k : ℕ}

theorem apart_iff : p.Apart q ↔
    p.data.length = 0 ∨ q.data.length = 0 ∨ p.stop ≤ q.offset ∨ q.stop ≤ p.offset := by
  unfold Apart Covers stop
  constructor
  · intro h
    by_contra hne
    exact h (max p.offset q.offset) (by omega) (by omega)
  · intro h k hp hq
    omega

instance : Decidable (p.Apart q) := decidable_of_iff' _ apart_iff

theorem Apart.symm (h : p.Apart q) : q.Apart p := fun k hq hp => h k hp hq

theorem data_getElem?_of_covers (h : p.Covers k) : ∃ a, p.data[k - p.offset]? = some a := by
  unfold Covers stop at h
  exact ⟨_, List.getElem?_eq_getElem (by omega)⟩

theorem PartOf.getElem?_eq (h : p.PartOf xs) (hk : p.Covers k) :
    p.data[k - p.offset]? = xs[k]? := by
  obtain ⟨a, ha⟩ := data_getElem?_of_covers hk
  have hx := h _ a ha
  rw [Nat.add_sub_cancel' hk.1] at hx
  rw [ha, hx]

theorem PartOf.lt_length (h : p.PartOf xs) (hk : p.Covers k) : k < xs.length := by
  obtain ⟨a, ha⟩ := data_getElem?_of_covers hk
  rw [h.getElem?_eq hk] at ha
  exact (List.getElem?_eq_some_iff.mp ha).1

theorem PartOf.stop_le (h : p.PartOf xs) (hne : p.data ≠ []) : p.stop ≤ xs.length := by
  have hpos := List.length_pos_iff.mpr hne
  have hlast : p.Covers (p.stop - 1) := by
    unfold Covers stop
    omega
  have := h.lt_length hlast
  omega

section Write

theorem write_of_nil (h : p.data = []) : p.write z file = file := by
  simp [write, h]

theorem write_of_ne_nil (h : p.data ≠ []) : p.write z file =
    (file ++ List.replicate (p.offset - file.length) z).take p.offset ++ p.data ++
      file.drop p.stop := by
  unfold write
  split
  · exact absurd ‹_› h
  · rfl

theorem length_write_le {n : ℕ} (hf : file.length ≤ n) (hp : p.data ≠ [] → p.stop ≤ n) :
    (p.write z file).length ≤ n := by
  by_cases h : p.data = []
  · rwa [write_of_nil h]
  · have hstop := hp h
    rw [write_of_ne_nil h]
    simp only [List.length_append, List.length_take, List.length_replicate, List.length_drop]
    unfold stop at *
    omega

theorem write_getElem?_of_covers (h : p.Covers k) :
    (p.write z file)[k]? = p.data[k - p.offset]? := by
  have hne : p.data ≠ [] := by
    rintro hnil
    simp only [Covers, stop, hnil, List.length_nil] at h
    omega
  unfold Covers stop at h
  have hlen : ((file ++ List.replicate (p.offset - file.length) z).take p.offset).length =
      p.offset := by
    simp only [List.length_take, List.length_append, List.length_replicate]
    omega
  rw [write_of_ne_nil hne, List.append_assoc, List.getElem?_append_right (by omega), hlen,
    List.getElem?_append_left (by omega)]

theorem write_getElem?_of_not_covers (h : ¬ p.Covers k) (hk : k < file.length) :
    (p.write z file)[k]? = file[k]? := by
  by_cases hne : p.data = []
  · rw [write_of_nil hne]
  · rw [write_of_ne_nil hne]
    unfold Covers stop at h
    have hlen : ((file ++ List.replicate (p.offset - file.length) z).take p.offset).length =
        p.offset := by
      simp only [List.length_take, List.length_append, List.length_replicate]
      omega
    by_cases hlt : k < p.offset
    · rw [List.append_assoc, List.getElem?_append_left (by omega), List.getElem?_take_of_lt hlt,
        List.getElem?_append_left hk]
    · rw [List.getElem?_append_right (by simp only [List.length_append]; omega),
        List.getElem?_drop]
      congr 1
      simp only [List.length_append, stop]
      omega

end Write

end Piece

open Piece

/-- The pieces are parts of the sequence, overlap nowhere and leave nothing out. -/
structure Tiles {α : Type*} (ps : List (Piece α)) (xs : List α) : Prop where
  part : ∀ p ∈ ps, p.PartOf xs
  cover : ∀ k < xs.length, ∃ p ∈ ps, p.Covers k
  apart : ps.Pairwise Apart

namespace Tiles

variable {α : Type*} {ps : List (Piece α)} {xs file : List α}

theorem writes_getElem? (z : α) (hpart : ∀ p ∈ ps, p.PartOf xs) (hf : file.length ≤ xs.length)
    {k : ℕ} (hk : file[k]? = xs[k]? ∨ ∃ p ∈ ps, p.Covers k) :
    (ps.foldl (fun file p => p.write z file) file)[k]? = xs[k]? := by
  induction ps generalizing file with
  | nil => simpa using hk
  | cons p ps ih =>
    rw [List.forall_mem_cons] at hpart
    rw [List.foldl_cons]
    refine ih hpart.2 (length_write_le hf hpart.1.stop_le) ?_
    by_cases hp : p.Covers k
    · exact Or.inl ((write_getElem?_of_covers hp).trans (hpart.1.getElem?_eq hp))
    · rcases hk with hk | ⟨q, hq, hqk⟩
      · left
        rcases Nat.lt_or_ge k file.length with hlt | hge
        · rw [write_getElem?_of_not_covers hp hlt, hk]
        · rw [List.getElem?_eq_none hge] at hk
          have hxs : xs.length ≤ k := List.getElem?_eq_none_iff.mp hk.symm
          have hlen := length_write_le (z := z) hf hpart.1.stop_le
          rw [← hk, List.getElem?_eq_none (Nat.le_trans hlen hxs)]
      · rcases List.mem_cons.mp hq with rfl | hq
        · exact absurd hqk hp
        · exact Or.inr ⟨q, hq, hqk⟩

theorem writes_eq (h : Tiles ps xs) (z : α) :
    ps.foldl (fun file p => p.write z file) [] = xs := by
  refine List.ext_getElem? fun k => writes_getElem? z h.part (Nat.zero_le _) ?_
  rcases Nat.lt_or_ge k xs.length with hlt | hge
  · exact Or.inr (h.cover k hlt)
  · left
    rw [List.getElem?_eq_none hge, List.getElem?_nil]

theorem perm {ps' : List (Piece α)} (h : Tiles ps xs) (hp : ps'.Perm ps) : Tiles ps' xs where
  part p hm := h.part p (hp.mem_iff.mp hm)
  cover k hk := by
    obtain ⟨p, hm, hc⟩ := h.cover k hk
    exact ⟨p, hp.mem_iff.mpr hm, hc⟩
  apart := (hp.pairwise_iff fun h => Apart.symm h).mpr h.apart

theorem writes_getElem?_of_apart (z : α) {k : ℕ} (hk : k < file.length)
    (h : ∀ p ∈ ps, ¬ p.Covers k) :
    (ps.foldl (fun file p => p.write z file) file)[k]? = file[k]? := by
  induction ps generalizing file with
  | nil => rfl
  | cons p ps ih =>
    rw [List.forall_mem_cons] at h
    have hsame := write_getElem?_of_not_covers (z := z) h.1 hk
    rw [List.getElem?_eq_getElem hk] at hsame
    rw [List.foldl_cons, ih (List.getElem?_eq_some_iff.mp hsame).1 h.2, hsame,
      List.getElem?_eq_getElem hk]

theorem length_writes_le (z : α) {n : ℕ} (hf : file.length ≤ n)
    (h : ∀ p ∈ ps, p.data ≠ [] → p.stop ≤ n) :
    (ps.foldl (fun file p => p.write z file) file).length ≤ n := by
  induction ps generalizing file with
  | nil => exact hf
  | cons p ps ih =>
    rw [List.forall_mem_cons] at h
    exact ih (length_write_le hf h.1) h.2

theorem partOf_writes (z : α) (h : ps.Pairwise Apart) :
    ∀ p ∈ ps, p.PartOf (ps.foldl (fun file p => p.write z file) file) := by
  induction ps generalizing file with
  | nil => simp
  | cons q ps ih =>
    rw [List.pairwise_cons] at h
    rintro p hp
    rcases List.mem_cons.mp hp with rfl | hp
    · intro i a ha
      have hlt := (List.getElem?_eq_some_iff.mp ha).1
      have hcov : p.Covers (p.offset + i) := by
        unfold Covers stop
        omega
      have hwritten : (p.write z file)[p.offset + i]? = some a := by
        rw [write_getElem?_of_covers hcov, Nat.add_sub_cancel_left, ha]
      rw [List.foldl_cons, writes_getElem?_of_apart z (List.getElem?_eq_some_iff.mp hwritten).1
        fun q hq => h.1 q hq _ hcov, hwritten]
    · exact ih h.2 p hp

theorem of_writes (z : α) {n : ℕ} (hapart : ps.Pairwise Apart)
    (hcover : ∀ k < n, ∃ p ∈ ps, p.Covers k) (hstop : ∀ p ∈ ps, p.data ≠ [] → p.stop ≤ n) :
    Tiles ps (ps.foldl (fun file p => p.write z file) []) where
  part := partOf_writes z hapart
  cover k hk := hcover k (Nat.lt_of_lt_of_le hk (length_writes_le z (Nat.zero_le n) hstop))
  apart := hapart

theorem length_eq (z : α) {n : ℕ} (h : Tiles ps xs)
    (hcover : ∀ k < n, ∃ p ∈ ps, p.Covers k)
    (hstop : ∀ p ∈ ps, p.data ≠ [] → p.stop ≤ n) : xs.length = n := by
  apply Nat.le_antisymm
  · rw [← h.writes_eq z]
    exact length_writes_le _ (Nat.zero_le n) hstop
  · by_contra hlt
    obtain ⟨p, hp, hk⟩ := hcover xs.length (by omega)
    exact absurd ((h.part p hp).lt_length hk) (Nat.lt_irrefl _)

end Tiles

namespace Piece

variable {α : Type*} {p : Piece α} {offset : ℕ} {ds : List (List α)}

theorem le_offset_of_mem_lay (h : p ∈ lay offset ds) : offset ≤ p.offset := by
  induction ds generalizing offset with
  | nil => simp [lay] at h
  | cons d ds ih =>
    rcases List.mem_cons.mp h with rfl | h
    · exact Nat.le_refl _
    · exact Nat.le_trans (Nat.le_add_right _ _) (ih h)

theorem pairwise_lay : (lay offset ds).Pairwise Apart := by
  induction ds generalizing offset with
  | nil => exact List.Pairwise.nil
  | cons d ds ih =>
    refine List.Pairwise.cons (fun q hq => ?_) ih
    exact apart_iff.mpr (Or.inr (Or.inr (Or.inl (le_offset_of_mem_lay hq))))

theorem covers_lay {k : ℕ} (hlo : offset ≤ k) (hhi : k < offset + ds.flatten.length) :
    ∃ p ∈ lay offset ds, p.Covers k := by
  induction ds generalizing offset with
  | nil => simp at hhi; omega
  | cons d ds ih =>
    rw [List.flatten_cons, List.length_append] at hhi
    rcases Nat.lt_or_ge k (offset + d.length) with hlt | hge
    · exact ⟨_, List.mem_cons_self, hlo, hlt⟩
    · obtain ⟨p, hp, hk⟩ := ih hge (by omega)
      exact ⟨p, List.mem_cons_of_mem _ hp, hk⟩

theorem partOf_lay (front : List α) (h : p ∈ lay front.length ds) :
    p.PartOf (front ++ ds.flatten) := by
  induction ds generalizing front with
  | nil => simp [lay] at h
  | cons d ds ih =>
    rcases List.mem_cons.mp h with rfl | h
    · intro i a ha
      have hlt := (List.getElem?_eq_some_iff.mp ha).1
      rw [List.getElem?_append_right (Nat.le_add_right _ _), Nat.add_sub_cancel_left,
        List.flatten_cons, List.getElem?_append_left hlt, ha]
    · rw [← List.length_append] at h
      rw [List.flatten_cons, ← List.append_assoc]
      exact ih _ h

theorem tiles_lay : Tiles (lay 0 ds) ds.flatten where
  part p hp := partOf_lay [] hp
  cover k hk := covers_lay (Nat.zero_le k) (by omega)
  apart := pairwise_lay

end Piece

end DistLab
