import Mathlib.Data.List.Nodup
import DistLab.Systems.Pieces

/-! # Distribution in pieces

A server splits a file into as many pieces as there are peers and hands one to each.
A peer writes its own piece into a fresh file, fetches the others from their owners and
writes each at its offset. The pieces tile the file, so that every peer ends with it.
-/

namespace DistLab.P2P

abbrev Byte := UInt8

structure Header where
  offset : ℕ
  dataSize : ℕ
deriving DecidableEq

/-- What the server and the peers send: a header and the bytes it announces. -/
structure Message where
  header : Header
  data : List Byte
deriving DecidableEq

/-- `CEIL_DIV`, with the division of C. -/
def ceilDiv (a b : ℤ) : ℤ := (a - 1).tdiv b + 1

def partSize (fileSize peerN : ℕ) : ℕ := (ceilDiv fileSize peerN).toNat

def work (file : List Byte) (partSize offset : ℕ) : Message :=
  let buf := (file.drop offset).take partSize
  ⟨⟨offset, buf.length⟩, buf⟩

def Message.piece (m : Message) : Piece Byte := ⟨m.header.offset, m.data.take m.header.dataSize⟩

def receive (m : Message) : List Byte := m.piece.write 0 []

/-- The loop over the lines of the tracer: the offset of a line, and what its peer sends. -/
def request (myOffset : ℕ) (objFile : List Byte) : List (ℕ × Message) → Option (List Byte)
  | [] => some objFile
  | (offset, m) :: lines =>
    if offset = myOffset then request myOffset objFile lines
    else if m.header.offset = offset then request myOffset (m.piece.write 0 objFile) lines
    else none

section Tiling

variable {file : List Byte} {peerN i k : ℕ}

theorem partSize_eq (hf : 1 ≤ file.length) :
    partSize file.length peerN = (file.length - 1) / peerN + 1 := by
  have hpred : (file.length : ℤ) - 1 = ((file.length - 1 : ℕ) : ℤ) := by omega
  rw [partSize, ceilDiv, hpred, ← Int.ofNat_tdiv]
  rfl

theorem partSize_pos (hf : 1 ≤ file.length) : 0 < partSize file.length peerN := by
  rw [partSize_eq hf]
  exact Nat.succ_pos _

theorem length_le_mul (hf : 1 ≤ file.length) (hn : 1 ≤ peerN) :
    file.length ≤ peerN * partSize file.length peerN := by
  have hdiv := Nat.div_add_mod (file.length - 1) peerN
  have hmod := Nat.mod_lt (file.length - 1) hn
  rw [partSize_eq hf, Nat.mul_add, Nat.mul_one]
  omega

variable (file peerN) in
def piece (i : ℕ) : Piece Byte :=
  (work file (partSize file.length peerN) (i * partSize file.length peerN)).piece

theorem piece_eq : piece file peerN i = ⟨i * partSize file.length peerN,
    (file.drop (i * partSize file.length peerN)).take (partSize file.length peerN)⟩ := by
  simp only [piece, work, Message.piece, List.take_length]

theorem covers_iff (hf : 1 ≤ file.length) : (piece file peerN i).Covers k ↔
    k < file.length ∧ k / partSize file.length peerN = i := by
  have hpos : 0 < partSize file.length peerN := partSize_pos hf
  have hdiv : k / partSize file.length peerN = i ↔ i * partSize file.length peerN ≤ k ∧
      k < i * partSize file.length peerN + partSize file.length peerN := by
    rw [Nat.div_eq_iff hpos]
    omega
  rw [hdiv, piece_eq, Piece.Covers, Piece.stop]
  simp only [List.length_take, List.length_drop]
  omega

theorem partOf : (piece file peerN i).PartOf file := by
  intro k a h
  rw [piece_eq] at h ⊢
  rw [List.getElem?_take] at h
  split_ifs at h
  rwa [List.getElem?_drop] at h

theorem piece_ne (hf : 1 ≤ file.length) (h : i ≠ k) :
    (piece file peerN i).offset ≠ (piece file peerN k).offset := by
  simp only [piece_eq]
  exact fun he => h (Nat.eq_of_mul_eq_mul_right (partSize_pos hf) he)

theorem apart (hf : 1 ≤ file.length) (h : i ≠ k) :
    (piece file peerN i).Apart (piece file peerN k) := by
  intro l hi hk
  exact h (((covers_iff hf).mp hi).2.symm.trans ((covers_iff hf).mp hk).2)

/-- The pieces of all peers, in any order, tile the file. -/
theorem tiles (hf : 1 ≤ file.length) (hn : 1 ≤ peerN) {order : List ℕ}
    (ho : order.Perm (List.range peerN)) : Tiles (order.map (piece file peerN)) file := by
  refine Tiles.perm ⟨?_, fun k hk => ?_, ?_⟩ (ho.map _)
  · simp only [List.mem_map]
    rintro p ⟨i, -, rfl⟩
    exact partOf
  · have hlt : k / partSize file.length peerN < peerN := by
      rw [Nat.div_lt_iff_lt_mul (partSize_pos hf)]
      exact Nat.lt_of_lt_of_le hk (length_le_mul hf hn)
    exact ⟨_, List.mem_map.mpr ⟨_, List.mem_range.mpr hlt, rfl⟩, (covers_iff hf).mpr ⟨hk, rfl⟩⟩
  · rw [List.pairwise_map]
    exact List.nodup_range.imp fun h => apart hf h

end Tiling

section Requests

variable {file : List Byte} {peerN i : ℕ}

def line (file : List Byte) (peerN k : ℕ) : ℕ × Message :=
  (k * partSize file.length peerN,
    work file (partSize file.length peerN) (k * partSize file.length peerN))

theorem request_lines (hf : 1 ≤ file.length) {lines : List ℕ} {objFile : List Byte} :
    request (i * partSize file.length peerN) objFile (lines.map (line file peerN)) =
      some (((lines.filter (· != i)).map (piece file peerN)).foldl
        (fun objFile p => p.write 0 objFile) objFile) := by
  induction lines generalizing objFile with
  | nil => rfl
  | cons k lines ih =>
    rw [List.map_cons, line, request]
    by_cases hk : k = i
    · simp [hk, ih]
    · have hne : k * partSize file.length peerN ≠ i * partSize file.length peerN :=
        fun he => hk (Nat.eq_of_mul_eq_mul_right (partSize_pos hf) he)
      rw [if_neg hne, if_pos (by rfl), ih]
      simp [hk, piece]

/-- The pieces are apart, have different offsets and cover the file; and every peer that writes
its own piece into a fresh file and then those of the others, in any order, has the file. -/
theorem peers_rebuild (file : List Byte) (hf : 1 ≤ file.length) (hn : 1 ≤ peerN) :
    (∀ i < peerN, ∀ k < peerN, i ≠ k → (piece file peerN i).Apart (piece file peerN k) ∧
      (piece file peerN i).offset ≠ (piece file peerN k).offset) ∧
    (∀ i < peerN, (piece file peerN i).PartOf file) ∧
    (∀ l < file.length, ∃ i < peerN, (piece file peerN i).Covers l) ∧
    ∀ i < peerN, ∀ order : List ℕ, order.Perm (List.range peerN) →
      request (i * partSize file.length peerN) (receive (line file peerN i).2)
        (order.map (line file peerN)) = some file := by
  refine ⟨fun i _ k _ hik => ⟨apart hf hik, piece_ne hf hik⟩, fun _ _ => partOf, fun l hl => ?_,
    fun i hi order ho => ?_⟩
  · obtain ⟨p, hp, hl⟩ := (tiles hf hn (.refl _)).cover l hl
    obtain ⟨i, hi, rfl⟩ := List.mem_map.mp hp
    exact ⟨i, List.mem_range.mp hi, hl⟩
  · have hmem : i ∈ order := ho.mem_iff.mpr (List.mem_range.mpr hi)
    have hnodup : order.Nodup := ho.nodup_iff.mpr List.nodup_range
    have hperm : (i :: order.filter (· != i)).Perm (List.range peerN) := by
      rw [← hnodup.erase_eq_filter]
      exact (List.perm_cons_erase hmem).symm.trans ho
    rw [request_lines hf]
    exact congrArg some ((tiles hf hn hperm).writes_eq 0)

theorem peers_rebuild_four :
    request 2 (receive (line [1, 2, 3, 4, 5] 4 1).2) ([3, 0, 1, 2].map (line [1, 2, 3, 4, 5] 4)) =
      some [1, 2, 3, 4, 5] :=
  (peers_rebuild [1, 2, 3, 4, 5] (by decide) (by decide)).2.2.2 1 (by decide) [3, 0, 1, 2]
    (by decide)

end Requests

end DistLab.P2P
