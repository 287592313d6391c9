import Mathlib.Data.List.Basic
import Mathlib.Algebra.GroupWithZero.Nat

/-! # The bit set

Translation of `bitset.go`. A set of positions in words of 64 bits; an index beyond the last
word is a failure. Sets with the same words have the same positions and the same hash, and
clearing a position that was set undoes the setting.
-/

namespace DistLab.Linearizability

abbrev Word := BitVec 64

structure Bitset where
  words : List Word
deriving DecidableEq, Repr

def bit (pos : ℕ) : Word := 1#64 <<< (pos % 64)

namespace Bitset

def newBitset (bits : ℕ) : Bitset :=
  ⟨List.replicate (bits / 64 + if bits % 64 ≠ 0 then 1 else 0) 0⟩

variable (b b' : Bitset) (pos q : ℕ)

def set : Option Bitset :=
  b.words[pos / 64]?.map fun w => ⟨b.words.set (pos / 64) (w ||| bit pos)⟩

def clear : Option Bitset :=
  b.words[pos / 64]?.map fun w => ⟨b.words.set (pos / 64) (w &&& ~~~bit pos)⟩

def get : Option Bool := b.words[pos / 64]?.map fun w => w &&& bit pos != 0

/-- The number of bits of a word, added up in parallel. -/
def popcntWord (v : Word) : ℕ :=
  let v := (v &&& 0x5555555555555555#64) + ((v &&& 0xAAAAAAAAAAAAAAAA#64) >>> 1)
  let v := (v &&& 0x3333333333333333#64) + ((v &&& 0xCCCCCCCCCCCCCCCC#64) >>> 2)
  let v := (v &&& 0x0F0F0F0F0F0F0F0F#64) + ((v &&& 0xF0F0F0F0F0F0F0F0#64) >>> 4)
  let v := v * 0x0101010101010101#64
  ((v >>> 56) &&& 0xFF#64).toNat

def popcnt : ℕ := (b.words.map popcntWord).sum

def hash : Word := b.words.foldl (· ^^^ ·) (BitVec.ofNat 64 b.popcnt)

def equals : Bool :=
  b.words.length == b'.words.length && (b.words.zip b'.words).all fun x => x.1 == x.2

def Has (pos : ℕ) : Prop := ∃ w ∈ b.words[pos / 64]?, w.getLsbD (pos % 64) = true

variable {b b' pos q}

theorem equals_iff : b.equals b' = true ↔ b = b' := by
  obtain ⟨ws⟩ := b
  obtain ⟨ws'⟩ := b'
  simp only [equals, Bool.and_eq_true, beq_iff_eq, mk.injEq]
  induction ws generalizing ws' with
  | nil => cases ws' <;> simp
  | cons w ws ih =>
    cases ws' with
    | nil => simp
    | cons w' ws' =>
      simp only [List.length_cons, Nat.add_right_cancel_iff, List.zip_cons_cons, List.all_cons,
        Bool.and_eq_true, beq_iff_eq, List.cons.injEq, ← ih]
      exact and_left_comm

theorem getLsbD_bit (pos : ℕ) {j : ℕ} (hj : j < 64) :
    (bit pos).getLsbD j = decide (j = pos % 64) := by
  have hpos : pos % 64 < 64 := Nat.mod_lt _ (by decide)
  rw [Bool.eq_iff_iff]
  simp only [bit, BitVec.getLsbD_shiftLeft, BitVec.getLsbD_one, Bool.and_eq_true, decide_eq_true_eq,
    Bool.not_eq_true', decide_eq_false_iff_not]
  omega

theorem get_eq_some_true : b.get pos = some true ↔ b.Has pos := by
  have hbit : ∀ w : Word, w &&& bit pos ≠ 0 ↔ w.getLsbD (pos % 64) = true := by
    intro w
    have hpos : pos % 64 < 64 := Nat.mod_lt _ (by decide)
    constructor
    · intro hne
      by_contra hoff
      refine hne (BitVec.eq_of_getLsbD_eq fun j hj => ?_)
      rw [BitVec.getLsbD_and, getLsbD_bit pos hj]
      by_cases he : j = pos % 64
      · simpa [he] using hoff
      · simp [he]
    · intro hon hz
      have hget := congrArg (·.getLsbD (pos % 64)) hz
      simp [hon, getLsbD_bit pos hpos] at hget
  simp only [get, Has, Option.map_eq_some_iff, bne_iff_ne, hbit]
  rfl

instance : Decidable (b.Has pos) := decidable_of_iff _ get_eq_some_true

theorem not_has_newBitset (bits : ℕ) : ¬ (newBitset bits).Has pos := by
  rintro ⟨w, hw, hbit⟩
  obtain rfl : w = 0 := List.eq_of_mem_replicate (List.mem_of_getElem? hw)
  simp at hbit

theorem exists_set (h : pos / 64 < b.words.length) (hn : ¬ b.Has pos) :
    ∃ b', b.set pos = some b' ∧ b'.words.length = b.words.length ∧
      (∀ q, b'.Has q ↔ q = pos ∨ b.Has q) ∧ b'.clear pos = some b := by
  obtain ⟨ws⟩ := b
  have hget : ws[pos / 64]? = some ws[pos / 64] := List.getElem?_eq_getElem h
  have hmod : ∀ q, q % 64 < 64 := fun q => Nat.mod_lt _ (by decide)
  have hoff : ws[pos / 64].getLsbD (pos % 64) = false := by
    rw [← Bool.not_eq_true]
    exact fun hon => hn ⟨_, hget, hon⟩
  refine ⟨⟨ws.set (pos / 64) (ws[pos / 64] ||| bit pos)⟩, by simp [set, hget], by simp, ?_, ?_⟩
  · intro q
    by_cases hq : q / 64 = pos / 64
    · have hpos : q % 64 = pos % 64 ↔ q = pos := by omega
      simp [Has, hq, h, getLsbD_bit pos (hmod q), hpos, or_comm]
    · have hpos : q ≠ pos := fun he => hq (he ▸ rfl)
      simp [Has, hpos, List.getElem?_set_ne (Ne.symm hq)]
  · have hword : (ws[pos / 64] ||| bit pos) &&& ~~~bit pos = ws[pos / 64] := by
      apply BitVec.eq_of_getLsbD_eq
      intro j hj
      rw [BitVec.getLsbD_and, BitVec.getLsbD_or, BitVec.getLsbD_not, getLsbD_bit pos hj]
      by_cases he : j = pos % 64
      · simp [he, hoff]
      · simp [he, hj]
    simp [clear, h, hword]

end Bitset

end DistLab.Linearizability
