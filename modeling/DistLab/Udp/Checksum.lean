import DistLab.Systems.OnesComplement
import DistLab.Udp.Packet
import Mathlib.Algebra.Group.Nat.Even

/-! # The checksum loop

The loop folds after every word, so that its accumulator stays in 16 bits and no carry is
lost: the checksum is the one's complement sum of the little-endian words. Checksums of
pieces add up to the checksum of the whole if the pieces before the last have even length.
-/

namespace DistLab.Udp

variable {s n : ℕ} {bs cs : List Byte}

/-- The 16-bit words of a buffer, with weights for the first and the second byte of a word; an odd
byte at the end is the first byte of the last word. -/
def wordsOf (x y : ℕ) : List Byte → List ℕ
  | [] => []
  | [b] => [x * b.toNat]
  | b :: c :: rest => (x * b.toNat + y * c.toNat) :: wordsOf x y rest

def leWords (bs : List Byte) : List ℕ := wordsOf 1 256 bs

def folds (sum : ℕ) : List Byte → List ℕ
  | [] => []
  | [b] => [fold16 ((sum + b.toNat) % 2 ^ 32)]
  | lo :: hi :: rest =>
    fold16 ((sum + (lo.toNat + 256 * hi.toNat)) % 2 ^ 32) ::
      folds (fold16 ((sum + (lo.toNat + 256 * hi.toNat)) % 2 ^ 32)) rest

section Words

variable {x y : ℕ}

theorem word_le (h : x + y ≤ 257) (b c : Byte) : x * b.toNat + y * c.toNat ≤ 0xFFFF := by
  have hb : b.toNat ≤ 255 := Nat.le_of_lt_succ b.toNat_lt
  have hc : c.toNat ≤ 255 := Nat.le_of_lt_succ c.toNat_lt
  calc x * b.toNat + y * c.toNat
      ≤ x * 255 + y * 255 := Nat.add_le_add (Nat.mul_le_mul_left x hb) (Nat.mul_le_mul_left y hc)
    _ = (x + y) * 255 := (Nat.add_mul x y 255).symm
    _ ≤ 257 * 255 := Nat.mul_le_mul_right 255 h

theorem wordsOf_le (h : x + y ≤ 257) : ∀ w ∈ wordsOf x y bs, w ≤ 0xFFFF := by
  fun_induction wordsOf x y bs with
  | case1 => simp
  | case2 b => simpa using word_le h b 0
  | case3 b c rest ih =>
    rw [List.forall_mem_cons]
    exact ⟨word_le h b c, ih⟩

theorem wordsOf_sum_eq_zero (hx : x ≠ 0) (hy : y ≠ 0) :
    (wordsOf x y bs).sum = 0 ↔ ∀ b ∈ bs, b = 0 := by
  have hzero : ∀ b : Byte, b.toNat = 0 ↔ b = 0 := fun b => UInt8.toNat_inj (b := 0)
  fun_induction wordsOf x y bs with
  | case1 => simp
  | case2 b => simp [hx, hzero]
  | case3 b c rest ih => simp [ih, hx, hy, hzero, and_assoc]

theorem wordsOf_append (h : Even bs.length) :
    wordsOf x y (bs ++ cs) = wordsOf x y bs ++ wordsOf x y cs := by
  fun_induction wordsOf x y bs with
  | case1 => rfl
  | case2 b => exact absurd h Nat.not_even_one
  | case3 b c rest ih =>
    have hrest : Even rest.length := by
      rwa [List.length_cons, List.length_cons, Nat.even_add_one, Nat.even_add_one, not_not] at h
    rw [List.cons_append, List.cons_append, wordsOf, List.cons_append, ih hrest]

end Words

theorem fold16_add {a b : ℕ} (ha : a ≤ 0xFFFF) (hb : b ≤ 0xFFFF) :
    fold16 (a + b) = onesAdd 0xFFFF a b := by
  unfold fold16 onesAdd
  split <;> omega

theorem fold_word {w : ℕ} (h : OnesRep 0xFFFF s n) (hw : w ≤ 0xFFFF) :
    OnesRep 0xFFFF (fold16 ((s + w) % 2 ^ 32)) (n + w) := by
  have hs := h.le
  rw [Nat.mod_eq_of_lt (by omega), fold16_add hs hw]
  exact h.add (.refl hw)

theorem fold_bytes (h : OnesRep 0xFFFF s n) (lo hi : Byte) :
    OnesRep 0xFFFF (fold16 ((s + (lo.toNat + 256 * hi.toNat)) % 2 ^ 32))
      (n + (lo.toNat + 256 * hi.toNat)) := by
  apply fold_word h
  have := lo.toNat_lt
  have := hi.toNat_lt
  omega

theorem fold_last (h : OnesRep 0xFFFF s n) (b : Byte) :
    OnesRep 0xFFFF (fold16 ((s + b.toNat) % 2 ^ 32)) (n + b.toNat) := by
  apply fold_word h
  have := b.toNat_lt
  omega

/-- The invariant of the loop: the accumulator stands for the sum of the words so far. -/
theorem checksumLoop_rep (bs : List Byte) (h : OnesRep 0xFFFF s n) :
    OnesRep 0xFFFF (checksumLoop s bs) (n + (leWords bs).sum) := by
  fun_induction checksumLoop s bs generalizing n with
  | case1 => exact h
  | case2 s b =>
    rw [leWords, wordsOf, List.sum_singleton, Nat.one_mul]
    exact fold_last h b
  | case3 s lo hi rest ih =>
    rw [leWords, wordsOf, List.sum_cons, Nat.one_mul, ← Nat.add_assoc n]
    exact ih (fold_bytes h lo hi)

theorem folds_le (h : OnesRep 0xFFFF s n) : ∀ v ∈ folds s bs, v ≤ 0xFFFF := by
  fun_induction folds s bs generalizing n with
  | case1 => simp
  | case2 s b =>
    rw [List.forall_mem_singleton]
    exact (fold_last h b).le
  | case3 s lo hi rest ih =>
    have hfold := fold_bytes h lo hi
    rw [List.forall_mem_cons]
    exact ⟨hfold.le, ih hfold⟩

theorem checksumLoop_eq_last : checksumLoop s bs = (folds s bs).getLastD s := by
  fun_induction folds s bs with
  | case1 => rfl
  | case2 => rfl
  | case3 s lo hi rest ih => rw [checksumLoop, ih, List.getLastD_cons]

theorem checksum_eq_loop : checksum bs = checksumLoop 0 bs := by
  have := (checksumLoop_rep bs .zero).le
  exact Nat.mod_eq_of_lt (by omega)

theorem checksum_rep (bs : List Byte) : OnesRep 0xFFFF (checksum bs) (leWords bs).sum := by
  have h := checksumLoop_rep bs .zero
  rwa [Nat.zero_add, ← checksum_eq_loop] at h

theorem checksum_append (h : Even bs.length) :
    checksum (bs ++ cs) = fold16 (checksum bs + checksum cs) := by
  have hwhole := checksum_rep (bs ++ cs)
  rw [leWords, wordsOf_append h, List.sum_append] at hwhole
  rw [fold16_add (checksum_rep bs).le (checksum_rep cs).le]
  exact hwhole.eq ((checksum_rep bs).add (checksum_rep cs)) (by decide)

/-- The loop computes the one's complement sum of the words without losing a carry. -/
theorem checksum_ones_sum (bs : List Byte) :
    checksum bs = onesSum 0xFFFF (leWords bs) ∧
    ((∀ v ∈ folds 0 bs, v ≤ 0xFFFF) ∧ checksum bs = (folds 0 bs).getLastD 0) ∧
    checksum bs ≡ (leWords bs).sum [MOD 65535] ∧
    (checksum bs = 0 ↔ ∀ b ∈ bs, b = 0) ∧
    (Even bs.length → ∀ cs, checksum (bs ++ cs) = fold16 (checksum bs + checksum cs)) := by
  have hrep := checksum_rep bs
  refine ⟨?_, ⟨folds_le .zero, ?_⟩, hrep.modEq, ?_, fun h cs => checksum_append h⟩
  · exact hrep.eq (OnesRep.sum (wordsOf_le (by decide))) (by decide)
  · rw [checksum_eq_loop, checksumLoop_eq_last]
  · rw [hrep.zero_iff, leWords, wordsOf_sum_eq_zero (by decide) (by decide)]

end DistLab.Udp
