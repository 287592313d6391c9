import Mathlib.Data.Nat.ModEq
import Mathlib.Algebra.BigOperators.Group.List.Basic
import Mathlib.Algebra.GroupWithZero.Nat

/-! # One's complement sums

Addition with an end-around carry on the numbers up to `M`, where a carry out of the top
is worth one. It is addition modulo `M` with two representations of zero: a sum of
numbers is `0` only when all of them are, and `M` when it is another multiple of `M`.
-/

namespace DistLab

variable {M v w m n : ℕ} {ws : List ℕ}

def onesAdd (M a b : ℕ) : ℕ := if a + b ≤ M then a + b else a + b - M

def onesSum (M : ℕ) (ws : List ℕ) : ℕ := ws.foldl (onesAdd M) 0

/-- The number up to `M` that stands for `n`. -/
structure OnesRep (M v n : ℕ) : Prop where
  le : v ≤ M
  modEq : v ≡ n [MOD M]
  zero_iff : v = 0 ↔ n = 0

namespace OnesRep

theorem refl (h : n ≤ M) : OnesRep M n n := ⟨h, rfl, Iff.rfl⟩

theorem zero : OnesRep M 0 0 := refl (Nat.zero_le M)

theorem add (h : OnesRep M v n) (h' : OnesRep M w m) : OnesRep M (onesAdd M v w) (n + m) := by
  have hmod := h.modEq.add h'.modEq
  have hv := h.le
  have hw := h'.le
  have hzero := h.zero_iff
  have hzero' := h'.zero_iff
  unfold onesAdd
  split
  case isTrue hle => exact ⟨hle, hmod, by omega⟩
  case isFalse hgt =>
    constructor
    · omega
    · apply Nat.ModEq.trans _ hmod
      rw [← Nat.ModEq.add_iff_right (Nat.ModEq.refl M), Nat.sub_add_cancel (by omega)]
      exact (Nat.add_modEq_right).symm
    · omega

theorem eq_top_iff (h : OnesRep M v n) (hM : 0 < M) : v = M ↔ M ∣ n ∧ n ≠ 0 := by
  have hdvd : M ∣ v ↔ M ∣ n := h.modEq.dvd_iff dvd_rfl
  constructor
  · rintro rfl
    exact ⟨hdvd.mp dvd_rfl, fun hn => hM.ne' (h.zero_iff.mpr hn)⟩
  · rintro ⟨hn, hne⟩
    have hpos : 0 < v := Nat.pos_of_ne_zero fun hv => hne (h.zero_iff.mp hv)
    exact le_antisymm h.le (Nat.le_of_dvd hpos (hdvd.mpr hn))

theorem eq (h : OnesRep M v n) (h' : OnesRep M w n) (hM : 0 < M) : v = w := by
  by_cases htop : M ∣ n ∧ n ≠ 0
  · rw [(h.eq_top_iff hM).mpr htop, (h'.eq_top_iff hM).mpr htop]
  · apply (h.modEq.trans h'.modEq.symm).eq_of_lt_of_lt
    · exact lt_of_le_of_ne h.le fun hv => htop ((h.eq_top_iff hM).mp hv)
    · exact lt_of_le_of_ne h'.le fun hw => htop ((h'.eq_top_iff hM).mp hw)

theorem foldl (h : OnesRep M v n) (hws : ∀ w ∈ ws, w ≤ M) :
    OnesRep M (ws.foldl (onesAdd M) v) (n + ws.sum) := by
  induction ws generalizing v n with
  | nil => exact h
  | cons w ws ih =>
    rw [List.forall_mem_cons] at hws
    rw [List.sum_cons, ← Nat.add_assoc]
    exact ih (h.add (refl hws.1)) hws.2

theorem sum (hws : ∀ w ∈ ws, w ≤ M) : OnesRep M (onesSum M ws) ws.sum := by
  have h := zero.foldl hws
  rwa [Nat.zero_add] at h

end OnesRep

theorem onesSum_eq_top_iff (hM : 0 < M) (hws : ∀ w ∈ ws, w ≤ M) :
    onesSum M ws = M ↔ M ∣ ws.sum ∧ ws.sum ≠ 0 :=
  (OnesRep.sum hws).eq_top_iff hM

end DistLab
