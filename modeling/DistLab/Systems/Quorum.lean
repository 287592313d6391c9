import Mathlib.Data.Finset.Card
import Mathlib.Data.Fintype.Card
import Mathlib.Data.List.Sort
import Mathlib.Order.Bounds.Basic

/-! # Majorities of a finite type

A set with more than half of the elements and one with at least half of them
share an element. The values of a family in ascending order tell how many members
reach a bound: half of them the middle one.
-/

namespace DistLab

variable {α : Type*} [Fintype α]

def Majority (s : Finset α) : Prop := Fintype.card α < 2 * s.card

/-- At least half of the elements. -/
def Half (s : Finset α) : Prop := Fintype.card α ≤ 2 * s.card

instance (s : Finset α) : Decidable (Majority s) := inferInstanceAs (Decidable (_ < _))

theorem Majority.half {s : Finset α} (h : Majority s) : Half s := le_of_lt h

theorem Majority.nonempty {s : Finset α} (h : Majority s) : s.Nonempty := by
  unfold Majority at h
  exact Finset.card_pos.mp (by omega)

theorem Half.nonempty [Nonempty α] {s : Finset α} (h : Half s) : s.Nonempty := by
  have hpos : 0 < Fintype.card α := Fintype.card_pos
  unfold Half at h
  exact Finset.card_pos.mp (by omega)

theorem Majority.mono {s t : Finset α} (h : Majority s) (hs : s ⊆ t) : Majority t := by
  have := Finset.card_le_card hs
  unfold Majority at *
  omega

theorem Majority.exists_mem_both [DecidableEq α] {s t : Finset α} (hs : Majority s) (ht : Half t) :
    ∃ a, a ∈ s ∧ a ∈ t := by
  have hlt : (Finset.univ : Finset α).card < s.card + t.card := by
    unfold Majority at hs
    unfold Half at ht
    rw [Finset.card_univ]
    omega
  obtain ⟨a, ha⟩ := Finset.inter_nonempty_of_card_lt_card_add_card (Finset.subset_univ s)
    (Finset.subset_univ t) hlt
  exact ⟨a, Finset.mem_inter.mp ha⟩

theorem countP_ofFn {n : ℕ} (f : Fin n → ℕ) (c : ℕ) :
    (List.ofFn f).countP (c ≤ ·) = (Finset.univ.filter fun i => c ≤ f i).card := by
  rw [List.ofFn_eq_map, List.countP_map, List.countP_eq_length_filter]
  rfl

theorem le_iff_countP {l : List ℕ} {k c : ℕ} (hs : l.Pairwise (· ≤ ·)) (hk : l[k]? = some c)
    (N : ℕ) : N ≤ c ↔ l.length - k ≤ l.countP (N ≤ ·) := by
  obtain ⟨hlt, hc⟩ := List.getElem?_eq_some_iff.mp hk
  have hsplit : l.countP (N ≤ ·) = (l.take k).countP (N ≤ ·) + (l.drop k).countP (N ≤ ·) := by
    rw [← List.countP_append, List.take_append_drop]
  have hdrop : l.drop k = c :: l.drop (k + 1) := by rw [List.drop_eq_getElem_cons hlt, hc]
  have hs' : (l.take k ++ c :: l.drop (k + 1)).Pairwise (· ≤ ·) := by
    rwa [← hdrop, List.take_append_drop]
  rw [List.pairwise_append, List.pairwise_cons] at hs'
  obtain ⟨-, ⟨hafter, -⟩, hbefore⟩ := hs'
  constructor
  · intro hN
    have hall : (l.drop k).countP (N ≤ ·) = (l.drop k).length := by
      rw [List.countP_eq_length, hdrop]
      intro x hx
      rcases List.mem_cons.mp hx with rfl | hx
      · simpa using hN
      · simpa using hN.trans (hafter x hx)
    rw [hsplit, hall, List.length_drop]
    omega
  · intro hcount
    by_contra hN
    have hnone : (l.take k).countP (N ≤ ·) = 0 := by
      rw [List.countP_eq_zero]
      intro x hx
      have hx' : x ≤ c := hbefore x hx c List.mem_cons_self
      simp only [decide_eq_true_eq]
      omega
    have hrest := List.countP_le_length (p := fun x => decide (N ≤ x)) (l := l.drop (k + 1))
    rw [hsplit, hnone, hdrop, List.countP_cons_of_neg (by simpa using hN)] at hcount
    rw [List.length_drop] at hrest
    omega

section Sorted

variable {n : ℕ} {f : Fin n → ℕ} {k c : ℕ}

/-- The values of a family in ascending order: the one at a place is reached by all members from
that place on, and no larger bound is. -/
theorem le_iff_card (h : ((List.ofFn f).insertionSort (· ≤ ·))[k]? = some c) (N : ℕ) :
    N ≤ c ↔ n - k ≤ (Finset.univ.filter fun i => N ≤ f i).card := by
  have hperm := (List.perm_insertionSort (· ≤ ·) (List.ofFn f)).countP_eq (N ≤ ·)
  rw [← countP_ofFn, ← hperm, le_iff_countP (List.pairwise_insertionSort (· ≤ ·) _) h]
  simp

theorem half_of_median (h : ((List.ofFn f).insertionSort (· ≤ ·))[n / 2]? = some c) :
    Half (Finset.univ.filter fun i => c ≤ f i) := by
  have hcard := (le_iff_card h c).mp le_rfl
  rw [Half, Fintype.card_fin]
  omega

/-- The middle element is the largest bound that more than half of the members reach exactly when
no bound is reached by just half of them. -/
theorem isGreatest_median_iff (h : ((List.ofFn f).insertionSort (· ≤ ·))[n / 2]? = some c) :
    IsGreatest {N | n / 2 < (Finset.univ.filter fun i => N ≤ f i).card} c ↔
      ∀ N, 2 * (Finset.univ.filter fun i => N ≤ f i).card ≠ n := by
  have hc := (le_iff_card h c).mp le_rfl
  constructor
  · rintro ⟨hmem, -⟩ N hN
    rw [Set.mem_ofPred_eq] at hmem
    have hle : N ≤ c := (le_iff_card h N).mpr (by omega)
    have hcard : (Finset.univ.filter fun i => c ≤ f i).card ≤
        (Finset.univ.filter fun i => N ≤ f i).card :=
      Finset.card_le_card (Finset.monotone_filter_right _ fun _ _ hi => hle.trans hi)
    omega
  · intro hno
    constructor
    · have hne := hno c
      rw [Set.mem_ofPred_eq]
      omega
    · intro N hN
      rw [Set.mem_ofPred_eq] at hN
      exact (le_iff_card h N).mpr (by omega)

end Sorted

end DistLab
