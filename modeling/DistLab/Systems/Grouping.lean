import Mathlib.Data.List.Sort
import Mathlib.Data.List.Perm.Basic

/-! # Grouping by key

A loop over a list that is sorted by key collects the values of each key and closes a
group when the key changes. It yields one group for each key, in strictly increasing
order, with all the values of the key.
-/

namespace DistLab

variable {α κ ω : Type*} [LinearOrder κ] (key : α → κ) (val : α → ω)

def valuesOf (k : κ) (l : List α) : List ω := (l.filter (key · = k)).map val

/-- The groups that are closed from a current key and the values it has so far. -/
def groups (cur : κ) (vals : List ω) : List α → List (κ × List ω)
  | [] => [(cur, vals)]
  | a :: l =>
    if cur = key a then groups cur (vals ++ [val a]) l
    else (cur, vals) :: groups (key a) [val a] l

variable {key val} {k cur : κ} {a : α} {l l' : List α}

theorem valuesOf_cons : valuesOf key val k (a :: l) =
    (if key a = k then [val a] else []) ++ valuesOf key val k l := by
  by_cases h : key a = k <;> simp [valuesOf, h]

theorem valuesOf_perm (h : l.Perm l') : (valuesOf key val k l).Perm (valuesOf key val k l') :=
  (h.filter _).map _

theorem valuesOf_eq_nil (h : ∀ a ∈ l, key a ≠ k) : valuesOf key val k l = [] := by
  rw [valuesOf, List.filter_eq_nil_iff.mpr (by simpa using h), List.map_nil]

theorem valuesOf_filter {p : α → Bool} (h : ∀ a ∈ l, key a = k → p a = true) :
    valuesOf key val k (l.filter p) = valuesOf key val k l := by
  rw [valuesOf, valuesOf, List.filter_filter]
  congr 1
  refine List.filter_congr fun a ha => ?_
  by_cases hk : key a = k
  · simp [hk, h a ha hk]
  · simp [hk]

variable (val) in
theorem groups_eq (vals : List ω) (hl : l.Pairwise fun a b => key a ≤ key b)
    (hc : ∀ a ∈ l, cur ≤ key a) :
    ∃ keys : List κ, keys.Pairwise (· < ·) ∧
      (∀ k, k ∈ keys ↔ k = cur ∨ ∃ a ∈ l, key a = k) ∧
      groups key val cur vals l =
        keys.map fun k => (k, (if cur = k then vals else []) ++ valuesOf key val k l) := by
  induction l generalizing cur vals with
  | nil => exact ⟨[cur], by simp, by simp, by simp [groups, valuesOf]⟩
  | cons a l ih =>
    rw [List.pairwise_cons] at hl
    rw [List.forall_mem_cons] at hc
    by_cases h : cur = key a
    · subst h
      obtain ⟨keys, hlt, hmem, heq⟩ := ih (vals ++ [val a]) hl.2 hl.1
      refine ⟨keys, hlt, fun k => ?_, ?_⟩
      · rw [hmem k, List.exists_mem_cons_iff]
        tauto
      · rw [groups, if_pos rfl, heq]
        refine List.map_congr_left fun k _ => ?_
        rw [valuesOf_cons]
        split_ifs <;> simp
    · obtain ⟨keys, hlt, hmem, heq⟩ := ih [val a] hl.2 hl.1
      have hgt : ∀ k ∈ keys, cur < k := by
        intro k hk
        have hak : key a ≤ k := by
          rcases (hmem k).mp hk with rfl | ⟨b, hb, rfl⟩
          · exact le_rfl
          · exact hl.1 b hb
        exact (lt_of_le_of_ne hc.1 h).trans_le hak
      refine ⟨cur :: keys, List.pairwise_cons.mpr ⟨hgt, hlt⟩, fun k => ?_, ?_⟩
      · rw [List.mem_cons, hmem k, List.exists_mem_cons_iff]
        tauto
      · have hnil : valuesOf key val cur (a :: l) = [] := by
          refine valuesOf_eq_nil (List.forall_mem_cons.mpr ⟨Ne.symm h, fun b hb he => h ?_⟩)
          exact le_antisymm hc.1 ((hl.1 b hb).trans_eq he)
        rw [groups, if_neg h, heq, List.map_cons, if_pos rfl, hnil, List.append_nil]
        congr 1
        refine List.map_congr_left fun k hk => ?_
        rw [if_neg (hgt k hk).ne, valuesOf_cons, List.nil_append]

variable (val) in
theorem groups_head (hl : (a :: l).Pairwise fun a b => key a ≤ key b) :
    ∃ keys : List κ, keys.Pairwise (· < ·) ∧
      (∀ k, k ∈ keys ↔ ∃ b ∈ a :: l, key b = k) ∧
      groups key val (key a) [] (a :: l) =
        keys.map fun k => (k, valuesOf key val k (a :: l)) := by
  have hc : ∀ b ∈ a :: l, key a ≤ key b :=
    List.forall_mem_cons.mpr ⟨le_rfl, (List.pairwise_cons.mp hl).1⟩
  obtain ⟨keys, hlt, hmem, heq⟩ := groups_eq val [] hl hc
  refine ⟨keys, hlt, fun k => ?_, ?_⟩
  · rw [hmem k, List.exists_mem_cons_iff]
    tauto
  · simpa using heq

end DistLab
