import Mathlib.Order.Lattice
import Mathlib.Data.List.Basic
import Mathlib.Data.List.Pairwise

/-! # Agendas

A list of entries in the order of their times. A new entry goes behind every entry that is
not later than it, so entries of one kind that are made with times that never decrease come
out in the order they are made in.
-/

namespace DistLab.Agenda

variable {τ α β : Type*} [LinearOrder τ]

/-- Enter behind every entry that is not later. -/
def enter (t : τ) (a : α) : List (τ × α) → List (τ × α)
  | [] => [(t, a)]
  | e :: es => if e.1 ≤ t then e :: enter t a es else (t, a) :: e :: es

def Sorted (es : List (τ × α)) : Prop := es.Pairwise (·.1 ≤ ·.1)

variable {t : τ} {a : α} {es : List (τ × α)} {f : τ × α → Option β}

theorem Sorted.tail {e : τ × α} (h : Sorted (e :: es)) : Sorted es := List.Pairwise.of_cons h

theorem Sorted.head_le {e : τ × α} (h : Sorted (e :: es)) : ∀ x ∈ e :: es, e.1 ≤ x.1 := by
  intro x hx
  rcases List.mem_cons.mp hx with rfl | hx
  · exact le_rfl
  · exact (List.pairwise_cons.mp h).1 x hx

theorem Sorted.sublist {es' : List (τ × α)} (h : Sorted es) (hs : es'.Sublist es) : Sorted es' :=
  List.Pairwise.sublist hs h

theorem enter_perm (t : τ) (a : α) (es : List (τ × α)) : (enter t a es).Perm ((t, a) :: es) := by
  induction es with
  | nil => exact .refl _
  | cons e es ih =>
    rw [enter]
    split
    · exact (ih.cons e).trans (.swap _ _ _)
    · exact .refl _

theorem mem_enter {x : τ × α} : x ∈ enter t a es ↔ x = (t, a) ∨ x ∈ es :=
  (enter_perm t a es).mem_iff.trans List.mem_cons

theorem Sorted.enter_eq (h : Sorted es) (t : τ) (a : α) : ∃ before after, es = before ++ after ∧
    enter t a es = before ++ (t, a) :: after ∧ (∀ e ∈ before, e.1 ≤ t) ∧ ∀ e ∈ after, t < e.1 := by
  induction es with
  | nil => exact ⟨[], [], rfl, rfl, by simp, by simp⟩
  | cons e es ih =>
    rw [enter]
    split
    · rename_i hle
      obtain ⟨before, after, rfl, heq, hb, ha⟩ := ih h.tail
      exact ⟨e :: before, after, rfl, by rw [heq]; rfl, List.forall_mem_cons.mpr ⟨hle, hb⟩, ha⟩
    · rename_i hlt
      refine ⟨[], e :: es, rfl, rfl, by simp, ?_⟩
      intro x hx
      exact (not_le.mp hlt).trans_le (h.head_le x hx)

theorem Sorted.enter (h : Sorted es) (t : τ) (a : α) : Sorted (enter t a es) := by
  obtain ⟨before, after, rfl, heq, hb, ha⟩ := h.enter_eq t a
  obtain ⟨hs, hs', hss⟩ := List.pairwise_append.mp h
  rw [heq]
  refine List.pairwise_append.mpr ⟨hs, List.pairwise_cons.mpr ⟨fun x hx => (ha x hx).le, hs'⟩, ?_⟩
  intro x hx y hy
  rcases List.mem_cons.mp hy with rfl | hy
  · exact hb x hx
  · exact hss x hx y hy

theorem filterMap_enter_of_none (h : f (t, a) = none) (es : List (τ × α)) :
    (enter t a es).filterMap f = es.filterMap f := by
  induction es with
  | nil => simp [enter, h]
  | cons e es ih =>
    rw [enter]
    split
    · simp only [List.filterMap_cons, ih]
    · rw [List.filterMap_cons, h]

omit [LinearOrder τ] in
theorem filterMap_eraseP_of_none {q : τ × α → Bool} (h : ∀ e, q e = true → f e = none)
    (es : List (τ × α)) : (es.eraseP q).filterMap f = es.filterMap f := by
  induction es with
  | nil => rfl
  | cons e es ih =>
    rw [List.eraseP_cons]
    cases hq : q e with
    | true => rw [cond_true, List.filterMap_cons, h e hq]
    | false => rw [cond_false, List.filterMap_cons, List.filterMap_cons, ih]

/-- An entry that is not earlier than those of its kind is the last of them. -/
theorem Sorted.filterMap_enter (h : Sorted es) (hf : ∀ e ∈ es, (f e).isSome = true → e.1 ≤ t) :
    (Agenda.enter t a es).filterMap f = es.filterMap f ++ (f (t, a)).toList := by
  obtain ⟨before, after, rfl, heq, -, ha⟩ := h.enter_eq t a
  have hnone : after.filterMap f = [] := by
    apply List.filterMap_eq_nil_iff.mpr
    intro e he
    by_contra hne
    have hle := hf e (List.mem_append_right _ he) (Option.isSome_iff_ne_none.mpr hne)
    exact absurd hle (not_le.mpr (ha e he))
  rw [heq, List.filterMap_append, List.filterMap_append, hnone, List.append_nil]
  cases hfa : f (t, a) with
  | none => simp [hfa, hnone]
  | some b => simp [hfa, hnone]

end DistLab.Agenda
