import Mathlib.Data.Nat.Basic
import DistLab.Systems.Runs

/-! # Runs that come to an end

A budget that every step reduces bounds the length of the runs. If a step is possible
until a goal is met, then every run can be continued until the goal is met.
-/

namespace DistLab.System

variable {σ ε : Type*} {S : System σ ε} {I : ℕ → σ → Prop} {P : σ → Prop} {n : ℕ} {s s' : σ}
  {es : List ε}

theorem run_budget (hs : ∀ n s e s', I n s → S.step s e = some s' → ∃ m < n, I m s')
    (h : S.run s es = some s') (hi : I n s) : ∃ m, es.length + m ≤ n ∧ I m s' := by
  induction es generalizing s n with
  | nil =>
    obtain rfl := Option.some.inj h
    exact ⟨n, by simp, hi⟩
  | cons e es ih =>
    obtain ⟨t, ht, hr⟩ := run_cons_eq_some.mp h
    obtain ⟨m, hm, hi⟩ := hs n s e t hi ht
    obtain ⟨m', hm', hi'⟩ := ih hr hi
    refine ⟨m', ?_, hi'⟩
    rw [List.length_cons]
    omega

theorem exists_run_goal (hs : ∀ n s e s', I n s → S.step s e = some s' → ∃ m < n, I m s')
    (hp : ∀ n s, I n s → P s ∨ ∃ e s', S.step s e = some s') (hi : I n s) :
    ∃ es s', S.run s es = some s' ∧ P s' := by
  induction n using Nat.strong_induction_on generalizing s with
  | h n ih =>
    rcases hp n s hi with hgoal | ⟨e, t, ht⟩
    · exact ⟨[], s, rfl, hgoal⟩
    · obtain ⟨m, hm, hi⟩ := hs n s e t hi ht
      obtain ⟨es, s', hr, hgoal⟩ := ih m hm hi
      exact ⟨e :: es, s', run_cons_eq_some.mpr ⟨t, ht, hr⟩, hgoal⟩

/-- A rank that some allowed step reduces until the goal is met. -/
theorem exists_run_of_rank {I : σ → Prop} {A : ε → Prop} {r : σ → ℕ}
    (hs : ∀ s, I s → P s ∨ ∃ e s', A e ∧ S.step s e = some s' ∧ I s' ∧ r s' < r s) (hi : I s) :
    ∃ es s', S.run s es = some s' ∧ P s' ∧ (∀ e ∈ es, A e) ∧ es.length ≤ r s := by
  generalize hn : r s = n
  induction n using Nat.strong_induction_on generalizing s with
  | h n ih =>
    rcases hs s hi with hgoal | ⟨e, t, ha, ht, hit, hlt⟩
    · exact ⟨[], s, rfl, hgoal, by simp, by simp⟩
    · obtain ⟨es, s', hr, hgoal, hall, hlen⟩ := ih (r t) (hn ▸ hlt) hit rfl
      refine ⟨e :: es, s', run_cons_eq_some.mpr ⟨t, ht, hr⟩, hgoal, ?_, ?_⟩
      · simpa [ha] using hall
      · rw [List.length_cons]
        omega

end DistLab.System
