import Mathlib.Data.List.Basic

/-! # Machines with outputs

A machine answers every input with a list of outputs. A machine that serves several
parties is seen by one of them through its own inputs and outputs; when a smaller machine
keeps up with it on the own inputs and stands still on the others, what the party sees is
what the smaller machine does.
-/

namespace DistLab

structure Transducer (σ ι ο : Type*) where
  init : σ
  step : σ → ι → σ × List ο

namespace Transducer

variable {σ τ ι κ ο ρ : Type*}

def outputs (M : Transducer σ ι ο) (s : σ) : List ι → List ο
  | [] => []
  | i :: is => (M.step s i).2 ++ M.outputs (M.step s i).1 is

/-- One step of a machine as a party sees it, followed by another machine. The relation of the
states may look at the inputs to come. -/
structure Follows (M : Transducer σ ι ο) (N : Transducer τ κ ρ) (inp : ι → Option κ)
    (out : ο → Option ρ) (R : σ → τ → List ι → Prop) : Prop where
  own : ∀ s t i is k, R s t (i :: is) → inp i = some k →
    (M.step s i).2.filterMap out = (N.step t k).2 ∧ R (M.step s i).1 (N.step t k).1 is
  other : ∀ s t i is, R s t (i :: is) → inp i = none →
    (M.step s i).2.filterMap out = [] ∧ R (M.step s i).1 t is

variable {M : Transducer σ ι ο} {N : Transducer τ κ ρ} {inp : ι → Option κ}
  {out : ο → Option ρ} {R : σ → τ → List ι → Prop}

theorem Follows.outputs (h : Follows M N inp out R) {s : σ} {t : τ} {is : List ι} (hR : R s t is) :
    (M.outputs s is).filterMap out = N.outputs t (is.filterMap inp) := by
  induction is generalizing s t with
  | nil => rfl
  | cons i is ih =>
    rw [Transducer.outputs, List.filterMap_append, List.filterMap_cons]
    cases hi : inp i with
    | none =>
      obtain ⟨hout, hR'⟩ := h.other s t i is hR hi
      rw [hout, ih hR', List.nil_append]
    | some k =>
      obtain ⟨hout, hR'⟩ := h.own s t i is k hR hi
      rw [hout, ih hR', Transducer.outputs]

end Transducer

end DistLab
