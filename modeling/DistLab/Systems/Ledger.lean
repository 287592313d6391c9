import Mathlib.Data.List.Infix
import Mathlib.Data.List.TakeDrop

/-! # Logs backed by recorded logs

A relation records logs under numbers; the logs recorded under one number are
prefixes of one another. A log is backed when each of its entries stands, with all
that precedes it, in a log recorded under the number of the entry. Two backed logs
that agree on the number of one entry agree up to it.
-/

namespace DistLab

variable {α : Type*} {term : α → ℕ} {A B : ℕ → List α → Prop} {L L' : List α} {k : ℕ} {e e' : α}

/-- The logs recorded under one number are prefixes of one another. -/
def Coherent (A : ℕ → List α → Prop) : Prop :=
  ∀ T L L', A T L → A T L' → L <+: L' ∨ L' <+: L

/-- Every entry stands, with all that precedes it, in a log recorded under its number. -/
def Backed (term : α → ℕ) (A : ℕ → List α → Prop) (L : List α) : Prop :=
  ∀ k e, L[k]? = some e → ∃ R, A (term e) R ∧ L.take (k + 1) <+: R

def Grows (term : α → ℕ) (T : ℕ) (L L' : List α) : Prop :=
  ∃ S, L' = L ++ S ∧ ∀ e ∈ S, term e = T

namespace Grows

variable {T : ℕ} {L'' : List α}

@[refl] theorem refl : Grows term T L L := ⟨[], by simp⟩

theorem trans (h : Grows term T L L') (h' : Grows term T L' L'') : Grows term T L L'' := by
  obtain ⟨S, rfl, hS⟩ := h
  obtain ⟨S', rfl, hS'⟩ := h'
  refine ⟨S ++ S', by simp, fun e he => ?_⟩
  rcases List.mem_append.mp he with he | he
  · exact hS e he
  · exact hS' e he

theorem snoc (h : term e = T) : Grows term T L (L ++ [e]) :=
  ⟨[e], rfl, by simpa using h⟩

theorem isPrefix (h : Grows term T L L') : L <+: L' := by
  obtain ⟨S, rfl, -⟩ := h
  exact List.prefix_append _ _

theorem take (h : Grows term T L L') (hk : L.length ≤ k) : Grows term T L (L'.take k) := by
  obtain ⟨S, rfl, hS⟩ := h
  refine ⟨S.take (k - L.length), ?_, fun e he => hS e (List.mem_of_mem_take he)⟩
  rw [List.take_append, List.take_of_length_le hk]

theorem term_eq (h : Grows term T L L') (hk : L.length ≤ k) (he : L'[k]? = some e) :
    term e = T := by
  obtain ⟨S, rfl, hS⟩ := h
  rw [List.getElem?_append_right hk] at he
  exact hS e (List.mem_of_getElem? he)

end Grows

theorem length_take_of_getElem? (h : L[k]? = some e) : (L.take (k + 1)).length = k + 1 := by
  obtain ⟨hlt, -⟩ := List.getElem?_eq_some_iff.mp h
  rw [List.length_take]
  omega

namespace Backed

theorem mono (h : Backed term A L) (hAB : ∀ T R, A T R → B T R) : Backed term B L := by
  intro k e he
  obtain ⟨R, hR, hp⟩ := h k e he
  exact ⟨R, hAB _ _ hR, hp⟩

theorem of_isPrefix (h : Backed term A L) (hp : L' <+: L) : Backed term A L' := by
  obtain ⟨S, rfl⟩ := hp
  intro k e he
  obtain ⟨hlt, -⟩ := List.getElem?_eq_some_iff.mp he
  obtain ⟨R, hR, hk⟩ := h k e (by rwa [List.getElem?_append_left hlt])
  rw [List.take_append_of_le_length (by omega)] at hk
  exact ⟨R, hR, hk⟩

theorem snoc (h : Backed term A L) (hA : A (term e) (L ++ [e])) : Backed term A (L ++ [e]) := by
  intro k a ha
  rcases lt_or_ge k L.length with hlt | hge
  · rw [List.getElem?_append_left hlt] at ha
    rw [List.take_append_of_le_length (by omega)]
    exact h k a ha
  · obtain rfl : a = e := by
      rw [List.getElem?_append_right hge, List.getElem?_singleton] at ha
      split_ifs at ha
      exact (Option.some.inj ha).symm
    exact ⟨_, hA, List.take_prefix _ _⟩

/-- Two backed logs with entries of one number at one index agree up to that index. -/
theorem take_eq (hA : Coherent A) (hL : Backed term A L) (hL' : Backed term A L')
    (he : L[k]? = some e) (he' : L'[k]? = some e') (ht : term e = term e') :
    L.take (k + 1) = L'.take (k + 1) := by
  obtain ⟨R, hR, hp⟩ := hL k e he
  obtain ⟨R', hR', hp'⟩ := hL' k e' he'
  have hlen : (L.take (k + 1)).length = (L'.take (k + 1)).length := by
    rw [length_take_of_getElem? he, length_take_of_getElem? he']
  rcases hA _ _ _ hR (ht ▸ hR') with h | h
  · exact (List.prefix_of_prefix_length_le (hp.trans h) hp' hlen.le).eq_of_length hlen
  · exact (List.prefix_of_prefix_length_le hp (hp'.trans h) hlen.le).eq_of_length hlen

end Backed

end DistLab
