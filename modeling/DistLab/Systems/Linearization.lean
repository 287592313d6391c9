import Mathlib.Data.List.Perm.Basic
import Mathlib.Data.List.MinMax
import Mathlib.Logic.Function.Basic
import Mathlib.Order.Basic

/-! # Linearizations

Operations, a relation that tells which of them precede others, and a sequential
specification. The operations are linearizable if they can be put in an order in which no
operation comes before one that precedes it and all of them are legal. A search may
therefore start with any operation that none precedes. When operations are intervals of
time and each works on one of several objects, the objects can be looked at one by one.
-/

namespace DistLab

variable {α β σ τ : Type*}

structure Linearizes (step : σ → α → Option σ) (prec : α → α → Prop) (s : σ) (ops l : List α) :
    Prop where
  perm : l.Perm ops
  order : l.Pairwise fun a b => ¬ prec b a
  legal : (l.foldlM step s).isSome

def Linearizable (step : σ → α → Option σ) (prec : α → α → Prop) (s : σ) (ops : List α) : Prop :=
  ∃ l, Linearizes step prec s ops l

namespace Linearizable

variable {step : σ → α → Option σ} {prec prec' : α → α → Prop} {s s' : σ} {ops ops' : List α}
  {a : α}

theorem nil : Linearizable step prec s [] := ⟨[], .nil, .nil, rfl⟩

theorem perm (h : Linearizable step prec s ops) (hp : ops.Perm ops') :
    Linearizable step prec s ops' := by
  obtain ⟨l, hl⟩ := h
  exact ⟨l, hl.perm.trans hp, hl.order, hl.legal⟩

theorem cons (hs : step s a = some s') (ha : ∀ b ∈ ops, ¬ prec b a)
    (h : Linearizable step prec s' ops) : Linearizable step prec s (a :: ops) := by
  obtain ⟨l, hl⟩ := h
  refine ⟨a :: l, hl.perm.cons a, ?_, ?_⟩
  · rw [List.pairwise_cons]
    exact ⟨fun b hb => ha b (hl.perm.mem_iff.mp hb), hl.order⟩
  · rw [List.foldlM_cons, hs]
    exact hl.legal

theorem exists_first (h : Linearizable step prec s ops) (hne : ops ≠ []) :
    ∃ a rest s', ops.Perm (a :: rest) ∧ (∀ b ∈ rest, ¬ prec b a) ∧ step s a = some s' ∧
      Linearizable step prec s' rest := by
  obtain ⟨l, hperm, horder, hlegal⟩ := h
  cases l with
  | nil => exact absurd hperm.nil_eq.symm hne
  | cons a rest =>
    rw [List.pairwise_cons] at horder
    rw [List.foldlM_cons] at hlegal
    cases hs : step s a with
    | none => simp [hs] at hlegal
    | some s' =>
      rw [hs] at hlegal
      exact ⟨a, rest, s', hperm.symm, horder.1, hs, rest, .refl _, horder.2, hlegal⟩

theorem mono (h : Linearizable step prec s ops)
    (hp : ∀ a ∈ ops, ∀ b ∈ ops, prec' a b → prec a b) : Linearizable step prec' s ops := by
  obtain ⟨l, hl⟩ := h
  refine ⟨l, hl.perm, ?_, hl.legal⟩
  refine hl.order.imp_of_mem fun {a b} ha hb hn hb' => hn ?_
  exact hp b (hl.perm.mem_iff.mp hb) a (hl.perm.mem_iff.mp ha) hb'

end Linearizable

theorem Linearizable.simulate {step : σ → α → Option σ} {step' : τ → α → Option τ}
    {prec : α → α → Prop} {R : σ → τ → Prop} {s : σ} {t : τ} {ops : List α}
    (hR : ∀ a ∈ ops, ∀ s t s', R s t → step s a = some s' → ∃ t', step' t a = some t' ∧ R s' t')
    (h : Linearizable step prec s ops) (hst : R s t) : Linearizable step' prec t ops := by
  obtain ⟨l, hperm, horder, hlegal⟩ := h
  refine ⟨l, hperm, horder, ?_⟩
  replace hR : ∀ a ∈ l, ∀ s t s', R s t → step s a = some s' →
      ∃ t', step' t a = some t' ∧ R s' t' :=
    fun a ha => hR a (hperm.mem_iff.mp ha)
  clear hperm horder
  induction l generalizing s t with
  | nil => rfl
  | cons a l ih =>
    rw [List.forall_mem_cons] at hR
    rw [List.foldlM_cons] at hlegal ⊢
    cases hs : step s a with
    | none => simp [hs] at hlegal
    | some s' =>
      obtain ⟨t', ht, hst'⟩ := hR.1 s t s' hst hs
      rw [hs] at hlegal
      rw [ht]
      exact ih hst' hlegal hR.2

theorem Linearizable.congr {step step' : σ → α → Option σ} {prec : α → α → Prop} {s : σ}
    {ops : List α} (hs : ∀ a ∈ ops, ∀ s, step s a = step' s a)
    (h : Linearizable step prec s ops) : Linearizable step' prec s ops := by
  refine h.simulate (R := (· = ·)) ?_ rfl
  rintro a ha s _ s' rfl hstep
  exact ⟨s', hs a ha s ▸ hstep, rfl⟩

theorem linearizable_map {step : σ → α → Option σ} {prec : α → α → Prop} {s : σ} {f : β → α}
    {ops : List β} : Linearizable step prec s (ops.map f) ↔
      Linearizable (fun s b => step s (f b)) (fun a b => prec (f a) (f b)) s ops := by
  constructor
  · rintro ⟨l, hperm, horder, hlegal⟩
    obtain ⟨m, rfl, hm⟩ : Relation.Comp (· = List.map f ·) List.Perm l ops := by
      rw [List.eq_map_comp_perm]
      exact hperm
    rw [List.pairwise_map] at horder
    rw [List.foldlM_map] at hlegal
    exact ⟨m, hm, horder, hlegal⟩
  · rintro ⟨l, hperm, horder, hlegal⟩
    refine ⟨l.map f, hperm.map f, ?_, ?_⟩
    · rwa [List.pairwise_map]
    · rwa [List.foldlM_map]

section Objects

variable {κ T : Type*} [DecidableEq κ] [LinearOrder T] (step : σ → α → Option σ) (key : α → κ)
  (call ret : α → T)

/-- The objects side by side; an operation is one of the object that it names. -/
def stepAt (s : κ → σ) (a : α) : Option (κ → σ) :=
  (step (s (key a)) a).map (Function.update s (key a))

variable {step key call ret} {s s' : κ → σ} {ops : List α}

theorem foldlM_filter_key {l : List α} (h : l.foldlM (stepAt step key) s = some s') (k : κ) :
    (l.filter (key · = k)).foldlM step (s k) = some (s' k) := by
  induction l generalizing s with
  | nil =>
    obtain rfl := Option.some.inj h
    rfl
  | cons a l ih =>
    rw [List.foldlM_cons] at h
    obtain ⟨u, hu, h⟩ := Option.bind_eq_some_iff.mp h
    obtain ⟨v, hv, rfl⟩ := Option.map_eq_some_iff.mp hu
    have hrest := ih h
    by_cases hk : key a = k
    · subst hk
      rw [Function.update_self] at hrest
      rw [List.filter_cons_of_pos (by simp), List.foldlM_cons, hv]
      exact hrest
    · rw [Function.update_of_ne (Ne.symm hk)] at hrest
      rw [List.filter_cons_of_neg (by simpa using hk)]
      exact hrest

theorem exists_min_ret (ret : α → T) (hne : ops ≠ []) : ∃ o ∈ ops, ∀ b ∈ ops, ret o ≤ ret b := by
  cases h : ops.argmin ret with
  | none => exact absurd (List.argmin_eq_none.mp h) hne
  | some o => exact ⟨o, List.argmin_mem h, fun b hb => List.le_of_mem_argmin hb h⟩

/-- The first operation on the object of the operation that returns first may come first of all. -/
theorem exists_first_of_keys (hcr : ∀ a ∈ ops, call a ≤ ret a) (hne : ops ≠ [])
    (h : ∀ k, Linearizable step (fun a b => ret a < call b) (s k) (ops.filter (key · = k))) :
    ∃ a rest v, ops.Perm (a :: rest) ∧ (∀ b ∈ rest, ¬ ret b < call a) ∧
      step (s (key a)) a = some v ∧
      Linearizable step (fun a b => ret a < call b) v (rest.filter (key · = key a)) := by
  obtain ⟨o, ho, hmin⟩ := exists_min_ret ret hne
  have hmem : o ∈ ops.filter (key · = key o) := List.mem_filter.mpr ⟨ho, by simp⟩
  obtain ⟨a, own, v, hperm, hfirst, hv, hown⟩ := (h (key o)).exists_first (List.ne_nil_of_mem hmem)
  have ha : a ∈ ops ∧ key a = key o := by
    simpa using hperm.mem_iff.mpr List.mem_cons_self
  have hcall : call a ≤ ret o := by
    rcases List.mem_cons.mp (hperm.mem_iff.mp hmem) with rfl | hmem
    · exact hcr o ho
    · exact not_lt.mp (hfirst o hmem)
  obtain ⟨pre, post, rfl⟩ := List.append_of_mem ha.1
  refine ⟨a, pre ++ post, v, List.perm_middle, ?_, ha.2 ▸ hv, hown.perm ?_⟩
  · intro b hb
    have hb' : b ∈ pre ++ a :: post := List.perm_middle.mem_iff.mpr (List.mem_cons_of_mem a hb)
    exact not_lt.mpr (hcall.trans (hmin b hb'))
  · have hmid : (pre ++ a :: post).Perm (a :: (pre ++ post)) := List.perm_middle
    have hsplit := hmid.filter (key · = key o)
    rw [List.filter_cons_of_pos (by simpa using ha.2)] at hsplit
    rw [ha.2]
    exact (hperm.symm.trans hsplit).cons_inv

theorem Linearizable.filter_key {prec : α → α → Prop}
    (h : Linearizable (stepAt step key) prec s ops)
    (k : κ) : Linearizable step prec (s k) (ops.filter (key · = k)) := by
  obtain ⟨l, hperm, horder, hlegal⟩ := h
  obtain ⟨s', hs'⟩ := Option.isSome_iff_exists.mp hlegal
  refine ⟨_, hperm.filter _, horder.filter _, ?_⟩
  rw [foldlM_filter_key hs' k]
  rfl

/-- Operations on several objects are linearizable if those on each object are. -/
theorem linearizable_of_forall_key (hcr : ∀ a ∈ ops, call a ≤ ret a)
    (h : ∀ k, Linearizable step (fun a b => ret a < call b) (s k) (ops.filter (key · = k))) :
    Linearizable (stepAt step key) (fun a b => ret a < call b) s ops := by
  induction hn : ops.length generalizing ops s with
  | zero =>
    rw [List.length_eq_zero_iff.mp hn]
    exact .nil
  | succ n ih =>
    have hne : ops ≠ [] := by
      rintro rfl
      cases hn
    obtain ⟨a, rest, v, hperm, hfirst, hv, hown⟩ := exists_first_of_keys hcr hne h
    have hstep : stepAt step key s a = some (Function.update s (key a) v) := by
      rw [stepAt, hv]
      rfl
    refine (Linearizable.cons hstep hfirst (ih ?_ ?_ ?_)).perm hperm.symm
    · exact fun b hb => hcr b (hperm.mem_iff.mpr (List.mem_cons_of_mem a hb))
    · intro k
      by_cases hk : key a = k
      · subst hk
        rwa [Function.update_self]
      · have hsame := hperm.filter (key · = k)
        rw [List.filter_cons_of_neg (by simpa using hk)] at hsame
        rw [Function.update_of_ne (Ne.symm hk)]
        exact (h k).perm hsame
    · have := hperm.length_eq
      rw [List.length_cons] at this
      omega

end Objects

end DistLab
