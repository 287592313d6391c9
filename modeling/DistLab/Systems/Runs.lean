import Mathlib.Logic.Relation
import Mathlib.Data.Option.Basic
import Mathlib.Data.List.Induction

/-! # Runs of a transition system

A system has one initial state and a partial step function on labelled events.
A run is a list of events. A guard restricts the steps of a run, a property may
be asked of every state on the way, and an invariant is reduced to one step.
-/

namespace DistLab

/-- An initial state and a partial step function on labelled events. -/
structure System (σ ε : Type*) where
  init : σ
  step : σ → ε → Option σ

namespace System

variable {σ ε : Type*} (S : System σ ε)

/-- The state after a list of events, provided each of them is enabled in turn. -/
def run (s : σ) : List ε → Option σ
  | [] => some s
  | e :: es => (S.step s e).bind fun s' => run s' es

/-- Every step of the run meets the guard in the state it is taken from. -/
def Meets (G : σ → ε → Prop) (s : σ) : List ε → Prop
  | [] => True
  | e :: es => G s e ∧ ∀ s' ∈ S.step s e, Meets G s' es

/-- The property holds in every state of the run, the first and the last included. -/
def Always (P : σ → Prop) (s : σ) : List ε → Prop
  | [] => P s
  | e :: es => P s ∧ ∀ s' ∈ S.step s e, Always P s' es

instance decidableMeets (G : σ → ε → Prop) [∀ s e, Decidable (G s e)] :
    ∀ s es, Decidable (S.Meets G s es)
  | _, [] => isTrue trivial
  | s, e :: es =>
    have : ∀ s', Decidable (S.Meets G s' es) := fun s' => decidableMeets G s' es
    inferInstanceAs (Decidable (G s e ∧ ∀ s' ∈ S.step s e, S.Meets G s' es))

def after (s : σ) (es : List ε) (h : (S.run s es).isSome = true) : σ := (S.run s es).get h

theorem run_after (s : σ) (es : List ε) (h : (S.run s es).isSome = true) :
    S.run s es = some (S.after s es h) :=
  (Option.some_get h).symm

variable {S} {G : σ → ε → Prop} {I P : σ → Prop} {s s' : σ} {e : ε} {es fs : List ε}

theorem run_cons : S.run s (e :: es) = (S.step s e).bind fun s' => S.run s' es := rfl

theorem run_append : S.run s (es ++ fs) = (S.run s es).bind fun s' => S.run s' fs := by
  induction es generalizing s with
  | nil => rfl
  | cons e es ih =>
    simp only [List.cons_append, run_cons, Option.bind_assoc, ih]

theorem run_cons_eq_some : S.run s (e :: es) = some s' ↔
    ∃ t, S.step s e = some t ∧ S.run t es = some s' := by
  rw [run_cons, Option.bind_eq_some_iff]

theorem meets_append (h : S.run s es = some s') :
    S.Meets G s (es ++ fs) ↔ S.Meets G s es ∧ S.Meets G s' fs := by
  induction es generalizing s with
  | nil =>
    obtain rfl := Option.some.inj h
    simp [Meets]
  | cons e es ih =>
    obtain ⟨t, ht, hr⟩ := run_cons_eq_some.mp h
    simp only [List.cons_append, Meets, ht, Option.mem_def, Option.some.injEq, forall_eq', ih hr,
      and_assoc]

/-- A property of the initial state that every guarded step keeps holds after every guarded run. -/
theorem run_induction (hs : ∀ s e s', I s → G s e → S.step s e = some s' → I s')
    (h : S.run s es = some s') (hg : S.Meets G s es) (hi : I s) : I s' := by
  induction es generalizing s with
  | nil => exact Option.some.inj h ▸ hi
  | cons e es ih =>
    obtain ⟨t, ht, hr⟩ := run_cons_eq_some.mp h
    exact ih hr (hg.2 t ht) (hs s e t hi hg.1 ht)

/-- When every guarded step can be taken and keeps a property, every guarded run can be taken. -/
theorem exists_run (hs : ∀ s e, I s → G s e → ∃ s', S.step s e = some s' ∧ I s')
    (hg : S.Meets G s es) (hi : I s) : ∃ s', S.run s es = some s' ∧ I s' := by
  induction es generalizing s with
  | nil => exact ⟨s, rfl, hi⟩
  | cons e es ih =>
    obtain ⟨t, ht, hit⟩ := hs s e hi hg.1
    obtain ⟨s', hr, hi'⟩ := ih (hg.2 t ht) hit
    exact ⟨s', run_cons_eq_some.mpr ⟨t, ht, hr⟩, hi'⟩

theorem meets_true (s : σ) (es : List ε) : S.Meets (fun _ _ => True) s es := by
  induction es generalizing s with
  | nil => trivial
  | cons e es ih => exact ⟨trivial, fun t _ => ih t⟩

theorem invariant (hs : ∀ s e s', I s → S.step s e = some s' → I s')
    (h : S.run s es = some s') (hi : I s) : I s' :=
  run_induction (G := fun _ _ => True) (fun s e s' hi _ => hs s e s' hi) h (meets_true s es) hi

theorem Meets.mono {G' : σ → ε → Prop} (hG : ∀ s e, G s e → G' s e) (h : S.Meets G s es) :
    S.Meets G' s es := by
  induction es generalizing s with
  | nil => trivial
  | cons e es ih => exact ⟨hG s e h.1, fun t ht => ih (h.2 t ht)⟩

theorem Meets.and {G' : σ → ε → Prop} (h : S.Meets G s es) (h' : S.Meets G' s es) :
    S.Meets (fun s e => G s e ∧ G' s e) s es := by
  induction es generalizing s with
  | nil => trivial
  | cons e es ih => exact ⟨⟨h.1, h'.1⟩, fun t ht => ih (h.2 t ht) (h'.2 t ht)⟩

theorem Meets.of_invariant {G' : σ → ε → Prop}
    (hs : ∀ s e s', I s → G s e → S.step s e = some s' → I s')
    (hG : ∀ s e, I s → G s e → G' s e) (h : S.Meets G s es) (hi : I s) : S.Meets G' s es := by
  induction es generalizing s with
  | nil => trivial
  | cons e es ih =>
    exact ⟨hG s e hi h.1, fun t ht => ih (h.2 t ht) (hs s e t hi h.1 ht)⟩

theorem meets_of_forall {Q : ε → Prop} (h : ∀ e ∈ es, Q e) : S.Meets (fun _ e => Q e) s es := by
  induction es generalizing s with
  | nil => trivial
  | cons e es ih =>
    exact ⟨h e List.mem_cons_self, fun _ _ => ih fun e he => h e (List.mem_cons_of_mem _ he)⟩

theorem forall_mem_of_invariant {Q : ε → Prop}
    (hs : ∀ s e s', I s → S.step s e = some s' → Q e ∧ I s') (h : S.run s es = some s')
    (hi : I s) : ∀ e ∈ es, Q e := by
  induction es generalizing s with
  | nil => simp
  | cons e es ih =>
    obtain ⟨t, ht, hr⟩ := run_cons_eq_some.mp h
    obtain ⟨hq, hit⟩ := hs s e t hi ht
    exact List.forall_mem_cons.mpr ⟨hq, ih hr hit⟩

theorem exists_step_of_run (h : S.run s es = some s') (hn : ¬ P s) (hp : P s') :
    ∃ es₁ e es₂ t t', es = es₁ ++ e :: es₂ ∧ S.run s es₁ = some t ∧ S.step t e = some t' ∧
      ¬ P t ∧ P t' := by
  induction es generalizing s with
  | nil => exact (hn (Option.some.inj h ▸ hp)).elim
  | cons e es ih =>
    obtain ⟨t, ht, hr⟩ := run_cons_eq_some.mp h
    by_cases hpt : P t
    · exact ⟨[], e, es, s, t, rfl, rfl, ht, hn, hpt⟩
    · obtain ⟨es₁, e', es₂, u, u', rfl, hu, hs, hnu, hpu⟩ := ih hr hpt
      exact ⟨e :: es₁, e', es₂, u, u', rfl, run_cons_eq_some.mpr ⟨t, ht, hu⟩, hs, hnu, hpu⟩

theorem exists_moment (h : S.run s es = some s') (hn : ¬ P s) (hp : P s') :
    ∃ (t : ℕ) (e : ε) (v v' : σ), es[t]? = some e ∧ S.run s (es.take t) = some v ∧
      S.step v e = some v' ∧ ¬ P v ∧ P v' := by
  obtain ⟨es₁, e, es₂, v, v', rfl, hv, hs, hnv, hpv⟩ := exists_step_of_run h hn hp
  exact ⟨es₁.length, e, v, v', by simp, by simpa using hv, hs, hnv, hpv⟩

/-- A relation between the events of a run and its last state, kept by every further step. -/
theorem history_induction {H : List ε → σ → Prop} (h0 : H [] s)
    (hs : ∀ es t e t', S.run s es = some t → H es t → S.step t e = some t' → H (es ++ [e]) t')
    (h : S.run s es = some s') : H es s' := by
  induction es using List.reverseRecOn generalizing s' with
  | nil => exact Option.some.inj h ▸ h0
  | append_singleton es e ih =>
    rw [run_append] at h
    obtain ⟨t, ht, hr⟩ := Option.bind_eq_some_iff.mp h
    obtain ⟨t', hstep, hnil⟩ := run_cons_eq_some.mp hr
    exact Option.some.inj hnil ▸ hs es t e t' ht (ih ht) hstep

/-- When a guard decides in every state that meets an invariant whether a step keeps a property
and the invariant, it decides for whole runs whether the property holds throughout. -/
theorem always_iff_meets_of (hp : ∀ s, I s → P s)
    (hs : ∀ s e s', I s → S.step s e = some s' → (P s' → G s e) ∧ (G s e → I s'))
    (h : S.run s es = some s') (hi : I s) : S.Always P s es ↔ S.Meets G s es := by
  induction es generalizing s with
  | nil => exact ⟨fun _ => trivial, fun _ => hp s hi⟩
  | cons e es ih =>
    obtain ⟨t, ht, hr⟩ := run_cons_eq_some.mp h
    obtain ⟨hpg, hgi⟩ := hs s e t hi ht
    simp only [Always, Meets, ht, Option.mem_def, Option.some.injEq, forall_eq', hp s hi, true_and]
    constructor
    · intro ha
      have hpt : P t := by cases es <;> first | exact ha | exact ha.1
      exact ⟨hpg hpt, (ih hr (hgi (hpg hpt))).mp ha⟩
    · rintro ⟨hg, hm⟩
      exact (ih hr (hgi hg)).mpr hm

section Map

variable {τ : Type*} {T : System τ ε} {f : τ → σ} {J : τ → Prop} {t : τ}

/-- When the steps of one system from the images of the states of another are the images of its
steps, so are its runs, and what holds along them is what holds of the images. -/
theorem run_map
    (hs : ∀ t e, J t → G (f t) e → S.step (f t) e = (T.step t e).map f ∧ ∀ t' ∈ T.step t e, J t')
    (h : S.Meets G (f t) es) (hj : J t) :
    S.run (f t) es = (T.run t es).map f ∧
      (∀ H : σ → ε → Prop, S.Meets H (f t) es ↔ T.Meets (fun t => H (f t)) t es) ∧
      ∀ P : σ → Prop, S.Always P (f t) es ↔ T.Always (fun t => P (f t)) t es := by
  induction es generalizing t with
  | nil => exact ⟨rfl, fun _ => Iff.rfl, fun _ => Iff.rfl⟩
  | cons e es ih =>
    obtain ⟨hstep, hnext⟩ := hs t e hj h.1
    simp only [run_cons, Meets, Always, hstep]
    cases hT : T.step t e with
    | none => simp
    | some u =>
      obtain ⟨hrun, hmeets, halways⟩ := ih (h.2 (f u) (by rw [hstep, hT]; rfl)) (hnext u hT)
      simp [hrun, hmeets, halways]

end Map

end System

end DistLab
