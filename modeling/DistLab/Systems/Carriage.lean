import Mathlib.Data.List.Perm.Subperm
import Mathlib.Data.List.Range
import DistLab.Systems.Network

/-! # Worlds behind a transport

A transport keeps the messages of a protocol in a state of its own. What it shows is a
world: the nodes, the history and the messages that may still be delivered. If every step
of the transport loses messages or shows the reaction of one node to an input of its own
or to a message in view, then its runs are runs of the protocol, and what guards the one
guards the other; a message that disappears from view stays in flight and is never
delivered.
-/

namespace DistLab

variable {ι : Type*} [DecidableEq ι] {σ : ι → Type*} {χ μ ο : Type*}

namespace Protocol

/-- One step of what a transport shows, a guarded reaction or none. -/
inductive Carries (P : Protocol ι σ χ μ ο) (G : ∀ i, σ i → Input χ μ → Prop)
    (w w' : World σ μ ο) : Prop
  | idle (node : w'.node = w.node) (trace : w'.trace = w.trace) (net : w'.net.Subperm w.net)
  | act {i : ι} {x : χ} {r : Reaction (σ i) μ ο} (react : P.react i (w.node i) (.act x) = some r)
      (guard : G i (w.node i) (.act x)) (node : w'.node = Function.update w.node i r.state)
      (trace : w'.trace = r.obs ++ w.trace) (net : w'.net.Subperm (w.net ++ r.out))
  | recv {m : μ} {rest : List μ} {r : Reaction (σ (P.dst m)) μ ο}
      (react : P.react (P.dst m) (w.node (P.dst m)) (.recv m) = some r)
      (guard : G (P.dst m) (w.node (P.dst m)) (.recv m)) (held : w.net.Perm (m :: rest))
      (node : w'.node = Function.update w.node (P.dst m) r.state)
      (trace : w'.trace = r.obs ++ w.trace) (net : w'.net.Subperm (rest ++ r.out))

end Protocol

/-- The world has the nodes and the history that are shown, and the messages in view among its
own. -/
structure World.Covers (v w : World σ μ ο) : Prop where
  node : v.node = w.node
  trace : v.trace = w.trace
  net : w.net.Subperm v.net

namespace World.Covers

variable {P : Protocol ι σ χ μ ο} {G : ∀ i, σ i → Input χ μ → Prop} {v w w' : World σ μ ο} {m : μ}
  {rest : List μ}

omit [DecidableEq ι] in
theorem exists_index (h : v.Covers w) (hm : w.net.Perm (m :: rest)) :
    ∃ j, v.net[j]? = some m ∧ rest.Subperm (v.net.eraseIdx j) := by
  have hsub : (m :: rest).Subperm v.net := hm.symm.subperm.trans h.net
  obtain ⟨j, hj⟩ := List.mem_iff_getElem?.mp (hsub.subset List.mem_cons_self)
  obtain ⟨hlt, hjm⟩ := List.getElem?_eq_some_iff.mp hj
  have hperm := (List.getElem_cons_eraseIdx_perm hlt).symm.subperm
  rw [hjm] at hperm
  exact ⟨j, hj, (List.subperm_cons m).mp (hsub.trans hperm)⟩

theorem deliver (h : v.Covers w) (hm : w.net.Perm (m :: rest))
    {r : Reaction (σ (P.dst m)) μ ο}
    (hr : P.react (P.dst m) (w.node (P.dst m)) (.recv m) = some r)
    (hnode : w'.node = Function.update w.node (P.dst m) r.state)
    (htrace : w'.trace = r.obs ++ w.trace) (hnet : w'.net.Subperm (rest ++ r.out)) :
    ∃ j v', v.net[j]? = some m ∧ P.step v (.deliver j) = some v' ∧ v'.Covers w' := by
  obtain ⟨j, hj, hrest⟩ := h.exists_index hm
  rw [← h.node] at hr
  refine ⟨j, _, hj, Protocol.step_deliver hj hr, ?_, ?_, ?_⟩
  · rw [hnode, ← h.node, World.put]
  · rw [htrace, ← h.trace, World.put]
  · exact hnet.trans ((List.subperm_append_right _).mpr hrest)

theorem carries (h : v.Covers w) (hs : P.Carries G w w') :
    ∃ es v', P.system.run v es = some v' ∧ P.system.Meets (P.Guards G) v es ∧ v'.Covers w' := by
  cases hs with
  | idle hnode htrace hnet =>
    exact ⟨[], v, rfl, trivial, h.node.trans hnode.symm, h.trace.trans htrace.symm,
      hnet.trans h.net⟩
  | @act i x r hr hg hnode htrace hnet =>
    rw [← h.node] at hr hg
    have hstep : P.step v (.act i x) = some (v.put i v.net r) := by simp [Protocol.step, hr]
    refine ⟨[.act i x], _, System.run_cons_eq_some.mpr ⟨_, hstep, rfl⟩, ⟨hg, fun _ _ => trivial⟩,
      ?_, ?_, ?_⟩
    · rw [hnode, ← h.node, World.put]
    · rw [htrace, ← h.trace, World.put]
    · exact hnet.trans ((List.subperm_append_right _).mpr h.net)
  | @recv m rest r hr hg hheld hnode htrace hnet =>
    obtain ⟨j, v', hj, hstep, hcov⟩ := h.deliver hheld hr hnode htrace hnet
    refine ⟨[.deliver j], v', System.run_cons_eq_some.mpr ⟨_, hstep, rfl⟩,
      ⟨fun m' hm' => ?_, fun _ _ => trivial⟩, hcov⟩
    obtain rfl := Option.some.inj (hj.symm.trans hm')
    rwa [h.node]

end World.Covers

section Runs

variable {τ ε : Type*} {S : System τ ε} {P : Protocol ι σ χ μ ο}
  {G : ∀ i, σ i → Input χ μ → Prop} {K : τ → ε → Prop} {I : τ → Prop} {s s' : τ} {es : List ε}
  {v : World σ μ ο}

/-- A transport all of whose guarded steps are guarded steps of the view has guarded runs of the
protocol only. -/
theorem Protocol.exists_run_of_carries (view : τ → World σ μ ο)
    (hs : ∀ s e s', I s → K s e → S.step s e = some s' → I s' ∧ P.Carries G (view s) (view s'))
    (h : S.run s es = some s') (hg : S.Meets K s es) (hi : I s) (hv : v.Covers (view s)) :
    ∃ fs v', P.system.run v fs = some v' ∧ P.system.Meets (P.Guards G) v fs ∧
      v'.Covers (view s') := by
  induction es generalizing s v with
  | nil =>
    obtain rfl := Option.some.inj h
    exact ⟨[], v, rfl, trivial, hv⟩
  | cons e es ih =>
    obtain ⟨t, ht, hr⟩ := System.run_cons_eq_some.mp h
    obtain ⟨hit, hc⟩ := hs s e t hi hg.1 ht
    obtain ⟨fs, u, hu, hmeets, hcov⟩ := hv.carries hc
    obtain ⟨fs', v', hv', hmeets', hcov'⟩ := ih hr (hg.2 t ht) hit hcov
    refine ⟨fs ++ fs', v', ?_, (System.meets_append hu).mpr ⟨hmeets, hmeets'⟩, hcov'⟩
    rw [System.run_append, hu, Option.bind_some]
    exact hv'

end Runs

/-- What numbered carriers hold, each at most one message. -/
def held (N : ℕ) (f : ℕ → Option μ) : List μ := (List.range N).filterMap f

section Held

variable {N k : ℕ} {f g : ℕ → Option μ} {m : μ}

theorem filterMap_sublist {l : List ℕ} (h : ∀ k ∈ l, ∀ m ∈ g k, f k = some m) :
    (l.filterMap g).Sublist (l.filterMap f) := by
  induction l with
  | nil => exact List.Sublist.refl _
  | cons k l ih =>
    have ih := ih fun j hj => h j (List.mem_cons_of_mem _ hj)
    rw [List.filterMap_cons, List.filterMap_cons]
    cases hg : g k with
    | none => cases f k <;> simp [ih, List.Sublist.cons]
    | some m => simp [h k List.mem_cons_self m hg, ih]

theorem filterMap_getElem?_range (l : List μ) (D : ℕ) :
    (List.range D).filterMap (fun k => l[k]?) = l.take D := by
  induction l generalizing D with
  | nil => simp
  | cons m l ih =>
    cases D with
    | zero => rfl
    | succ D =>
      rw [List.range_succ_eq_map, List.filterMap_cons, List.filterMap_map, List.take_succ_cons,
        ← ih D]
      rfl

theorem held_subperm (h : ∀ k < N, ∀ m ∈ g k, f k = some m) :
    (held N g).Subperm (held N f) :=
  (filterMap_sublist fun k hk => h k (List.mem_range.mp hk)).subperm

theorem held_perm (hk : k < N) :
    (held N f).Perm ((f k).toList ++ held N (Function.update f k none)) := by
  obtain ⟨l₁, l₂, hl⟩ := List.append_of_mem (List.mem_range.mpr hk)
  have hnd : (l₁ ++ k :: l₂).Nodup := hl ▸ List.nodup_range
  have hsame : ∀ l : List ℕ, k ∉ l → l.filterMap (Function.update f k none) = l.filterMap f := by
    intro l hn
    refine List.filterMap_congr fun j hj => Function.update_of_ne ?_ ..
    rintro rfl
    exact hn hj
  obtain ⟨h₁, h₂⟩ : k ∉ l₁ ∧ k ∉ l₂ := by
    have hmid := (List.nodup_cons.mp (List.perm_middle.nodup_iff.mp hnd)).1
    simpa using hmid
  rw [held, held, hl, List.filterMap_append, List.filterMap_append, List.filterMap_cons,
    List.filterMap_cons, hsame l₁ h₁, hsame l₂ h₂, Function.update_self]
  cases f k with
  | none => exact List.Perm.refl _
  | some m => exact List.perm_middle

theorem held_exchange {out : List μ} (hk : k < N) (hf : f k = some m)
    (hg : ∀ j, j ≠ k → ∀ m ∈ g j, f j = some m) (ho : ∀ m ∈ g k, out = [m]) :
    ∃ rest, (held N f).Perm (m :: rest) ∧ (held N g).Subperm (rest ++ out) := by
  refine ⟨held N (Function.update f k none), ?_, ?_⟩
  · have hperm := held_perm (f := f) hk
    rwa [hf, Option.toList_some, List.singleton_append] at hperm
  · have hrest : (held N (Function.update g k none)).Subperm
        (held N (Function.update f k none)) := by
      refine held_subperm fun j _ m hm => ?_
      rcases eq_or_ne j k with rfl | hj
      · simp at hm
      · rw [Function.update_of_ne hj] at hm ⊢
        exact hg j hj m hm
    have hout : ((g k).toList).Subperm out := by
      cases hgk : g k with
      | none => exact List.nil_subperm
      | some b => rw [ho b hgk, Option.toList_some]
    exact (held_perm hk).subperm.trans
      ((hout.append hrest).trans List.perm_append_comm.subperm)

theorem held_add {D : ℕ} {out : List μ} (h : ∀ k < N, ∀ m ∈ g k, f k = some m)
    (ho : ∀ k, ∀ m ∈ g (N + k), out[k]? = some m) :
    (held (N + D) g).Subperm (held N f ++ out) := by
  have hnew : ((List.range D).filterMap fun k => g (N + k)).Sublist out := by
    have hsub := filterMap_sublist (f := fun k => out[k]?) (l := List.range D) fun k _ => ho k
    rw [filterMap_getElem?_range] at hsub
    exact hsub.trans (List.take_sublist D out)
  rw [held, List.range_add, List.filterMap_append, List.filterMap_map]
  exact (held_subperm h).append hnew.subperm

end Held

end DistLab
