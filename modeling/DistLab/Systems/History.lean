import DistLab.Systems.Network

/-! # Histories of nodes

Every node of a protocol keeps a history beside its state, updated from each of
its reactions. The history never changes what a node does: the runs are those of
the protocol, and each of them extends to a run with histories.
-/

namespace DistLab

variable {ι : Type*} [DecidableEq ι] {σ H : ι → Type*} {χ μ ο : Type*}

def World.forget (w : World (fun i => σ i × H i) μ ο) : World σ μ ο where
  node i := (w.node i).1
  net := w.net
  trace := w.trace

namespace Protocol

variable (P : Protocol ι σ χ μ ο) (a : ∀ i, H i)
  (f : ∀ i, σ i → Reaction (σ i) μ ο → H i → H i)

def watch : Protocol ι (fun i => σ i × H i) χ μ ο where
  init i := (P.init i, a i)
  dst := P.dst
  react i s x := (P.react i s.1 x).map fun r => ⟨(r.state, f i s.1 r s.2), r.out, r.obs⟩

variable {P a f} {w : World (fun i => σ i × H i) μ ο}

theorem forget_put {i : ι} {net : List μ} {r : Reaction (σ i) μ ο} {b : H i} :
    (w.put i net ⟨(r.state, b), r.out, r.obs⟩).forget = w.forget.put i net r := by
  refine World.ext ?_ rfl rfl
  funext j
  rcases eq_or_ne j i with rfl | hne
  · simp [World.forget]
  · simp [World.forget, World.put_node_of_ne hne]

theorem forget_step (e : NetEvent ι χ) :
    ((P.watch a f).step w e).map World.forget = P.step w.forget e := by
  cases e with
  | act i x =>
    simp only [step, watch, Option.map_map]
    exact Option.map_congr fun r _ => forget_put
  | deliver k =>
    simp only [step, watch, Option.map_bind, World.forget]
    refine Option.bind_congr fun m _ => ?_
    simp only [Function.comp, Option.map_map]
    exact Option.map_congr fun r _ => forget_put
  | drop k =>
    by_cases hk : k < w.net.length
    all_goals simp [step, World.forget, hk]

theorem forget_run (es : List (NetEvent ι χ)) :
    ((P.watch a f).system.run w es).map World.forget = P.system.run w.forget es := by
  induction es generalizing w with
  | nil => rfl
  | cons e es ih =>
    rw [System.run_cons, System.run_cons, Option.map_bind]
    change _ = (P.step w.forget e).bind _
    rw [← forget_step, Option.bind_map]
    exact Option.bind_congr fun w' _ => ih

theorem meets_watch {G : ∀ i, σ i → Input χ μ → Prop} (es : List (NetEvent ι χ)) :
    (P.watch a f).system.Meets ((P.watch a f).Guards fun i s => G i s.1) w es ↔
      P.system.Meets (P.Guards G) w.forget es := by
  induction es generalizing w with
  | nil => exact Iff.rfl
  | cons e es ih =>
    have hg : (P.watch a f).Guards (fun i s => G i s.1) w e ↔ P.Guards G w.forget e := by
      cases e <;> exact Iff.rfl
    refine and_congr hg ?_
    change _ ↔ ∀ v ∈ P.step w.forget e, _
    rw [← forget_step]
    simp only [Option.mem_map, forall_exists_index, and_imp, forall_apply_eq_imp_iff₂]
    exact forall₂_congr fun w' _ => ih

/-- Every run extends to a run with histories. -/
theorem exists_run_watch {v : World σ μ ο} {es : List (NetEvent ι χ)}
    (h : P.system.run P.system.init es = some v) :
    ∃ w, (P.watch a f).system.run (P.watch a f).system.init es = some w ∧ w.forget = v :=
  Option.map_eq_some_iff.mp ((forget_run es).trans h)

end Protocol

end DistLab
