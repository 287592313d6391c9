import Mathlib.Data.List.Basic
import Mathlib.Logic.Function.Basic
import DistLab.Systems.Runs

/-! # Message-passing worlds

Nodes react to local inputs and to messages with a new state, messages to send
and observations to record. A world holds the state of every node, the messages
in flight and the history of observations. Messages are delivered in any order,
each at most once, or dropped.
-/

namespace DistLab

inductive Input (χ μ : Type*) where
  | act (x : χ)
  | recv (m : μ)

/-- The outcome of one reaction: the new state, the messages sent, what is recorded. -/
structure Reaction (σ μ ο : Type*) where
  state : σ
  out : List μ
  obs : List ο

/-- The reactions of a family of nodes, with the node every message is addressed to. -/
structure Protocol (ι : Type*) (σ : ι → Type*) (χ μ ο : Type*) where
  init : ∀ i, σ i
  dst : μ → ι
  react : ∀ i, σ i → Input χ μ → Option (Reaction (σ i) μ ο)

@[ext] structure World {ι : Type*} (σ : ι → Type*) (μ ο : Type*) where
  node : ∀ i, σ i
  net : List μ
  trace : List ο

inductive NetEvent (ι χ : Type*) where
  | act (i : ι) (x : χ)
  | deliver (k : ℕ)
  | drop (k : ℕ)

variable {ι : Type*} [DecidableEq ι] {σ : ι → Type*} {χ μ ο : Type*}

namespace World

/-- Install a reaction of one node, with the messages that stay in flight. -/
def put (w : World σ μ ο) (i : ι) (net : List μ) (r : Reaction (σ i) μ ο) : World σ μ ο where
  node := Function.update w.node i r.state
  net := net ++ r.out
  trace := r.obs ++ w.trace

variable {w : World σ μ ο} {i j : ι} {net : List μ} {r : Reaction (σ i) μ ο}

@[simp] theorem put_node_self : (w.put i net r).node i = r.state :=
  Function.update_self ..

theorem put_node_of_ne (h : j ≠ i) : (w.put i net r).node j = w.node j :=
  Function.update_of_ne h ..

@[simp] theorem put_net : (w.put i net r).net = net ++ r.out := rfl

@[simp] theorem put_trace : (w.put i net r).trace = r.obs ++ w.trace := rfl

theorem mem_put_net {m : μ} (hn : net ⊆ w.net) (h : m ∈ (w.put i net r).net) :
    m ∈ w.net ∨ m ∈ r.out :=
  (List.mem_append.mp h).imp_left fun h => hn h

theorem trace_subset_put : w.trace ⊆ (w.put i net r).trace :=
  List.subset_append_right _ _

theorem cons_suffix_put {o : ο} {pre : List ο} (h : o :: pre <:+ (w.put i net r).trace) :
    o :: pre <:+ w.trace ∨ o ∈ r.obs ∧ w.trace ⊆ pre := by
  obtain ⟨k, hk⟩ := h
  rcases List.append_eq_append_iff.mp hk with ⟨l, hl, hp⟩ | ⟨l, hl, hp⟩
  · cases l with
    | nil => exact Or.inl ⟨[], hp⟩
    | cons a l =>
      obtain ⟨rfl, rfl⟩ := List.cons.inj hp
      exact Or.inr ⟨by simp [hl], List.subset_append_right _ _⟩
  · exact Or.inl ⟨l, hp.symm⟩

theorem forall_put {N : ∀ j, σ j → Prop} (hi : N i r.state) (hj : ∀ j, j ≠ i → N j (w.node j))
    (j : ι) : N j ((w.put i net r).node j) := by
  rcases eq_or_ne j i with rfl | h
  · rwa [put_node_self]
  · rw [put_node_of_ne h]; exact hj j h

end World

namespace Protocol

variable (P : Protocol ι σ χ μ ο)

def step (w : World σ μ ο) : NetEvent ι χ → Option (World σ μ ο)
  | .act i x => (P.react i (w.node i) (.act x)).map (w.put i w.net)
  | .deliver k => w.net[k]?.bind fun m =>
      (P.react (P.dst m) (w.node (P.dst m)) (.recv m)).map (w.put (P.dst m) (w.net.eraseIdx k))
  | .drop k => if k < w.net.length then some { w with net := w.net.eraseIdx k } else none

def system : System (World σ μ ο) (NetEvent ι χ) where
  init := ⟨P.init, [], []⟩
  step := P.step

/-- A guard on the state a node reacts from, lifted to events of the world. -/
def Guards (G : ∀ i, σ i → Input χ μ → Prop) (w : World σ μ ο) : NetEvent ι χ → Prop
  | .act i x => G i (w.node i) (.act x)
  | .deliver k => ∀ m ∈ w.net[k]?, G (P.dst m) (w.node (P.dst m)) (.recv m)
  | .drop _ => True

instance (G : ∀ i, σ i → Input χ μ → Prop) [∀ i s x, Decidable (G i s x)] (w : World σ μ ο) :
    ∀ e, Decidable (P.Guards G w e)
  | .act i x => inferInstanceAs (Decidable (G i (w.node i) (.act x)))
  | .deliver k =>
    inferInstanceAs (Decidable (∀ m ∈ w.net[k]?, G (P.dst m) (w.node (P.dst m)) (.recv m)))
  | .drop _ => isTrue trivial

variable {P} {w w' : World σ μ ο} {e : NetEvent ι χ}

omit [DecidableEq ι] in
theorem Guards.mono {G G' : ∀ i, σ i → Input χ μ → Prop} (hG : ∀ i s x, G i s x → G' i s x)
    (h : P.Guards G w e) : P.Guards G' w e := by
  cases e with
  | act i x => exact hG _ _ _ h
  | deliver k => exact fun m hm => hG _ _ _ (h m hm)
  | drop k => trivial

/-- The inputs a world can feed to a node: its own, or a message in flight addressed to it. -/
def Feeds (P : Protocol ι σ χ μ ο) (w : World σ μ ο) (i : ι) : Input χ μ → Prop
  | .act _ => True
  | .recv m => m ∈ w.net ∧ P.dst m = i

theorem step_deliver {k : ℕ} {m : μ} {r : Reaction (σ (P.dst m)) μ ο} (hm : w.net[k]? = some m)
    (hr : P.react (P.dst m) (w.node (P.dst m)) (.recv m) = some r) :
    P.step w (.deliver k) = some (w.put (P.dst m) (w.net.eraseIdx k) r) := by
  simp [step, hm, hr]

/-- A step loses a message or installs the reaction of one node to an input the world feeds it. -/
theorem step_cases {G : ∀ i, σ i → Input χ μ → Prop} (h : P.step w e = some w')
    (hg : P.Guards G w e) :
    (∃ net ⊆ w.net, w' = { w with net := net }) ∨
    ∃ i x r net, P.react i (w.node i) x = some r ∧ G i (w.node i) x ∧ P.Feeds w i x ∧
      net ⊆ w.net ∧ w' = w.put i net r := by
  cases e with
  | act i x =>
    obtain ⟨r, hr, rfl⟩ := Option.map_eq_some_iff.mp h
    exact Or.inr ⟨i, .act x, r, w.net, hr, hg, trivial, List.Subset.refl _, rfl⟩
  | deliver k =>
    obtain ⟨m, hm, h⟩ := Option.bind_eq_some_iff.mp h
    obtain ⟨r, hr, rfl⟩ := Option.map_eq_some_iff.mp h
    exact Or.inr ⟨P.dst m, .recv m, r, w.net.eraseIdx k, hr, hg m hm,
      ⟨List.mem_of_getElem? hm, rfl⟩, List.eraseIdx_subset, rfl⟩
  | drop k =>
    simp only [step, Option.ite_none_right_eq_some, Option.some.injEq] at h
    exact Or.inl ⟨_, List.eraseIdx_subset, h.2.symm⟩

/-- A property that survives the loss of messages and every guarded reaction is kept along
guarded runs. -/
theorem preserved {G : ∀ i, σ i → Input χ μ → Prop} {I : World σ μ ο → Prop}
    (hl : ∀ w net, I w → net ⊆ w.net → I { w with net := net })
    (hr : ∀ w i x r net, I w → P.react i (w.node i) x = some r → G i (w.node i) x →
      P.Feeds w i x → net ⊆ w.net → I (w.put i net r))
    {es : List (NetEvent ι χ)} (h : P.system.run w es = some w')
    (hg : P.system.Meets (P.Guards G) w es) (hi : I w) : I w' := by
  refine System.run_induction (fun w e w' hi hg h => ?_) h hg hi
  rcases step_cases h hg with ⟨net, hn, rfl⟩ | ⟨i, x, r, net, hx, hg, hf, hn, rfl⟩
  · exact hl w net hi hn
  · exact hr w i x r net hi hx hg hf hn

theorem invariant {I : World σ μ ο → Prop}
    (hl : ∀ w net, I w → net ⊆ w.net → I { w with net := net })
    (hr : ∀ w i x r net, I w → P.react i (w.node i) x = some r → P.Feeds w i x → net ⊆ w.net →
      I (w.put i net r))
    {es : List (NetEvent ι χ)} (h : P.system.run w es = some w') (hi : I w) : I w' := by
  refine preserved (G := fun _ _ _ => True) hl (fun w i x r net hi hx _ hf hn => ?_) h ?_ hi
  · exact hr w i x r net hi hx hf hn
  · exact (System.meets_true w es).mono fun w e _ => by cases e <;> simp [Guards]

/-- When a guard decides for every reaction of a node that meets its invariant whether the node
keeps a property and the invariant, it decides for whole runs whether all nodes have the property
throughout. -/
theorem always_iff_meets_of {G : ∀ i, σ i → Input χ μ → Prop} {N Q : ∀ i, σ i → Prop}
    (hq : ∀ i s, N i s → Q i s)
    (hr : ∀ i s x r, N i s → P.react i s x = some r →
      (Q i r.state → G i s x) ∧ (G i s x → N i r.state))
    {es : List (NetEvent ι χ)} (h : P.system.run w es = some w') (hi : ∀ i, N i (w.node i)) :
    P.system.Always (fun w => ∀ i, Q i (w.node i)) w es ↔ P.system.Meets (P.Guards G) w es := by
  have hself : ∀ (w : World σ μ ο) i net (r : Reaction (σ i) μ ο),
      (∀ j, Q j ((w.put i net r).node j)) → Q i r.state := by
    intro w i net r hj
    have := hj i
    rwa [World.put_node_self] at this
  refine System.always_iff_meets_of (I := fun w => ∀ i, N i (w.node i))
    (fun w hw i => hq i _ (hw i)) (fun w e w' hw hs => ?_) h hi
  cases e with
  | act i x =>
    obtain ⟨r, hx, rfl⟩ := Option.map_eq_some_iff.mp hs
    obtain ⟨hg, hn⟩ := hr i _ _ r (hw i) hx
    exact ⟨fun hj => hg (hself w i _ r hj), fun h => World.forall_put (hn h) fun j _ => hw j⟩
  | deliver k =>
    obtain ⟨m, hm, hs⟩ := Option.bind_eq_some_iff.mp hs
    obtain ⟨r, hx, rfl⟩ := Option.map_eq_some_iff.mp hs
    simp only [Guards, hm, Option.mem_def, Option.some.injEq, forall_eq']
    obtain ⟨hg, hn⟩ := hr _ _ _ r (hw _) hx
    exact ⟨fun hj => hg (hself w _ _ r hj), fun h => World.forall_put (hn h) fun j _ => hw j⟩
  | drop k =>
    obtain ⟨-, hs⟩ := Option.ite_none_right_eq_some.mp hs
    obtain rfl := Option.some.inj hs
    exact ⟨fun _ => trivial, fun _ => hw⟩

theorem always_iff_meets {G : ∀ i, σ i → Input χ μ → Prop} {N : ∀ i, σ i → Prop}
    (hr : ∀ i s x r, N i s → P.react i s x = some r → (N i r.state ↔ G i s x))
    {es : List (NetEvent ι χ)} (h : P.system.run w es = some w') (hi : ∀ i, N i (w.node i)) :
    P.system.Always (fun w => ∀ i, N i (w.node i)) w es ↔ P.system.Meets (P.Guards G) w es :=
  always_iff_meets_of (fun _ _ => id) (fun i s x r hs hx => ⟨(hr i s x r hs hx).mp,
    (hr i s x r hs hx).mpr⟩) h hi

theorem trace_subset {es : List (NetEvent ι χ)} (h : P.system.run w es = some w') :
    w.trace ⊆ w'.trace :=
  invariant (I := fun v => w.trace ⊆ v.trace) (fun _ _ hv _ => hv)
    (fun _ _ _ _ _ hv _ _ _ => List.Subset.trans hv World.trace_subset_put) h (List.Subset.refl _)

end Protocol

end DistLab
