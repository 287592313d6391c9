import DistLab.Systems.History
import DistLab.Raft.Reactions

/-! # The order of the applied messages

Every call of `applyLog` hands its messages to a goroutine of its own, and the
reader of `applyCh` takes the next message from any of them. What it has received
since the last restart is in order as long as it takes from the oldest goroutine
that still has a message, and only so long.
-/

namespace DistLab.Raft

variable {n : ℕ} {C : Type*}

def Obs.delivered : Obs n C → Option (ApplyMsg C)
  | .applied _ m => some m
  | _ => none

def received (rf : Server n C) (r : Outcome n C) (ms : List (ApplyMsg C)) : List (ApplyMsg C) :=
  if r.state.boots = rf.boots then ms ++ r.obs.filterMap Obs.delivered else []

def readers (n : ℕ) (C : Type*) [Inhabited C] : Protocol (Fin n)
    (fun _ => Server n C × List (ApplyMsg C)) (Act C) (Msg n C) (Obs n C) :=
  (raft n C).watch (fun _ => []) fun _ => received

def InOrder (ms : List (ApplyMsg C)) : Prop :=
  ms.map ApplyMsg.commandIndex = List.range' 1 ms.length

instance (ms : List (ApplyMsg C)) : Decidable (InOrder ms) :=
  inferInstanceAs (Decidable (_ = _))

/-- The messages read and those still to be sent, in the order of their goroutines. -/
def Lined (s : Server n C × List (ApplyMsg C)) : Prop :=
  (s.2 ++ s.1.batches.flatten).map ApplyMsg.commandIndex = List.range' 1 s.1.lastApplied

/-- The message comes from the oldest goroutine that has one. -/
def Server.TakesOldest (rf : Server n C) : Input (Act C) (Msg n C) → Prop
  | .act (.emit k) => ∀ ms ∈ rf.batches.take k, ms = []
  | _ => True

instance [DecidableEq C] (rf : Server n C) : ∀ x, Decidable (rf.TakesOldest x)
  | .act (.emit k) => inferInstanceAs (Decidable (∀ ms ∈ rf.batches.take k, ms = []))
  | .act .electionTimeout | .act .resetTimer | .act .voteTimeout | .act .takeToFollower
  | .act .switchRole | .act .becomeLeader | .act .heartbeat | .act (.start _) | .act .kill
  | .act .terminate | .act .restart | .recv _ => isTrue trivial

theorem flatten_of_head {α : Type*} {bs : List (List α)} {k : ℕ} {m : α} {ms : List α}
    (h : bs[k]? = some (m :: ms)) :
    bs.flatten = (bs.take k).flatten ++ m :: (ms ++ (bs.drop (k + 1)).flatten) ∧
    (bs.set k ms).flatten = (bs.take k).flatten ++ (ms ++ (bs.drop (k + 1)).flatten) := by
  obtain ⟨hk, hm⟩ := List.getElem?_eq_some_iff.mp h
  constructor
  · conv_lhs => rw [← List.take_append_drop k bs, List.drop_eq_getElem_cons hk, hm]
    simp
  · simp [List.set_eq_take_append_cons_drop, hk]

theorem Lined.inOrder {s : Server n C × List (ApplyMsg C)} (h : Lined s) : InOrder s.2 := by
  unfold Lined at h
  rw [List.map_append] at h
  obtain ⟨k, -, hk, -⟩ := List.range'_eq_append_iff.mp h.symm
  have hlen := congrArg List.length hk
  rw [List.length_map, List.length_range'] at hlen
  rw [InOrder, hk, hlen]

theorem inOrder_snoc {l : List (ApplyMsg C)} {m : ApplyMsg C} :
    InOrder (l ++ [m]) ↔ InOrder l ∧ m.commandIndex = l.length + 1 := by
  simp only [InOrder, List.map_append, List.map_cons, List.map_nil, List.length_append,
    List.length_singleton, List.range'_1_concat]
  constructor
  · intro h
    obtain ⟨hl, hm⟩ := List.append_inj h (by simp)
    exact ⟨hl, by rw [List.singleton_inj.mp hm, Nat.add_comm]⟩
  · rintro ⟨hl, hm⟩
    rw [hl, hm, Nat.add_comm]

theorem Lined.head {s : Server n C × List (ApplyMsg C)} {k : ℕ} {m : ApplyMsg C}
    {ms : List (ApplyMsg C)} (h : Lined s) (hk : s.1.batches[k]? = some (m :: ms)) :
    m.commandIndex = s.2.length + (s.1.batches.take k).flatten.length + 1 := by
  have hline : (s.2 ++ (s.1.batches.take k).flatten).map ApplyMsg.commandIndex ++
      m.commandIndex :: (ms ++ (s.1.batches.drop (k + 1)).flatten).map ApplyMsg.commandIndex =
      List.range' 1 s.1.lastApplied := by
    rw [← List.map_cons, ← List.map_append, List.append_assoc, ← (flatten_of_head hk).1]
    exact h
  obtain ⟨q, -, hq, hrest⟩ := List.range'_eq_append_iff.mp hline.symm
  obtain ⟨hm, -⟩ := List.range'_eq_cons_iff.mp hrest.symm
  have hlen := congrArg List.length hq
  simp only [List.length_map, List.length_append, List.length_range'] at hlen
  omega

theorem appMsgs_indices {log : List (LogEntry C)} {la k : ℕ} {ms : List (ApplyMsg C)}
    (h : Server.appMsgs log la k = some ms) :
    ms.map ApplyMsg.commandIndex = List.range' (la + 1) k := by
  induction k generalizing la ms with
  | zero =>
    obtain rfl := Option.some.inj h
    rfl
  | succ k ih =>
    simp only [Server.appMsgs, Option.bind_eq_bind, Option.bind_eq_some_iff, Option.pure_def] at h
    obtain ⟨e, -, ms', hms', h⟩ := h
    obtain rfl := Option.some.inj h
    rw [List.map_cons, ih hms', List.range'_succ]

namespace Server

variable {me : Fin n} {rf : Server n C} {x : Input (Act C) (Msg n C)} {r : Outcome n C}

/-- A step that sends nothing on `applyCh` starts a goroutine with the next messages, if any. -/
structure Queues (rf : Server n C) (r : Outcome n C) : Prop where
  boots : r.state.boots = rf.boots
  obs : r.obs.filterMap Obs.delivered = []
  queue : ∃ k ms, ms.map ApplyMsg.commandIndex = List.range' (rf.lastApplied + 1) k ∧
    r.state.lastApplied = rf.lastApplied + k ∧
    r.state.batches.flatten = rf.batches.flatten ++ ms

theorem Queues.of_eq (hb : r.state.boots = rf.boots) (ho : r.obs.filterMap Obs.delivered = [])
    (hl : r.state.lastApplied = rf.lastApplied) (hq : r.state.batches = rf.batches) :
    rf.Queues r :=
  ⟨hb, ho, 0, [], rfl, hl, by rw [hq, List.append_nil]⟩

theorem Queues.of_applyLog {log : List (LogEntry C)} {ci : ℕ} {ms : List (ApplyMsg C)}
    (hm : appMsgs log rf.lastApplied (ci - rf.lastApplied) = some ms)
    (hb : r.state.boots = rf.boots) (ho : r.obs.filterMap Obs.delivered = [])
    (hl : r.state.lastApplied = max rf.lastApplied ci) (hq : r.state.batches = rf.batches ++ [ms]) :
    rf.Queues r :=
  ⟨hb, ho, _, ms, appMsgs_indices hm, by omega, by simp [hq]⟩

theorem Queues.of_acceptEntries {u : Server n C} {args : AppendEntriesArgs n C} {prev : ℕ}
    (hu : (rf.updateTerm args.term).1.acceptEntries args prev = .ok u) (ho : r.obs.filterMap
      Obs.delivered = []) (hr : r.state = { u with resetElectionTimer := true }) :
    rf.Queues r := by
  rcases acceptEntries_ok hu with ⟨-, rfl⟩ | ⟨-, ci, ms, -, hm, rfl⟩
  · exact .of_eq (by simp [hr, splice]) ho (by simp [hr, splice]) (by simp [hr, splice])
  · rw [updateTerm_lastApplied] at hm
    exact .of_applyLog hm (by simp [hr, splice]) ho (by simp [hr]) (by simp [hr])

end Server

variable [Inhabited C] {x : Input (Act C) (Msg n C)} {r : Outcome n C}

theorem Server.Reacts.queues {me : Fin n} {rf : Server n C} (h : Reacts me rf x r)
    (hx : ∀ k, x ≠ .act (.emit k)) :
    rf.Queues r ∨ ∃ u : Server n C, u.boots = rf.boots ∧ r.state = u.restart := by
  cases h with
  | pass | resume | campaign | win | start | depose | countVote | matched =>
    exact Or.inl (.of_eq rfl rfl rfl rfl)
  | broadcast =>
    refine Or.inl (.of_eq rfl ?_ rfl rfl)
    simp [List.filterMap_map, Function.comp_def, Obs.delivered]
  | brokenBroadcast => exact Or.inr ⟨_, makeChan_boots, rfl⟩
  | emit => exact absurd rfl (hx _)
  | crash _ _ _ hb => exact Or.inr ⟨_, hb, rfl⟩
  | crashRaised => exact Or.inr ⟨_, updateTerm_boots, rfl⟩
  | crashNominee => exact Or.inr ⟨rf.nominate me, rfl, rfl⟩
  | refuseVote | grantVote | refuseEntries =>
    exact Or.inl (.of_eq (by simp) rfl (by simp) (by simp))
  | accept ht hp he het hs hu => exact Or.inl (.of_acceptEntries hu rfl rfl)
  | commit hr ht hs hne hc he het hm => exact Or.inl (.of_applyLog hm rfl rfl rfl rfl)

section Steps

variable {i : Fin n} {s : Server n C × List (ApplyMsg C)}

/-- Every step but the sending of a message keeps the line. -/
theorem Lined.of_queues (h : Lined s) (hr : s.1.Reacts i x r) (hx : ∀ k, x ≠ .act (.emit k)) :
    Lined (r.state, received s.1 r s.2) := by
  rcases hr.queues hx with ⟨hb, ho, k, ms, hms, hl, hq⟩ | ⟨u, hb, hu⟩
  · have hold : (s.2 ++ s.1.batches.flatten).map ApplyMsg.commandIndex =
      List.range' 1 s.1.lastApplied := h
    simp only [Lined, received, hb, if_pos, ho, List.append_nil, hl, hq]
    rw [← List.append_assoc, List.map_append, hold, hms, Nat.add_comm s.1.lastApplied 1,
      List.range'_append_1]
  · simp [Lined, received, hu, hb]

theorem react_emit {k : ℕ} (h : (raft n C).react i s.1 (.act (.emit k)) = some r) :
    ∃ m ms, s.1.batches[k]? = some (m :: ms) ∧
      r = ⟨{ s.1 with batches := s.1.batches.set k ms }, [], [.applied i m]⟩ := by
  simp only [raft, Server.act] at h
  split at h
  · rename_i m ms hk
    exact ⟨m, ms, hk, (Option.some.inj h).symm⟩
  · cases h

theorem lined_react (h : Lined s) (hr : (raft n C).react i s.1 x = some r) :
    (InOrder (received s.1 r s.2) → s.1.TakesOldest x) ∧
      (s.1.TakesOldest x → Lined (r.state, received s.1 r s.2)) := by
  by_cases hx : ∃ k, x = .act (.emit k)
  · obtain ⟨k, rfl⟩ := hx
    obtain ⟨m, ms, hk, rfl⟩ := react_emit hr
    have hhead := h.head hk
    simp only [received, Obs.delivered, if_pos, List.filterMap_cons, List.filterMap_nil,
      Server.TakesOldest, ← List.flatten_eq_nil_iff]
    constructor
    · intro ho
      have hm := (inOrder_snoc.mp ho).2
      exact List.length_eq_zero_iff.mp (by omega)
    · intro hold
      obtain ⟨hb, hset⟩ := flatten_of_head hk
      unfold Lined at h ⊢
      rw [hb, hold] at h
      rw [hset, hold]
      simpa using h
  · refine ⟨fun _ => ?_, fun _ => h.of_queues (Server.react_reacts hr) fun k he => hx ⟨k, he⟩⟩
    unfold Server.TakesOldest
    split
    · exact absurd ⟨_, rfl⟩ hx
    · trivial

end Steps

/-- The messages read from `applyCh` between two restarts of a server have indices 1, 2, 3, …
throughout a run exactly when every message of the run is taken from the oldest goroutine that
has one. -/
theorem applied_in_order_iff {w : Cluster n C} {es : List (NetEvent (Fin n) (Act C))}
    (h : (cluster n C).run (cluster n C).init es = some w) :
    (readers n C).system.Always (fun v => ∀ i, InOrder (v.node i).2)
        (readers n C).system.init es ↔
      (cluster n C).Meets ((raft n C).Guards fun _ => Server.TakesOldest)
        (cluster n C).init es := by
  obtain ⟨v, hv, -⟩ := Protocol.exists_run_watch (a := fun _ => []) (f := fun _ => received) h
  have hguard : (readers n C).system.Meets ((readers n C).Guards fun _ s => s.1.TakesOldest)
      (readers n C).system.init es ↔ _ := Protocol.meets_watch es
  refine Iff.trans ?_ hguard
  refine Protocol.always_iff_meets_of (N := fun _ => Lined) (fun _ _ hs => hs.inOrder) ?_ hv
    fun _ => rfl
  intro i s y t hs ht
  obtain ⟨r, hr, rfl⟩ := Option.map_eq_some_iff.mp ht
  exact lined_react hs hr

def committedTwice : List (NetEvent (Fin 2) (Act ℕ)) :=
  [.act 0 .electionTimeout, .deliver 0, .deliver 0, .act 0 .becomeLeader, .act 0 (.start 10),
    .act 0 .heartbeat, .deliver 0, .deliver 0, .act 0 (.start 11), .act 0 .heartbeat,
    .deliver 0, .deliver 0]

theorem applied_out_of_order :
    ∃ v, (readers 2 ℕ).system.run (readers 2 ℕ).system.init
        (committedTwice ++ [.act 0 (.emit 1)]) = some v ∧
      (v.node 0).2 = [⟨true, 11, 2⟩] ∧ (v.node 0).1.batches = [[⟨true, 10, 1⟩], []] ∧
      (v.node 0).1.boots = 0 ∧ ¬ InOrder (v.node 0).2 :=
  ⟨_, (readers 2 ℕ).system.run_after (readers 2 ℕ).system.init
    (committedTwice ++ [.act 0 (.emit 1)]) (by decide +kernel), by decide +kernel⟩

theorem applied_in_order_iff_oldest :
    ∃ v, (readers 2 ℕ).system.run (readers 2 ℕ).system.init
        (committedTwice ++ [.act 0 (.emit 0), .act 0 (.emit 1)]) = some v ∧
      (v.node 0).2 = [⟨true, 10, 1⟩, ⟨true, 11, 2⟩] ∧
      (readers 2 ℕ).system.Always (fun v => ∀ i, InOrder (v.node i).2)
        (readers 2 ℕ).system.init (committedTwice ++ [.act 0 (.emit 0), .act 0 (.emit 1)]) :=
  have h := (cluster 2 ℕ).run_after (cluster 2 ℕ).init
    (committedTwice ++ [.act 0 (.emit 0), .act 0 (.emit 1)]) (by decide +kernel)
  ⟨_, (readers 2 ℕ).system.run_after (readers 2 ℕ).system.init
    (committedTwice ++ [.act 0 (.emit 0), .act 0 (.emit 1)]) (by decide +kernel), by decide +kernel,
    (applied_in_order_iff h).mpr (by decide +kernel)⟩

end DistLab.Raft
