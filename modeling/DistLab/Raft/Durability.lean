import DistLab.Raft.Reactions

/-! # What a restart restores

Every section of the code saves the term, the vote and the log after changing them,
with one exception: the accepting branch of `AppendEntries` saves the cut log and
appends the new entries afterwards. The state in memory is the saved one in every
state of a run exactly when no accepted request of the run brings a new entry.
-/

namespace DistLab.Raft

variable {n : ℕ} {C : Type*}

def appendRequest : Input (Act C) (Msg n C) → Option (AppendEntriesArgs n C)
  | .recv (.appendEntries _ _ args) => some args
  | _ => none

namespace Server

/-- The request is not of an earlier term and the log has its previous entry. -/
def Matches (rf : Server n C) (args : AppendEntriesArgs n C) : Prop :=
  rf.currentTerm ≤ args.term ∧ 0 ≤ args.prevLogIndex ∧
    rf.log[args.prevLogIndex.toNat]?.map LogEntry.termIdx = some args.prevLogTerm

def HasEntries (rf : Server n C) (x : Input (Act C) (Msg n C)) : Prop :=
  ∀ args ∈ appendRequest x, rf.Matches args → args.entries.map LogEntry.termIdx <+:
    (rf.log.drop (args.prevLogIndex.toNat + 1)).map LogEntry.termIdx

instance (rf : Server n C) (args : AppendEntriesArgs n C) : Decidable (rf.Matches args) :=
  inferInstanceAs (Decidable (_ ∧ _))

instance (rf : Server n C) (x : Input (Act C) (Msg n C)) : Decidable (rf.HasEntries x) :=
  inferInstanceAs (Decidable (∀ args ∈ appendRequest x, rf.Matches args → _ <+: _))

variable {rf : Server n C} {args : AppendEntriesArgs n C}

theorem matches_of_eq {prev : ℕ} {e : LogEntry C} (ht : rf.currentTerm ≤ args.term)
    (hp : args.prevLogIndex = prev) (he : rf.log[prev]? = some e)
    (het : e.termIdx = args.prevLogTerm) : rf.Matches args := by
  have hprev : args.prevLogIndex.toNat = prev := by omega
  exact ⟨ht, by omega, by rw [hprev, he, Option.map_some, het]⟩

theorem appendEntries_of_matches (h : rf.Matches args) : ∃ u,
    (rf.updateTerm args.term).1.acceptEntries args args.prevLogIndex.toNat = .ok u ∧
    rf.appendEntries args =
      .ok ({ u with resetElectionTimer := true }, ⟨rf.currentTerm, true, 0⟩) := by
  obtain ⟨hle, h0, h⟩ := h
  obtain ⟨e, he, het⟩ := Option.map_eq_some_iff.mp h
  obtain ⟨hlt, -⟩ := List.getElem?_eq_some_iff.mp he
  have hl : (rf.updateTerm args.term).1.log = rf.log := updateTerm_log
  have ht : (rf.updateTerm args.term).1.currentTerm = args.term := by simp [hle]
  obtain ⟨u, hu⟩ : ∃ u, (rf.updateTerm args.term).1.acceptEntries args args.prevLogIndex.toNat =
    .ok u := exists_acceptEntries (hl ▸ hlt)
  have hat : at? rf.log args.prevLogIndex = some e := at?_eq_some.mpr ⟨h0, he⟩
  refine ⟨u, hu, ?_⟩
  unfold appendEntries
  generalize (rf.updateTerm args.term).1 = v at hl ht hu ⊢
  dsimp only
  rw [if_neg (by omega), if_neg (by rw [hl]; omega), hl, hat]
  simp only [het, ne_eq, not_true_eq_false, if_false, hu]
  rfl

variable [Inhabited C]

/-- The term, the vote and the log in memory are those a restart would read back. -/
def Durable (rf : Server n C) : Prop := rf.stored = rf.saved

theorem durable_restart : rf.restart.Durable := by simp [Durable]

theorem Durable.updateTerm (h : rf.Durable) (t : ℕ) : (rf.updateTerm t).1.Durable := by
  rcases le_or_gt t rf.currentTerm with hle | hlt
  · rwa [updateTerm_of_le hle]
  · rw [updateTerm_eq]
    simp [Durable, stored, saved, hlt, hlt.le]

theorem durable_splice_iff {prev : ℕ} : (rf.splice args prev).Durable ↔
    args.entries.map LogEntry.termIdx <+: (rf.log.drop (prev + 1)).map LogEntry.termIdx := by
  rw [← skipSame_eq_length_iff]
  have hle : skipSame args.entries (rf.log.drop (prev + 1)) ≤ args.entries.length := skipSame_le
  simp only [Durable, stored, splice, saved, Option.getD_some, Saved.mk.injEq, true_and, spliced,
    List.self_eq_append_right, List.drop_eq_nil_iff]
  omega

theorem durable_of_acceptEntries {prev : ℕ} {u : Server n C}
    (h : rf.acceptEntries args prev = .ok u) : u.Durable ↔ (rf.splice args prev).Durable := by
  obtain ⟨ci, la, bs, rfl⟩ := acceptEntries_frame h
  rfl

variable {me : Fin n}

theorem Reacts.durable {x : Input (Act C) (Msg n C)} {r : Outcome n C} (h : Reacts me rf x r)
    (hd : rf.Durable) (hx : rf.HasEntries x) : r.state.Durable := by
  cases h with
  | pass | resume | win | broadcast | emit | countVote | matched | commit => exact hd
  | campaign | start | depose | grantVote => exact rfl
  | brokenBroadcast | crash | crashRaised | crashNominee => exact durable_restart
  | refuseVote | refuseEntries => exact hd.updateTerm _
  | @accept p ch args reply e u prev ht hp he het hs hu =>
    have hprev : args.prevLogIndex.toNat = prev := by omega
    refine (durable_of_acceptEntries hu).mpr (durable_splice_iff.mpr ?_)
    rw [updateTerm_log, ← hprev]
    exact hx args rfl (matches_of_eq ht hp he het)

theorem durable_react_iff {x : Input (Act C) (Msg n C)} {r : Outcome n C} (hd : rf.Durable)
    (h : (raft n C).react me rf x = some r) : r.state.Durable ↔ rf.HasEntries x := by
  refine ⟨fun hr => ?_, (react_reacts h).durable hd⟩
  rintro args hx hm
  obtain ⟨p, ch, rfl⟩ : ∃ p ch, x = .recv (.appendEntries p ch args) := by
    unfold appendRequest at hx
    split at hx
    · exact ⟨_, _, by rw [Option.some.inj hx]⟩
    · cases hx
  obtain ⟨u, hu, ha⟩ := appendEntries_of_matches hm
  obtain rfl := Option.some.inj h
  have hdu : u.Durable := by
    simp only [recv, ha] at hr
    exact hr
  rw [durable_of_acceptEntries hu, durable_splice_iff, updateTerm_log] at hdu
  exact hdu

end Server

/-- The state in memory is the saved one in every state of a run exactly when no accepted request
of the run brings an entry whose term is not in the log yet. -/
theorem durable_iff [Inhabited C] {w : Cluster n C} {es : List (NetEvent (Fin n) (Act C))}
    (h : (cluster n C).run (cluster n C).init es = some w) :
    (cluster n C).Always (fun w => ∀ i, (w.node i).Durable) (cluster n C).init es ↔
      (cluster n C).Meets ((raft n C).Guards fun _ => Server.HasEntries) (cluster n C).init es :=
  Protocol.always_iff_meets (fun _ _ _ _ => Server.durable_react_iff) h fun _ => rfl

def replicated : List (NetEvent (Fin 2) (Act ℕ)) :=
  [.act 0 .electionTimeout, .deliver 0, .deliver 0, .act 0 .becomeLeader, .act 0 (.start 10),
    .act 0 .heartbeat, .deliver 0]

theorem unsaved_replicated :
    ∃ w, (cluster 2 ℕ).run (cluster 2 ℕ).init replicated = some w ∧
      .appendEntriesReply 1 0 ⟨1, 0, 0, 0, [⟨10, 1⟩], 0⟩ ⟨1, true, 0⟩ ∈ w.net ∧
      (w.node 1).log = [sentinel, ⟨10, 1⟩] ∧ (w.node 1).stored.log = [sentinel] :=
  ⟨_, (cluster 2 ℕ).run_after (cluster 2 ℕ).init replicated (by decide), by decide⟩

def announced : List (NetEvent (Fin 2) (Act ℕ)) :=
  [.act 0 .electionTimeout, .deliver 0, .deliver 0, .act 0 .becomeLeader, .act 0 .heartbeat,
    .deliver 0, .act 0 (.start 10)]

theorem durable_iff_announced :
    ∃ w, (cluster 2 ℕ).run (cluster 2 ℕ).init announced = some w ∧
      (w.node 0).log = [sentinel, ⟨10, 1⟩] ∧
      (cluster 2 ℕ).Always (fun w => ∀ i, (w.node i).Durable) (cluster 2 ℕ).init announced :=
  have h := (cluster 2 ℕ).run_after (cluster 2 ℕ).init announced (by decide)
  ⟨_, h, by decide, (durable_iff h).mpr (by decide)⟩

end DistLab.Raft
