import DistLab.Raft.Cluster

/-! # What the functions of a server change

Field by field effects of the building blocks of the code, and the shape of the
state in which a function that cannot finish panics.
-/

namespace DistLab.Raft

variable {n : ℕ} {C : Type*}

theorem at?_eq_some {α : Type*} {l : List α} {k : ℤ} {a : α} :
    at? l k = some a ↔ 0 ≤ k ∧ l[k.toNat]? = some a := by
  unfold at?
  split <;> simp <;> omega

namespace Server

variable {rf rf' : Server n C} {me : Fin n} {t : ℕ}

/-- What a restart would read back. -/
def stored [Inhabited C] (rf : Server n C) : Saved n C := rf.persister.getD Saved.blank

section Persist

@[simp] theorem persist_persister : rf.persist.persister = some rf.saved := rfl
@[simp] theorem persist_currentTerm : rf.persist.currentTerm = rf.currentTerm := rfl
@[simp] theorem persist_votedFor : rf.persist.votedFor = rf.votedFor := rfl
@[simp] theorem persist_log : rf.persist.log = rf.log := rfl
@[simp] theorem persist_status : rf.persist.status = rf.status := rfl
@[simp] theorem persist_routine : rf.persist.routine = rf.routine := rfl
@[simp] theorem persist_boots : rf.persist.boots = rf.boots := rfl
@[simp] theorem persist_chans : rf.persist.chans = rf.chans := rfl
@[simp] theorem persist_commitIndex : rf.persist.commitIndex = rf.commitIndex := rfl
@[simp] theorem persist_lastApplied : rf.persist.lastApplied = rf.lastApplied := rfl
@[simp] theorem persist_batches : rf.persist.batches = rf.batches := rfl
@[simp] theorem persist_matchIndex : rf.persist.matchIndex = rf.matchIndex := rfl

theorem saved_eq_iff {s : Saved n C} : rf.saved = s ↔
    rf.currentTerm = s.currentTerm ∧ rf.votedFor = s.votedFor ∧ rf.log = s.log := by
  simp [saved, Saved.ext_iff]

end Persist

section MakeChan

@[simp] theorem makeChan_routine : rf.makeChan.routine = .leader (some rf.chans) := rfl
@[simp] theorem makeChan_chans : rf.makeChan.chans = rf.chans + 1 := rfl
@[simp] theorem makeChan_boots : rf.makeChan.boots = rf.boots := rfl
@[simp] theorem makeChan_currentTerm : rf.makeChan.currentTerm = rf.currentTerm := rfl

end MakeChan

section Restart

variable [Inhabited C]

@[simp] theorem makeChan_stored : rf.makeChan.stored = rf.stored := rfl

@[simp] theorem restart_persister : rf.restart.persister = rf.persister := by
  unfold restart make readPersist; split <;> rfl

@[simp] theorem restart_saved : rf.restart.saved = rf.stored := by
  unfold restart make readPersist stored; split <;> simp_all [saved, Saved.blank]

@[simp] theorem restart_stored : rf.restart.stored = rf.stored := by simp [stored]

@[simp] theorem restart_currentTerm : rf.restart.currentTerm = rf.stored.currentTerm :=
  congrArg Saved.currentTerm restart_saved

@[simp] theorem restart_votedFor : rf.restart.votedFor = rf.stored.votedFor :=
  congrArg Saved.votedFor restart_saved

@[simp] theorem restart_log : rf.restart.log = rf.stored.log :=
  congrArg Saved.log restart_saved

@[simp] theorem restart_status : rf.restart.status = .follower := by
  unfold restart make readPersist; split <;> rfl

@[simp] theorem restart_routine : rf.restart.routine = .follower := by
  unfold restart make readPersist; split <;> rfl

@[simp] theorem restart_boots : rf.restart.boots = rf.boots + 1 := by
  unfold restart make readPersist; split <;> rfl

@[simp] theorem restart_chans : rf.restart.chans = rf.chans := by
  unfold restart make readPersist; split <;> rfl

@[simp] theorem restart_batches : rf.restart.batches = [] := by
  unfold restart make readPersist; split <;> rfl

@[simp] theorem restart_commitIndex : rf.restart.commitIndex = 0 := by
  unfold restart make readPersist; split <;> rfl

@[simp] theorem restart_lastApplied : rf.restart.lastApplied = 0 := by
  unfold restart make readPersist; split <;> rfl

end Restart

section Outcomes

@[simp] theorem quiet_state : rf.quiet.state = rf := rfl
@[simp] theorem quiet_out : rf.quiet.out = [] := rfl
@[simp] theorem quiet_obs : rf.quiet.obs = [] := rfl

def extend (me : Fin n) (rf : Server n C) (command : C) : Server n C :=
  { persist { rf with log := rf.log ++ [⟨command, rf.currentTerm⟩] } with
    matchIndex := Function.update rf.matchIndex me (rf.matchIndex me + 1) }

theorem start_of_leader (hs : rf.status = .leader) (command : C) :
    (rf.start me command).1 = rf.extend me command := by
  simp [start, hs, extend, persist, saved]

@[simp] theorem extend_log {command : C} :
    (rf.extend me command).log = rf.log ++ [⟨command, rf.currentTerm⟩] := rfl

variable [Inhabited C]

@[simp] theorem crash_state : rf.crash.state = rf.restart := rfl
@[simp] theorem crash_out : rf.crash.out = [] := rfl
@[simp] theorem crash_obs : rf.crash.obs = [] := rfl

/-- The state in which a server opens a round of `candidateRoutine`. -/
def nominate (me : Fin n) (rf : Server n C) : Server n C :=
  persist { rf with currentTerm := rf.currentTerm + 1, votedFor := some me }

theorem campaign_eq : rf.campaign me = match rf.log.getLast? with
    | none => (rf.nominate me).crash
    | some e =>
      let args := ⟨rf.currentTerm + 1, me, rf.log.length - 1, e.termIdx⟩
      ⟨{ rf.nominate me with routine := .candidate args (Finset.univ.erase me) 1 },
        (peers me).map (.requestVote · args),
        [.granted me me (rf.currentTerm + 1) rf.log, .counted me me (rf.currentTerm + 1)]⟩ := by
  unfold campaign enterCandidate
  cases h : rf.log.getLast? <;> simp [h, nominate]

end Outcomes

section UpdateTerm

/-- `updateTerm` touches the term, the vote, the role and the `Persister`, nothing else. -/
theorem updateTerm_eq (rf : Server n C) (t : ℕ) : (rf.updateTerm t).1 = { rf with
    persister := if rf.currentTerm < t then some ⟨t, none, rf.log⟩ else rf.persister
    currentTerm := max rf.currentTerm t
    votedFor := if rf.currentTerm < t then none else rf.votedFor
    status := if rf.currentTerm < t ∧ rf.toFollower = false then .follower else rf.status
    toFollower := if rf.currentTerm < t ∧ rf.status ≠ .follower then true else rf.toFollower } := by
  rcases le_or_gt t rf.currentTerm with h | h
  · simp [updateTerm, Nat.not_lt.mpr h, max_eq_left h]
  · cases hs : rf.status <;> cases ht : rf.toFollower <;>
      simp [updateTerm, persist, saved, h, h.le, hs, ht]

theorem updateTerm_of_le (h : t ≤ rf.currentTerm) : (rf.updateTerm t).1 = rf := by
  simp [updateTerm, Nat.not_lt.mpr h]

@[simp] theorem updateTerm_currentTerm :
    (rf.updateTerm t).1.currentTerm = max rf.currentTerm t := by rw [updateTerm_eq]

@[simp] theorem updateTerm_votedFor : (rf.updateTerm t).1.votedFor =
    if rf.currentTerm < t then none else rf.votedFor := by rw [updateTerm_eq]

@[simp] theorem updateTerm_persister : (rf.updateTerm t).1.persister =
    if rf.currentTerm < t then some ⟨t, none, rf.log⟩ else rf.persister := by rw [updateTerm_eq]

@[simp] theorem updateTerm_status : (rf.updateTerm t).1.status =
    if rf.currentTerm < t ∧ rf.toFollower = false then .follower else rf.status := by
  rw [updateTerm_eq]

@[simp] theorem updateTerm_log : (rf.updateTerm t).1.log = rf.log := by rw [updateTerm_eq]

@[simp] theorem updateTerm_routine : (rf.updateTerm t).1.routine = rf.routine := by
  rw [updateTerm_eq]

@[simp] theorem updateTerm_boots : (rf.updateTerm t).1.boots = rf.boots := by rw [updateTerm_eq]

@[simp] theorem updateTerm_chans : (rf.updateTerm t).1.chans = rf.chans := by rw [updateTerm_eq]

@[simp] theorem updateTerm_batches : (rf.updateTerm t).1.batches = rf.batches := by
  rw [updateTerm_eq]

@[simp] theorem updateTerm_commitIndex : (rf.updateTerm t).1.commitIndex = rf.commitIndex := by
  rw [updateTerm_eq]

@[simp] theorem updateTerm_lastApplied : (rf.updateTerm t).1.lastApplied = rf.lastApplied := by
  rw [updateTerm_eq]

@[simp] theorem updateTerm_matchIndex : (rf.updateTerm t).1.matchIndex = rf.matchIndex := by
  rw [updateTerm_eq]

end UpdateTerm

section ApplyLog

theorem appMsgs_isSome {log : List (LogEntry C)} (la k : ℕ) (h : la + k < log.length) :
    (appMsgs log la k).isSome = true := by
  induction k generalizing la with
  | zero => rfl
  | succ k ih =>
    have hlt : la + 1 < log.length := by omega
    obtain ⟨ms, hms⟩ := Option.isSome_iff_exists.mp (ih (la + 1) (by omega))
    simp [appMsgs, List.getElem?_eq_getElem hlt, hms]

theorem exists_appMsgs (log : List (LogEntry C)) (la ci : ℕ) (h : ci < log.length) :
    ∃ ms, appMsgs log la (ci - la) = some ms := by
  rcases le_or_gt ci la with hle | hlt
  · rw [Nat.sub_eq_zero_of_le hle]
    exact ⟨[], rfl⟩
  · exact Option.isSome_iff_exists.mp (appMsgs_isSome la (ci - la) (by omega))

theorem appMsgs_spec {log : List (LogEntry C)} {la k : ℕ} {ms : List (ApplyMsg C)}
    (h : appMsgs log la k = some ms) : ∀ m ∈ ms, la < m.commandIndex ∧ m.commandIndex ≤ la + k ∧
      ∃ e, log[m.commandIndex]? = some e ∧ e.content = m.command := by
  induction k generalizing la ms with
  | zero =>
    obtain rfl := Option.some.inj h
    simp
  | succ k ih =>
    simp only [appMsgs, Option.bind_eq_bind, Option.bind_eq_some_iff, Option.pure_def] at h
    obtain ⟨e, he, ms', hms', h⟩ := h
    obtain rfl := Option.some.inj h
    intro m hm
    rcases List.mem_cons.mp hm with rfl | hm
    · exact ⟨Nat.lt_succ_self _, by dsimp only; omega, e, he, rfl⟩
    · obtain ⟨hlt, hle, hm⟩ := ih hms' m hm
      exact ⟨by omega, by omega, hm⟩

theorem applyLog_ok (h : rf.applyLog = .ok rf') :
    ∃ ms, appMsgs rf.log rf.lastApplied (rf.commitIndex - rf.lastApplied) = some ms ∧
      rf' = { rf with
        lastApplied := max rf.lastApplied rf.commitIndex
        batches := rf.batches ++ [ms] } := by
  unfold applyLog at h
  split at h
  · cases h
  · rename_i ms hms
    exact ⟨ms, hms, (Except.ok.inj h).symm⟩

theorem applyLog_error (h : rf.applyLog = .error rf') : rf' = rf := by
  unfold applyLog at h
  split at h
  · exact (Except.error.inj h).symm
  · cases h

end ApplyLog

section RequestVote

variable {args : RequestVoteArgs n} {reply : RequestVoteReply}

theorem logNewer_error {e : Server n C} (h : rf.logNewer args = .error e) : e = rf := by
  unfold logNewer at h
  split at h
  · exact (Except.error.inj h).symm
  · split_ifs at h

/-- A vote is refused, after the term was brought up to date, or granted by a server that has
voted for nobody else in the term and finds the candidate's log at least as new as its own. -/
theorem requestVote_ok (h : rf.requestVote args = .ok (rf', reply)) :
    (rf' = (rf.updateTerm args.term).1 ∧ reply.voteGranted = false) ∨
    (rf.currentTerm ≤ args.term ∧
      (rf.currentTerm = args.term → rf.votedFor = none ∨ rf.votedFor = some args.candidateId) ∧
      (rf.updateTerm args.term).1.logNewer args = .ok true ∧
      rf' = { persist { (rf.updateTerm args.term).1 with votedFor := some args.candidateId } with
        resetElectionTimer := true } ∧
      reply.voteGranted = true) := by
  have ht : (rf.updateTerm args.term).1.currentTerm = max rf.currentTerm args.term :=
    updateTerm_currentTerm
  have hv : (rf.updateTerm args.term).1.votedFor =
    if rf.currentTerm < args.term then none else rf.votedFor := updateTerm_votedFor
  unfold requestVote at h
  generalize (rf.updateTerm args.term).1 = u at h ht hv ⊢
  dsimp only at h
  split_ifs at h with hlt hother
  · obtain ⟨rfl, rfl⟩ := Prod.mk.inj (Except.ok.inj h)
    exact Or.inl ⟨rfl, rfl⟩
  · obtain ⟨rfl, rfl⟩ := Prod.mk.inj (Except.ok.inj h)
    exact Or.inl ⟨rfl, rfl⟩
  · split at h
    · cases h
    · obtain ⟨rfl, rfl⟩ := Prod.mk.inj (Except.ok.inj h)
      exact Or.inl ⟨rfl, rfl⟩
    · rename_i hn
      obtain ⟨rfl, rfl⟩ := Prod.mk.inj (Except.ok.inj h)
      refine Or.inr ⟨by omega, fun he => ?_, hn, rfl, rfl⟩
      rw [if_neg (by omega)] at hv
      rw [hv] at hother
      tauto

theorem exists_requestVote (h : rf.log ≠ []) (args : RequestVoteArgs n) :
    ∃ u reply, rf.requestVote args = .ok (u, reply) := by
  have hl : (rf.updateTerm args.term).1.log = rf.log := updateTerm_log
  unfold requestVote
  generalize (rf.updateTerm args.term).1 = u at hl
  dsimp only
  split_ifs
  · exact ⟨_, _, rfl⟩
  · exact ⟨_, _, rfl⟩
  · split
    · rename_i v hv
      unfold logNewer at hv
      split at hv
      · rename_i hlast
        exact absurd (hl.symm.trans (List.getLast?_eq_none_iff.mp hlast)) h
      · split_ifs at hv
    · exact ⟨_, _, rfl⟩
    · exact ⟨_, _, rfl⟩

theorem requestVote_error (h : rf.requestVote args = .error rf') :
    rf' = (rf.updateTerm args.term).1 := by
  unfold requestVote at h
  generalize (rf.updateTerm args.term).1 = u at h ⊢
  dsimp only at h
  split_ifs at h
  split at h
  · rename_i hn
    exact (Except.error.inj h).symm.trans (logNewer_error hn)
  · cases h
  · cases h

end RequestVote

section AppendEntries

variable {args : AppendEntriesArgs n C} {reply : AppendEntriesReply} {prev : ℕ}

theorem conflictStart_spec (log : List (LogEntry C)) (t k : ℕ) :
    conflictStart log t k ≤ k ∧
    (∀ j, conflictStart log t k ≤ j → j < k → log[j]?.map LogEntry.termIdx = some t) ∧
    ∀ c, conflictStart log t k = c + 1 → log[c]?.map LogEntry.termIdx ≠ some t := by
  fun_induction conflictStart log t k with
  | case1 => simp
  | case2 k hk ih =>
    obtain ⟨hle, hrun, hlast⟩ := ih
    refine ⟨by omega, fun j hj hlt => ?_, hlast⟩
    rcases Nat.lt_succ_iff_lt_or_eq.mp hlt with hlt | rfl
    · exact hrun j hj hlt
    · exact hk
  | case3 k hk =>
    refine ⟨le_rfl, fun j hj hlt => by omega, fun c hc => ?_⟩
    obtain rfl := Nat.succ.inj hc
    exact hk

theorem skipSame_le {es os : List (LogEntry C)} : skipSame es os ≤ es.length := by
  fun_induction skipSame es os with
  | case1 e es o os he ih => simpa using ih
  | case2 => exact Nat.zero_le _
  | case3 => exact Nat.zero_le _

theorem skipSame_le_right {es os : List (LogEntry C)} : skipSame es os ≤ os.length := by
  fun_induction skipSame es os with
  | case1 e es o os he ih => simpa using ih
  | case2 => exact Nat.zero_le _
  | case3 => exact Nat.zero_le _

theorem skipSame_eq_length_iff {es os : List (LogEntry C)} : skipSame es os = es.length ↔
    es.map LogEntry.termIdx <+: os.map LogEntry.termIdx := by
  fun_induction skipSame es os with
  | case1 e es o os he ih => simp [he, ih]
  | case2 e es o os he => simp [he]
  | case3 es os hne =>
    cases es with
    | nil => simp
    | cons e es =>
      cases os with
      | nil => simp
      | cons o os => exact (hne e es o os rfl rfl).elim

theorem skipSame_spec {es os : List (LogEntry C)} {q : ℕ} (h : q < skipSame es os) :
    ∃ a b, es[q]? = some a ∧ os[q]? = some b ∧ a.termIdx = b.termIdx := by
  fun_induction skipSame es os generalizing q with
  | case1 e es o os he ih =>
    cases q with
    | zero => exact ⟨e, o, rfl, rfl, he⟩
    | succ q => exact ih (by omega)
  | case2 => omega
  | case3 => omega

/-- The log that the accepting branch of `AppendEntries` leaves behind. -/
def spliced (rf : Server n C) (args : AppendEntriesArgs n C) (prev : ℕ) : List (LogEntry C) :=
  rf.log.take (prev + 1 + skipSame args.entries (rf.log.drop (prev + 1))) ++
    args.entries.drop (skipSame args.entries (rf.log.drop (prev + 1)))

def splice (rf : Server n C) (args : AppendEntriesArgs n C) (prev : ℕ) : Server n C :=
  { rf with
    persister := some ⟨rf.currentTerm, rf.votedFor,
      rf.log.take (prev + 1 + skipSame args.entries (rf.log.drop (prev + 1)))⟩
    log := rf.spliced args prev }

theorem acceptEntries_eq : rf.acceptEntries args prev =
    if args.leaderCommit > rf.commitIndex then
      applyLog { rf.splice args prev with
        commitIndex := min ((rf.spliced args prev).length - 1) args.leaderCommit }
    else .ok (rf.splice args prev) := rfl

theorem acceptEntries_ok {u : Server n C} (h : rf.acceptEntries args prev = .ok u) :
    (args.leaderCommit ≤ rf.commitIndex ∧ u = rf.splice args prev) ∨
    (rf.commitIndex < args.leaderCommit ∧ ∃ ci ms,
      ci = min ((rf.spliced args prev).length - 1) args.leaderCommit ∧
      appMsgs (rf.spliced args prev) rf.lastApplied (ci - rf.lastApplied) = some ms ∧
      u = { rf.splice args prev with
        commitIndex := ci
        lastApplied := max rf.lastApplied ci
        batches := rf.batches ++ [ms] }) := by
  rw [acceptEntries_eq] at h
  split_ifs at h with hc
  · obtain ⟨ms, hms, rfl⟩ := applyLog_ok h
    exact Or.inr ⟨hc, _, ms, rfl, hms, rfl⟩
  · exact Or.inl ⟨Nat.not_lt.mp hc, (Except.ok.inj h).symm⟩

theorem acceptEntries_frame {u : Server n C} (h : rf.acceptEntries args prev = .ok u) :
    ∃ ci la bs, u = { rf.splice args prev with
      commitIndex := ci
      lastApplied := la
      batches := bs } := by
  rcases acceptEntries_ok h with ⟨-, rfl⟩ | ⟨-, ci, ms, -, -, rfl⟩
  · exact ⟨_, _, _, rfl⟩
  · exact ⟨_, _, _, rfl⟩

theorem exists_acceptEntries (h : prev < rf.log.length) :
    ∃ u, rf.acceptEntries args prev = .ok u := by
  have hlen : 0 < (rf.spliced args prev).length := by
    simp only [spliced, List.length_append, List.length_take]
    omega
  rw [acceptEntries_eq]
  split_ifs
  · obtain ⟨ms, hms⟩ := exists_appMsgs (rf.spliced args prev) rf.lastApplied
      (min ((rf.spliced args prev).length - 1) args.leaderCommit) (by omega)
    simp only [applyLog, splice, hms]
    exact ⟨_, rfl⟩
  · exact ⟨_, rfl⟩

theorem exists_appendEntries (rf : Server n C) (args : AppendEntriesArgs n C)
    (h0 : 0 ≤ args.prevLogIndex) :
    ∃ u reply, rf.appendEntries args = .ok (u, reply) := by
  have hl : (rf.updateTerm args.term).1.log = rf.log := updateTerm_log
  unfold appendEntries
  generalize (rf.updateTerm args.term).1 = u at hl
  dsimp only
  rw [hl]
  split_ifs with ht hlen
  · exact ⟨_, _, rfl⟩
  · exact ⟨_, _, rfl⟩
  · have hlt : args.prevLogIndex.toNat < rf.log.length := by omega
    have hat := at?_eq_some.mpr ⟨h0, List.getElem?_eq_getElem hlt⟩
    rw [hat]
    dsimp only
    split_ifs
    · exact ⟨_, _, rfl⟩
    · obtain ⟨v, hv⟩ : ∃ v, u.acceptEntries args args.prevLogIndex.toNat = .ok v :=
        exists_acceptEntries (hl ▸ hlt)
      rw [hv]
      exact ⟨_, _, rfl⟩

/-- An `AppendEntries` is refused for its term, refused for its previous entry, or accepted. -/
theorem appendEntries_ok (h : rf.appendEntries args = .ok (rf', reply)) :
    (args.term < rf.currentTerm ∧ rf' = rf ∧ reply.success = false) ∨
    (rf.currentTerm ≤ args.term ∧ reply.success = false ∧
      rf' = { (rf.updateTerm args.term).1 with resetElectionTimer := true }) ∨
    (rf.currentTerm ≤ args.term ∧ reply.success = true ∧ ∃ prev e u,
      args.prevLogIndex = (prev : ℕ) ∧ rf.log[prev]? = some e ∧ e.termIdx = args.prevLogTerm ∧
      (rf.updateTerm args.term).1.acceptEntries args prev = .ok u ∧
      rf' = { u with resetElectionTimer := true }) := by
  have ht : (rf.updateTerm args.term).1.currentTerm = max rf.currentTerm args.term :=
    updateTerm_currentTerm
  have hl : (rf.updateTerm args.term).1.log = rf.log := updateTerm_log
  have hu : args.term ≤ rf.currentTerm → (rf.updateTerm args.term).1 = rf := updateTerm_of_le
  unfold appendEntries at h
  generalize (rf.updateTerm args.term).1 = u at h ht hl hu ⊢
  dsimp only at h
  split_ifs at h with hlt hlen
  · obtain ⟨rfl, rfl⟩ := Prod.mk.inj (Except.ok.inj h)
    exact Or.inl ⟨by omega, hu (by omega), rfl⟩
  · obtain ⟨rfl, rfl⟩ := Prod.mk.inj (Except.ok.inj h)
    exact Or.inr (Or.inl ⟨by omega, rfl, rfl⟩)
  · split at h
    · cases h
    · rename_i e he
      obtain ⟨h0, he⟩ := at?_eq_some.mp he
      split_ifs at h with hne
      · obtain ⟨rfl, rfl⟩ := Prod.mk.inj (Except.ok.inj h)
        exact Or.inr (Or.inl ⟨by omega, rfl, rfl⟩)
      · cases ha : u.acceptEntries args args.prevLogIndex.toNat with
        | error e => rw [ha] at h; cases h
        | ok a =>
          rw [ha] at h
          obtain ⟨rfl, rfl⟩ := Prod.mk.inj (Except.ok.inj h)
          exact Or.inr (Or.inr ⟨by omega, rfl, args.prevLogIndex.toNat, e, a,
            (Int.toNat_of_nonneg h0).symm, hl ▸ he, not_not.mp hne, ha, rfl⟩)

/-- Where a refusal sends the leader: nowhere for an old term, to the end of a log that is too
short, or back over the entries of the conflicting term. -/
theorem appendEntries_refused (h : rf.appendEntries args = .ok (rf', reply))
    (hf : reply.success = false) :
    (args.term < rf.currentTerm ∧ reply.nextIndex = -1) ∨
    ((rf.log.length : ℤ) ≤ args.prevLogIndex ∧ reply.nextIndex = rf.log.length) ∨
    ∃ (prev : ℕ) (e : LogEntry C), args.prevLogIndex = prev ∧ rf.log[prev]? = some e ∧
      e.termIdx ≠ args.prevLogTerm ∧ reply.nextIndex = conflictStart rf.log e.termIdx prev := by
  have ht : (rf.updateTerm args.term).1.currentTerm = max rf.currentTerm args.term :=
    updateTerm_currentTerm
  have hl : (rf.updateTerm args.term).1.log = rf.log := updateTerm_log
  unfold appendEntries at h
  generalize (rf.updateTerm args.term).1 = u at h ht hl
  dsimp only at h
  rw [hl] at h
  split_ifs at h with hlt hlen
  · obtain ⟨rfl, rfl⟩ := Prod.mk.inj (Except.ok.inj h)
    exact Or.inl ⟨by omega, rfl⟩
  · obtain ⟨rfl, rfl⟩ := Prod.mk.inj (Except.ok.inj h)
    exact Or.inr (Or.inl ⟨hlen, rfl⟩)
  · split at h
    · cases h
    · rename_i e he
      obtain ⟨h0, he⟩ := at?_eq_some.mp he
      split_ifs at h with hne
      · obtain ⟨rfl, rfl⟩ := Prod.mk.inj (Except.ok.inj h)
        exact Or.inr (Or.inr ⟨args.prevLogIndex.toNat, e, by omega, he, hne, rfl⟩)
      · cases ha : u.acceptEntries args args.prevLogIndex.toNat with
        | error e => rw [ha] at h; cases h
        | ok a =>
          rw [ha] at h
          obtain ⟨rfl, rfl⟩ := Prod.mk.inj (Except.ok.inj h)
          cases hf

theorem appendEntries_reply_term (h : rf.appendEntries args = .ok (rf', reply)) :
    reply.term = rf.currentTerm := by
  unfold appendEntries at h
  generalize (rf.updateTerm args.term).1 = u at h
  dsimp only at h
  split_ifs at h
  · exact (Prod.mk.inj (Except.ok.inj h)).2 ▸ rfl
  · exact (Prod.mk.inj (Except.ok.inj h)).2 ▸ rfl
  · split at h
    · cases h
    · split_ifs at h
      · exact (Prod.mk.inj (Except.ok.inj h)).2 ▸ rfl
      · cases ha : u.acceptEntries args args.prevLogIndex.toNat with
        | error e => rw [ha] at h; cases h
        | ok a =>
          rw [ha] at h
          exact (Prod.mk.inj (Except.ok.inj h)).2 ▸ rfl

theorem appendEntries_error (h : rf.appendEntries args = .error rf') :
    rf' = (rf.updateTerm args.term).1 := by
  unfold appendEntries at h
  generalize (rf.updateTerm args.term).1 = u at h ⊢
  dsimp only at h
  split_ifs at h
  split at h
  · exact (Except.error.inj h).symm
  · rename_i e he
    obtain ⟨-, he⟩ := at?_eq_some.mp he
    obtain ⟨hlt, -⟩ := List.getElem?_eq_some_iff.mp he
    split_ifs at h
    obtain ⟨a, ha⟩ : ∃ a, u.acceptEntries args args.prevLogIndex.toNat = .ok a :=
      exists_acceptEntries hlt
    rw [ha] at h
    cases h

end AppendEntries

section LeaderRoutine

variable {args : AppendEntriesArgs n C} {reply : AppendEntriesReply} {peer : Fin n}

def matched (rf : Server n C) (peer : Fin n) (args : AppendEntriesArgs n C) : Server n C :=
  { rf with
    matchIndex := Function.update rf.matchIndex peer
      (args.prevLogIndex + args.entries.length).toNat
    nextIndex := Function.update rf.nextIndex peer
      ((args.prevLogIndex + args.entries.length).toNat + 1) }

/-- A reply of the round deposes the leader, moves an index of the peer, or commits. -/
theorem appendReply_ok (h : rf.appendReply peer args reply = .ok rf') :
    (rf.currentTerm < reply.term ∧
      rf' = { persist { rf with currentTerm := reply.term, votedFor := none } with
        status := .follower
        routine := .follower }) ∨
    (reply.term ≤ rf.currentTerm ∧ ∃ next, rf' = { rf with nextIndex := next }) ∨
    (reply.term ≤ rf.currentTerm ∧ reply.success = true ∧ args.entries ≠ [] ∧
      rf' = rf.matched peer args) ∨
    (reply.term ≤ rf.currentTerm ∧ reply.success = true ∧ args.entries ≠ [] ∧
      ∃ newCommit e ms, (rf.matched peer args).sortedMatch[n / 2]? = some newCommit ∧
        rf.log[newCommit]? = some e ∧ rf.currentTerm ≤ e.termIdx ∧
        appMsgs rf.log rf.lastApplied (newCommit - rf.lastApplied) = some ms ∧
        rf' = { rf.matched peer args with
          commitIndex := newCommit
          lastApplied := max rf.lastApplied newCommit
          batches := rf.batches ++ [ms] }) := by
  unfold appendReply at h
  split_ifs at h with hlt hs he hn
  · exact Or.inl ⟨hlt, (Except.ok.inj h).symm⟩
  · right; right
    have hne : args.entries ≠ [] := fun h => he (h ▸ rfl)
    dsimp only at h
    split at h
    · cases h
    · rename_i newCommit hc
      split at h
      · cases h
      · rename_i e hl
        split_ifs at h with ht
        · obtain ⟨ms, hms, rfl⟩ := applyLog_ok h
          exact Or.inr ⟨Nat.not_lt.mp hlt, hs, hne, newCommit, e, ms, hc, hl, ht, hms, rfl⟩
        · exact Or.inl ⟨Nat.not_lt.mp hlt, hs, hne, (Except.ok.inj h).symm⟩
  all_goals exact Or.inr (Or.inl ⟨Nat.not_lt.mp hlt, _, (Except.ok.inj h).symm⟩)

theorem appendReply_of_refused (ht : reply.term ≤ rf.currentTerm) (hs : reply.success = false)
    (hn : reply.nextIndex ≠ -1) : rf.appendReply peer args reply =
      .ok { rf with nextIndex := Function.update rf.nextIndex peer reply.nextIndex } := by
  simp [appendReply, Nat.not_lt.mpr ht, hs, hn]

theorem appendReply_error (h : rf.appendReply peer args reply = .error rf') :
    ∃ ci, rf' = { rf.matched peer args with commitIndex := ci } := by
  unfold appendReply at h
  split_ifs at h
  dsimp only at h
  split at h
  · exact ⟨_, (Except.error.inj h).symm⟩
  · split at h
    · exact ⟨_, (Except.error.inj h).symm⟩
    · split_ifs at h
      exact ⟨_, applyLog_error h⟩

theorem mem_buildAll {ps : List (Fin n)} {p : Fin n} (h : (p, args) ∈ (rf.buildAll me ps).1) :
    p ∈ ps ∧ rf.buildArgs me p = some args := by
  induction ps with
  | nil => simp [buildAll] at h
  | cons q ps ih =>
    unfold buildAll at h
    split at h
    · simp at h
    · rename_i a ha
      rcases List.mem_cons.mp h with h | h
      · obtain ⟨rfl, rfl⟩ := Prod.mk.inj h
        exact ⟨List.mem_cons_self, ha⟩
      · exact ⟨List.mem_cons_of_mem _ (ih h).1, (ih h).2⟩

theorem mem_peers {p : Fin n} : p ∈ peers me ↔ p ≠ me := by simp [peers]

theorem buildArgs_eq_some (h : rf.buildArgs me peer = some args) : ∃ prev e,
    rf.log[prev]? = some e ∧
    args = ⟨rf.currentTerm, me, (prev : ℕ), e.termIdx, rf.log.drop (prev + 1),
      rf.commitIndex⟩ := by
  obtain ⟨e, he, rfl⟩ := Option.map_eq_some_iff.mp h
  obtain ⟨h0, he⟩ := at?_eq_some.mp he
  refine ⟨(rf.nextIndex peer - 1).toNat, e, he, ?_⟩
  rw [Int.toNat_of_nonneg h0, show (rf.nextIndex peer - 1).toNat + 1 = (rf.nextIndex peer).toNat by
    omega]

end LeaderRoutine

end Server

end DistLab.Raft
