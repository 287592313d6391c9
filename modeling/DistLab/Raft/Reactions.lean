import DistLab.Raft.Effects

/-! # What one reaction can do

Every reaction of a server is one of the cases below, with everything it reads
and changes. The invariants of the cluster are proved from these cases and never
look into the code again.
-/

namespace DistLab.Raft

variable {n : ℕ} {C : Type*}

/-- The moves of a role goroutine that touch nothing else of the server. -/
def Routine.Passes (ρ ρ' : Routine n) : Prop :=
  ρ' = ρ ∨ ρ' = .follower ∨ ρ' = .demoted ∨ ρ' = .ended ∨
  ∃ args waiting g p, ρ = .candidate args waiting g ∧ ρ' = .candidate args (waiting.erase p) g

namespace Server

def depose (rf : Server n C) (t : ℕ) : Server n C :=
  { persist { rf with currentTerm := t, votedFor := none } with
    status := .follower
    routine := .follower }

variable [Inhabited C]

inductive Reacts (me : Fin n) (rf : Server n C) : Input (Act C) (Msg n C) → Outcome n C → Prop
  | pass {x next reset token kill ρ} (h : rf.routine.Passes ρ) :
      Reacts me rf x (quiet { rf with
        nextIndex := next
        resetElectionTimer := reset
        toFollower := token
        terminateCh := kill
        routine := ρ })
  | resume {x} (hs : rf.status = .leader) : Reacts me rf x (rf.enterLeader me).quiet
  | campaign {x s e} (h : rf.log.getLast? = some e)
      (hs : s ≠ .leader ∨ rf.status = s ∧ ∃ a q g, rf.routine = .candidate a q g) :
      Reacts me rf x
        ⟨{ rf.nominate me with
            status := s
            routine := .candidate ⟨rf.currentTerm + 1, me, rf.log.length - 1, e.termIdx⟩
              (Finset.univ.erase me) 1 },
          (peers me).map
            (.requestVote · ⟨rf.currentTerm + 1, me, rf.log.length - 1, e.termIdx⟩),
          [.granted me me (rf.currentTerm + 1) rf.log, .counted me me (rf.currentTerm + 1)]⟩
  | win {args} (h : rf.routine = .elected args) : Reacts me rf (.act .becomeLeader)
        ⟨enterLeader me { rf with status := .leader }, [],
          [.won me args.term, .adopted me rf.currentTerm rf.log]⟩
  | broadcast {ch} (h : rf.routine = .leader ch) (hd : (rf.buildAll me (peers me)).2 = true) :
      Reacts me rf (.act .heartbeat)
        ⟨rf.makeChan,
          (rf.buildAll me (peers me)).1.map fun (p, args) => .appendEntries p rf.chans args,
          (rf.buildAll me (peers me)).1.map fun (_, args) => .sent me rf.boots args rf.log⟩
  | brokenBroadcast {ch} (h : rf.routine = .leader ch) : Reacts me rf (.act .heartbeat)
        ⟨rf.makeChan.restart,
          (rf.buildAll me (peers me)).1.map fun (p, args) => .appendEntries p rf.chans args,
          (rf.buildAll me (peers me)).1.map fun (_, args) => .sent me rf.boots args rf.log⟩
  | start {command} (hs : rf.status = .leader) : Reacts me rf (.act (.start command))
        ⟨rf.extend me command, [],
          [.started me rf.boots rf.currentTerm (rf.log ++ [⟨command, rf.currentTerm⟩]),
            .adopted me rf.currentTerm (rf.log ++ [⟨command, rf.currentTerm⟩])]⟩
  | emit {k m ms} (h : rf.batches[k]? = some (m :: ms)) : Reacts me rf (.act (.emit k))
        ⟨{ rf with batches := rf.batches.set k ms }, [], [.applied me m]⟩
  | crash {x} {u : Server n C} (hp : u.persister = rf.persister) (hs : u.saved = rf.saved)
      (hc : u.chans = rf.chans) (hb : u.boots = rf.boots) : Reacts me rf x u.crash
  | crashRaised {x t} : Reacts me rf x (rf.updateTerm t).1.crash
  | crashNominee {x} (h : rf.log = []) : Reacts me rf x (rf.nominate me).crash
  | depose {x t} (h : rf.currentTerm < t) : Reacts me rf x (rf.depose t).quiet
  | refuseVote {p args reply} (h : reply.voteGranted = false) :
      Reacts me rf (.recv (.requestVote p args))
        ⟨(rf.updateTerm args.term).1, [.requestVoteReply me args reply], []⟩
  | grantVote {p args reply} (ht : rf.currentTerm ≤ args.term)
      (hv : rf.currentTerm = args.term → rf.votedFor = none ∨ rf.votedFor = some args.candidateId)
      (hn : (rf.updateTerm args.term).1.logNewer args = .ok true)
      (hg : reply.voteGranted = true) : Reacts me rf (.recv (.requestVote p args))
        ⟨{ persist { (rf.updateTerm args.term).1 with votedFor := some args.candidateId } with
            resetElectionTimer := true },
          [.requestVoteReply me args reply],
          [.granted me args.candidateId args.term rf.log]⟩
  | countVote {peer args reply waiting g ρ} (hr : rf.routine = .candidate args waiting g)
      (hp : peer ∈ waiting) (hg : reply.voteGranted = true)
      (hρ : ρ = .elected args ∧ n / 2 < g + 1 ∨ ρ = .candidate args (waiting.erase peer) (g + 1)) :
      Reacts me rf (.recv (.requestVoteReply peer args reply))
        ⟨{ rf with routine := ρ }, [], [.counted me peer args.term]⟩
  | refuseEntries {p ch args reply reset} (h : reply.success = false) :
      Reacts me rf (.recv (.appendEntries p ch args))
        ⟨{ (rf.updateTerm args.term).1 with resetElectionTimer := reset },
          [.appendEntriesReply me ch args reply], []⟩
  | accept {p ch args reply e u} {prev : ℕ} (ht : rf.currentTerm ≤ args.term)
      (hp : args.prevLogIndex = (prev : ℤ)) (he : rf.log[prev]? = some e)
      (het : e.termIdx = args.prevLogTerm) (hs : reply.success = true)
      (hu : (rf.updateTerm args.term).1.acceptEntries args prev = .ok u) :
      Reacts me rf (.recv (.appendEntries p ch args))
        ⟨{ u with resetElectionTimer := true }, [.appendEntriesReply me ch args reply],
          [.adopted me args.term u.log]⟩
  | matched {peer ch args reply} (hr : rf.routine = .leader (some ch))
      (ht : reply.term ≤ rf.currentTerm) (hs : reply.success = true) (he : args.entries ≠ []) :
      Reacts me rf (.recv (.appendEntriesReply peer ch args reply)) (rf.matched peer args).quiet
  | commit {peer ch args reply newCommit e ms} (hr : rf.routine = .leader (some ch))
      (ht : reply.term ≤ rf.currentTerm) (hs : reply.success = true) (hne : args.entries ≠ [])
      (hc : (rf.matched peer args).sortedMatch[n / 2]? = some newCommit)
      (he : rf.log[newCommit]? = some e) (het : rf.currentTerm ≤ e.termIdx)
      (hm : appMsgs rf.log rf.lastApplied (newCommit - rf.lastApplied) = some ms) :
      Reacts me rf (.recv (.appendEntriesReply peer ch args reply))
        (quiet { rf.matched peer args with
          commitIndex := newCommit
          lastApplied := max rf.lastApplied newCommit
          batches := rf.batches ++ [ms] })

variable {me : Fin n} {rf : Server n C}

theorem campaign_reacts {x : Input (Act C) (Msg n C)} (rf : Server n C) (s : Status)
    (hs : s ≠ .leader ∨ rf.status = s ∧ ∃ a q g, rf.routine = .candidate a q g) :
    Reacts me rf x (Server.campaign me { rf with status := s }) := by
  rw [campaign_eq]
  cases h : rf.log.getLast? with
  | none =>
    rw [List.getLast?_eq_none_iff] at h
    exact .crashNominee h
  | some e => exact .campaign h hs

theorem broadcast_reacts {ch : Option ℕ} (h : rf.routine = .leader ch) :
    Reacts me rf (.act .heartbeat) (rf.broadcast me) := by
  unfold Server.broadcast
  dsimp only
  split
  · exact .broadcast h ‹_›
  · exact .brokenBroadcast h

theorem act_reacts {x : Act C} {r : Outcome n C} (h : rf.act me x = some r) :
    Reacts me rf (.act x) r := by
  cases x <;> simp only [act] at h
  case electionTimeout =>
    split at h <;> cases h
    exact campaign_reacts rf .candidate (Or.inl (by decide))
  case voteTimeout =>
    split at h <;> cases h
    exact campaign_reacts rf rf.status (Or.inr ⟨rfl, _, _, _, ‹_›⟩)
  case switchRole =>
    split at h <;> cases h
    unfold Server.switchRole
    split
    · exact .resume ‹_›
    · exact campaign_reacts rf rf.status (Or.inl (by simp [*]))
    · exact .pass (Or.inr (Or.inl rfl))
  case becomeLeader =>
    split at h <;> cases h
    exact .win ‹_›
  case heartbeat =>
    split at h <;> cases h
    exact broadcast_reacts ‹_›
  case start command =>
    obtain rfl := Option.some.inj h
    by_cases hs : rf.status = .leader
    · simpa [start_of_leader hs, hs] using
        (Reacts.start hs : Reacts me rf (.act (.start command)) _)
    · have hq : Reacts me rf (.act (.start command)) rf.quiet := .pass (Or.inl rfl)
      simpa [Server.start, hs, quiet] using hq
  case emit k =>
    split at h <;> cases h
    exact .emit ‹_›
  case kill =>
    obtain rfl := Option.some.inj h
    exact .pass (Or.inl rfl)
  case restart =>
    obtain rfl := Option.some.inj h
    exact .crash rfl rfl rfl rfl
  case resetTimer =>
    split at h
    · split_ifs at h
      obtain rfl := Option.some.inj h
      exact .pass (Or.inl rfl)
    · cases h
  case takeToFollower =>
    split at h
    iterate 2
      · split_ifs at h
        obtain rfl := Option.some.inj h
        exact .pass (Or.inr (Or.inr (Or.inl rfl)))
    · cases h
  case terminate =>
    split at h
    iterate 2
      · split_ifs at h
        obtain rfl := Option.some.inj h
        exact .pass (Or.inr (Or.inr (Or.inr (Or.inl rfl))))
    · cases h

theorem recv_requestVote_reacts {p : Fin n} {args : RequestVoteArgs n} :
    Reacts me rf (.recv (.requestVote p args)) (rf.recv me (.requestVote p args)) := by
  simp only [recv]
  split
  · obtain rfl := requestVote_error ‹_›
    exact .crashRaised
  · rcases requestVote_ok ‹_› with ⟨rfl, hf⟩ | ⟨ht, hv, hn, rfl, hg⟩
    · simpa [hf] using Reacts.refuseVote hf
    · simpa [hg] using Reacts.grantVote ht hv hn hg

theorem recv_requestVoteReply_reacts {peer : Fin n} {args : RequestVoteArgs n}
    {reply : RequestVoteReply} : Reacts me rf (.recv (.requestVoteReply peer args reply))
      (rf.recv me (.requestVoteReply peer args reply)) := by
  have hq : Reacts me rf (.recv (.requestVoteReply peer args reply)) rf.quiet := .pass (Or.inl rfl)
  simp only [recv]
  split
  · rename_i args' waiting g hr
    split_ifs with hc hg
    · obtain ⟨rfl, hp⟩ := hc
      unfold voteReply
      rw [if_neg (Nat.not_lt.mpr hg.2), if_pos hg.1]
      split_ifs with hn
      · exact .countVote hr hp hg.1 (Or.inl ⟨rfl, hn⟩)
      · exact .countVote hr hp hg.1 (Or.inr rfl)
    · obtain ⟨rfl, hp⟩ := hc
      unfold voteReply
      split_ifs with hlt hv
      · exact .depose hlt
      · exact absurd ⟨hv, Nat.not_lt.mp hlt⟩ hg
      · exact absurd ⟨hv, Nat.not_lt.mp hlt⟩ hg
      · exact .pass (Or.inr (Or.inr (Or.inr (Or.inr ⟨_, _, _, _, hr, rfl⟩))))
    · exact hq
  · exact hq

theorem recv_appendEntries_reacts {p : Fin n} {ch : ℕ} {args : AppendEntriesArgs n C} :
    Reacts me rf (.recv (.appendEntries p ch args)) (rf.recv me (.appendEntries p ch args)) := by
  simp only [recv]
  split
  · obtain rfl := appendEntries_error ‹_›
    exact .crashRaised
  · rcases appendEntries_ok ‹_› with ⟨hlt, hrf, hf⟩ | ⟨-, hf, rfl⟩ |
      ⟨ht, hs, prev, e, u, hp, he, het, hu, rfl⟩
    · have : Reacts me rf (.recv (.appendEntries p ch args)) ⟨{ (rf.updateTerm args.term).1 with
          resetElectionTimer := rf.resetElectionTimer }, _, []⟩ := .refuseEntries hf
      simpa [hf, hrf, updateTerm_of_le hlt.le] using this
    · simpa [hf] using Reacts.refuseEntries hf
    · simpa [hs] using Reacts.accept ht hp he het hs hu

theorem recv_appendEntriesReply_reacts {peer : Fin n} {ch : ℕ} {args : AppendEntriesArgs n C}
    {reply : AppendEntriesReply} : Reacts me rf (.recv (.appendEntriesReply peer ch args reply))
      (rf.recv me (.appendEntriesReply peer ch args reply)) := by
  simp only [recv]
  split_ifs with hr
  · split
    · obtain ⟨ci, rfl⟩ := appendReply_error ‹_›
      exact .crash rfl rfl rfl rfl
    · rcases appendReply_ok ‹_› with ⟨hlt, rfl⟩ | ⟨-, next, rfl⟩ | ⟨ht, hs, hne, rfl⟩ |
        ⟨ht, hs, hne, newCommit, e, ms, hc, he, het, hm, rfl⟩
      · exact .depose hlt
      · exact .pass (Or.inl rfl)
      · exact .matched hr ht hs hne
      · exact .commit hr ht hs hne hc he het hm
  · exact .pass (Or.inl rfl)

/-- Every reaction is one of the listed cases. -/
theorem react_reacts {x : Input (Act C) (Msg n C)} {r : Outcome n C}
    (h : (raft n C).react me rf x = some r) : Reacts me rf x r := by
  rcases x with x | m
  · exact act_reacts h
  · obtain rfl := Option.some.inj h
    cases m
    · exact recv_requestVote_reacts
    · exact recv_requestVoteReply_reacts
    · exact recv_appendEntries_reacts
    · exact recv_appendEntriesReply_reacts

theorem Reacts.sent {x : Input (Act C) (Msg n C)} {r : Outcome n C} (h : Reacts me rf x r)
    {i : Fin n} {b : ℕ} {args : AppendEntriesArgs n C} {L : List (LogEntry C)}
    (ho : Obs.sent i b args L ∈ r.obs) : x = .act .heartbeat ∧ i = me ∧ b = rf.boots ∧
      L = rf.log ∧ ∃ p, p ≠ me ∧ rf.buildArgs me p = some args := by
  cases h
  case broadcast | brokenBroadcast =>
    obtain ⟨⟨p, args⟩, hm, ho⟩ := List.mem_map.mp ho
    obtain ⟨rfl, rfl, rfl, rfl⟩ := Obs.sent.inj ho
    obtain ⟨hp, hb⟩ := mem_buildAll hm
    exact ⟨rfl, rfl, rfl, rfl, p, mem_peers.mp hp, hb⟩
  all_goals simp at ho

end Server

end DistLab.Raft
