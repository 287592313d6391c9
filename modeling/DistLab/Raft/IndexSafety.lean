import DistLab.Raft.StateMachine
import DistLab.Raft.LogShape

/-! # The indices of a leader

`leaderRoutine` reads the log at the next indices and at the index it wants to commit, and an
`AppendEntries` may cut the log before the routine notices that it was deposed. When the
routine builds requests and counts successes in office only, and no request that leaves the
server in office cuts its log, the indices are those of entries of the log.
-/

namespace DistLab.Raft

variable {n : ℕ} {C : Type*}

def Routine.leads : Routine n → Bool
  | .leader _ => true
  | _ => false

namespace Server

def Serves (rf : Server n C) (ch : Option ℕ) : Prop := rf.status = .leader ∧ rf.routine = .leader ch

/-- No accepted request that leaves a leader in office ends before its log. -/
def KeepsLength (rf : Server n C) (x : Input (Act C) (Msg n C)) : Prop :=
  ∀ args ∈ appendRequest x, rf.routine.leads = true →
    (rf.updateTerm args.term).1.status = .leader → rf.Matches args →
      rf.log.length ≤ args.prevLogIndex.toNat + 1 + args.entries.length

/-- `leaderRoutine` builds requests and counts successes in office only, and its log is not cut
while it is in office. -/
def KeepsIndices (rf : Server n C) (x : Input (Act C) (Msg n C)) : Prop :=
  (isHeartbeat x = true → rf.status = .leader) ∧ rf.CommitsInOffice x ∧ rf.KeepsLength x

instance (rf : Server n C) (x : Input (Act C) (Msg n C)) : Decidable (rf.KeepsLength x) :=
  inferInstanceAs (Decidable (∀ args ∈ appendRequest x, _ → _ → rf.Matches args → _ ≤ _))

instance (rf : Server n C) (x : Input (Act C) (Msg n C)) : Decidable (rf.KeepsIndices x) :=
  inferInstanceAs (Decidable (_ ∧ _ ∧ _))

/-- Where `leaderRoutine` builds its requests the next indices are behind an entry of the log,
where it evaluates the commit rule the index is one of the log, and neither ends in a panic. -/
def IndexSafe (me : Fin n) (rf : Server n C) : Input (Act C) (Msg n C) → Prop
  | .act .heartbeat => ∀ ch, rf.routine = .leader ch →
      (∀ p, p ≠ me → 1 ≤ rf.nextIndex p ∧ rf.nextIndex p ≤ rf.log.length) ∧
      (rf.buildAll me (peers me)).2 = true
  | .recv (.appendEntriesReply peer ch args reply) => rf.routine = .leader (some ch) →
      (reply.term ≤ rf.currentTerm → reply.success = true → args.entries ≠ [] →
        ∃ newCommit, (rf.matched peer args).sortedMatch[n / 2]? = some newCommit ∧
          newCommit < rf.log.length) ∧
      ∃ u, rf.appendReply peer args reply = .ok u
  | _ => True

/-- The indices of a server that leads. -/
def Bounded (rf : Server n C) : Prop :=
  ∀ ch, rf.Serves ch → ∀ p, rf.nextIndex p ≤ rf.log.length ∧ rf.matchIndex p < rf.log.length

def Covers (rf : Server n C) (ch : ℕ) (args : AppendEntriesArgs n C) : Prop :=
  ch < rf.chans ∧ (rf.Serves (some ch) →
    args.prevLogIndex + 1 + args.entries.length ≤ rf.log.length)

/-- How a reaction comes to a server that leads: it takes office, or it led before and has not
lost an entry. -/
inductive ServeStep (me : Fin n) (rf : Server n C) (x : Input (Act C) (Msg n C))
    (u : Server n C) (ch : Option ℕ) : Prop
  | enters (hc : ch = none) (hl : u.log = rf.log)
      (hn : u.nextIndex = fun _ => (rf.log.length : ℤ))
      (hm : u.matchIndex = Function.update (fun _ => 0) me (rf.log.length - 1))
  | stays {ch' : Option ℕ} (hs : rf.Serves ch') (hc : ch' = ch ∨ ch = some rf.chans)
      (hl : rf.log.length ≤ u.log.length)
      (hm : ∀ p, u.matchIndex p + rf.log.length ≤ rf.matchIndex p + u.log.length ∨
        ∃ peer c args reply, x = .recv (.appendEntriesReply peer c args reply) ∧
          rf.routine = .leader (some c) ∧
          u.matchIndex p = (args.prevLogIndex + args.entries.length).toNat)

variable {me : Fin n} {rf u : Server n C} {x : Input (Act C) (Msg n C)} {r : Outcome n C}
  {ch : Option ℕ} {args : AppendEntriesArgs n C} {prev : ℕ}

theorem ServeStep.of_same (hs : rf.Serves ch) (hl : rf.log.length ≤ u.log.length)
    (hm : u.matchIndex = rf.matchIndex) : ServeStep me rf x u ch :=
  .stays hs (Or.inl rfl) hl fun p => Or.inl (by rw [hm]; omega)

theorem ServeStep.of_matched {peer : Fin n} {c : ℕ} {reply : AppendEntriesReply}
    (hs : rf.Serves ch) (hx : x = .recv (.appendEntriesReply peer c args reply))
    (hr : rf.routine = .leader (some c)) (hl : u.log = rf.log)
    (hm : u.matchIndex = (rf.matched peer args).matchIndex) : ServeStep me rf x u ch := by
  refine .stays hs (Or.inl rfl) (by rw [hl]) fun p => ?_
  rw [hm, Server.matched, hl]
  by_cases hp : p = peer
  · exact Or.inr ⟨peer, c, args, reply, hx, hr, by simp [hp]⟩
  · exact Or.inl (by simp [Function.update_of_ne hp])

theorem status_of_updateTerm {t : ℕ} (h : (rf.updateTerm t).1.status = .leader) :
    rf.status = .leader := by
  rw [updateTerm_status] at h
  split_ifs at h
  exact h

theorem length_spliced (h : prev < rf.log.length) :
    (rf.spliced args prev).length = prev + 1 + args.entries.length := by
  have hlen : ((rf.spliced args prev).map LogEntry.termIdx).length = _ :=
    congrArg List.length spliced_terms
  simp only [List.length_map, List.length_append, List.length_take] at hlen
  omega

variable [Inhabited C]

theorem Reacts.serveStep (h : Reacts me rf x r) (hg : rf.KeepsLength x)
    (hs : r.state.Serves ch) : ServeStep me rf x r.state ch := by
  obtain ⟨hl, hq⟩ := hs
  cases h with
  | pass hρ =>
    rcases hρ with rfl | rfl | rfl | rfl | ⟨_, _, _, _, -, rfl⟩
    · exact .of_same ⟨hl, hq⟩ le_rfl rfl
    all_goals cases hq
  | resume | win => exact .enters (by cases hq; rfl) rfl rfl rfl
  | campaign | depose => cases hq
  | broadcast hr =>
    refine .stays ⟨hl, hr⟩ (Or.inr ?_) le_rfl fun p => Or.inl le_rfl
    exact (Routine.leader.inj hq).symm
  | brokenBroadcast | crash | crashRaised | crashNominee => simp at hq
  | start =>
    refine .stays ⟨hl, hq⟩ (Or.inl rfl) (by simp) fun p => Or.inl ?_
    simp only [extend, persist_log, Function.update_apply, List.length_append,
      List.length_singleton]
    split_ifs with hp
    · subst hp
      omega
    · omega
  | emit => exact .of_same ⟨hl, hq⟩ le_rfl rfl
  | refuseVote | grantVote | refuseEntries =>
    exact .of_same ⟨status_of_updateTerm hl, by simpa using hq⟩ (by simp) (by simp)
  | countVote hr hp hgr hρ => rcases hρ with ⟨rfl, -⟩ | rfl <;> cases hq
  | @accept p c args reply e u prev ht hp he het hsc hu =>
    obtain ⟨ci, la, bs, rfl⟩ := acceptEntries_frame hu
    have hold : rf.routine = .leader ch := by simpa [splice] using hq
    obtain ⟨hlt, -⟩ := List.getElem?_eq_some_iff.mp he
    have hlen := hg args rfl (by rw [hold]; rfl) hl (matches_of_eq ht hp he het)
    refine .of_same ⟨status_of_updateTerm hl, hold⟩ ?_ (by simp [splice])
    have hspl : ((rf.updateTerm args.term).1.spliced args prev).length = _ :=
      length_spliced (by simpa using hlt)
    simp only [splice]
    omega
  | matched hr | commit hr => exact .of_matched ⟨hl, hq⟩ rfl hr rfl rfl

theorem Bounded.react (h : rf.Bounded) (hr : (raft n C).react me rf x = some r)
    (hg : rf.KeepsLength x) (hlog : rf.log ≠ [])
    (hx : ∀ peer c args reply, x = .recv (.appendEntriesReply peer c args reply) →
      rf.Covers c args ∧
        (reply.success = false → reply.nextIndex ≠ -1 → reply.nextIndex ≤ args.prevLogIndex)) :
    r.state.Bounded := by
  have hpos := List.length_pos_iff.mpr hlog
  intro ch hs p
  cases (react_reacts hr).serveStep hg hs with
  | enters hc hl hn hm =>
    rw [hn, hm, hl, Function.update_apply]
    refine ⟨le_rfl, ?_⟩
    split_ifs <;> omega
  | @stays ch' hold hc hl hm =>
    have hround : ∀ {c}, rf.routine = .leader (some c) → rf.Serves (some c) :=
      fun hq => ⟨hold.1, hq⟩
    obtain ⟨hnext, hmatch⟩ := h ch' hold p
    constructor
    · cases react_steers hr hs.2 with
      | keeps _ hn =>
        rw [hn]
        omega
      | enters _ hn =>
        simp only [hn]
        omega
      | matched hx' hq _ hn =>
        have hcov := (hx _ _ _ _ hx').1.2 (hround hq)
        simp only [hn, Server.matched, Function.update_apply]
        split_ifs <;> omega
      | refused hx' hq _ hf hi hn =>
        have hcov := (hx _ _ _ _ hx').1.2 (hround hq)
        have hle := (hx _ _ _ _ hx').2 hf hi
        simp only [hn, Function.update_apply]
        split_ifs <;> omega
    · rcases hm p with hm | ⟨peer, c, args, reply, hx', hq, hm⟩
      · omega
      · have hcov := (hx _ _ _ _ hx').1.2 (hround hq)
        omega

theorem Covers.react {c : ℕ} (h : rf.Covers c args) (hr : Reacts me rf x r)
    (hg : rf.KeepsLength x) : r.state.Covers c args := by
  refine ⟨h.1.trans_le hr.round.1, fun hs => ?_⟩
  cases hr.serveStep hg hs with
  | enters hc => cases hc
  | stays hold hc hl =>
    rcases hc with rfl | hc
    · have := h.2 hold
      omega
    · exact absurd (Option.some.inj hc) h.1.ne

theorem covers_out {m : Msg n C} {c : ℕ} (hr : Reacts me rf x r) (hg : rf.KeepsLength x)
    (hm : m ∈ r.out) (hc : m.call = some (c, args)) :
    args.leaderId = me ∧ r.state.Covers c args ∨ ∃ p, x = .recv (.appendEntries p c args) := by
  rcases hr.calls hm hc with ⟨rfl, -, hlt, -⟩ | hx
  · cases m with
    | appendEntries p c' args' =>
      obtain ⟨rfl, rfl⟩ := Prod.mk.inj (Option.some.inj hc)
      obtain ⟨-, -, -, hcut⟩ := hr.moves.msgs p _ _ hm
      obtain ⟨h0, hlen⟩ := hcut.length_eq
      refine Or.inl ⟨rfl, hlt, fun hs => ?_⟩
      cases hr.serveStep hg hs with
      | enters hc => cases hc
      | stays _ _ hl => omega
    | appendEntriesReply p c' args' reply =>
      obtain ⟨rfl, rfl⟩ := Prod.mk.inj (Option.some.inj hc)
      obtain ⟨q, hx⟩ := hr.recv_of_reply hm
      exact Or.inr ⟨q, hx⟩
    | requestVote => cases hc
    | requestVoteReply => cases hc
  · exact Or.inr hx

end Server

structure Indexed (w : Cluster n C) : Prop where
  bounded : ∀ i, (w.node i).Bounded
  calls : ∀ m ∈ w.net, ∀ ch args, m.call = some (ch, args) →
    (w.node args.leaderId).Covers ch args
  refusals : ∀ p ch args reply, Msg.appendEntriesReply p ch args reply ∈ w.net →
    reply.success = false → reply.nextIndex ≠ -1 → reply.nextIndex ≤ args.prevLogIndex

theorem Server.refusal_le {rf u : Server n C} {args : AppendEntriesArgs n C}
    {reply : AppendEntriesReply} (hr : rf.appendEntries args = .ok (u, reply))
    (hf : reply.success = false) (hi : reply.nextIndex ≠ -1) :
    reply.nextIndex ≤ args.prevLogIndex := by
  rcases appendEntries_refused hr hf with ⟨-, h⟩ | ⟨hle, h⟩ | ⟨prev, e, hp, -, -, h⟩
  · exact absurd h hi
  · omega
  · have := (conflictStart_spec rf.log e.termIdx prev).1
    omega

namespace Indexed

variable [Inhabited C] {w w' : Cluster n C} {i : Fin n} {x : Input (Act C) (Msg n C)}
  {r : Outcome n C} {net : List (Msg n C)}

theorem init : Indexed (cluster n C).init where
  bounded i := by
    rintro ch ⟨hl, -⟩
    cases hl
  calls := by simp [Protocol.system]
  refusals := by simp [Protocol.system]

omit [Inhabited C] in
theorem lose (h : Indexed w) (hn : net ⊆ w.net) : Indexed { w with net := net } :=
  ⟨h.bounded, fun m hm => h.calls m (hn hm), fun p ch args reply hm =>
    h.refusals p ch args reply (hn hm)⟩

theorem covers_put (h : Indexed w) (hr : (w.node i).Reacts i x r) (hg : (w.node i).KeepsLength x)
    {m : Msg n C} (hm : m ∈ w.net) {ch : ℕ} {args : AppendEntriesArgs n C}
    (hc : m.call = some (ch, args)) : ((w.put i net r).node args.leaderId).Covers ch args := by
  have hcov := h.calls m hm ch args hc
  refine World.forall_put (N := fun j s => args.leaderId = j → Server.Covers s ch args)
    ?_ ?_ _ rfl
  · rintro rfl
    exact hcov.react hr hg
  · rintro j - rfl
    exact hcov

theorem put (h : Indexed w) (hw : Shaped w) (hr : (raft n C).react i (w.node i) x = some r)
    (hg : (w.node i).KeepsLength x) (hf : (raft n C).Feeds w i x) (hn : net ⊆ w.net) :
    Indexed (w.put i net r) := by
  have hx := Server.react_reacts hr
  constructor
  · refine World.forall_put (N := fun _ => Server.Bounded) ?_ fun j _ => h.bounded j
    refine (h.bounded i).react hr hg (hw.server i).log.ne_nil ?_
    rintro peer c args reply rfl
    obtain ⟨hm, rfl⟩ := hf
    exact ⟨h.calls _ hm c args rfl, h.refusals peer c args reply hm⟩
  · intro m hm ch args hc
    rcases World.mem_put_net hn hm with hm | hm
    · exact h.covers_put hx hg hm hc
    · rcases Server.covers_out hx hg hm hc with ⟨rfl, hcov⟩ | ⟨p, rfl⟩
      · rwa [World.put_node_self]
      · exact h.covers_put hx hg hf.1 rfl
  · intro p ch args reply hm
    rcases World.mem_put_net hn hm with hm | hm
    · exact h.refusals p ch args reply hm
    · obtain ⟨q, u, -, ha⟩ := Server.appendEntries_of_reply hr hm
      exact Server.refusal_le ha

theorem step {e : NetEvent (Fin n) (Act C)} (h : Indexed w) (hw : Shaped w)
    (hs : (cluster n C).step w e = some w')
    (hg : (raft n C).Guards (fun _ => Server.KeepsIndices) w e) : Indexed w' := by
  rcases Protocol.step_cases hs hg with ⟨net, hn, rfl⟩ | ⟨i, x, r, net, hr, hg, hf, hn, rfl⟩
  · exact h.lose hn
  · exact h.put hw hr hg.2.2 hf hn

end Indexed

namespace Server

variable {me : Fin n} {rf : Server n C} {ch : Option ℕ}

theorem buildAll_done {ps : List (Fin n)} (h : ∀ p ∈ ps, (rf.buildArgs me p).isSome = true) :
    (rf.buildAll me ps).2 = true := by
  induction ps with
  | nil => rfl
  | cons p ps ih =>
    obtain ⟨a, ha⟩ := Option.isSome_iff_exists.mp (h p List.mem_cons_self)
    rw [buildAll, ha]
    exact ih fun q hq => h q (List.mem_cons_of_mem _ hq)

theorem buildArgs_isSome {p : Fin n} (h1 : 1 ≤ rf.nextIndex p)
    (hle : rf.nextIndex p ≤ rf.log.length) : (rf.buildArgs me p).isSome = true := by
  have hlt : (rf.nextIndex p - 1).toNat < rf.log.length := by omega
  have hat := at?_eq_some.mpr ⟨by omega, List.getElem?_eq_getElem hlt⟩
  rw [buildArgs, hat]
  rfl

theorem exists_sortedMatch (me : Fin n) {k : ℕ} (h : ∀ p, rf.matchIndex p < k) :
    ∃ newCommit, rf.sortedMatch[n / 2]? = some newCommit ∧ newCommit < k := by
  have hlen : n / 2 < rf.sortedMatch.length := by
    have := me.isLt
    simp only [sortedMatch, List.length_insertionSort, List.length_ofFn]
    omega
  refine ⟨_, List.getElem?_eq_getElem hlen, ?_⟩
  have hmem : rf.sortedMatch[n / 2] ∈ (List.ofFn rf.matchIndex).insertionSort (· ≤ ·) :=
    List.getElem_mem hlen
  obtain ⟨p, hp⟩ := List.mem_ofFn.mp ((List.mem_insertionSort _).mp hmem)
  exact hp ▸ h p

theorem exists_appendReply {peer : Fin n} {args : AppendEntriesArgs n C}
    {reply : AppendEntriesReply} (h : reply.term ≤ rf.currentTerm → reply.success = true →
      args.entries ≠ [] → ∃ newCommit, (rf.matched peer args).sortedMatch[n / 2]? =
        some newCommit ∧ newCommit < rf.log.length) :
    ∃ u, rf.appendReply peer args reply = .ok u := by
  unfold appendReply
  split_ifs with hlt hs he hn
  · exact ⟨_, rfl⟩
  · obtain ⟨newCommit, hc, hlen⟩ := h (Nat.not_lt.mp hlt) hs fun hnil => he (by simp [hnil])
    obtain ⟨ms, hms⟩ := exists_appMsgs rf.log rf.lastApplied newCommit hlen
    dsimp only
    split
    · rename_i hnone
      exact absurd (hnone.symm.trans hc) (by simp)
    · rename_i k hk
      obtain rfl : k = newCommit := Option.some.inj (hk.symm.trans hc)
      rw [List.getElem?_eq_getElem hlen]
      dsimp only
      split_ifs
      · rw [applyLog, hms]
        exact ⟨_, rfl⟩
      · exact ⟨_, rfl⟩
  all_goals exact ⟨_, rfl⟩

end Server

section Runs

variable [Inhabited C] {w : Cluster n C}

theorem Indexed.matched (h : Indexed w) {i peer : Fin n} {c : ℕ} {args : AppendEntriesArgs n C}
    {reply : AppendEntriesReply} (hw : Shaped w)
    (hm : Msg.appendEntriesReply peer c args reply ∈ w.net) (hi : args.leaderId = i)
    (hs : (w.node i).Serves (some c)) (p : Fin n) :
    ((w.node i).matched peer args).matchIndex p < (w.node i).log.length := by
  subst hi
  have hcov := (h.calls _ hm c args rfl).2 hs
  have hpos := List.length_pos_iff.mpr (hw.server args.leaderId).log.ne_nil
  simp only [Server.matched, Function.update_apply]
  split_ifs
  · omega
  · exact (h.bounded _ _ hs p).2

theorem Indexed.safe (h : Indexed w) (hw : Shaped w) {e : NetEvent (Fin n) (Act C)}
    (hg : (raft n C).Guards (fun _ => Server.KeepsIndices) w e) :
    (raft n C).Guards Server.IndexSafe w e := by
  cases e with
  | act i a =>
    cases a with
    | heartbeat =>
      intro ch hq
      have hs : (w.node i).Serves ch := ⟨hg.1 rfl, hq⟩
      have hb : ∀ p, 1 ≤ (w.node i).nextIndex p ∧
          (w.node i).nextIndex p ≤ (w.node i).log.length :=
        fun p => ⟨hw.leads i ch hq p, (h.bounded i ch hs p).1⟩
      exact ⟨fun p _ => hb p, Server.buildAll_done fun p _ =>
        Server.buildArgs_isSome (hb p).1 (hb p).2⟩
    | _ => trivial
  | deliver k =>
    intro m hk
    have hm := List.mem_of_getElem? hk
    cases m with
    | appendEntriesReply peer c args reply =>
      intro hq
      have hcommit : reply.term ≤ (w.node args.leaderId).currentTerm → reply.success = true →
          args.entries ≠ [] → ∃ newCommit,
            ((w.node args.leaderId).matched peer args).sortedMatch[n / 2]? = some newCommit ∧
            newCommit < (w.node args.leaderId).log.length := by
        intro _ hsc _
        have hl := (hg _ hk).2.1 c (by simp [successChan, hsc]) hq
        exact Server.exists_sortedMatch args.leaderId (h.matched hw hm rfl ⟨hl, hq⟩)
      exact ⟨hcommit, Server.exists_appendReply hcommit⟩
    | _ => trivial
  | drop k => trivial

/-- In every run in which the leaders build requests and count successes in office only and no
request that leaves a leader in office cuts its log, every access of a leader to its log is in
range. -/
theorem leader_indices_safe {es : List (NetEvent (Fin n) (Act C))}
    (hg : (cluster n C).Meets ((raft n C).Guards fun _ => Server.KeepsIndices)
      (cluster n C).init es) :
    (cluster n C).Meets ((raft n C).Guards Server.IndexSafe) (cluster n C).init es := by
  refine System.Meets.of_invariant (I := fun w => Shaped w ∧ Indexed w) ?_ ?_ hg
    ⟨shaped_init, .init⟩
  · rintro w e w' ⟨hw, hi⟩ hg hs
    exact ⟨hw.step hs, hi.step hw hs hg⟩
  · rintro w e ⟨hw, hi⟩ hg
    exact hi.safe hw hg

end Runs

/-- Server 0 restarts with one command in its log and is elected in term 2. Server 2, elected in
term 3 with the empty log, sends its first round, which cuts the log of server 0. -/
def cutLeader : List (NetEvent (Fin 3) (Act ℕ)) :=
  firstElection ++ [.act 0 (.start 10), .act 0 .restart, .act 0 .electionTimeout, .deliver 1,
    .deliver 2, .act 0 .becomeLeader, .act 2 .electionTimeout, .act 2 .voteTimeout,
    .act 2 .voteTimeout, .deliver 7, .deliver 7, .act 2 .becomeLeader, .act 2 .heartbeat,
    .deliver 7]

/-- The ticker of server 0 fires before its routine takes the demotion: it reads beyond its log
and the process ends. -/
theorem index_out_of_range :
    ∃ w, (cluster 3 ℕ).run (cluster 3 ℕ).init cutLeader = some w ∧
      (w.node 0).routine = .leader none ∧ (w.node 0).boots = 1 ∧ (w.node 0).nextIndex 1 = 2 ∧
      (w.node 0).log = [sentinel] ∧ ¬ (w.node 0).IndexSafe 0 (.act .heartbeat) ∧
      ∃ w', (cluster 3 ℕ).run w [.act 0 .heartbeat] = some w' ∧ (w'.node 0).boots = 2 := by
  have h := (cluster 3 ℕ).run_after (cluster 3 ℕ).init cutLeader (by decide +kernel)
  refine ⟨_, h, by decide +kernel, by decide +kernel, by decide +kernel, by decide +kernel, ?_,
    _, (cluster 3 ℕ).run_after _ [.act 0 .heartbeat] (by decide +kernel), by decide +kernel⟩
  intro hs
  have hb := (hs none (by decide +kernel)).2
  revert hb
  decide +kernel

def servedRound : List (NetEvent (Fin 3) (Act ℕ)) :=
  firstElection ++ [.act 0 (.start 10), .act 0 .heartbeat, .deliver 1, .deliver 2,
    .act 0 .heartbeat]

theorem leader_indices_safe_served :
    ∃ w, (cluster 3 ℕ).run (cluster 3 ℕ).init servedRound = some w ∧
      (w.node 0).commitIndex = 1 ∧ (w.node 0).nextIndex 1 = 2 ∧
      (cluster 3 ℕ).Meets ((raft 3 ℕ).Guards Server.IndexSafe) (cluster 3 ℕ).init servedRound :=
  have h := (cluster 3 ℕ).run_after (cluster 3 ℕ).init servedRound (by decide +kernel)
  ⟨_, h, by decide +kernel, by decide +kernel, leader_indices_safe (by decide +kernel)⟩

end DistLab.Raft
