import DistLab.Raft.Commitment

/-! # State machine safety

The commitment invariant holds along every run in which no log is cut or lost and the
servers take, use and commit in office only. In such a run no two servers hand
different commands to the service at one index. A candidate that counts the votes of a
term it has left is enough to break this.
-/

namespace DistLab.Raft

variable {n : ℕ} {C : Type*} [Inhabited C] {x : Input (Act C) (Msg n C)} {r : Outcome n C}

namespace Server

variable {me : Fin n} {rf rf' : Server n C} {trace trace' : List (Obs n C)} {p : Fin n}

theorem Reacts.round (h : Reacts me rf x r) : rf.chans ≤ r.state.chans ∧
    ∀ ch, r.state.routine = .leader (some ch) → rf.routine = .leader (some ch) ∨ ch = rf.chans := by
  cases h with
  | pass h =>
    refine ⟨le_rfl, fun ch hq => ?_⟩
    rcases h with rfl | rfl | rfl | rfl | ⟨_, _, _, _, -, rfl⟩
    · exact Or.inl hq
    all_goals simp at hq
  | resume | campaign | win | depose => exact ⟨le_rfl, fun ch hq => by cases hq⟩
  | broadcast => exact ⟨Nat.le_succ _, fun ch hq => Or.inr (by simpa using hq.symm)⟩
  | brokenBroadcast | crashRaised => exact ⟨by simp, by simp⟩
  | crashNominee => exact ⟨by simp [nominate], by simp⟩
  | crash _ _ hc => exact ⟨by simp [hc], by simp⟩
  | start | emit | matched | commit => exact ⟨le_rfl, fun ch hq => Or.inl hq⟩
  | countVote hr hp hg hρ =>
    refine ⟨le_rfl, fun ch hq => ?_⟩
    rcases hρ with ⟨rfl, -⟩ | rfl <;> cases hq
  | refuseVote | grantVote | refuseEntries =>
    exact ⟨by simp, fun ch hq => Or.inl (by simpa using hq)⟩
  | accept ht hp he het hs hu =>
    obtain ⟨ci, la, bs, rfl⟩ := acceptEntries_frame hu
    exact ⟨by simp [splice], fun ch hq => Or.inl (by simpa [splice] using hq)⟩

theorem Reacts.calls (h : Reacts me rf x r) {m : Msg n C} {ch : ℕ} {args : AppendEntriesArgs n C}
    (hm : m ∈ r.out) (hc : m.call = some (ch, args)) :
    (args.leaderId = me ∧ args.term = rf.currentTerm ∧ ch < r.state.chans ∧
      (r.state.status = .leader → r.state.currentTerm = rf.currentTerm)) ∨
    ∃ p, x = .recv (.appendEntries p ch args) := by
  cases h
  case broadcast | brokenBroadcast =>
    obtain ⟨⟨p, args'⟩, hb, rfl⟩ := List.mem_map.mp hm
    obtain ⟨rfl, rfl⟩ := Prod.mk.inj (Option.some.inj hc)
    obtain ⟨prev, e, -, hargs⟩ := buildArgs_eq_some (mem_buildAll hb).2
    exact Or.inl ⟨by rw [hargs], by rw [hargs], by simp, by simp⟩
  case refuseEntries | accept =>
    obtain rfl := List.mem_singleton.mp hm
    obtain ⟨rfl, rfl⟩ := Prod.mk.inj (Option.some.inj hc)
    exact Or.inr ⟨_, rfl⟩
  case campaign =>
    obtain ⟨p, -, rfl⟩ := List.mem_map.mp hm
    exact nomatch hc
  case refuseVote | grantVote =>
    obtain rfl := List.mem_singleton.mp hm
    exact nomatch hc
  all_goals simp at hm

/-- A success is reported only by a server that adopts the log of the request. -/
theorem Reacts.success (h : Reacts me rf x r) {q : Fin n} {ch : ℕ} {args : AppendEntriesArgs n C}
    {reply : AppendEntriesReply} (hm : Msg.appendEntriesReply q ch args reply ∈ r.out)
    (hs : reply.success = true) : q = me ∧ ∃ p, x = .recv (.appendEntries p ch args) ∧
      ∃ prev e, args.prevLogIndex = (prev : ℕ) ∧ rf.log[prev]? = some e ∧
        e.termIdx = args.prevLogTerm ∧ Obs.adopted me args.term (rf.spliced args prev) ∈ r.obs := by
  cases h
  case accept prev ht hp he het hs hu =>
    obtain ⟨rfl, rfl, rfl, rfl⟩ := Msg.appendEntriesReply.inj (List.mem_singleton.mp hm)
    refine ⟨rfl, _, rfl, _, _, hp, he, het, ?_⟩
    obtain ⟨ci, la, bs, rfl⟩ := acceptEntries_frame hu
    simp [splice, spliced]
  case refuseEntries h =>
    obtain ⟨rfl, rfl, rfl, rfl⟩ := Msg.appendEntriesReply.inj (List.mem_singleton.mp hm)
    exact absurd hs (by simp [h])
  all_goals simp at hm

theorem Reacts.applied (h : Reacts me rf x r) {i : Fin n} {m : ApplyMsg C}
    (hm : Obs.applied i m ∈ r.obs) : ∃ ms ∈ rf.batches, m ∈ ms := by
  cases h
  case emit hk =>
    obtain ⟨rfl, rfl⟩ := Obs.applied.inj (List.mem_singleton.mp hm)
    exact ⟨_, List.mem_of_getElem? hk, List.mem_cons_self⟩
  all_goals simp at hm

theorem Reaches.mono (h : rf.Reaches trace p) (hm : rf'.matchIndex p = rf.matchIndex p)
    (ht : rf'.currentTerm = rf.currentTerm) (hl : rf.log <+: rf'.log) (hs : trace ⊆ trace') :
    rf'.Reaches trace' p := by
  rcases h with h | ⟨L, ha, hL, hlt⟩
  · exact Or.inl (hm.trans h)
  · exact Or.inr ⟨L, ht ▸ ha.mono hs, hL.trans hl, hm ▸ hlt⟩

theorem reaches_enterLeader (hl : rf.log ≠ [])
    (ha : Obs.adopted me rf.currentTerm rf.log ∈ trace) (p : Fin n) :
    (rf.enterLeader me).Reaches trace p := by
  rcases eq_or_ne p me with rfl | hne
  · refine Or.inr ⟨rf.log, Or.inr ha, List.prefix_refl _, ?_⟩
    have := List.length_pos_iff.mpr hl
    simp only [enterLeader, Function.update_self]
    omega
  · exact Or.inl (by simp [enterLeader, Function.update_of_ne hne])

end Server

namespace Committing

variable {w : Cluster n C} {i : Fin n} {net : List (Msg n C)}

theorem replies_put (h : Committing w) (hx : (w.node i).Reacts i x r)
    (hf : (raft n C).Feeds w i x) {q : Fin n} {ch : ℕ} {args : AppendEntriesArgs n C}
    {reply : AppendEntriesReply} (hm : Msg.appendEntriesReply q ch args reply ∈ r.out)
    (hs : reply.success = true) : ∃ b L, Obs.sent args.leaderId b args L ∈ w.trace ∧
      args.CutFrom L ∧ Obs.adopted q args.term L ∈ r.obs := by
  obtain ⟨rfl, p, rfl, prev, e, hp, he, het, ha⟩ := hx.success hm hs
  obtain ⟨-, b, L, hsent, hcut, hspl, -⟩ := h.adopting.matched.accepted hf hp he het
  exact ⟨b, L, hsent, hcut, hspl ▸ ha⟩

theorem calls_old (h : Committing w) (hx : (w.node i).Reacts i x r)
    (ho : (w.node i).OfficeStep i r) {m : Msg n C} (hm : m ∈ w.net) {ch : ℕ}
    {args : AppendEntriesArgs n C} (hc : m.call = some (ch, args)) :
    ((w.put i net r).node args.leaderId).Calls ch args := by
  have hcalls := h.rounds m hm ch args hc
  refine World.forall_put (N := fun j s => args.leaderId = j → Server.Calls s ch args)
    ?_ ?_ _ rfl
  · rintro rfl
    obtain ⟨hlt, hterm⟩ := hcalls
    refine ⟨hlt.trans_le hx.round.1, fun hl hq => ?_⟩
    have hq' := (hx.round.2 ch hq).resolve_right hlt.ne
    cases ho with
    | steady hs =>
      obtain ⟨hold, hT⟩ := hs.office hl
      exact (hterm hold hq').trans hT.symm
    | campaign _ ha => simp [hq, Routine.asks] at ha
    | win _ _ ha => simp [hq] at ha
  · rintro j - rfl
    exact hcalls

theorem calls_put (h : Committing w) (hx : (w.node i).Reacts i x r)
    (ho : (w.node i).OfficeStep i r) (hf : (raft n C).Feeds w i x) (hn : net ⊆ w.net)
    {m : Msg n C} (hm : m ∈ (w.put i net r).net) {ch : ℕ} {args : AppendEntriesArgs n C}
    (hc : m.call = some (ch, args)) : ((w.put i net r).node args.leaderId).Calls ch args := by
  rcases World.mem_put_net hn hm with hm | hm
  · exact h.calls_old hx ho hm hc
  · rcases hx.calls hm hc with ⟨rfl, ht, hlt, hT⟩ | ⟨p, rfl⟩
    · rw [World.put_node_self]
      exact ⟨hlt, fun hl _ => ht.trans (hT hl).symm⟩
    · exact h.calls_old hx ho hf.1 rfl

theorem reaches_start (h : Committing w) {command : C} (hl : (w.node i).status = .leader)
    {trace : List (Obs n C)} (hsub : w.trace ⊆ trace)
    (ha : Obs.adopted i (w.node i).currentTerm
      ((w.node i).log ++ [⟨command, (w.node i).currentTerm⟩]) ∈ trace) (p : Fin n) :
    ((w.node i).extend i command).Reaches trace p := by
  rcases eq_or_ne p i with rfl | hne
  · refine Or.inr ⟨_, Or.inr ha, List.prefix_refl _, ?_⟩
    have hlt : (w.node p).matchIndex p < (w.node p).log.length := by
      rcases h.reaches p hl p with h0 | ⟨L, -, hL, hlt⟩
      · rw [h0]
        exact List.length_pos_iff.mpr (h.adopting.matched.logs p).ne_nil
      · exact hlt.trans_le hL.length_le
    simpa [Server.extend] using hlt
  · refine (h.reaches i hl p).mono ?_ rfl (List.prefix_append _ _) hsub
    simp [Server.extend, Function.update_of_ne hne]

theorem reaches_put (h : Committing w) (hx : (w.node i).Reacts i x r)
    (hg : (w.node i).KeepsTerm x) (hf : (raft n C).Feeds w i x)
    (hl : r.state.status = .leader) (p : Fin n) : r.state.Reaches (r.obs ++ w.trace) p := by
  have hsub : w.trace ⊆ r.obs ++ w.trace := List.subset_append_right _ _
  have hne : (w.node i).log ≠ [] := (h.adopting.matched.logs i).ne_nil
  cases hx with
  | pass | broadcast | emit | countVote =>
    exact (h.reaches i hl p).mono rfl rfl (List.prefix_refl _) hsub
  | resume hs => exact Server.reaches_enterLeader hne (hsub (h.adopting.office i hs)) p
  | win => exact Server.reaches_enterLeader hne (by simp) p
  | campaign he hs =>
    rcases hs with hs | ⟨hs, _, _, _, hq⟩
    · exact absurd hl hs
    · have := (h.adopting.acting.elected.office i).leaves (hs.trans hl)
      simp [hq, Routine.asks] at this
  | start hs => exact h.reaches_start hs hsub (by simp) p
  | brokenBroadcast | crash | crashRaised | crashNominee => simp at hl
  | depose => simp [Server.depose] at hl
  | refuseVote | grantVote | refuseEntries =>
    obtain ⟨hold, hT⟩ := (Server.Steady.updateTerm (hg.2 _ rfl)).office hl
    exact (h.reaches i hold p).mono (by simp) hT (by simp) hsub
  | accept ht hp he het hs hu =>
    obtain ⟨hne, hw, -⟩ := h.adopting.accepted hf hp he het
    obtain ⟨ci, la, bs, rfl⟩ := Server.acceptEntries_frame hu
    obtain ⟨hold, hT⟩ := (Server.Steady.updateTerm (hg.2 _ rfl)).office hl
    rw [Server.updateTerm_currentTerm, max_eq_right ht] at hT
    exact (h.adopting.not_leader_of_accept hne hw hT.symm hold).elim
  | matched hr ht hs | commit hr ht hs =>
    exact (h.reaches_matched hf hr hs hl p).mono rfl rfl (List.prefix_refl _) hsub

theorem sent_put (h : Committing w) (hx : (w.node i).Reacts i x r) {j : Fin n} {b : ℕ}
    {args : AppendEntriesArgs n C} {L : List (LogEntry C)} (hs : Obs.sent j b args L ∈ r.obs) :
    Committed w.trace args.term (L.take (args.leaderCommit + 1)) := by
  obtain ⟨-, -, -, rfl, p, -, hb⟩ := hx.sent hs
  obtain ⟨prev, e, -, rfl⟩ := Server.buildArgs_eq_some hb
  obtain ⟨-, B, L, ha, hcom⟩ := h.commits i
  exact hcom.mono (List.Subset.refl _) (h.adopted_le ha)

theorem put (h : Committing w) (hr : (raft n C).react i (w.node i) x = some r)
    (hg : (w.node i).KeepsSafe i x) (hf : (raft n C).Feeds w i x) (hn : net ⊆ w.net) :
    Committing (w.put i net r) := by
  have hx := Server.react_reacts hr
  have hterm : (w.node i).KeepsTerm x := hg.1.1.1.1
  have ho := hx.officeStep (h.adopting.acting.elected.votes.saved i) hterm
  have hadopt := h.adopting.put hr hg.1 hf hn
  have hsub : w.trace ⊆ r.obs ++ w.trace := List.subset_append_right _ _
  have hlog : LogOk (r.obs ++ w.trace) r.state.log := by
    have := hadopt.matched.logs i
    rwa [World.put_node_self] at this
  obtain ⟨hcommit, hbatch⟩ := h.commit_put hx hf hg hlog
  constructor
  case adopting => exact hadopt
  case replies =>
    intro q ch args reply hm hs
    rcases World.mem_put_net hn hm with hm | hm
    · obtain ⟨b, L, hsent, hcut, ha⟩ := h.replies q ch args reply hm hs
      exact ⟨b, L, hsub hsent, hcut, hsub ha⟩
    · obtain ⟨b, L, hsent, hcut, ha⟩ := h.replies_put hx hf hm hs
      exact ⟨b, L, hsub hsent, hcut, List.mem_append_left _ ha⟩
  case rounds => exact fun m hm ch args hc => h.calls_put hx ho hf hn hm hc
  case reaches =>
    refine World.forall_put (N := fun _ s => Server.status s = .leader → ∀ p,
      s.Reaches (r.obs ++ w.trace) p) (h.reaches_put hx hterm hf) ?_
    exact fun j _ hl p => (h.reaches j hl p).mono rfl rfl (List.prefix_refl _) hsub
  case commits =>
    refine World.forall_put hcommit fun j _ => ?_
    exact h.commitOk_of_isPrefix hsub (List.take_prefix _ _) rfl
  case sent =>
    intro j b args L hs
    rcases List.mem_append.mp hs with hs | hs
    · exact (h.sent_put hx hs).mono hsub le_rfl
    · exact (h.sent j b args L hs).mono hsub le_rfl
  case batches =>
    refine World.forall_put (N := fun _ s => ∀ ms ∈ Server.batches s, ∀ m ∈ ms,
      Supported (r.obs ++ w.trace) m) hbatch ?_
    exact fun j _ ms hms m hm => (h.batches j ms hms m hm).mono hsub
  case applied =>
    intro j m hm
    rcases List.mem_append.mp hm with hm | hm
    · obtain ⟨ms, hms, hm⟩ := hx.applied hm
      exact (h.batches i ms hms m hm).mono hsub
    · exact (h.applied j m hm).mono hsub

theorem lose (h : Committing w) (hn : net ⊆ w.net) : Committing { w with net := net } where
  adopting := h.adopting.lose hn
  replies q ch args reply hm := h.replies q ch args reply (hn hm)
  rounds m hm := h.rounds m (hn hm)
  reaches := h.reaches
  commits := h.commits
  sent := h.sent
  batches := h.batches
  applied := h.applied

theorem init : Committing (cluster n C).init where
  adopting := .init
  replies := by simp [Protocol.system]
  rounds := by simp [Protocol.system]
  reaches i hl := nomatch hl
  commits i := commitOk_of_restart (Adopting.init.matched.logs i) rfl
  sent := by simp [Protocol.system]
  batches i ms hms := nomatch hms
  applied := by simp [Protocol.system]

theorem run {es : List (NetEvent (Fin n) (Act C))} {w' : Cluster n C} (hi : Committing w)
    (h : (cluster n C).run w es = some w')
    (hg : (cluster n C).Meets ((raft n C).Guards Server.KeepsSafe) w es) : Committing w' :=
  Protocol.preserved (fun _ _ hi hn => hi.lose hn)
    (fun _ _ _ _ _ hi hr hg hf hn => hi.put hr hg hf hn) h hg hi

end Committing

/-- When no log is cut or lost and the servers take, use and commit in office only, no two
servers apply different commands at one index. -/
theorem state_machine_safety {es : List (NetEvent (Fin n) (Act C))} {w : Cluster n C}
    (h : (cluster n C).run (cluster n C).init es = some w)
    (hg : (cluster n C).Meets ((raft n C).Guards Server.KeepsSafe) (cluster n C).init es)
    {i j : Fin n} {m m' : ApplyMsg C} (hm : Obs.applied i m ∈ w.trace)
    (hm' : Obs.applied j m' ∈ w.trace) (hi : m.commandIndex = m'.commandIndex) :
    m.command = m'.command := by
  have hc := Committing.init.run h hg
  have : Nonempty (Fin n) := ⟨i⟩
  exact hc.adopting.command_eq (hc.applied i m hm) (hc.applied j m' hm') hi

def committed : List (NetEvent (Fin 3) (Act ℕ)) :=
  firstElection ++ [.act 0 (.start 10), .act 0 .heartbeat, .deliver 1, .deliver 2,
    .act 0 (.emit 0), .act 0 .heartbeat, .deliver 2, .act 1 (.emit 0)]

theorem state_machine_safety_committed : ∃ w,
    (cluster 3 ℕ).run (cluster 3 ℕ).init committed = some w ∧
      Obs.applied 0 ⟨true, 10, 1⟩ ∈ w.trace ∧ Obs.applied 1 ⟨true, 10, 1⟩ ∈ w.trace ∧
        ∀ i m, Obs.applied i m ∈ w.trace → 1 = m.commandIndex → 10 = m.command := by
  have h := (cluster 3 ℕ).run_after (cluster 3 ℕ).init committed (by decide +kernel)
  have h0 : Obs.applied 0 ⟨true, 10, 1⟩ ∈
      ((cluster 3 ℕ).after (cluster 3 ℕ).init committed (by decide +kernel)).trace := by
    decide +kernel
  exact ⟨_, h, h0, by decide +kernel,
    fun i m hm hi => state_machine_safety h (by decide +kernel) h0 hm hi⟩

/-- Two servers lead one term after a stale victory, and each commits a command of its own. -/
def divided : List (NetEvent (Fin 3) (Act ℕ)) :=
  staleVictory ++ [.act 0 (.start 10), .act 0 .heartbeat, .deliver 5, .deliver 5,
    .act 0 (.emit 0), .act 1 (.start 20), .act 1 .heartbeat, .deliver 6, .deliver 6,
    .act 1 (.emit 0)]

theorem applied_differ_divided : ∃ w, (cluster 3 ℕ).run (cluster 3 ℕ).init divided = some w ∧
    Obs.applied 0 ⟨true, 10, 1⟩ ∈ w.trace ∧ Obs.applied 1 ⟨true, 20, 1⟩ ∈ w.trace :=
  ⟨_, (cluster 3 ℕ).run_after (cluster 3 ℕ).init divided (by decide +kernel), by decide +kernel,
    by decide +kernel⟩

end DistLab.Raft
