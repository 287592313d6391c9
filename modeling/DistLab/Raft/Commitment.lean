import Mathlib.Data.Fin.VecNotation
import DistLab.Raft.Adoption

/-! # Committed entries

A leader commits what half of the servers have adopted in its term, so the log up to
the commit index of a server is always a prefix of a chosen one. The messages handed
to the service are read from such prefixes, and any two of them are prefixes of one
another: no two servers apply different commands at one index.
-/

namespace DistLab.Raft

variable {n : ℕ} {C : Type*} [Inhabited C]

/-- A prefix of the sentinel or of a log chosen in a term up to the bound. -/
def Committed (trace : List (Obs n C)) (B : ℕ) (P : List (LogEntry C)) : Prop :=
  P <+: [sentinel] ∨
    ∃ T ≤ B, ∃ Q, Chosen LogEntry.termIdx (Adopted trace) T Q ∧ P <+: Q

def Supported (trace : List (Obs n C)) (m : ApplyMsg C) : Prop :=
  ∃ B P e, Committed trace B P ∧ P[m.commandIndex]? = some e ∧ e.content = m.command

section Committed

variable {trace trace' : List (Obs n C)} {B B' : ℕ} {P P' : List (LogEntry C)}

theorem Committed.mono (h : Committed trace B P) (hs : trace ⊆ trace') (hB : B ≤ B') :
    Committed trace' B' P := by
  rcases h with h | ⟨T, hT, Q, hQ, hp⟩
  · exact Or.inl h
  · exact Or.inr ⟨T, hT.trans hB, Q, hQ.mono fun v L ha => ha.mono hs, hp⟩

theorem Committed.of_isPrefix (h : Committed trace B P) (hp : P' <+: P) :
    Committed trace B P' := by
  rcases h with h | ⟨T, hT, Q, hQ, hq⟩
  · exact Or.inl (hp.trans h)
  · exact Or.inr ⟨T, hT, Q, hQ, hp.trans hq⟩

theorem Supported.mono {m : ApplyMsg C} (h : Supported trace m) (hs : trace ⊆ trace') :
    Supported trace' m := by
  obtain ⟨B, P, e, hP, he⟩ := h
  exact ⟨B, P, e, hP.mono hs le_rfl, he⟩

end Committed

namespace Adopting

variable {w : Cluster n C} {B B' : ℕ} {P P' Q : List (LogEntry C)}

theorem rooted_of_chosen [Nonempty (Fin n)] (h : Adopting w) {T : ℕ}
    (hQ : Chosen LogEntry.termIdx (Adopted w.trace) T Q) : [sentinel] <+: Q := by
  obtain ⟨v, L, e, ha, hp, -, -, hne⟩ := Chronicle.exists_ack hQ
  have hroot : [sentinel] <+: L := by
    rcases ha with ⟨-, rfl⟩ | ha
    · exact List.prefix_refl _
    · exact (h.logOk v T L ha).rooted
  exact List.prefix_of_prefix_length_le hroot hp (by simpa [Nat.one_le_iff_ne_zero] using hne)

theorem comparable [Nonempty (Fin n)] (h : Adopting w) (hP : Committed w.trace B P)
    (hP' : Committed w.trace B' P') : P <+: P' ∨ P' <+: P := by
  rcases hP with hP | ⟨T, -, Q, hQ, hp⟩ <;> rcases hP' with hP' | ⟨T', -, Q', hQ', hp'⟩
  · exact List.prefix_or_prefix_of_prefix hP hP'
  · exact List.prefix_or_prefix_of_prefix (hP.trans (h.rooted_of_chosen hQ')) hp'
  · exact List.prefix_or_prefix_of_prefix hp (hP'.trans (h.rooted_of_chosen hQ))
  · rcases h.chronicle.comparable hQ hQ' with hqq | hqq
    · exact List.prefix_or_prefix_of_prefix (hp.trans hqq) hp'
    · exact List.prefix_or_prefix_of_prefix hp (hp'.trans hqq)

theorem command_eq [Nonempty (Fin n)] (h : Adopting w) {m m' : ApplyMsg C}
    (hm : Supported w.trace m) (hm' : Supported w.trace m')
    (hi : m.commandIndex = m'.commandIndex) : m.command = m'.command := by
  obtain ⟨B, P, e, hP, he, hc⟩ := hm
  obtain ⟨B', P', e', hP', he', hc'⟩ := hm'
  rw [← hc, ← hc']
  have hee : e = e' := by
    rw [← hi] at he'
    rcases h.comparable hP hP' with ⟨S, rfl⟩ | ⟨S, rfl⟩
    · obtain ⟨hlt, -⟩ := List.getElem?_eq_some_iff.mp he
      rw [List.getElem?_append_left hlt, he] at he'
      exact Option.some.inj he'
    · obtain ⟨hlt, -⟩ := List.getElem?_eq_some_iff.mp he'
      rw [List.getElem?_append_left hlt, he'] at he
      exact (Option.some.inj he).symm
  rw [hee]

end Adopting

def Msg.call : Msg n C → Option (ℕ × AppendEntriesArgs n C)
  | .appendEntries _ ch args => some (ch, args)
  | .appendEntriesReply _ ch args _ => some (ch, args)
  | _ => none

def successChan : Input (Act C) (Msg n C) → Option ℕ
  | .recv (.appendEntriesReply _ ch _ reply) => if reply.success then some ch else none
  | _ => none

namespace Server

/-- A success is counted only by a server in office. -/
def CommitsInOffice (rf : Server n C) (x : Input (Act C) (Msg n C)) : Prop :=
  ∀ ch ∈ successChan x, rf.routine = .leader (some ch) → rf.status = .leader

/-- No log is cut or lost, and a server takes, uses and commits in office only. -/
def KeepsSafe (me : Fin n) (rf : Server n C) (x : Input (Act C) (Msg n C)) : Prop :=
  rf.KeepsLogs me x ∧ rf.CommitsInOffice x

instance (rf : Server n C) (x : Input (Act C) (Msg n C)) : Decidable (rf.CommitsInOffice x) :=
  inferInstanceAs (Decidable (∀ ch ∈ successChan x, _ → _))

instance [DecidableEq C] (me : Fin n) (rf : Server n C) (x : Input (Act C) (Msg n C)) :
    Decidable (rf.KeepsSafe me x) :=
  inferInstanceAs (Decidable (_ ∧ _))

def Calls (rf : Server n C) (ch : ℕ) (args : AppendEntriesArgs n C) : Prop :=
  ch < rf.chans ∧ (rf.status = .leader → rf.routine = .leader (some ch) →
    args.term = rf.currentTerm)

/-- The match index of a peer is reached by a log the peer adopted in the term. -/
def Reaches (trace : List (Obs n C)) (rf : Server n C) (p : Fin n) : Prop :=
  rf.matchIndex p = 0 ∨ ∃ L, Adopted trace p rf.currentTerm L ∧ L <+: rf.log ∧
    rf.matchIndex p < L.length

/-- The log up to the commit index is committed in a term in which the server adopted a log. -/
def CommitOk (trace : List (Obs n C)) (me : Fin n) (rf : Server n C) : Prop :=
  rf.commitIndex < rf.log.length ∧ ∃ B L, Adopted trace me B L ∧
    Committed trace B (rf.log.take (rf.commitIndex + 1))

end Server

/-- What is committed, what is still to be applied and what the leaders count. -/
structure Committing (w : Cluster n C) : Prop where
  adopting : Adopting w
  replies : ∀ p ch args reply, Msg.appendEntriesReply p ch args reply ∈ w.net →
    reply.success = true → ∃ b L, Obs.sent args.leaderId b args L ∈ w.trace ∧ args.CutFrom L ∧
      Obs.adopted p args.term L ∈ w.trace
  rounds : ∀ m ∈ w.net, ∀ ch args, m.call = some (ch, args) →
    (w.node args.leaderId).Calls ch args
  reaches : ∀ i, (w.node i).status = .leader → ∀ p, (w.node i).Reaches w.trace p
  commits : ∀ i, (w.node i).CommitOk w.trace i
  sent : ∀ i b args L, Obs.sent i b args L ∈ w.trace →
    Committed w.trace args.term (L.take (args.leaderCommit + 1))
  batches : ∀ i, ∀ ms ∈ (w.node i).batches, ∀ m ∈ ms, Supported w.trace m
  applied : ∀ i m, Obs.applied i m ∈ w.trace → Supported w.trace m

namespace Committing

variable {w : Cluster n C} {i : Fin n} {x : Input (Act C) (Msg n C)} {r : Outcome n C}
  {net : List (Msg n C)}

theorem adopted_le (h : Committing w) {v : Fin n} {T : ℕ} {L : List (LogEntry C)}
    (ha : Adopted w.trace v T L) : T ≤ (w.node v).currentTerm := by
  obtain ⟨T', hT', hn⟩ := h.adopting.newest v
  exact (hn.2 T L trivial ha).1.trans hT'

theorem committed_accept (h : Committing w) {p : Fin n} {ch : ℕ} {args : AppendEntriesArgs n C}
    {prev : ℕ} {e : LogEntry C} (hf : (raft n C).Feeds w i (.recv (.appendEntries p ch args)))
    (hg : (w.node i).KeepsTail (.recv (.appendEntries p ch args)))
    (ht : (w.node i).currentTerm ≤ args.term) (hp : args.prevLogIndex = prev)
    (he : (w.node i).log[prev]? = some e) (het : e.termIdx = args.prevLogTerm) :
    (w.node i).log.take ((w.node i).commitIndex + 1) <+: (w.node i).spliced args prev := by
  obtain ⟨-, -, d, hd, hdT, -, hspl⟩ := h.adopting.accepted hf hp he het
  obtain ⟨-, B, L, hB, hc⟩ := h.commits i
  rcases hc with hc | ⟨T, hT, Q, hQ, hpQ⟩
  · rw [hspl]
    exact hc.trans (h.adopting.matched.deeds d hd).rooted
  · obtain ⟨T', hT', hn⟩ := h.adopting.newest i
    have hle : T ≤ T' := hT.trans (hn.2 B L trivial hB).1
    rcases (hle.trans (hT'.trans ht)).lt_or_eq with hlt | heq
    · obtain ⟨L₀, hb, hgrow⟩ := h.adopting.deeds d hd
      rw [hspl]
      exact hpQ.trans ((h.adopting.chronicle.isPrefix_base hQ (hdT ▸ hlt) hb).trans
        hgrow.isPrefix)
    · have hTT : T' = args.term := le_antisymm (hT'.trans ht) (heq ▸ hle)
      exact (List.take_prefix _ _).trans
        (h.adopting.newest_accept hf hg ht hp he het (hTT ▸ hn.1))

theorem commitOk_of_isPrefix (h : Committing w) {rf : Server n C} {trace : List (Obs n C)}
    (hsub : w.trace ⊆ trace)
    (hl : (w.node i).log.take ((w.node i).commitIndex + 1) <+: rf.log)
    (hc : rf.commitIndex = (w.node i).commitIndex) : rf.CommitOk trace i := by
  obtain ⟨hlt, B, L, hB, hcom⟩ := h.commits i
  have hlen : ((w.node i).log.take ((w.node i).commitIndex + 1)).length =
      (w.node i).commitIndex + 1 := by
    rw [List.length_take]
    omega
  have htake := List.prefix_iff_eq_take.mp hl
  rw [hlen] at htake
  refine ⟨?_, B, L, hB.mono hsub, ?_⟩
  · have := hl.length_le
    omega
  · rw [hc, ← htake]
    exact hcom.mono hsub le_rfl

theorem isPrefix_of_reply (h : Committing w) {peer : Fin n} {ch : ℕ}
    {args : AppendEntriesArgs n C} {reply : AppendEntriesReply}
    (hf : (raft n C).Feeds w i (.recv (.appendEntriesReply peer ch args reply)))
    (hr : (w.node i).routine = .leader (some ch)) (hs : reply.success = true)
    (hl : (w.node i).status = .leader) : ∃ L, args.CutFrom L ∧ L <+: (w.node i).log ∧
      Adopted w.trace peer (w.node i).currentTerm L := by
  obtain ⟨hm, rfl⟩ := hf
  obtain ⟨b, L, hsent, hcut, ha⟩ := h.replies peer ch args reply hm hs
  have hT := (h.rounds _ hm ch args rfl).2 hl hr
  have hd := mem_deeds_of_sent hsent
  have hact := h.adopting.acting
  have hb : b = (w.node args.leaderId).boots := by
    refine le_antisymm (hact.boots_le _ hd) (not_lt.mp fun hlt => ?_)
    have := (hact.past _ hd hlt).office hl
    exact absurd hT this.ne
  have hown := ((h.adopting.matched.own _ hd).2 hb).2 hT
  exact ⟨L, hcut, hown.isPrefix, Or.inr (hT ▸ ha)⟩

theorem reaches_matched (h : Committing w) {peer : Fin n} {ch : ℕ}
    {args : AppendEntriesArgs n C} {reply : AppendEntriesReply}
    (hf : (raft n C).Feeds w i (.recv (.appendEntriesReply peer ch args reply)))
    (hr : (w.node i).routine = .leader (some ch)) (hs : reply.success = true)
    (hl : (w.node i).status = .leader) (p : Fin n) :
    ((w.node i).matched peer args).Reaches w.trace p := by
  rcases eq_or_ne p peer with rfl | hne
  · obtain ⟨L, hcut, hp, ha⟩ := h.isPrefix_of_reply hf hr hs hl
    obtain ⟨h0, hlen⟩ := hcut.length_eq
    refine Or.inr ⟨L, ha, hp, ?_⟩
    simp only [Server.matched, Function.update_self]
    omega
  · have := h.reaches i hl p
    simpa [Server.Reaches, Server.matched, Function.update_of_ne hne] using this

/-- What a server in office commits is chosen in its term. -/
theorem chosen_commit (h : Committing w) {rf : Server n C} {newCommit : ℕ} {e : LogEntry C}
    (hl : (w.node i).status = .leader) (hlog : rf.log = (w.node i).log)
    (ht : rf.currentTerm = (w.node i).currentTerm) (hreach : ∀ p, rf.Reaches w.trace p)
    (hc : rf.sortedMatch[n / 2]? = some newCommit) (he : (w.node i).log[newCommit]? = some e)
    (het : (w.node i).currentTerm ≤ e.termIdx) :
    Chosen LogEntry.termIdx (Adopted w.trace) (w.node i).currentTerm
      ((w.node i).log.take (newCommit + 1)) := by
  have hoff := h.adopting.office i hl
  have hterm : e.termIdx = (w.node i).currentTerm :=
    le_antisymm (h.adopting.chronicle.term_le (Or.inr hoff) (List.mem_of_getElem? he)) het
  have hpos : (w.node i).currentTerm ≠ 0 := by
    obtain ⟨-, -, ⟨T', hT', -⟩, -⟩ :=
      h.adopting.elected i _ ((h.adopting.acting.elected.office i).won hl)
    omega
  have hne : newCommit ≠ 0 := by
    rintro rfl
    obtain ⟨S, hS⟩ := (h.adopting.matched.logs i).rooted
    rw [← hS] at he
    obtain rfl := Option.some.inj he
    exact hpos hterm.symm
  refine ⟨hpos, ⟨e, ?_, hterm⟩, _, half_of_median hc, fun p hp => ?_⟩
  · rw [List.getLast?_eq_getElem?, length_take_of_getElem? he, Nat.add_sub_cancel,
      List.getElem?_take_of_lt (Nat.lt_succ_self _), he]
  · have hp : newCommit ≤ rf.matchIndex p := by simpa using hp
    rcases hreach p with h0 | ⟨L, ha, hL, hlt⟩
    · omega
    · refine ⟨L, ht ▸ ha, List.prefix_of_prefix_length_le (List.take_prefix _ _) (hlog ▸ hL) ?_⟩
      rw [List.length_take]
      omega

theorem supported_of_appMsgs {trace : List (Obs n C)} {B la ci : ℕ} {log : List (LogEntry C)}
    {ms : List (ApplyMsg C)} (hP : Committed trace B (log.take (ci + 1)))
    (hms : Server.appMsgs log la (ci - la) = some ms) : ∀ m ∈ ms, Supported trace m := by
  intro m hm
  obtain ⟨hlt, hle, e, he, hc⟩ := Server.appMsgs_spec hms m hm
  refine ⟨B, _, e, hP, ?_, hc⟩
  rwa [List.getElem?_take_of_lt (by omega)]

theorem commitOk_of_restart {rf : Server n C} {trace : List (Obs n C)}
    (hl : LogOk trace rf.log) (hc : rf.commitIndex = 0) : rf.CommitOk trace i := by
  obtain ⟨S, hS⟩ := hl.rooted
  refine ⟨by simp [hc, ← hS], 0, [sentinel], Or.inl ⟨rfl, rfl⟩, Or.inl ?_⟩
  simp [hc, ← hS]

theorem commit_accept (h : Committing w) {p : Fin n} {ch : ℕ} {args : AppendEntriesArgs n C}
    {prev : ℕ} {e : LogEntry C} {u : Server n C}
    (hf : (raft n C).Feeds w i (.recv (.appendEntries p ch args)))
    (hg : (w.node i).KeepsTail (.recv (.appendEntries p ch args)))
    (ht : (w.node i).currentTerm ≤ args.term) (hp : args.prevLogIndex = prev)
    (he : (w.node i).log[prev]? = some e) (het : e.termIdx = args.prevLogTerm)
    (hu : ((w.node i).updateTerm args.term).1.acceptEntries args prev = .ok u)
    {trace : List (Obs n C)} (hsub : w.trace ⊆ trace)
    (ha : Obs.adopted i args.term u.log ∈ trace) :
    u.CommitOk trace i ∧ ∀ ms ∈ u.batches, ∀ m ∈ ms, Supported trace m := by
  have hold : ∀ ms ∈ (w.node i).batches, ∀ m ∈ ms, Supported trace m :=
    fun ms hms m hm => (h.batches i ms hms m hm).mono hsub
  have hkeep := h.committed_accept hf hg ht hp he het
  obtain ⟨-, b, L, hsent, -, hspl, -⟩ := h.adopting.matched.accepted hf hp he het
  have hlog : ((w.node i).updateTerm args.term).1.spliced args prev = L := by
    simpa [Server.spliced] using hspl
  rw [hspl] at hkeep
  rcases Server.acceptEntries_ok hu with ⟨-, rfl⟩ | ⟨-, ci, ms, hci, hms, rfl⟩
  · exact ⟨h.commitOk_of_isPrefix hsub (by simpa [Server.splice, hlog] using hkeep)
      (by simp [Server.splice]), by simpa [Server.splice] using hold⟩
  · have hcom : Committed trace args.term (L.take (ci + 1)) := by
      refine ((h.sent _ _ _ _ hsent).mono hsub le_rfl).of_isPrefix ?_
      exact List.take_prefix_take_left (by omega)
    have hlen : ci < L.length := by
      have := hkeep.length_le
      obtain ⟨hlt, -⟩ := h.commits i
      rw [List.length_take] at this
      rw [hlog] at hci
      omega
    rw [hlog] at hms
    refine ⟨⟨by simpa [Server.splice, hlog] using hlen, args.term, _, Or.inr ha,
      by simpa [Server.splice, hlog] using hcom⟩, fun ms' hms' => ?_⟩
    simp only [Server.updateTerm_batches, List.mem_append, List.mem_singleton] at hms'
    rcases hms' with hms' | rfl
    · exact hold ms' hms'
    · exact supported_of_appMsgs hcom hms

theorem commit_put (h : Committing w) (hr : (w.node i).Reacts i x r)
    (hf : (raft n C).Feeds w i x) (hg : (w.node i).KeepsSafe i x)
    (hm : LogOk (r.obs ++ w.trace) r.state.log) : r.state.CommitOk (r.obs ++ w.trace) i ∧
      ∀ ms ∈ r.state.batches, ∀ m ∈ ms, Supported (r.obs ++ w.trace) m := by
  have hsub : w.trace ⊆ r.obs ++ w.trace := List.subset_append_right _ _
  have hold : ∀ ms ∈ (w.node i).batches, ∀ m ∈ ms, Supported (r.obs ++ w.trace) m :=
    fun ms hms m hm => (h.batches i ms hms m hm).mono hsub
  cases hr with
  | pass | resume | campaign | win | broadcast | countVote | depose | matched =>
    exact ⟨h.commitOk_of_isPrefix hsub (List.take_prefix _ _) rfl, hold⟩
  | refuseVote | grantVote | refuseEntries =>
    exact ⟨h.commitOk_of_isPrefix hsub (by simpa using List.take_prefix _ _) (by simp),
      by simpa using hold⟩
  | start =>
    exact ⟨h.commitOk_of_isPrefix hsub
      ((List.take_prefix _ _).trans (List.prefix_append _ _)) rfl, hold⟩
  | brokenBroadcast | crash | crashRaised | crashNominee =>
    exact ⟨commitOk_of_restart hm (by simp), by simp⟩
  | @emit k m ms hk =>
    refine ⟨h.commitOk_of_isPrefix hsub (List.take_prefix _ _) rfl, fun ms' hms' m' hm' => ?_⟩
    rcases List.mem_or_eq_of_mem_set hms' with hms' | rfl
    · exact hold ms' hms' m' hm'
    · exact hold _ (List.mem_of_getElem? hk) m' (List.mem_cons_of_mem _ hm')
  | @accept p ch args reply e u prev ht hp he het hs hu =>
    exact h.commit_accept hf hg.1.1.2 ht hp he het hu hsub (by simp)
  | @commit peer ch args reply newCommit e ms hq ht hs hne hc he het hms =>
    have hl : (w.node i).status = .leader := hg.2 ch (by simp [successChan, hs]) hq
    have hlog : ((w.node i).matched peer args).log = (w.node i).log := rfl
    have hchosen := h.chosen_commit hl hlog rfl (h.reaches_matched hf hq hs hl) hc he het
    have hcom : Committed w.trace (w.node i).currentTerm ((w.node i).log.take (newCommit + 1)) :=
      Or.inr ⟨_, le_rfl, _, hchosen, List.prefix_refl _⟩
    obtain ⟨hlt, -⟩ := List.getElem?_eq_some_iff.mp he
    refine ⟨⟨hlt, _, _, Or.inr (h.adopting.office i hl), hcom⟩, fun ms' hms' => ?_⟩
    rcases List.mem_append.mp hms' with hms' | hms'
    · exact hold ms' hms'
    · obtain rfl := List.mem_singleton.mp hms'
      exact supported_of_appMsgs hcom hms

end Committing

section CommitRule

omit [Inhabited C] in
/-- The index a leader would commit is the largest that a strict majority has reached exactly
when no index is reached by just half of the servers. -/
theorem commit_quorum_iff (rf : Server n C) (hn : 1 ≤ n) : ∃ c, rf.sortedMatch[n / 2]? = some c ∧
    (IsGreatest {N | n / 2 < (Finset.univ.filter fun i => N ≤ rf.matchIndex i).card} c ↔
      ∀ N, 2 * (Finset.univ.filter fun i => N ≤ rf.matchIndex i).card ≠ n) := by
  have hlen : rf.sortedMatch.length = n := by simp [Server.sortedMatch]
  obtain ⟨c, hc⟩ : ∃ c, rf.sortedMatch[n / 2]? = some c :=
    ⟨_, List.getElem?_eq_getElem (by omega)⟩
  exact ⟨c, hc, isGreatest_median_iff hc⟩

theorem commit_quorum_iff_three :
    IsGreatest {N | 3 / 2 < (Finset.univ.filter fun i : Fin 3 => N ≤ ![4, 1, 2] i).card} 2 :=
  have ⟨_, hc, h⟩ := commit_quorum_iff
    { (Server.make none 0 0 : Server 3 ℕ) with matchIndex := ![4, 1, 2] } (by decide)
  have hc' : some 2 = some _ := Eq.trans (by decide) hc
  Option.some.inj hc' ▸ h.mpr fun N hN => by omega

def evenLeader : Server 2 ℕ :=
  { Server.make none 0 0 with
    currentTerm := 1
    log := [sentinel, ⟨10, 1⟩, ⟨11, 1⟩]
    nextIndex := fun _ => 1
    matchIndex := ![2, 0]
    status := .leader
    routine := .leader (some 0) }

theorem commits_unconfirmed : ∃ u, evenLeader.appendReply 1 ⟨1, 0, 0, 0, [⟨10, 1⟩], 0⟩
      ⟨1, true, 0⟩ = .ok u ∧
    u.matchIndex 0 = 2 ∧ u.matchIndex 1 = 1 ∧ u.sortedMatch[2 / 2]? = some 2 ∧
    u.commitIndex = 2 ∧
    ¬ IsGreatest {N | 2 / 2 < (Finset.univ.filter fun i => N ≤ u.matchIndex i).card} 2 :=
  ⟨{ evenLeader.matched 1 ⟨1, 0, 0, 0, [⟨10, 1⟩], 0⟩ with
      commitIndex := 2
      lastApplied := 2
      batches := [[⟨true, 10, 1⟩, ⟨true, 11, 2⟩]] },
    rfl, rfl, rfl, rfl, rfl, fun h => absurd h.1 (by decide)⟩

end CommitRule

end DistLab.Raft
