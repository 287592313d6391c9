import DistLab.Raft.Actors
import DistLab.Raft.Durability

/-! # Acknowledged entries

`AppendEntries` cuts the log behind the entries of an accepted request even where
nothing conflicts, so a request that was delayed, or an empty one, removes entries of
its own leader that were acknowledged before. When no accepted request ends before a
log whose last entry is of its term, what a follower acknowledged stays in its log.
-/

namespace DistLab.Raft

variable {n : ℕ} {C : Type*}

namespace Server

/-- No accepted request ends before a log whose last entry is of the request's term. -/
def KeepsTail (rf : Server n C) (x : Input (Act C) (Msg n C)) : Prop :=
  ∀ args ∈ appendRequest x, rf.Matches args →
    rf.log.getLast?.map LogEntry.termIdx = some args.term →
      rf.log.length ≤ args.prevLogIndex.toNat + 1 + args.entries.length

/-- Office is only taken and used in the term of the election, and no tail is cut. -/
def KeepsAcks (rf : Server n C) (x : Input (Act C) (Msg n C)) : Prop :=
  rf.KeepsOffice x ∧ rf.KeepsTail x

instance (rf : Server n C) (x : Input (Act C) (Msg n C)) : Decidable (rf.KeepsTail x) :=
  inferInstanceAs (Decidable (∀ args ∈ appendRequest x, rf.Matches args → _ = _ → _ ≤ _))

instance (rf : Server n C) (x : Input (Act C) (Msg n C)) : Decidable (rf.KeepsAcks x) :=
  inferInstanceAs (Decidable (_ ∧ _))

end Server

theorem AppendEntriesArgs.CutFrom.length_eq {args : AppendEntriesArgs n C}
    {L : List (LogEntry C)} (h : args.CutFrom L) :
    0 ≤ args.prevLogIndex ∧ L.length = args.prevLogIndex.toNat + 1 + args.entries.length := by
  obtain ⟨prev, e, hp, he, -, hent⟩ := h
  obtain ⟨hlt, -⟩ := List.getElem?_eq_some_iff.mp he
  rw [hent, List.length_drop]
  omega

variable [Inhabited C] {w w' : Cluster n C} {F : Fin n} {T b : ℕ} {L : List (LogEntry C)}

/-- While the server is in one incarnation and one term, its log is one the leader of the term
acted on and continues the acknowledged one. -/
structure AckKept (F : Fin n) (b T : ℕ) (L : List (LogEntry C)) (w : Cluster n C) : Prop where
  boots_le : b ≤ (w.node F).boots
  term_le : (w.node F).boots = b → T ≤ (w.node F).currentTerm
  kept : (w.node F).boots = b → (w.node F).currentTerm = T →
    L <+: (w.node F).log ∧ ∃ d ∈ deeds w.trace, d.term = T ∧ d.log = (w.node F).log

namespace AckKept

theorem isPrefix_accept (hm : Matched w) {x : Input (Act C) (Msg n C)}
    {args : AppendEntriesArgs n C} (hx : args ∈ appendRequest x) (hg : (w.node F).KeepsTail x)
    (hmatch : (w.node F).Matches args) {d d' : Deed n C} (hcut : args.CutFrom d'.log)
    (hd : d ∈ deeds w.trace) (hd' : d' ∈ deeds w.trace) (hT : d.term = args.term)
    (hT' : d'.term = args.term) (hl : d.log = (w.node F).log) : (w.node F).log <+: d'.log := by
  rw [← hl]
  rcases hm.grown d hd d' hd' (hT.trans hT'.symm) with h | ⟨S, hS, hterm⟩
  · exact h.isPrefix
  rcases List.eq_nil_or_concat S with rfl | ⟨S', a, rfl⟩
  · rw [hS, List.append_nil]
  · have hlast : (w.node F).log.getLast?.map LogEntry.termIdx = some args.term := by
      rw [← hl, hS, List.concat_eq_append, ← List.append_assoc, List.getLast?_concat,
        Option.map_some, ← hT]
      exact congrArg some (hterm a (by simp))
    have hlen := hg args hx hmatch hlast
    rw [← hcut.length_eq.2, ← hl, hS] at hlen
    simp only [List.length_append, List.length_concat] at hlen
    omega

theorem put {i : Fin n} {x : Input (Act C) (Msg n C)} {r : Outcome n C} {net : List (Msg n C)}
    (h : AckKept F b T L w) (hm : Matched w) (hr : (w.node i).Moves i x r)
    (hg : (w.node i).KeepsTail x) (hf : (raft n C).Feeds w i x) :
    AckKept F b T L (w.put i net r) := by
  have hsub : w.trace ⊆ r.obs ++ w.trace := List.subset_append_right _ _
  rcases ne_or_eq F i with hne | rfl
  · refine ⟨?_, ?_, ?_⟩ <;> rw [World.put_node_of_ne hne]
    · exact h.boots_le
    · exact h.term_le
    · intro hb ht
      obtain ⟨hl, d, hd, hd'⟩ := h.kept hb ht
      exact ⟨hl, d, deeds_subset hsub hd, hd'⟩
  refine ⟨?_, ?_, ?_⟩ <;> rw [World.put_node_self]
  · have := h.boots_le
    cases hr.log <;> omega
  · intro hb
    have := h.boots_le
    cases hr.log with
    | restart _ hb' => omega
    | keep _ hb' ht => exact (h.term_le (hb' ▸ hb)).trans ht
    | extend _ hb' ht => exact (h.term_le (hb' ▸ hb)).trans ht.ge
    | accept _ ht ht' _ _ _ _ _ hb' => exact (h.term_le (hb' ▸ hb)).trans (ht.trans ht'.ge)
  · intro hb ht
    have hle := h.boots_le
    cases hr.log with
    | restart _ hb' => omega
    | keep hl hb' ht' =>
      have hT := le_antisymm (ht ▸ ht') (h.term_le (hb' ▸ hb))
      obtain ⟨hp, d, hd, hd'⟩ := h.kept (hb' ▸ hb) hT
      rw [hl]
      exact ⟨hp, d, deeds_subset hsub hd, hd'⟩
    | extend hl hb' ht' _ ho =>
      obtain ⟨hp, -⟩ := h.kept (hb' ▸ hb) (ht' ▸ ht)
      refine ⟨hl ▸ hp.trans (List.prefix_append _ _), _,
        List.mem_filterMap.mpr ⟨_, List.mem_append_left _ ho, rfl⟩, ht' ▸ ht, rfl⟩
    | @accept p ch args prev e hx hle' ht' hp he het hl _ hb' =>
      subst hx
      have hT := le_antisymm (hle'.trans (ht'.ge.trans ht.le)) (h.term_le (hb' ▸ hb))
      obtain ⟨hpre, d, hd, hdT, hdl⟩ := h.kept (hb' ▸ hb) hT
      obtain ⟨-, c, R, hsent, hcut, hspl, -⟩ := hm.accepted hf hp he het
      have hR := mem_deeds_of_sent hsent
      have hgrow := isPrefix_accept hm rfl hg (Server.matches_of_eq hle' hp he het) hcut hd hR
        (hdT.trans (ht.symm.trans ht')) rfl hdl
      rw [hl, hspl]
      exact ⟨hpre.trans hgrow, _, deeds_subset hsub hR, ht'.symm.trans ht, rfl⟩

theorem run {es : List (NetEvent (Fin n) (Act C))} (h : AckKept F b T L w) (ha : Acting w)
    (hm : Matched w) (hr : (cluster n C).run w es = some w')
    (hg : (cluster n C).Meets ((raft n C).Guards fun _ => Server.KeepsAcks) w es) :
    AckKept F b T L w' := by
  refine (Protocol.preserved (I := fun v => Acting v ∧ Matched v ∧ AckKept F b T L v) ?_ ?_ hr hg
    ⟨ha, hm, h⟩).2.2
  · rintro v net ⟨ha, hm, h⟩ hn
    exact ⟨ha.lose hn, hm.lose hn, h.boots_le, h.term_le, h.kept⟩
  · rintro v i x r net ⟨ha, hm, h⟩ hr hg hf hn
    have hmoves := (Server.react_reacts hr).moves
    have ha' := ha.put hr hg.1 hf hn
    exact ⟨ha', hm.put ha'.unique hmoves hf hn, h.put hm hmoves hg.2 hf⟩

end AckKept

theorem Matched.answered (hm : Matched w) {k ch : ℕ} {args : AppendEntriesArgs n C}
    {rf : Server n C} {reply : AppendEntriesReply}
    (hk : w.net[k]? = some (.appendEntries F ch args))
    (ha : (w.node F).appendEntries args = .ok (rf, reply)) (hs : reply.success = true) :
    ∃ b, Obs.sent args.leaderId b args rf.log ∈ w.trace ∧ args.CutFrom rf.log ∧
      rf.boots = (w.node F).boots ∧ rf.currentTerm = args.term := by
  rcases Server.appendEntries_ok ha with ⟨-, -, h⟩ | ⟨-, h, -⟩ |
    ⟨ht, -, prev, e, u, hp, he, het, hu, rfl⟩
  · simp [hs] at h
  · simp [hs] at h
  · have hf : (raft n C).Feeds w F (.recv (.appendEntries F ch args)) :=
      ⟨List.mem_of_getElem? hk, rfl⟩
    obtain ⟨-, b, L, hsent, hcut, hspl, -⟩ := hm.accepted hf hp he het
    have hlog : ((w.node F).updateTerm args.term).1.spliced args prev = L := by
      simpa [Server.spliced] using hspl
    obtain ⟨ci, la, bs, rfl⟩ := Server.acceptEntries_frame hu
    exact ⟨b, by simpa [Server.splice, hlog] using hsent, by simpa [Server.splice, hlog] using hcut,
      by simp [Server.splice], by simp [Server.splice, ht]⟩

theorem AckKept.of_answer (hm : Matched w) {k ch : ℕ} {args : AppendEntriesArgs n C}
    {rf : Server n C} {reply : AppendEntriesReply}
    (hk : w.net[k]? = some (.appendEntries F ch args))
    (ha : (w.node F).appendEntries args = .ok (rf, reply)) (hs : reply.success = true)
    (h : (cluster n C).step w (.deliver k) = some w') :
    AckKept F (w.node F).boots args.term rf.log w' := by
  obtain ⟨b, hsent, -, hb, ht⟩ := hm.answered hk ha hs
  have hr : (raft n C).react F (w.node F) (.recv (.appendEntries F ch args)) =
      some ⟨rf, [.appendEntriesReply F ch args reply], [.adopted F args.term rf.log]⟩ := by
    simp [raft, Server.recv, ha, hs]
  have hw := Option.some.inj (h.symm.trans (Protocol.step_deliver hk hr))
  have hnode : w'.node F = rf := by
    rw [hw]
    exact World.put_node_self
  have htrace : w.trace ⊆ w'.trace := by
    rw [hw]
    exact World.trace_subset_put
  refine ⟨?_, ?_, ?_⟩ <;> rw [hnode]
  · exact hb.ge
  · exact fun _ => ht.ge
  · exact fun _ _ =>
      ⟨List.prefix_refl _, _, deeds_subset htrace (mem_deeds_of_sent hsent), rfl, rfl⟩

theorem isPrefix_of_answer {es fs : List (NetEvent (Fin n) (Act C))} {k ch : ℕ}
    {args : AppendEntriesArgs n C} {rf : Server n C} {reply : AppendEntriesReply}
    (h : (cluster n C).run (cluster n C).init es = some w)
    (hk : w.net[k]? = some (.appendEntries F ch args))
    (ha : (w.node F).appendEntries args = .ok (rf, reply)) (hs : reply.success = true)
    (h' : (cluster n C).run w (.deliver k :: fs) = some w')
    (hg : (cluster n C).Meets ((raft n C).Guards fun _ => Server.KeepsAcks) (cluster n C).init
      (es ++ .deliver k :: fs))
    (hb : (w'.node F).boots = (w.node F).boots) (ht : (w'.node F).currentTerm = args.term) :
    ∃ b L, Obs.sent args.leaderId b args L ∈ w.trace ∧
      L.length = args.prevLogIndex + args.entries.length + 1 ∧ L <+: (w'.node F).log := by
  obtain ⟨t, hstep, hrun⟩ := System.run_cons_eq_some.mp h'
  have ht' : (cluster n C).run (cluster n C).init (es ++ [.deliver k]) = some t := by
    rw [System.run_append, h]
    exact System.run_cons_eq_some.mpr ⟨t, hstep, rfl⟩
  rw [← List.singleton_append, ← List.append_assoc, System.meets_append ht'] at hg
  have hoff : (cluster n C).Meets ((raft n C).Guards fun _ => Server.KeepsOffice)
      (cluster n C).init (es ++ [.deliver k]) :=
    hg.1.mono fun _ _ => Protocol.Guards.mono fun _ _ _ hx => hx.1
  have hm := Acting.matched h ((System.meets_append h).mp hoff).1
  obtain ⟨b, hsent, hcut, -, -⟩ := hm.answered hk ha hs
  have hkept := (AckKept.of_answer hm hk ha hs hstep).run (Acting.init.run ht' hoff)
    (Acting.matched ht' hoff) hrun hg.2
  obtain ⟨h0, hlen⟩ := hcut.length_eq
  exact ⟨b, rf.log, hsent, by omega, (hkept.kept hb ht).1⟩

/-- When office is only taken and used in the term of the election, no accepted request ends
before a log whose last entry is of its term and no request is overwritten before it is encoded,
the log of the leader up to the last entry of a request stays in the log of a server that answered
Success to it, for as long as the server stays in the term and does not restart. -/
theorem acknowledged_kept {A : Growth} {s s' : Memory n C} {es fs : List (MemoryEvent n C)}
    {k ch : ℕ} {args : AppendEntriesArgs n C} {rf : Server n C} {reply : AppendEntriesReply}
    (h : (memory A n C).run (memory A n C).init es = some s)
    (hk : s.world.net[k]? = some (.appendEntries F ch args))
    (ha : (s.world.node F).appendEntries args = .ok (rf, reply)) (hs : reply.success = true)
    (h' : (memory A n C).run s (.net (.deliver k) :: fs) = some s')
    (hg : (memory A n C).Meets
      (Memory.Guards fun s i x => (s.world.node i).KeepsAcks x ∧ s.Spares i x)
      (memory A n C).init (es ++ .net (.deliver k) :: fs))
    (hb : (s'.world.node F).boots = (s.world.node F).boots)
    (ht : (s'.world.node F).currentTerm = args.term) :
    ∃ b L, Obs.sent args.leaderId b args L ∈ s.world.trace ∧
      L.length = args.prevLogIndex + args.entries.length + 1 ∧ L <+: (s'.world.node F).log := by
  obtain ⟨t, hstep, hrun⟩ := System.run_cons_eq_some.mp h'
  obtain ⟨hges, hgk, hgfs⟩ := (System.meets_append h).mp hg
  have hsound := Memory.Sound.init.run h (hges.mono fun _ _ => Memory.Guards.mono fun _ _ h => h.2)
  obtain ⟨es', v, hv, hmeets, hcov⟩ := Memory.Sound.init.exists_run
    (G := fun _ => Server.KeepsAcks) h hges Memory.covers_init
  obtain ⟨j, u, hj, hu, hcovu⟩ := Memory.deliver_covers hk hstep hcov
  have hsoundt := (hsound.carries (G := fun _ => Server.KeepsAcks) hgk hstep).1
  obtain ⟨fs', v', hv', hmeets', hcov'⟩ := hsoundt.exists_run
    (G := fun _ => Server.KeepsAcks) hrun (hgfs t hstep) hcovu
  have hnode : v.node = s.world.node := hcov.node
  have hnode' : v'.node = s'.world.node := hcov'.node
  have htrace : v.trace = s.world.trace := hcov.trace
  rw [← hnode'] at hb ht ⊢
  rw [← hnode] at hb ha
  rw [← htrace]
  refine isPrefix_of_answer hv hj ha hs (System.run_cons_eq_some.mpr ⟨u, hu, hv'⟩)
    ((System.meets_append hv).mpr ⟨hmeets, fun m hm => ?_, fun u' hu' => ?_⟩) hb ht
  · obtain rfl := Option.some.inj (hj.symm.trans hm)
    rw [hnode]
    exact (hgk _ hk).1
  · obtain rfl := Option.some.inj (hu.symm.trans hu')
    exact hmeets'

/-- Server 0 of two is elected and sends an empty request, accepts a command and sends it; the
second request overtakes the first. -/
def overtaken : List (MemoryEvent 2 ℕ) :=
  [.net (.act 0 .electionTimeout), .net (.deliver 0), .net (.deliver 0),
    .net (.act 0 .becomeLeader), .net (.act 0 .heartbeat), .encode 0, .net (.act 0 (.start 10)),
    .net (.act 0 .heartbeat), .encode 0, .net (.deliver 1)]

theorem unacknowledged_overtaken :
    ∃ s s', (memory .doubling 2 ℕ).run (memory .doubling 2 ℕ).init overtaken = some s ∧
      .appendEntriesReply 1 1 ⟨1, 0, 0, 0, [⟨10, 1⟩], 0⟩ ⟨1, true, 0⟩ ∈ s.world.net ∧
      (s.world.node 1).log = [sentinel, ⟨10, 1⟩] ∧
      (memory .doubling 2 ℕ).run s [.net (.deliver 0)] = some s' ∧
      (s'.world.node 1).boots = (s.world.node 1).boots ∧ (s'.world.node 1).currentTerm = 1 ∧
      (s'.world.node 0).status = .leader ∧ (s'.world.node 0).log = [sentinel, ⟨10, 1⟩] ∧
      (s'.world.node 1).log = [sentinel] :=
  ⟨_, _, (memory .doubling 2 ℕ).run_after (memory .doubling 2 ℕ).init overtaken (by decide),
    by decide, by decide,
    (memory .doubling 2 ℕ).run_after
      ((memory .doubling 2 ℕ).after (memory .doubling 2 ℕ).init overtaken (by decide))
      [.net (.deliver 0)] (by decide), by decide⟩

def offered : List (MemoryEvent 2 ℕ) :=
  [.net (.act 0 .electionTimeout), .net (.deliver 0), .net (.deliver 0),
    .net (.act 0 .becomeLeader), .net (.act 0 (.start 10)), .net (.act 0 .heartbeat), .encode 0]

theorem acknowledged_kept_offered :
    ∃ s', (memory .doubling 2 ℕ).run
        ((memory .doubling 2 ℕ).after (memory .doubling 2 ℕ).init offered (by decide))
        [.net (.deliver 0), .net (.act 0 .heartbeat), .encode 0, .net (.deliver 1)] = some s' ∧
      ∃ b L, Obs.sent 0 b ⟨1, 0, 0, 0, [⟨10, 1⟩], 0⟩ L ∈
          ((memory .doubling 2 ℕ).after (memory .doubling 2 ℕ).init offered
            (by decide)).world.trace ∧
        L.length = (0 : ℤ) + 1 + 1 ∧ L <+: (s'.world.node 1).log := by
  have h := (memory .doubling 2 ℕ).run_after (memory .doubling 2 ℕ).init offered (by decide)
  have h' := (memory .doubling 2 ℕ).run_after
    ((memory .doubling 2 ℕ).after (memory .doubling 2 ℕ).init offered (by decide))
    [.net (.deliver 0), .net (.act 0 .heartbeat), .encode 0, .net (.deliver 1)] (by decide)
  have hk : ((memory .doubling 2 ℕ).after (memory .doubling 2 ℕ).init offered
    (by decide)).world.net[0]? = some (.appendEntries 1 0 ⟨1, 0, 0, 0, [⟨10, 1⟩], 0⟩) := by decide
  obtain ⟨_, ha⟩ : ∃ rf, (((memory .doubling 2 ℕ).after (memory .doubling 2 ℕ).init offered
    (by decide)).world.node 1).appendEntries ⟨1, 0, 0, 0, [⟨10, 1⟩], 0⟩ =
      .ok (rf, ⟨1, true, 0⟩) := ⟨_, rfl⟩
  exact ⟨_, h', acknowledged_kept h hk ha rfl h' (by decide) (by decide) (by decide)⟩

end DistLab.Raft
