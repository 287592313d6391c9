import DistLab.Raft.LogShape

/-! # Log repair

A leader and a follower with diverging logs, alone on a working link: the leader
builds a request at its next index for the follower, which handles it, and a refusal
moves the index back. The index never leaves the leader's log, every refusal lowers
it, and their number is bounded by the terms in the follower's log.
-/

namespace DistLab.Raft

variable {n : ℕ} {C : Type*}

/-- One request of the leader and its answer; on a refusal the leader takes up the index. The
round fails where the source panics. -/
def repairRound (me peer : Fin n) (ld fl : Server n C) :
    Option (Server n C × Server n C × Bool) := do
  let args ← ld.buildArgs me peer
  let (fl, reply) ← (fl.appendEntries args).toOption
  if reply.success then return (ld, fl, true)
  else
    let ld ← (ld.appendReply peer args reply).toOption
    return (ld, fl, false)

/-- Rounds up to the first Success: both servers after every refusal, and the follower at the
end. -/
def repair (me peer : Fin n) :
    ℕ → Server n C → Server n C → Option (List (Server n C × Server n C) × Server n C)
  | 0, _, _ => none
  | fuel + 1, ld, fl => do
    let (ld, fl, success) ← repairRound me peer ld fl
    if success then return ([], fl)
    else
      let (failures, final) ← repair me peer fuel ld fl
      return ((ld, fl) :: failures, final)

def nonzeroTerms (F : List (LogEntry C)) : Finset ℕ := (F.map LogEntry.termIdx).toFinset.erase 0

/-- How many refusals may still come while the entry before the next index is at `prev`. -/
def budget (F : List (LogEntry C)) (prev : ℕ) : ℕ :=
  match F[prev]? with
  | some e => ((nonzeroTerms F).filter (· ≤ e.termIdx)).card
  | none => 1 + (nonzeroTerms F).card

theorem budget_le (F : List (LogEntry C)) (prev : ℕ) :
    budget F prev ≤ 1 + (nonzeroTerms F).card := by
  unfold budget
  split
  · exact (Finset.card_filter_le _ _).trans (Nat.le_add_left _ _)
  · exact le_rfl

theorem budget_short {F : List (LogEntry C)} {prev : ℕ} (h : F ≠ []) (hp : F.length ≤ prev) :
    budget F (F.length - 1) < budget F prev := by
  have hlen : F.length - 1 < F.length := by
    have := List.length_pos_iff.mpr h
    omega
  have hlast : budget F (F.length - 1) ≤ (nonzeroTerms F).card := by
    simp only [budget, List.getElem?_eq_getElem hlen]
    exact Finset.card_filter_le _ _
  have hprev : budget F prev = 1 + (nonzeroTerms F).card := by
    simp [budget, List.getElem?_eq_none hp]
  omega

theorem budget_conflict {F : List (LogEntry C)} {prev c : ℕ} {e e' : LogEntry C}
    (he : F[prev]? = some e) (he' : F[c]? = some e') (hlt : e'.termIdx < e.termIdx) :
    budget F c < budget F prev := by
  simp only [budget, he, he']
  apply Finset.card_lt_card
  rw [Finset.ssubset_iff_of_subset]
  · refine ⟨e.termIdx, ?_, by simp [hlt]⟩
    have hmem : e ∈ F := List.mem_of_getElem? he
    simp only [nonzeroTerms, Finset.mem_filter, Finset.mem_erase, List.mem_toFinset, List.mem_map]
    exact ⟨⟨by omega, e, hmem, rfl⟩, le_rfl⟩
  · intro t ht
    simp only [Finset.mem_filter] at ht ⊢
    exact ⟨ht.1, ht.2.trans hlt.le⟩

theorem LogShape.before_conflict {F : List (LogEntry C)} {prev : ℕ} {e : LogEntry C}
    (h : LogShape F) (he : F[prev]? = some e) (h0 : prev ≠ 0) :
    ∃ c e', Server.conflictStart F e.termIdx prev = c + 1 ∧ c < prev ∧ F[c]? = some e' ∧
      e'.termIdx < e.termIdx := by
  obtain ⟨hle, -, hlast⟩ := Server.conflictStart_spec F e.termIdx prev
  obtain ⟨c, hc⟩ := Nat.exists_eq_succ_of_ne_zero
    (Nat.one_le_iff_ne_zero.mp (Server.conflictStart_pos h he rfl h0))
  obtain ⟨hlt, -⟩ := List.getElem?_eq_some_iff.mp he
  obtain ⟨e', he'⟩ : ∃ e', F[c]? = some e' :=
    ⟨_, List.getElem?_eq_getElem (show c < F.length by omega)⟩
  have hne : e'.termIdx ≠ e.termIdx := by
    intro heq
    exact hlast c hc (by rw [he', Option.map_some, heq])
  exact ⟨c, e', hc, by omega, he', lt_of_le_of_ne (h.le_of_le he' he (by omega)) hne⟩

/-- A leader that may repair a follower of its own or an earlier term. -/
structure Repairing (peer : Fin n) (ld fl : Server n C) : Prop where
  leader : LogShape ld.log
  follower : LogShape fl.log
  term : fl.currentTerm ≤ ld.currentTerm
  pos : 1 ≤ ld.nextIndex peer
  le : ld.nextIndex peer ≤ ld.log.length

section Rounds

variable {me peer : Fin n} {ld fl : Server n C}

theorem Repairing.buildArgs (me : Fin n) (h : Repairing peer ld fl) : ∃ (prev : ℕ) (e : LogEntry C),
    ld.nextIndex peer = prev + 1 ∧ ld.log[prev]? = some e ∧
    ld.buildArgs me peer = some ⟨ld.currentTerm, me, prev, e.termIdx, ld.log.drop (prev + 1),
      ld.commitIndex⟩ := by
  have hpos := h.pos
  have hle := h.le
  obtain ⟨prev, hprev⟩ := Int.eq_ofNat_of_zero_le (show 0 ≤ ld.nextIndex peer - 1 by omega)
  have hlt : prev < ld.log.length := by omega
  refine ⟨prev, _, by omega, List.getElem?_eq_getElem hlt, ?_⟩
  have hat : at? ld.log (ld.nextIndex peer - 1) = some ld.log[prev] := by
    rw [hprev]
    exact at?_eq_some.mpr ⟨Int.natCast_nonneg prev, List.getElem?_eq_getElem hlt⟩
  have hnext : (ld.nextIndex peer).toNat = prev + 1 := by omega
  rw [Server.buildArgs, hat, hnext, hprev]
  rfl

theorem repairRound_of_accepted {args : AppendEntriesArgs n C} {u : Server n C}
    {reply : AppendEntriesReply} (ha : ld.buildArgs me peer = some args)
    (hu : fl.appendEntries args = .ok (u, reply)) (hs : reply.success = true) :
    repairRound me peer ld fl = some (ld, u, true) := by
  simp [repairRound, ha, hu, hs, Except.toOption]

theorem repairRound_of_refused {args : AppendEntriesArgs n C} {u : Server n C}
    {reply : AppendEntriesReply} {next : ℕ} (ha : ld.buildArgs me peer = some args)
    (hu : fl.appendEntries args = .ok (u, reply)) (hs : reply.success = false)
    (ht : fl.currentTerm ≤ ld.currentTerm) (hn : reply.nextIndex = next + 1) :
    repairRound me peer ld fl =
      some ({ ld with nextIndex := Function.update ld.nextIndex peer (next + 1) }, u, false) := by
  have hterm : reply.term ≤ ld.currentTerm := Server.appendEntries_reply_term hu ▸ ht
  have hreply : ld.appendReply peer args reply = _ :=
    Server.appendReply_of_refused hterm hs (by omega)
  simp [repairRound, ha, hu, hs, hreply, Except.toOption, hn]

/-- One round ends in Success, or moves the index back and leaves both logs alone. -/
theorem Repairing.round (me : Fin n) (h : Repairing peer ld fl) :
    (∃ u, repairRound me peer ld fl = some (ld, u, true) ∧
      (LogsMatch fl.log ld.log → u.log = ld.log)) ∨
    ∃ u, ∃ prev next : ℕ, repairRound me peer ld fl =
        some ({ ld with nextIndex := Function.update ld.nextIndex peer (next + 1) }, u, false) ∧
      u.log = fl.log ∧ u.currentTerm = ld.currentTerm ∧
      ld.nextIndex peer = prev + 1 ∧ next < prev ∧ budget fl.log next < budget fl.log prev := by
  obtain ⟨prev, e, hnext, he, hargs⟩ := h.buildArgs me
  generalize hA : (⟨ld.currentTerm, me, prev, e.termIdx, ld.log.drop (prev + 1),
    ld.commitIndex⟩ : AppendEntriesArgs n C) = args at hargs
  have hprev : args.prevLogIndex = prev := by rw [← hA]
  have hpt : args.prevLogTerm = e.termIdx := by rw [← hA]
  have hat : args.term = ld.currentTerm := by rw [← hA]
  have hcut : args.CutFrom ld.log := ⟨prev, e, hprev, he, hpt, by rw [← hA]⟩
  obtain ⟨u, reply, hu⟩ := Server.exists_appendEntries fl args (by omega)
  cases hs : reply.success with
  | true =>
    rcases Server.appendEntries_ok hu with ⟨-, -, hf⟩ | ⟨-, hf, -⟩ |
      ⟨-, -, prev', e', v, hp', he', het', hv, rfl⟩
    · exact absurd hs (by simp [hf])
    · exact absurd hs (by simp [hf])
    · refine Or.inl ⟨_, repairRound_of_accepted hargs hu hs, fun hm => ?_⟩
      obtain ⟨hspl, -⟩ := hm.spliced_eq hcut hp' he' het'
      obtain ⟨ci, la, bs, rfl⟩ := Server.acceptEntries_frame hv
      simpa [Server.splice, Server.spliced] using hspl
  | false =>
    have hstate : u.log = fl.log ∧ u.currentTerm = ld.currentTerm := by
      rcases Server.appendEntries_ok hu with ⟨hlt, -, -⟩ | ⟨-, -, rfl⟩ | ⟨-, ht, -⟩
      · exact absurd h.term (by omega)
      · exact ⟨by simp, by simp [hat, h.term]⟩
      · exact absurd ht (by simp [hs])
    right
    rcases Server.appendEntries_refused hu hs with ⟨hlt, -⟩ | ⟨hlen, hn⟩ |
      ⟨prev', e', hp', he', hne, hn⟩
    · exact absurd h.term (by omega)
    · have hpos := List.length_pos_iff.mpr h.follower.ne_nil
      exact ⟨u, prev, fl.log.length - 1,
        repairRound_of_refused hargs hu hs h.term (by omega), hstate.1, hstate.2, hnext, by omega,
        budget_short h.follower.ne_nil (by omega)⟩
    · obtain rfl : prev' = prev := by omega
      have h0 : prev' ≠ 0 := by
        rintro rfl
        have hF : e'.termIdx = 0 := by simpa [he'] using h.follower.sentinel
        have hL : e.termIdx = 0 := by simpa [he] using h.leader.sentinel
        exact hne (by rw [hF, hpt, hL])
      obtain ⟨c, a, hc, hlt, ha, hat'⟩ := h.follower.before_conflict he' h0
      exact ⟨u, prev', c, repairRound_of_refused hargs hu hs h.term (by omega), hstate.1,
        hstate.2, hnext, hlt, budget_conflict he' ha hat'⟩

theorem Repairing.next {u : Server n C} {prev next : ℕ} (h : Repairing peer ld fl)
    (hl : u.log = fl.log) (ht : u.currentTerm = ld.currentTerm)
    (hp : ld.nextIndex peer = prev + 1) (hlt : next < prev) :
    Repairing peer { ld with nextIndex := Function.update ld.nextIndex peer (next + 1) } u where
  leader := h.leader
  follower := hl ▸ h.follower
  term := ht.le
  pos := by
    simp only [Function.update_self]
    omega
  le := by
    have hle := h.le
    simp only [Function.update_self]
    omega

structure Repaired (me peer : Fin n) (ld fl : Server n C)
    (failures : List (Server n C × Server n C)) (final : Server n C) : Prop where
  run : ∀ fuel, failures.length < fuel → repair me peer fuel ld fl = some (failures, final)
  kept : ∀ s ∈ failures, s.1.log = ld.log ∧ s.2.log = fl.log ∧ 1 ≤ s.1.nextIndex peer ∧
    s.1.nextIndex peer ≤ ld.log.length
  falls : (ld.nextIndex peer :: failures.map fun s => s.1.nextIndex peer).IsChain (· > ·)
  final : LogsMatch fl.log ld.log → final.log = ld.log

theorem Repaired.of_accepted {u : Server n C}
    (hr : repairRound me peer ld fl = some (ld, u, true))
    (hu : LogsMatch fl.log ld.log → u.log = ld.log) : Repaired me peer ld fl [] u where
  run fuel hf := by
    obtain ⟨fuel, rfl⟩ := Nat.exists_eq_succ_of_ne_zero (Nat.ne_of_gt hf)
    simp [repair, hr]
  kept := by simp
  falls := by simp
  final := hu

theorem Repaired.of_refused {ld' fl' u : Server n C} {fs : List (Server n C × Server n C)}
    (hr : repairRound me peer ld fl = some (ld', fl', false)) (h : Repaired me peer ld' fl' fs u)
    (hld : ld'.log = ld.log) (hfl : fl'.log = fl.log) (hpos : 1 ≤ ld'.nextIndex peer)
    (hlt : ld'.nextIndex peer < ld.nextIndex peer) (hle : ld.nextIndex peer ≤ ld.log.length) :
    Repaired me peer ld fl ((ld', fl') :: fs) u where
  run fuel hf := by
    obtain ⟨fuel, rfl⟩ := Nat.exists_eq_succ_of_ne_zero (Nat.ne_of_gt (Nat.zero_lt_of_lt hf))
    have hrest := h.run fuel (by simpa using hf)
    simp [repair, hr, hrest]
  kept s hs := by
    rcases List.mem_cons.mp hs with rfl | hs
    · exact ⟨hld, hfl, hpos, hlt.le.trans hle⟩
    · rw [← hld, ← hfl]
      exact h.kept s hs
  falls := by
    rw [List.map_cons, List.isChain_cons_cons]
    exact ⟨hlt, h.falls⟩
  final := by
    rw [← hld, ← hfl]
    exact h.final

/-- The induction is on the refusals that may still come. -/
theorem Repairing.repaired (me : Fin n) (prev : ℕ) (h : Repairing peer ld fl)
    (hp : ld.nextIndex peer = prev + 1) :
    ∃ failures final, Repaired me peer ld fl failures final ∧
      failures.length ≤ budget fl.log prev := by
  induction hb : budget fl.log prev using Nat.strong_induction_on generalizing ld fl prev with
  | _ b ih =>
    rcases h.round me with ⟨u, hr, hu⟩ | ⟨u, prev', next, hr, hl, ht, hp', hlt, hbud⟩
    · exact ⟨[], u, .of_accepted hr hu, Nat.zero_le _⟩
    · obtain rfl : prev' = prev := by omega
      have hnext := h.next hl ht hp' hlt
      obtain ⟨fs, final, hfs, hlen⟩ := ih (budget u.log next) (by rw [hl]; omega) next
        hnext (by simp) rfl
      rw [hl] at hlen
      refine ⟨_ :: fs, final, .of_refused hr hfs rfl hl hnext.pos ?_ h.le, ?_⟩
      · simp only [Function.update_self]
        omega
      · rw [List.length_cons]
        omega

end Rounds

/-- Repair ends in Success within one refusal more than there are terms in the follower's log.
The next index stays within the leader's log and falls with every refusal, no refusal touches the
logs, and the follower of matching logs ends with the log of the leader. -/
theorem repair_converges (me peer : Fin n) (ld fl : Server n C) (hL : LogShape ld.log)
    (hF : LogShape fl.log) (ht : fl.currentTerm = ld.currentTerm) (h1 : 1 ≤ ld.nextIndex peer)
    (hlen : ld.nextIndex peer ≤ ld.log.length) :
    ∃ failures final,
      (∀ fuel, failures.length < fuel → repair me peer fuel ld fl = some (failures, final)) ∧
      failures.length ≤ 1 + (nonzeroTerms fl.log).card ∧
      (∀ s ∈ failures, s.1.log = ld.log ∧ s.2.log = fl.log ∧ 1 ≤ s.1.nextIndex peer ∧
        s.1.nextIndex peer ≤ ld.log.length) ∧
      (ld.nextIndex peer :: failures.map fun s => s.1.nextIndex peer).IsChain (· > ·) ∧
      (LogsMatch fl.log ld.log → final.log = ld.log) := by
  have h : Repairing peer ld fl := ⟨hL, hF, ht.le, h1, hlen⟩
  obtain ⟨prev, hprev⟩ := Int.eq_ofNat_of_zero_le (show 0 ≤ ld.nextIndex peer - 1 by omega)
  obtain ⟨failures, final, hr, hb⟩ := h.repaired me prev (by omega)
  exact ⟨failures, final, hr.run, hb.trans (budget_le _ _), hr.kept, hr.falls, hr.final⟩

def repairLeader : Server 2 ℕ :=
  { Server.make none 0 0 with
    currentTerm := 4
    log := [sentinel, ⟨10, 1⟩, ⟨11, 1⟩, ⟨40, 4⟩]
    nextIndex := fun _ => 4
    status := .leader }

def repairFollower : Server 2 ℕ :=
  { Server.make none 0 0 with
    currentTerm := 4
    log := [sentinel, ⟨10, 1⟩, ⟨20, 2⟩, ⟨30, 3⟩] }

example : (repair 0 1 5 repairLeader repairFollower).map
    (fun r => (r.1.map fun s => s.1.nextIndex 1, r.2.log)) =
    some ([3, 2], repairLeader.log) := by
  decide

theorem repair_converges_twoTerms :
    ∃ failures final, repair 0 1 5 repairLeader repairFollower = some (failures, final) ∧
      failures.length ≤ 4 ∧ final.log = repairLeader.log :=
  have ⟨failures, final, hrun, hlen, _, _, hfinal⟩ := repair_converges 0 1 repairLeader
    repairFollower (by decide) (by decide) rfl (by decide) (by decide)
  have hle : failures.length ≤ 4 := hlen.trans (by decide)
  ⟨failures, final, hrun 5 (by omega), hle, hfinal (by decide)⟩

end DistLab.Raft
