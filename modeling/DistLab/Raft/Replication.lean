import DistLab.Systems.Ledger
import DistLab.Raft.Reactions

/-! # The replication part

`Start`, the broadcasts and the reply handling of `leaderRoutine`, `AppendEntries`
and restarts, driven by any election history: an election step may change anything
of a server but its log and its incarnation, and never lowers its term. A server
acts as leader of a term when it accepts a command or sends a request with it.
-/

namespace DistLab.Raft

variable {n : ℕ} {C : Type*}

/-- An action as leader: its term, the server in its incarnation and the log it acted on. -/
structure Deed (n : ℕ) (C : Type*) where
  term : ℕ
  server : Fin n
  boots : ℕ
  log : List (LogEntry C)

def Obs.deed : Obs n C → Option (Deed n C)
  | .started i b T L => some ⟨T, i, b, L⟩
  | .sent i b args L => some ⟨args.term, i, b, L⟩
  | _ => none

def deeds (trace : List (Obs n C)) : List (Deed n C) := trace.filterMap Obs.deed

/-- One server acts in a term, and only in one of its incarnations. -/
def UniqueActors (trace : List (Obs n C)) : Prop :=
  ∀ d ∈ deeds trace, ∀ d' ∈ deeds trace, d.term = d'.term →
    d.server = d'.server ∧ d.boots = d'.boots

instance [DecidableEq C] (trace : List (Obs n C)) : Decidable (UniqueActors trace) :=
  inferInstanceAs (Decidable (∀ d ∈ deeds trace, ∀ d' ∈ deeds trace, _ → _ ∧ _))

@[simp] theorem deeds_nil : deeds ([] : List (Obs n C)) = [] := rfl

@[simp] theorem deeds_append {obs trace : List (Obs n C)} :
    deeds (obs ++ trace) = deeds obs ++ deeds trace :=
  List.filterMap_append

theorem deeds_subset {trace trace' : List (Obs n C)} (h : trace ⊆ trace') :
    deeds trace ⊆ deeds trace' := by
  intro d hd
  obtain ⟨o, ho, hd⟩ := List.mem_filterMap.mp hd
  exact List.mem_filterMap.mpr ⟨o, h ho, hd⟩

theorem mem_deeds_of_sent {trace : List (Obs n C)} {i : Fin n} {b : ℕ}
    {args : AppendEntriesArgs n C} {L : List (LogEntry C)} (h : Obs.sent i b args L ∈ trace) :
    ⟨args.term, i, b, L⟩ ∈ deeds trace :=
  List.mem_filterMap.mpr ⟨_, h, rfl⟩

theorem UniqueActors.of_subset {trace trace' : List (Obs n C)} (h : UniqueActors trace')
    (hs : trace ⊆ trace') : UniqueActors trace :=
  fun d hd d' hd' => h d (deeds_subset hs hd) d' (deeds_subset hs hd')

/-- The request carries the part of a log after one of its entries. -/
def AppendEntriesArgs.CutFrom (args : AppendEntriesArgs n C) (L : List (LogEntry C)) : Prop :=
  ∃ (prev : ℕ) (e : LogEntry C), args.prevLogIndex = prev ∧ L[prev]? = some e ∧
    args.prevLogTerm = e.termIdx ∧ args.entries = L.drop (prev + 1)

def LogsMatch (F L : List (LogEntry C)) : Prop :=
  ∀ k e e', F[k]? = some e → L[k]? = some e' → e.termIdx = e'.termIdx →
    F.take (k + 1) = L.take (k + 1)

theorem logsMatch_iff {F L : List (LogEntry C)} : LogsMatch F L ↔ ∀ k < F.length,
    F[k]?.map LogEntry.termIdx = L[k]?.map LogEntry.termIdx → F.take (k + 1) = L.take (k + 1) := by
  constructor
  · intro h k hk ht
    rw [List.getElem?_eq_getElem hk, Option.map_some] at ht
    obtain ⟨e', he', het⟩ := Option.map_eq_some_iff.mp ht.symm
    exact h k _ e' (List.getElem?_eq_getElem hk) he' het.symm
  · intro h k e e' he he' ht
    obtain ⟨hk, -⟩ := List.getElem?_eq_some_iff.mp he
    exact h k hk (by rw [he, he', Option.map_some, Option.map_some, ht])

instance [DecidableEq C] (F L : List (LogEntry C)) : Decidable (LogsMatch F L) :=
  decidable_of_iff' _ logsMatch_iff

theorem LogsMatch.spliced_eq {rf : Server n C} {args : AppendEntriesArgs n C}
    {L : List (LogEntry C)} {prev : ℕ} {e : LogEntry C} (h : LogsMatch rf.log L)
    (hcut : args.CutFrom L) (hp : args.prevLogIndex = prev) (he : rf.log[prev]? = some e)
    (het : e.termIdx = args.prevLogTerm) :
    rf.spliced args prev = L ∧
      rf.log.take (prev + 1 + Server.skipSame args.entries (rf.log.drop (prev + 1))) <+: L := by
  obtain ⟨prev', e', hp', he', het', hent⟩ := hcut
  obtain rfl : prev' = prev := by omega
  have htake : rf.log.take (prev' + 1 + Server.skipSame args.entries (rf.log.drop (prev' + 1))) =
      L.take (prev' + 1 + Server.skipSame args.entries (rf.log.drop (prev' + 1))) := by
    cases hk : Server.skipSame args.entries (rf.log.drop (prev' + 1)) with
    | zero => exact h prev' e e' he he' (het.trans het')
    | succ q =>
      have hq : q < Server.skipSame args.entries (rf.log.drop (prev' + 1)) := by omega
      obtain ⟨a, b, ha, hb, hab⟩ := Server.skipSame_spec hq
      rw [hent, List.getElem?_drop] at ha
      rw [List.getElem?_drop] at hb
      exact h _ b a hb ha hab.symm
  rw [Server.spliced, htake, hent, List.drop_drop, List.take_append_drop]
  exact ⟨rfl, List.take_prefix _ _⟩

def Msg.isAppend : Msg n C → Bool
  | .appendEntries .. => true
  | .appendEntriesReply .. => true
  | _ => false

/-- What the election part may do to a server. -/
structure Server.Elects (rf u : Server n C) : Prop where
  log : u.log = rf.log
  boots : u.boots = rf.boots
  term_le : rf.currentTerm ≤ u.currentTerm
  persister : u.persister = rf.persister ∨ u.persister = some u.saved

theorem Server.elects_updateTerm {rf : Server n C} (t : ℕ) : rf.Elects (rf.updateTerm t).1 := by
  refine ⟨Server.updateTerm_log, Server.updateTerm_boots, by simp, ?_⟩
  rcases le_or_gt t rf.currentTerm with h | h
  · exact Or.inl (by rw [Server.updateTerm_of_le h])
  · exact Or.inr (by rw [Server.updateTerm_eq]; simp [Server.saved, h, h.le])

theorem Server.cutFrom_of_buildArgs {rf : Server n C} {me : Fin n} {args : AppendEntriesArgs n C}
    {p : Fin n} (h : rf.buildArgs me p = some args) :
    args.term = rf.currentTerm ∧ args.leaderId = me ∧ args.CutFrom rf.log := by
  obtain ⟨prev, e, he, rfl⟩ := Server.buildArgs_eq_some h
  exact ⟨rfl, rfl, prev, e, rfl, he, rfl, rfl⟩

variable [Inhabited C]

/-- A step of the replication part, of the election part, or a restart during the latter. -/
inductive Replicates (w : Cluster n C) : Cluster n C → Prop
  | start {i command r} (h : (w.node i).act i (.start command) = some r) :
      Replicates w (w.put i w.net r)
  | heartbeat {i r} (h : (w.node i).act i .heartbeat = some r) : Replicates w (w.put i w.net r)
  | deliver {k m} (hm : w.net[k]? = some m) (ha : m.isAppend = true) :
      Replicates w (w.put m.dst (w.net.eraseIdx k) ((w.node m.dst).recv m.dst m))
  | drop {k} : Replicates w { w with net := w.net.eraseIdx k }
  | elect {i u net out obs} (h : (w.node i).Elects u) (hn : net ⊆ w.net)
      (hout : ∀ m ∈ out, m.isAppend = false) (hobs : deeds obs = []) :
      Replicates w (w.put i net ⟨u, out, obs⟩)
  | restart {i u net} (h : (w.node i).Elects u) (hn : net ⊆ w.net) :
      Replicates w (w.put i net u.crash)

namespace Server

inductive LogStep (me : Fin n) (rf : Server n C) (x : Input (Act C) (Msg n C))
    (r : Outcome n C) : Prop
  | keep (hl : r.state.log = rf.log) (hb : r.state.boots = rf.boots)
      (ht : rf.currentTerm ≤ r.state.currentTerm)
      (hs : r.state.stored.log = rf.stored.log ∨ r.state.stored.log = rf.log)
  | restart (hl : r.state.log = r.state.stored.log) (hb : r.state.boots = rf.boots + 1)
      (hs : r.state.stored.log = rf.stored.log ∨ r.state.stored.log = rf.log)
  | extend {command : C} (hl : r.state.log = rf.log ++ [⟨command, rf.currentTerm⟩])
      (hb : r.state.boots = rf.boots) (ht : r.state.currentTerm = rf.currentTerm)
      (hs : r.state.stored.log = r.state.log)
      (ho : Obs.started me rf.boots rf.currentTerm r.state.log ∈ r.obs)
  | accept {p : Fin n} {ch : ℕ} {args : AppendEntriesArgs n C} {prev : ℕ} {e : LogEntry C}
      (hx : x = .recv (.appendEntries p ch args)) (ht : rf.currentTerm ≤ args.term)
      (ht' : r.state.currentTerm = args.term) (hp : args.prevLogIndex = prev)
      (he : rf.log[prev]? = some e) (het : e.termIdx = args.prevLogTerm)
      (hl : r.state.log = rf.spliced args prev)
      (hs : r.state.stored.log =
        rf.log.take (prev + 1 + skipSame args.entries (rf.log.drop (prev + 1))))
      (hb : r.state.boots = rf.boots) (ho : deeds r.obs = [])

/-- What a step does to the log, with the actions and the requests it adds. -/
structure Moves (me : Fin n) (rf : Server n C) (x : Input (Act C) (Msg n C))
    (r : Outcome n C) : Prop where
  log : LogStep me rf x r
  deeds : ∀ d ∈ deeds r.obs, d.term = rf.currentTerm ∧ d.server = me ∧ d.boots = rf.boots ∧
    (d.log = rf.log ∨
      d.log = r.state.log ∧ Grows LogEntry.termIdx rf.currentTerm rf.log r.state.log)
  msgs : ∀ p ch args, Msg.appendEntries p ch args ∈ r.out → args.leaderId = me ∧ p ≠ me ∧
    Obs.sent me rf.boots args rf.log ∈ r.obs ∧ args.CutFrom rf.log

variable {me : Fin n} {rf u : Server n C} {x : Input (Act C) (Msg n C)} {r : Outcome n C}

theorem Elects.stored_log (h : rf.Elects u) :
    u.stored.log = rf.stored.log ∨ u.stored.log = rf.log := by
  rcases h.persister with hp | hp
  · exact Or.inl (by rw [stored, hp, stored])
  · exact Or.inr (by rw [stored, hp, ← h.log]; rfl)

theorem Moves.of_elects (h : rf.Elects r.state) (ho : DistLab.Raft.deeds r.obs = [])
    (hm : ∀ p ch args, Msg.appendEntries p ch args ∉ r.out) : Moves me rf x r where
  log := .keep h.log h.boots h.term_le h.stored_log
  deeds d hd := by simp [ho] at hd
  msgs p ch args hp := (hm p ch args hp).elim

theorem Moves.of_crash (h : rf.Elects u) : Moves me rf x u.crash where
  log := by
    refine .restart (by simp) (by simp [h.boots]) ?_
    simpa using h.stored_log
  deeds d hd := by simp at hd
  msgs p ch args hp := by simp at hp

theorem Moves.of_broadcast (hl : LogStep me rf x r)
    (ho : r.obs = (rf.buildAll me (peers me)).1.map fun (_, args) => .sent me rf.boots args rf.log)
    (hm : r.out = (rf.buildAll me (peers me)).1.map fun (p, args) =>
      .appendEntries p rf.chans args) : Moves me rf x r where
  log := hl
  deeds d hd := by
    obtain ⟨o, hmem, hd⟩ := List.mem_filterMap.mp hd
    rw [ho] at hmem
    obtain ⟨⟨p, args⟩, hp, rfl⟩ := List.mem_map.mp hmem
    obtain ⟨ht, -, -⟩ := cutFrom_of_buildArgs (mem_buildAll hp).2
    obtain rfl := Option.some.inj hd
    exact ⟨ht, rfl, rfl, Or.inl rfl⟩
  msgs p ch args hp := by
    rw [hm] at hp
    obtain ⟨⟨p, args⟩, hmem, h⟩ := List.mem_map.mp hp
    obtain ⟨rfl, rfl, rfl⟩ := Msg.appendEntries.inj h
    obtain ⟨hpeer, hb⟩ := mem_buildAll hmem
    obtain ⟨-, hid, hcut⟩ := cutFrom_of_buildArgs hb
    exact ⟨hid, mem_peers.mp hpeer, ho ▸ List.mem_map.mpr ⟨(p, args), hmem, rfl⟩, hcut⟩

theorem logStep_of_acceptEntries {p : Fin n} {ch : ℕ} {args : AppendEntriesArgs n C} {prev : ℕ}
    {e : LogEntry C} (hx : x = .recv (.appendEntries p ch args)) (ht : rf.currentTerm ≤ args.term)
    (hp : args.prevLogIndex = prev) (he : rf.log[prev]? = some e)
    (het : e.termIdx = args.prevLogTerm)
    (hu : (rf.updateTerm args.term).1.acceptEntries args prev = .ok u)
    (hr : r.state = { u with resetElectionTimer := true }) (ho : deeds r.obs = []) :
    LogStep me rf x r := by
  have hs : (rf.updateTerm args.term).1.spliced args prev = rf.spliced args prev := by
    simp [spliced]
  obtain ⟨ci, la, bs, rfl⟩ := acceptEntries_frame hu
  exact .accept hx ht (by simp [hr, splice, ht]) hp he het (by simp [hr, splice, hs])
    (by simp [hr, splice, stored]) (by simp [hr, splice]) ho

theorem Reacts.moves (h : Reacts me rf x r) : Moves me rf x r := by
  cases h with
  | pass | resume | matched | commit | win | emit | countVote =>
    exact .of_elects ⟨rfl, rfl, le_rfl, Or.inl rfl⟩ rfl (by simp)
  | campaign => exact .of_elects ⟨rfl, rfl, Nat.le_succ _, Or.inr rfl⟩ rfl (by simp)
  | broadcast => exact .of_broadcast (.keep rfl rfl le_rfl (Or.inl rfl)) rfl rfl
  | brokenBroadcast => exact .of_broadcast (.restart (by simp) (by simp) (by simp)) rfl rfl
  | @start command =>
    refine ⟨.extend rfl rfl rfl rfl List.mem_cons_self, fun d hd => ?_, by simp⟩
    obtain rfl : d = ⟨rf.currentTerm, me, rf.boots, rf.log ++ [⟨command, rf.currentTerm⟩]⟩ := by
      simpa [DistLab.Raft.deeds, Obs.deed] using hd
    exact ⟨rfl, rfl, rfl, Or.inr ⟨rfl, .snoc rfl⟩⟩
  | crash hp hs hc hb =>
    obtain ⟨ht, -, hl⟩ := saved_eq_iff.mp hs
    exact .of_crash ⟨hl, hb, ht.ge, Or.inl hp⟩
  | crashRaised => exact .of_crash (elects_updateTerm _)
  | crashNominee => exact .of_crash ⟨rfl, rfl, Nat.le_succ _, Or.inr rfl⟩
  | depose h => exact .of_elects ⟨rfl, rfl, h.le, Or.inr rfl⟩ rfl (by simp)
  | refuseVote => exact .of_elects (elects_updateTerm _) rfl (by simp)
  | grantVote => exact .of_elects ⟨by simp, by simp, by simp, Or.inr rfl⟩ rfl (by simp)
  | @refuseEntries p ch args =>
    have h : rf.Elects (rf.updateTerm args.term).1 := elects_updateTerm _
    exact .of_elects ⟨h.log, h.boots, h.term_le, h.persister⟩ rfl (by simp)
  | accept ht hp he het hs hu =>
    exact ⟨logStep_of_acceptEntries rfl ht hp he het hu rfl rfl, by simp [DistLab.Raft.deeds,
      Obs.deed], by simp⟩

def replicating : Input (Act C) (Msg n C) → Bool
  | .act (.start _) => true
  | .act .heartbeat => true
  | .act _ => false
  | .recv m => m.isAppend

theorem Reacts.elects (h : Reacts me rf x r) (hx : replicating x = false) :
    (rf.Elects r.state ∧ (∀ m ∈ r.out, m.isAppend = false) ∧ deeds r.obs = []) ∨
    ∃ u, rf.Elects u ∧ r = u.crash := by
  cases h with
  | pass | resume | win | emit | countVote =>
    exact Or.inl ⟨⟨rfl, rfl, le_rfl, Or.inl rfl⟩, by simp, rfl⟩
  | campaign =>
    exact Or.inl ⟨⟨rfl, rfl, Nat.le_succ _, Or.inr rfl⟩, by simp [Msg.isAppend], rfl⟩
  | crash hp hs hc hb =>
    obtain ⟨ht, -, hl⟩ := saved_eq_iff.mp hs
    exact Or.inr ⟨_, ⟨hl, hb, ht.ge, Or.inl hp⟩, rfl⟩
  | crashRaised => exact Or.inr ⟨_, elects_updateTerm _, rfl⟩
  | crashNominee => exact Or.inr ⟨rf.nominate me, ⟨rfl, rfl, Nat.le_succ _, Or.inr rfl⟩, rfl⟩
  | depose h => exact Or.inl ⟨⟨rfl, rfl, h.le, Or.inr rfl⟩, by simp, rfl⟩
  | refuseVote => exact Or.inl ⟨elects_updateTerm _, by simp [Msg.isAppend], rfl⟩
  | grantVote =>
    exact Or.inl ⟨⟨by simp, by simp, by simp, Or.inr rfl⟩, by simp [Msg.isAppend], rfl⟩
  | start | broadcast | brokenBroadcast | refuseEntries | accept | matched | commit =>
    simp [replicating, Msg.isAppend] at hx

end Server

/-- The election code of the repository is one of the histories: every step of a cluster is a
step of the replication part. -/
theorem step_replicates {w w' : Cluster n C} {e : NetEvent (Fin n) (Act C)}
    (h : (cluster n C).step w e = some w') : Replicates w w' := by
  have helect : ∀ i x r net, (raft n C).react i (w.node i) x = some r → net ⊆ w.net →
      Server.replicating x = false → Replicates w (w.put i net r) := by
    intro i x r net hr hn hx
    rcases (Server.react_reacts hr).elects hx with ⟨he, hout, hobs⟩ | ⟨u, he, rfl⟩
    · exact .elect he hn hout hobs
    · exact .restart he hn
  cases e with
  | act i x =>
    obtain ⟨r, hr, rfl⟩ := Option.map_eq_some_iff.mp h
    cases x with
    | start command => exact .start hr
    | heartbeat => exact .heartbeat hr
    | _ => exact helect i _ r _ hr (List.Subset.refl _) rfl
  | deliver k =>
    obtain ⟨m, hm, h⟩ := Option.bind_eq_some_iff.mp h
    obtain ⟨r, hr, rfl⟩ := Option.map_eq_some_iff.mp h
    cases ha : m.isAppend with
    | true =>
      obtain rfl := Option.some.inj hr
      exact .deliver hm ha
    | false => exact helect _ (.recv m) r _ hr List.eraseIdx_subset ha
  | drop k =>
    obtain ⟨-, h⟩ := Option.ite_none_right_eq_some.mp h
    obtain rfl := Option.some.inj h
    exact .drop

theorem run_replicates {w w' : Cluster n C} {es : List (NetEvent (Fin n) (Act C))}
    (h : (cluster n C).run w es = some w') : Relation.ReflTransGen Replicates w w' :=
  System.invariant (I := fun v => Relation.ReflTransGen Replicates w v)
    (fun _ _ _ hi hs => hi.tail (step_replicates hs)) h .refl

end DistLab.Raft
