import DistLab.Raft.Memory

/-! # Log matching

Every log, every saved log and every request in flight is tied to the logs the
leaders acted on: an entry stands, with all that precedes it, in a log on which the
leader of its term acted. An accepted request therefore leaves a follower with
exactly the log it was cut from, and two logs agree up to every entry of one term.
-/

namespace DistLab.Raft

variable {n : ℕ} {C : Type*} [Inhabited C]

/-- The logs leaders acted on in a term, and the sentinel everyone starts with. -/
def Recorded (trace : List (Obs n C)) (T : ℕ) (L : List (LogEntry C)) : Prop :=
  T = 0 ∧ L = [sentinel] ∨ ∃ d ∈ deeds trace, d.term = T ∧ d.log = L

structure LogOk (trace : List (Obs n C)) (L : List (LogEntry C)) : Prop where
  backed : Backed LogEntry.termIdx (Recorded trace) L
  rooted : [sentinel] <+: L

namespace LogOk

variable {trace trace' : List (Obs n C)} {L L' : List (LogEntry C)}

theorem ne_nil (h : LogOk trace L) : L ≠ [] := by
  rintro rfl
  exact absurd h.rooted (by simp)

theorem mono (h : LogOk trace L) (hs : trace ⊆ trace') : LogOk trace' L := by
  refine ⟨h.backed.mono ?_, h.rooted⟩
  rintro T R (hR | ⟨d, hd, hR⟩)
  · exact Or.inl hR
  · exact Or.inr ⟨d, deeds_subset hs hd, hR⟩

theorem of_isPrefix (h : LogOk trace L) (hp : L' <+: L) (hne : L' ≠ []) : LogOk trace L' :=
  ⟨h.backed.of_isPrefix hp, List.prefix_of_prefix_length_le h.rooted hp
    (by simpa [Nat.one_le_iff_ne_zero] using hne)⟩

theorem sentinel : LogOk trace [sentinel] := by
  refine ⟨fun k e he => ⟨[Raft.sentinel], Or.inl ⟨?_, rfl⟩, List.take_prefix _ _⟩,
    List.prefix_refl _⟩
  rw [List.getElem?_singleton] at he
  split_ifs at he
  exact Option.some.inj he ▸ rfl

end LogOk

/-- What the server did as leader in its present term and incarnation is still in its log. -/
def Server.Owns (rf : Server n C) (d : Deed n C) : Prop :=
  d.boots ≤ rf.boots ∧ (d.boots = rf.boots → d.term ≤ rf.currentTerm ∧
    (d.term = rf.currentTerm → Grows LogEntry.termIdx d.term d.log rf.log))

/-- The invariant of the replication part. -/
structure Matched (w : Cluster n C) : Prop where
  logs : ∀ i, LogOk w.trace (w.node i).log
  stored : ∀ i, LogOk w.trace (w.node i).stored.log
  deeds : ∀ d ∈ deeds w.trace, LogOk w.trace d.log
  grown : ∀ d ∈ DistLab.Raft.deeds w.trace, ∀ d' ∈ DistLab.Raft.deeds w.trace, d.term = d'.term →
    Grows LogEntry.termIdx d.term d.log d'.log ∨ Grows LogEntry.termIdx d.term d'.log d.log
  own : ∀ d ∈ DistLab.Raft.deeds w.trace, (w.node d.server).Owns d
  msgs : ∀ p ch args, Msg.appendEntries p ch args ∈ w.net → p ≠ args.leaderId ∧
    ∃ b L, Obs.sent args.leaderId b args L ∈ w.trace ∧ args.CutFrom L

theorem spliced_eq {trace : List (Obs n C)} {rf : Server n C} {args : AppendEntriesArgs n C}
    {R : List (LogEntry C)} {prev : ℕ} {e : LogEntry C} (hA : Coherent (Recorded trace))
    (hF : LogOk trace rf.log) (hR : LogOk trace R) (hcut : args.CutFrom R)
    (hp : args.prevLogIndex = prev) (he : rf.log[prev]? = some e)
    (het : e.termIdx = args.prevLogTerm) :
    rf.spliced args prev = R ∧
      rf.log.take (prev + 1 + Server.skipSame args.entries (rf.log.drop (prev + 1))) <+: R := by
  have hm : LogsMatch rf.log R := fun k a b ha hb hab =>
    hF.backed.take_eq hA hR.backed ha hb hab
  exact hm.spliced_eq hcut hp he het

namespace Matched

variable {w w' : Cluster n C} {i : Fin n} {x : Input (Act C) (Msg n C)} {r : Outcome n C}
  {net : List (Msg n C)}

theorem init : Matched (cluster n C).init where
  logs _ := .sentinel
  stored _ := .sentinel
  deeds := by simp [Protocol.system]
  grown := by simp [Protocol.system]
  own := by simp [Protocol.system]
  msgs := by simp [Protocol.system]

theorem lose (h : Matched w) (hn : net ⊆ w.net) : Matched { w with net := net } :=
  ⟨h.logs, h.stored, h.deeds, h.grown, h.own, fun p ch args hm => h.msgs p ch args (hn hm)⟩

theorem coherent (h : Matched w) : Coherent (Recorded w.trace) := by
  rintro T L L' (⟨-, rfl⟩ | ⟨d, hd, rfl, rfl⟩) (⟨-, rfl⟩ | ⟨d', hd', hT, rfl⟩)
  · exact Or.inl (List.prefix_refl _)
  · exact Or.inl (h.deeds d' hd').rooted
  · exact Or.inr (h.deeds d hd).rooted
  · exact (h.grown d hd d' hd' hT.symm).imp Grows.isPrefix Grows.isPrefix

theorem accepted (h : Matched w) {p : Fin n} {ch : ℕ} {args : AppendEntriesArgs n C} {prev : ℕ}
    {e : LogEntry C} (hf : (raft n C).Feeds w i (.recv (.appendEntries p ch args)))
    (hp : args.prevLogIndex = prev) (he : (w.node i).log[prev]? = some e)
    (het : e.termIdx = args.prevLogTerm) : i ≠ args.leaderId ∧
    ∃ b L, Obs.sent args.leaderId b args L ∈ w.trace ∧ args.CutFrom L ∧
      (w.node i).spliced args prev = L ∧
      (w.node i).log.take (prev + 1 + Server.skipSame args.entries
        ((w.node i).log.drop (prev + 1))) <+: L := by
  obtain ⟨hm, rfl⟩ := hf
  obtain ⟨hne, b, L, hs, hcut⟩ := h.msgs p ch args hm
  have hL : LogOk w.trace L := h.deeds _ (mem_deeds_of_sent hs)
  exact ⟨hne, b, L, hs, hcut, spliced_eq h.coherent (h.logs _) hL hcut hp he het⟩

theorem logOk_move (h : Matched w) (hm : (w.node i).LogStep i x r)
    (hf : (raft n C).Feeds w i x) :
    LogOk (r.obs ++ w.trace) r.state.log ∧ LogOk (r.obs ++ w.trace) r.state.stored.log := by
  have hsub : w.trace ⊆ r.obs ++ w.trace := List.subset_append_right _ _
  have hlog := (h.logs i).mono hsub
  have hold : r.state.stored.log = (w.node i).stored.log ∨ r.state.stored.log = (w.node i).log →
      LogOk (r.obs ++ w.trace) r.state.stored.log := by
    rintro (hs | hs) <;> rw [hs]
    · exact (h.stored i).mono hsub
    · exact hlog
  cases hm with
  | keep hl _ _ hs => exact ⟨hl ▸ hlog, hold hs⟩
  | restart hl _ hs => exact ⟨hl ▸ hold hs, hold hs⟩
  | @extend command hl _ _ hs ho =>
    have hrec : Recorded (r.obs ++ w.trace) (w.node i).currentTerm r.state.log :=
      Or.inr ⟨_, List.mem_filterMap.mpr ⟨_, List.mem_append_left _ ho, rfl⟩, rfl, rfl⟩
    rw [hl] at hrec
    have hnew : LogOk (r.obs ++ w.trace)
        ((w.node i).log ++ [⟨command, (w.node i).currentTerm⟩]) :=
      ⟨hlog.backed.snoc hrec, hlog.rooted.trans (List.prefix_append _ _)⟩
    rw [hs, hl]
    exact ⟨hnew, hnew⟩
  | accept hx _ _ hp he het hl hs =>
    subst hx
    obtain ⟨-, b, L, hsent, -, hspl, htake⟩ := h.accepted hf hp he het
    have hL : LogOk (r.obs ++ w.trace) L := (h.deeds _ (mem_deeds_of_sent hsent)).mono hsub
    obtain ⟨hlt, -⟩ := List.getElem?_eq_some_iff.mp he
    rw [hl, hs, hspl]
    refine ⟨hL, hL.of_isPrefix htake fun hnil => ?_⟩
    rw [List.take_eq_nil_iff] at hnil
    rcases hnil with hnil | hnil
    · omega
    · simp [hnil] at hlt

theorem own_move (h : Matched w) (hu : UniqueActors w.trace) (hm : (w.node i).LogStep i x r)
    (hf : (raft n C).Feeds w i x) {d : Deed n C} (hd : d ∈ DistLab.Raft.deeds w.trace)
    (hi : d.server = i) : r.state.Owns d := by
  obtain ⟨hb, ho⟩ := h.own d hd
  rw [hi] at hb ho
  unfold Server.Owns
  cases hm with
  | keep hl hb' ht =>
    rw [hb', hl]
    refine ⟨hb, fun heq => ⟨(ho heq).1.trans ht, fun hT => (ho heq).2 ?_⟩⟩
    exact le_antisymm (ho heq).1 (hT ▸ ht)
  | restart _ hb' => exact ⟨by omega, fun heq => by omega⟩
  | extend hl hb' ht =>
    rw [hb', hl, ht]
    exact ⟨hb, fun heq => ⟨(ho heq).1, fun hT => ((ho heq).2 hT).trans (.snoc hT.symm)⟩⟩
  | @accept p ch args prev e hx ht ht' hp he het hl hs hb' =>
    subst hx
    rw [hb', ht']
    refine ⟨hb, fun heq => ⟨(ho heq).1.trans ht, fun hT => ?_⟩⟩
    obtain ⟨hne, b, L, hsent, -⟩ := h.accepted hf hp he het
    have hactor := (hu d hd _ (mem_deeds_of_sent hsent) hT).1
    exact (hne (hi.symm.trans hactor)).elim

theorem own_new {rf : Server n C} (hm : rf.Moves i x r) {d : Deed n C}
    (hd : d ∈ DistLab.Raft.deeds r.obs) : r.state.Owns d := by
  obtain ⟨hT, -, hb, hl⟩ := hm.deeds d hd
  have hgrow : Grows LogEntry.termIdx d.term rf.log r.state.log →
      Grows LogEntry.termIdx d.term d.log r.state.log := by
    rcases hl with hl | ⟨hl, -⟩ <;> rw [hl]
    · exact id
    · exact fun _ => .refl
  unfold Server.Owns
  cases hm.log with
  | keep hl hb' ht => exact ⟨by omega, fun _ => ⟨by omega, fun _ => hgrow (hl ▸ .refl)⟩⟩
  | restart _ hb' => exact ⟨by omega, fun _ => by omega⟩
  | extend hl hb' ht =>
    exact ⟨by omega, fun _ => ⟨by omega, fun _ => hgrow (hl ▸ .snoc hT.symm)⟩⟩
  | accept _ _ _ _ _ _ _ _ _ ho => simp [ho] at hd

theorem grown_move (h : Matched w) (hu : UniqueActors (r.obs ++ w.trace))
    (hm : (w.node i).Moves i x r) : ∀ d ∈ DistLab.Raft.deeds (r.obs ++ w.trace),
      ∀ d' ∈ DistLab.Raft.deeds (r.obs ++ w.trace), d.term = d'.term →
        Grows LogEntry.termIdx d.term d.log d'.log ∨
          Grows LogEntry.termIdx d.term d'.log d.log := by
  have hnew : ∀ d ∈ DistLab.Raft.deeds r.obs,
      Grows LogEntry.termIdx d.term (w.node i).log d.log := by
    intro d hd
    obtain ⟨hT, -, -, hl | ⟨hl, hp⟩⟩ := hm.deeds d hd
    · exact hl ▸ .refl
    · exact hl ▸ hT ▸ hp
  have hold : ∀ d ∈ DistLab.Raft.deeds w.trace, ∀ d' ∈ DistLab.Raft.deeds r.obs,
      d.term = d'.term → Grows LogEntry.termIdx d.term d.log d'.log := by
    intro d hd d' hd' hT
    obtain ⟨hs, hb⟩ := hu d (by simp [hd]) d' (by simp [hd']) hT
    obtain ⟨hT', hs', hb', -⟩ := hm.deeds d' hd'
    have ho := (h.own d hd).2
    rw [hs, hs'] at ho
    exact ((ho (hb.trans hb')).2 (hT.trans hT')).trans (hT ▸ hnew d' hd')
  intro d hd d' hd' hT
  rw [deeds_append, List.mem_append] at hd hd'
  rcases hd with hd | hd <;> rcases hd' with hd' | hd'
  · obtain ⟨hd₁, -, -, hl | ⟨hl, hp⟩⟩ := hm.deeds d hd <;>
      obtain ⟨-, -, -, hl' | ⟨hl', hp'⟩⟩ := hm.deeds d' hd' <;> rw [hl, hl', hd₁]
    · exact Or.inl .refl
    · exact Or.inl hp'
    · exact Or.inr hp
    · exact Or.inl .refl
  · exact Or.inr (hT ▸ hold d' hd' d hd hT.symm)
  · exact Or.inl (hold d hd d' hd' hT)
  · exact h.grown d hd d' hd' hT

theorem put (h : Matched w) (hu : UniqueActors (w.put i net r).trace)
    (hm : (w.node i).Moves i x r) (hf : (raft n C).Feeds w i x) (hn : net ⊆ w.net) :
    Matched (w.put i net r) := by
  have hsub : w.trace ⊆ r.obs ++ w.trace := List.subset_append_right _ _
  obtain ⟨hlog, hstored⟩ := h.logOk_move hm.log hf
  have hdeeds : ∀ d ∈ DistLab.Raft.deeds (r.obs ++ w.trace), LogOk (r.obs ++ w.trace) d.log := by
    intro d hd
    rw [deeds_append, List.mem_append] at hd
    rcases hd with hd | hd
    · obtain ⟨-, -, -, hl | ⟨hl, -⟩⟩ := hm.deeds d hd
      · exact hl ▸ (h.logs i).mono hsub
      · exact hl ▸ hlog
    · exact (h.deeds d hd).mono hsub
  constructor
  case logs =>
    exact World.forall_put (N := fun _ (rf : Server n C) => LogOk (r.obs ++ w.trace) rf.log) hlog
      fun j _ => (h.logs j).mono hsub
  case stored =>
    exact World.forall_put (N := fun _ (rf : Server n C) => LogOk (r.obs ++ w.trace) rf.stored.log)
      hstored fun j _ => (h.stored j).mono hsub
  case deeds => exact hdeeds
  case grown => exact h.grown_move hu hm
  case own =>
    intro d hd
    rw [World.put_trace, deeds_append, List.mem_append] at hd
    rcases hd with hd | hd
    · obtain ⟨-, rfl, -⟩ := hm.deeds d hd
      rw [World.put_node_self]
      exact own_new hm hd
    · rcases eq_or_ne d.server i with hi | hne
      · rw [hi, World.put_node_self]
        exact h.own_move (hu.of_subset hsub) hm.log hf hd hi
      · rw [World.put_node_of_ne hne]
        exact h.own d hd
  case msgs =>
    intro p ch args hp
    rcases World.mem_put_net hn hp with hp | hp
    · obtain ⟨hne, b, L, hs, hcut⟩ := h.msgs p ch args hp
      exact ⟨hne, b, L, hsub hs, hcut⟩
    · obtain ⟨rfl, hne, hs, hcut⟩ := hm.msgs p ch args hp
      exact ⟨hne, _, _, List.mem_append_left _ hs, hcut⟩

theorem log_eq (h : Matched w) {j : Fin n} {k : ℕ} {e e' : LogEntry C}
    (he : (w.node i).log[k]? = some e) (he' : (w.node j).log[k]? = some e')
    (ht : e.termIdx = e'.termIdx) : (w.node i).log.take (k + 1) = (w.node j).log.take (k + 1) :=
  (h.logs i).backed.take_eq h.coherent (h.logs j).backed he he' ht

end Matched

namespace Replicates

variable {w w' : Cluster n C} {es : List (NetEvent (Fin n) (Act C))}

theorem cases (h : Replicates w w') : (∃ net ⊆ w.net, w' = { w with net := net }) ∨
    ∃ i x r net, (w.node i).Moves i x r ∧ (raft n C).Feeds w i x ∧ net ⊆ w.net ∧
      w' = w.put i net r := by
  cases h with
  | start h =>
    exact Or.inr ⟨_, _, _, _, (Server.act_reacts h).moves, trivial, List.Subset.refl _, rfl⟩
  | heartbeat h =>
    exact Or.inr ⟨_, _, _, _, (Server.act_reacts h).moves, trivial, List.Subset.refl _, rfl⟩
  | deliver hm ha =>
    exact Or.inr ⟨_, .recv _, _, _, (Server.react_reacts rfl).moves,
      ⟨List.mem_of_getElem? hm, rfl⟩, List.eraseIdx_subset, rfl⟩
  | drop => exact Or.inl ⟨_, List.eraseIdx_subset, rfl⟩
  | elect h hn hout hobs =>
    refine Or.inr ⟨_, .act .kill, _, _, .of_elects h hobs fun p ch args hm => ?_, trivial, hn, rfl⟩
    exact Bool.noConfusion (hout _ hm)
  | restart h hn => exact Or.inr ⟨_, .act .kill, _, _, .of_crash h, trivial, hn, rfl⟩

theorem trace_subset (h : Replicates w w') : w.trace ⊆ w'.trace := by
  rcases h.cases with ⟨net, -, rfl⟩ | ⟨i, x, r, net, -, -, -, rfl⟩
  · exact List.Subset.refl _
  · exact World.trace_subset_put

theorem matched (h : Relation.ReflTransGen Replicates (cluster n C).init w)
    (hu : UniqueActors w.trace) : Matched w := by
  induction h with
  | refl => exact .init
  | tail _ hs ih =>
    have hi := ih (hu.of_subset hs.trace_subset)
    rcases hs.cases with ⟨net, hn, rfl⟩ | ⟨i, x, r, net, hm, hf, hn, rfl⟩
    · exact hi.lose hn
    · exact hi.put hu hm hf hn

end Replicates

/-- In every run of the replication part that overwrites no request to be encoded, under any
election history with one actor for each term, two logs with an entry of one term at one index are
identical up to that index. -/
theorem log_matching {A : Growth} {s : Memory n C}
    (h : Relation.ReflTransGen (Memory.Replicates A Memory.Spares) (memory A n C).init s)
    (hu : UniqueActors s.world.trace) {i j : Fin n} {k : ℕ} {e e' : LogEntry C}
    (he : (s.world.node i).log[k]? = some e) (he' : (s.world.node j).log[k]? = some e')
    (ht : e.termIdx = e'.termIdx) :
    (s.world.node i).log.take (k + 1) = (s.world.node j).log.take (k + 1) := by
  obtain ⟨-, w, hw, hnode, htrace, -⟩ := Memory.Sound.init.exists_replicates h Memory.covers_init
  have hm := Replicates.matched hw (htrace ▸ hu)
  rw [show s.world.node = w.node from hnode.symm] at he he' ⊢
  exact hm.log_eq he he' ht

/-- Server 0 leads term 1 and accepts a command nobody else learns of; server 1 leads term 2 and
overwrites it. -/
def overwritten : List (MemoryEvent 3 ℕ) :=
  [.net (.act 0 .electionTimeout), .net (.deliver 0), .net (.deliver 1),
    .net (.act 0 .becomeLeader), .net (.act 0 (.start 10)), .net (.act 1 .electionTimeout),
    .net (.deliver 2), .net (.deliver 2), .net (.act 1 .becomeLeader), .net (.act 1 (.start 20)),
    .net (.act 1 .heartbeat), .encode 0, .net (.deliver 2)]

theorem log_matching_overwritten :
    ∃ s, Relation.ReflTransGen (Memory.Replicates .doubling Memory.Spares)
        (memory .doubling 3 ℕ).init s ∧
      (s.world.node 0).log[1]? = some ⟨20, 2⟩ ∧ (s.world.node 1).log[1]? = some ⟨20, 2⟩ ∧
      (s.world.node 0).log.take 2 = (s.world.node 1).log.take 2 := by
  have hrun := (memory .doubling 3 ℕ).run_after (memory .doubling 3 ℕ).init overwritten (by decide)
  have h := Memory.run_replicates (G := Memory.Spares) hrun (by decide)
  have he : (((memory .doubling 3 ℕ).after (memory .doubling 3 ℕ).init overwritten
    (by decide)).world.node 0).log[1]? = some ⟨20, 2⟩ := by decide
  have he' : (((memory .doubling 3 ℕ).after (memory .doubling 3 ℕ).init overwritten
    (by decide)).world.node 1).log[1]? = some ⟨20, 2⟩ := by decide
  exact ⟨_, h, he, he', log_matching h (by decide) he he' rfl⟩

/-- An entry of the leader of term 2 comes behind one of term 1 that the leader never had. -/
theorem log_mismatch_aliased :
    ∃ s, Relation.ReflTransGen (Memory.Replicates .doubling fun _ _ _ => True)
        (memory .doubling 5 ℕ).init s ∧
      UniqueActors s.world.trace ∧
      (s.world.node 1).log = [sentinel, ⟨10, 1⟩, ⟨21, 2⟩] ∧
      (s.world.node 2).log = [sentinel, ⟨20, 2⟩, ⟨21, 2⟩] := by
  have hrun := (memory .doubling 5 ℕ).run_after (memory .doubling 5 ℕ).init aliased
    (by decide +kernel)
  have h := Memory.run_replicates (G := fun _ _ _ => True) hrun (by decide +kernel)
  exact ⟨_, h, by decide +kernel, by decide +kernel, by decide +kernel⟩

end DistLab.Raft
