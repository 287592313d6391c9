import DistLab.Raft.StateMachine

/-! # Where entries come from

No entry is made up or moved: whatever stands in a log, in memory or on disk, in a
request in flight or in a message handed to the service, was put there by a call of
`Start` that returned its index and term. This needs nothing of the elections and
holds in the runs that lose or divide the log as well.
-/

namespace DistLab.Raft

variable {n : ℕ} {C : Type*}

def Begun (trace : List (Obs n C)) (k : ℕ) (e : LogEntry C) : Prop :=
  ∃ i b L, L.length = k ∧ Obs.started i b e.termIdx (L ++ [e]) ∈ trace

/-- Every entry after the sentinel was put at its index by a call of `Start`. -/
def Genuine (trace : List (Obs n C)) (L : List (LogEntry C)) : Prop :=
  ∀ k e, L[k + 1]? = some e → Begun trace (k + 1) e

def ApplyMsg.Genuine (trace : List (Obs n C)) (m : ApplyMsg C) : Prop :=
  ∃ T, Begun trace m.commandIndex ⟨m.command, T⟩

theorem Begun.mono {trace trace' : List (Obs n C)} {k : ℕ} {e : LogEntry C}
    (h : Begun trace k e) (hs : trace ⊆ trace') : Begun trace' k e := by
  obtain ⟨i, b, L, hL, ho⟩ := h
  exact ⟨i, b, L, hL, hs ho⟩

namespace Genuine

variable {trace trace' : List (Obs n C)} {F L : List (LogEntry C)} {k : ℕ}

theorem mono (h : Genuine trace L) (hs : trace ⊆ trace') : Genuine trace' L :=
  fun k e he => (h k e he).mono hs

theorem take (h : Genuine trace L) : Genuine trace (L.take k) := by
  intro j e he
  rw [List.getElem?_take] at he
  split_ifs at he
  exact h j e he

theorem snoc {i : Fin n} {b : ℕ} {e : LogEntry C} (h : Genuine trace L)
    (ho : Obs.started i b e.termIdx (L ++ [e]) ∈ trace) : Genuine trace (L ++ [e]) := by
  intro j a ha
  rw [List.getElem?_append] at ha
  split_ifs at ha with hlt
  · exact h j a ha
  · obtain ⟨hj, rfl⟩ := List.getElem?_eq_some_iff.mp ha
    rw [List.length_singleton] at hj
    simp only [List.getElem_singleton]
    exact ⟨i, b, L, by omega, ho⟩

theorem join (hF : Genuine trace F) (hL : Genuine trace L) (hk : k ≤ F.length) :
    Genuine trace (F.take k ++ L.drop k) := by
  intro j e he
  rw [List.getElem?_append, List.length_take, min_eq_left hk] at he
  split_ifs at he with hlt
  · exact hF.take j e he
  · rw [List.getElem?_drop, Nat.add_sub_cancel' (Nat.not_lt.mp hlt)] at he
    exact hL j e he

theorem appMsgs {la c : ℕ} {ms : List (ApplyMsg C)} (h : Genuine trace L)
    (hm : Server.appMsgs L la c = some ms) : ∀ m ∈ ms, m.Genuine trace := by
  intro m hmem
  obtain ⟨hlt, -, e, he, hc⟩ := Server.appMsgs_spec hm m hmem
  obtain ⟨j, hj⟩ := Nat.exists_eq_succ_of_ne_zero (Nat.ne_zero_of_lt hlt)
  refine ⟨e.termIdx, ?_⟩
  rw [← hc]
  rw [hj] at he ⊢
  exact h j e he

end Genuine

def AppendEntriesArgs.Genuine (trace : List (Obs n C)) (args : AppendEntriesArgs n C) : Prop :=
  ∃ L, args.CutFrom L ∧ DistLab.Raft.Genuine trace L

namespace Server

variable {rf : Server n C} {args : AppendEntriesArgs n C} {trace : List (Obs n C)} {prev : ℕ}

theorem genuine_spliced {e : LogEntry C} (h : Genuine trace rf.log) (ha : args.Genuine trace)
    (hp : args.prevLogIndex = prev) (he : rf.log[prev]? = some e) :
    Genuine trace (rf.spliced args prev) := by
  obtain ⟨L, ⟨prev', e', hp', -, -, hent⟩, hL⟩ := ha
  obtain rfl : prev' = prev := by omega
  obtain ⟨hlt, -⟩ := List.getElem?_eq_some_iff.mp he
  have hle : skipSame args.entries (rf.log.drop (prev' + 1)) ≤ (rf.log.drop (prev' + 1)).length :=
    skipSame_le_right
  rw [List.length_drop] at hle
  unfold spliced
  generalize skipSame args.entries (rf.log.drop (prev' + 1)) = s at hle ⊢
  rw [hent, List.drop_drop]
  exact h.join hL (by omega)

end Server

variable [Inhabited C]

namespace Server

/-- What the server holds in memory, on disk and for its service comes from calls of `Start`. -/
structure Genuine (trace : List (Obs n C)) (rf : Server n C) : Prop where
  log : DistLab.Raft.Genuine trace rf.log
  stored : DistLab.Raft.Genuine trace rf.stored.log
  batches : ∀ ms ∈ rf.batches, ∀ m ∈ ms, m.Genuine trace

variable {me : Fin n} {rf : Server n C} {trace : List (Obs n C)} {x : Input (Act C) (Msg n C)}
  {r : Outcome n C}

theorem Genuine.mono {trace' : List (Obs n C)} (h : rf.Genuine trace) (hs : trace ⊆ trace') :
    rf.Genuine trace' where
  log := h.log.mono hs
  stored := h.stored.mono hs
  batches ms hms m hm := (h.batches ms hms m hm).imp fun _ hb => hb.mono hs

theorem LogStep.genuine (h : LogStep me rf x r) (hs : rf.Genuine trace)
    (hx : ∀ p ch args, x = .recv (.appendEntries p ch args) → args.Genuine trace)
    (ho : r.obs ⊆ trace) :
    DistLab.Raft.Genuine trace r.state.log ∧ DistLab.Raft.Genuine trace r.state.stored.log := by
  have hstored : r.state.stored.log = rf.stored.log ∨ r.state.stored.log = rf.log →
      DistLab.Raft.Genuine trace r.state.stored.log := by
    rintro (hs' | hs')
    · exact hs' ▸ hs.stored
    · exact hs' ▸ hs.log
  cases h with
  | keep hl _ _ hst => exact ⟨hl ▸ hs.log, hstored hst⟩
  | restart hl _ hst => exact ⟨hl ▸ hstored hst, hstored hst⟩
  | extend hl _ _ hst hobs =>
    have hlog : DistLab.Raft.Genuine trace r.state.log := by
      rw [hl] at hobs ⊢
      exact hs.log.snoc (ho hobs)
    exact ⟨hlog, hst ▸ hlog⟩
  | accept hx' _ _ hp he _ hl hst =>
    exact ⟨hl ▸ genuine_spliced hs.log (hx _ _ _ hx') hp he, hst ▸ hs.log.take⟩

theorem Reacts.batches (h : Reacts me rf x r) {ms : List (ApplyMsg C)} {m : ApplyMsg C}
    (hms : ms ∈ r.state.batches) (hm : m ∈ ms) : (∃ ms' ∈ rf.batches, m ∈ ms') ∨
      ∃ la c ms', appMsgs r.state.log la c = some ms' ∧ m ∈ ms' := by
  cases h with
  | pass | resume | campaign | win | broadcast | start | depose | countVote | matched =>
    exact Or.inl ⟨ms, hms, hm⟩
  | brokenBroadcast | crash | crashRaised | crashNominee => simp at hms
  | emit hk =>
    rcases List.mem_or_eq_of_mem_set hms with hms | rfl
    · exact Or.inl ⟨ms, hms, hm⟩
    · exact Or.inl ⟨_, List.mem_of_getElem? hk, List.mem_cons_of_mem _ hm⟩
  | refuseVote | grantVote | refuseEntries => exact Or.inl ⟨ms, by simpa using hms, hm⟩
  | accept ht hp he het hs hu =>
    rcases acceptEntries_ok hu with ⟨-, rfl⟩ | ⟨-, ci, ms', -, hap, rfl⟩
    · exact Or.inl ⟨ms, by simpa [splice] using hms, hm⟩
    · rcases List.mem_append.mp hms with hms | hms
      · exact Or.inl ⟨ms, by simpa using hms, hm⟩
      · obtain rfl := List.mem_singleton.mp hms
        exact Or.inr ⟨_, _, _, hap, hm⟩
  | commit hr ht hs hne hc he het hap =>
    rcases List.mem_append.mp hms with hms | hms
    · exact Or.inl ⟨ms, hms, hm⟩
    · obtain rfl := List.mem_singleton.mp hms
      exact Or.inr ⟨_, _, _, hap, hm⟩

theorem Reacts.genuine (h : Reacts me rf x r) (hs : rf.Genuine trace)
    (hx : ∀ p ch args, x = .recv (.appendEntries p ch args) → args.Genuine trace)
    (ho : r.obs ⊆ trace) : r.state.Genuine trace := by
  obtain ⟨hlog, hstored⟩ := h.moves.log.genuine hs hx ho
  refine ⟨hlog, hstored, fun ms hms m hm => ?_⟩
  rcases h.batches hms hm with ⟨ms', hms', hm'⟩ | ⟨la, c, ms', hap, hm'⟩
  · exact hs.batches ms' hms' m hm'
  · exact hlog.appMsgs hap m hm'

theorem Reacts.started (h : Reacts me rf x r) {i : Fin n} {b T : ℕ} {L : List (LogEntry C)}
    {e : LogEntry C} (ho : Obs.started i b T (L ++ [e]) ∈ r.obs) :
    x = .act (.start e.content) ∧ (rf.start me e.content).2 = (L.length, T, true) := by
  cases h
  case start command hs =>
    simp only [List.mem_cons, List.not_mem_nil, or_false, reduceCtorEq] at ho
    obtain ⟨rfl, rfl, rfl, hL⟩ := Obs.started.inj ho
    obtain ⟨rfl, he⟩ := List.append_inj' hL rfl
    obtain rfl := List.singleton_inj.mp he
    exact ⟨rfl, by simp [Server.start, hs]⟩
  all_goals simp at ho

end Server

structure Valid (w : Cluster n C) : Prop where
  server : ∀ i, (w.node i).Genuine w.trace
  net : ∀ p ch args, Msg.appendEntries p ch args ∈ w.net → args.Genuine w.trace
  applied : ∀ i m, Obs.applied i m ∈ w.trace → m.Genuine w.trace

namespace Valid

variable {w : Cluster n C}

theorem init : Valid (cluster n C).init where
  server i := by
    have hlog : Genuine ([] : List (Obs n C)) [sentinel] := by simp [Genuine]
    exact ⟨hlog, hlog, by simp [raft, Protocol.system, Server.make, Server.readPersist]⟩
  net := by simp [Protocol.system]
  applied := by simp [Protocol.system]

theorem put {i : Fin n} {x : Input (Act C) (Msg n C)} {r : Outcome n C} {net : List (Msg n C)}
    (h : Valid w) (hr : (raft n C).react i (w.node i) x = some r)
    (hf : (raft n C).Feeds w i x) (hn : net ⊆ w.net) : Valid (w.put i net r) := by
  have hx := Server.react_reacts hr
  have hsub : w.trace ⊆ r.obs ++ w.trace := List.subset_append_right _ _
  have hargs : ∀ p ch args, Msg.appendEntries p ch args ∈ w.net →
      args.Genuine (r.obs ++ w.trace) := by
    intro p ch args hm
    obtain ⟨L, hcut, hL⟩ := h.net p ch args hm
    exact ⟨L, hcut, hL.mono hsub⟩
  constructor
  · refine World.forall_put (N := fun _ => Server.Genuine (r.obs ++ w.trace)) ?_ ?_
    · apply hx.genuine ((h.server i).mono hsub)
      · rintro p ch args rfl
        exact hargs p ch args hf.1
      · exact List.subset_append_left _ _
    · exact fun j _ => (h.server j).mono hsub
  · intro p ch args hm
    rcases World.mem_put_net hn hm with hm | hm
    · exact hargs p ch args hm
    · obtain ⟨-, -, -, hcut⟩ := hx.moves.msgs p ch args hm
      exact ⟨_, hcut, (h.server i).log.mono hsub⟩
  · intro j m hm
    have hgen : m.Genuine w.trace := by
      rcases List.mem_append.mp hm with hm | hm
      · obtain ⟨ms, hms, hm⟩ := hx.applied hm
        exact (h.server i).batches ms hms m hm
      · exact h.applied j m hm
    exact hgen.imp fun T hT => hT.mono hsub

theorem run {es : List (NetEvent (Fin n) (Act C))} {w' : Cluster n C} (hw : Valid w)
    (h : (cluster n C).run w es = some w') : Valid w' :=
  Protocol.invariant
    (fun _ _ hw hn => ⟨hw.server, fun p ch args hm => hw.net p ch args (hn hm), hw.applied⟩)
    (fun _ _ _ _ _ hw hr hf hn => hw.put hr hf hn) h hw

end Valid

/-- A call of `Start` in the run returned the index and the term of the entry for its command. -/
def Accepted (es : List (NetEvent (Fin n) (Act C))) (k : ℕ) (e : LogEntry C) : Prop :=
  ∃ es₁ es₂ i v, es = es₁ ++ .act i (.start e.content) :: es₂ ∧
    (cluster n C).run (cluster n C).init es₁ = some v ∧
    ((v.node i).start i e.content).2 = (k, e.termIdx, true)

theorem Begun.accepted {es : List (NetEvent (Fin n) (Act C))} {w : Cluster n C} {k : ℕ}
    {e : LogEntry C} (h : (cluster n C).run (cluster n C).init es = some w)
    (hb : Begun w.trace k e) : Accepted es k e := by
  obtain ⟨i, b, L, rfl, ho⟩ := hb
  obtain ⟨es₁, a, es₂, v, v', rfl, hv, hs, hold, hnew⟩ :=
    System.exists_step_of_run (P := fun w => Obs.started i b e.termIdx (L ++ [e]) ∈ w.trace) h
      (by simp [Protocol.system]) ho
  cases a with
  | act j x =>
    obtain ⟨r, hr, rfl⟩ := Option.map_eq_some_iff.mp hs
    obtain ⟨hx, hret⟩ :=
      (Server.react_reacts hr).started ((List.mem_append.mp hnew).resolve_right hold)
    obtain rfl := Input.act.inj hx
    exact ⟨es₁, es₂, j, v, rfl, hv, hret⟩
  | deliver q =>
    obtain ⟨m, -, hs⟩ := Option.bind_eq_some_iff.mp hs
    obtain ⟨r, hr, rfl⟩ := Option.map_eq_some_iff.mp hs
    obtain ⟨hx, -⟩ :=
      (Server.react_reacts hr).started ((List.mem_append.mp hnew).resolve_right hold)
    cases hx
  | drop q =>
    obtain ⟨-, hs⟩ := Option.ite_none_right_eq_some.mp hs
    obtain rfl := Option.some.inj hs
    exact (hold hnew).elim

/-- Whatever is lost, delayed or divided, each entry of a log in memory or on disk, each entry of a
request in flight and each message applied stands at the index that an earlier `Start` of its
command returned, with the term it returned. -/
theorem entries_from_start {es : List (NetEvent (Fin n) (Act C))} {w : Cluster n C}
    (h : (cluster n C).run (cluster n C).init es = some w) :
    (∀ i k e, (w.node i).log[k + 1]? = some e ∨ (w.node i).stored.log[k + 1]? = some e →
      Accepted es (k + 1) e) ∧
    (∀ p ch args, Msg.appendEntries p ch args ∈ w.net → ∃ prev : ℕ, args.prevLogIndex = prev ∧
      ∀ q e, args.entries[q]? = some e → Accepted es (prev + 1 + q) e) ∧
    ∀ i m, Obs.applied i m ∈ w.trace → ∃ T, Accepted es m.commandIndex ⟨m.command, T⟩ := by
  have hw := Valid.init.run h
  refine ⟨?_, fun p ch args hm => ?_, fun i m hm => ?_⟩
  · rintro i k e (he | he)
    · exact ((hw.server i).log k e he).accepted h
    · exact ((hw.server i).stored k e he).accepted h
  · obtain ⟨L, ⟨prev, -, hp, -, -, hent⟩, hL⟩ := hw.net p ch args hm
    refine ⟨prev, hp, fun q e he => ?_⟩
    rw [hent, List.getElem?_drop, Nat.add_right_comm] at he
    rw [Nat.add_right_comm]
    exact (hL _ e he).accepted h
  · obtain ⟨T, hT⟩ := hw.applied i m hm
    exact ⟨T, hT.accepted h⟩

theorem entries_from_start_divided : ∃ w,
    (cluster 3 ℕ).run (cluster 3 ℕ).init divided = some w ∧
      Obs.applied 1 ⟨true, 20, 1⟩ ∈ w.trace ∧ ∃ T, Accepted divided 1 ⟨20, T⟩ := by
  have h := (cluster 3 ℕ).run_after (cluster 3 ℕ).init divided (by decide +kernel)
  have hm : Obs.applied 1 ⟨true, 20, 1⟩ ∈
      ((cluster 3 ℕ).after (cluster 3 ℕ).init divided (by decide +kernel)).trace := by
    decide +kernel
  exact ⟨_, h, hm, (entries_from_start h).2.2 1 _ hm⟩

end DistLab.Raft
