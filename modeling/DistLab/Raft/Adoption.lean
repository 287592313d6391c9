import DistLab.Raft.Acknowledgement
import DistLab.Raft.Ballots

/-! # Adopted logs

A server adopts its log when it wins a term, when it extends the log as leader and
when it accepts a request. As long as nothing adopted is cut off or lost in a
restart, the log of a server is the one it adopted last, a vote is measured against
the last log adopted before it, and every adopted log continues the log on which the
winner of its term stood.
-/

namespace DistLab.Raft

variable {n : ℕ} {C : Type*} [Inhabited C]

def Adopted (trace : List (Obs n C)) (v : Fin n) (T : ℕ) (L : List (LogEntry C)) : Prop :=
  T = 0 ∧ L = [sentinel] ∨ Obs.adopted v T L ∈ trace

/-- The log on which the winner of the term stood. -/
def Based (trace : List (Obs n C)) (T : ℕ) (L : List (LogEntry C)) : Prop :=
  ∃ c, Obs.won c T ∈ trace ∧ Obs.granted c c T L ∈ trace

def Derived (trace : List (Obs n C)) (T : ℕ) (L : List (LogEntry C)) : Prop :=
  ∃ L₀, Based trace T L₀ ∧ Grows LogEntry.termIdx T L₀ L

/-- The last log the server adopted in the terms of a set. -/
def Newest (trace : List (Obs n C)) (v : Fin n) (B : ℕ → Prop) (T : ℕ) (L : List (LogEntry C)) :
    Prop :=
  Adopted trace v T L ∧
    ∀ T' L', B T' → Adopted trace v T' L' → T' ≤ T ∧ (T' = T → L' <+: L)

section History

variable {trace trace' obs : List (Obs n C)} {v : Fin n} {B B' : ℕ → Prop} {T T' : ℕ}
  {L L' : List (LogEntry C)}

theorem Adopted.mono (h : Adopted trace v T L) (hs : trace ⊆ trace') : Adopted trace' v T L :=
  h.imp_right fun h => hs h

omit [Inhabited C] in
theorem Derived.mono (h : Derived trace T L) (hs : trace ⊆ trace') : Derived trace' T L := by
  obtain ⟨L₀, ⟨c, hw, hg⟩, hL⟩ := h
  exact ⟨L₀, ⟨c, hs hw, hs hg⟩, hL⟩

omit [Inhabited C] in
theorem Derived.trans (h : Derived trace T L) (hL : Grows LogEntry.termIdx T L L') :
    Derived trace T L' := by
  obtain ⟨L₀, hb, hg⟩ := h
  exact ⟨L₀, hb, hg.trans hL⟩

theorem Newest.append (h : Newest trace v B T L)
    (ho : ∀ T' L', Obs.adopted v T' L' ∈ obs → ¬ B T') : Newest (obs ++ trace) v B T L := by
  refine ⟨h.1.mono (List.subset_append_right _ _), ?_⟩
  rintro T' L' hB (h0 | ha)
  · exact h.2 T' L' hB (Or.inl h0)
  · rcases List.mem_append.mp ha with ha | ha
    · exact (ho T' L' ha hB).elim
    · exact h.2 T' L' hB (Or.inr ha)

theorem Newest.of_imp (h : Newest trace v B T L) (hB : ∀ t, B' t → B t) :
    Newest trace v B' T L :=
  ⟨h.1, fun T' L' hT' => h.2 T' L' (hB T' hT')⟩

theorem Newest.adopt (h : Newest trace v (fun _ => True) T L) (hT : T ≤ T')
    (hL : T = T' → L <+: L')
    (ho : ∀ t K, Obs.adopted v t K ∈ obs ↔ t = T' ∧ K = L') :
    Newest (obs ++ trace) v (fun _ => True) T' L' := by
  refine ⟨Or.inr (List.mem_append_left _ ((ho T' L').mpr ⟨rfl, rfl⟩)), fun t K _ ha => ?_⟩
  have hold : Adopted trace v t K → t ≤ T' ∧ (t = T' → K <+: L') := by
    intro ha
    obtain ⟨hle, heq⟩ := h.2 t K trivial ha
    refine ⟨hle.trans hT, fun ht => ?_⟩
    have hTT : T = T' := le_antisymm hT (ht ▸ hle)
    exact (heq (ht.trans hTT.symm)).trans (hL hTT)
  rcases ha with h0 | ha
  · exact hold (Or.inl h0)
  · rcases List.mem_append.mp ha with ha | ha
    · obtain ⟨rfl, rfl⟩ := (ho t K).mp ha
      exact ⟨le_rfl, fun _ => List.prefix_refl _⟩
    · exact hold (Or.inr ha)

end History

namespace Server

/-- The server restarts, by itself or by a panic, only when its log is saved. -/
def RestartsSaved (me : Fin n) (rf : Server n C) (x : Input (Act C) (Msg n C)) : Prop :=
  ∀ r ∈ (raft n C).react me rf x, r.state.boots ≠ rf.boots → rf.stored.log = rf.log

instance [DecidableEq C] (me : Fin n) (rf : Server n C) (x : Input (Act C) (Msg n C)) :
    Decidable (rf.RestartsSaved me x) :=
  inferInstanceAs (Decidable (∀ r ∈ (raft n C).react me rf x, _ → _))

/-- Office is only taken and used in the term of the election, and no log is cut or lost. -/
def KeepsLogs (me : Fin n) (rf : Server n C) (x : Input (Act C) (Msg n C)) : Prop :=
  rf.KeepsAcks x ∧ rf.RestartsSaved me x

instance [DecidableEq C] (me : Fin n) (rf : Server n C) (x : Input (Act C) (Msg n C)) :
    Decidable (rf.KeepsLogs me x) :=
  inferInstanceAs (Decidable (_ ∧ _))

inductive AdoptStep (me : Fin n) (rf : Server n C) (x : Input (Act C) (Msg n C))
    (r : Outcome n C) : Prop
  | silent (hl : r.state.log = rf.log) (ho : ∀ v T L, Obs.adopted v T L ∉ r.obs)
  | win (hl : r.state.log = rf.log) (hw : Obs.won me rf.currentTerm ∈ r.obs)
      (hq : rf.routine.asks = some rf.currentTerm)
      (ht : r.state.currentTerm = rf.currentTerm) (ha : r.state.routine.asks = none)
      (ho : ∀ v T L, Obs.adopted v T L ∈ r.obs ↔
        v = me ∧ T = r.state.currentTerm ∧ L = r.state.log)
  | start {command : C} (hs : rf.status = .leader)
      (hl : r.state.log = rf.log ++ [⟨command, rf.currentTerm⟩])
      (ht : r.state.currentTerm = rf.currentTerm)
      (ho : ∀ v T L, Obs.adopted v T L ∈ r.obs ↔
        v = me ∧ T = r.state.currentTerm ∧ L = r.state.log)
  | accept {p : Fin n} {ch : ℕ} {args : AppendEntriesArgs n C} {prev : ℕ} {e : LogEntry C}
      (hx : x = .recv (.appendEntries p ch args)) (ht : rf.currentTerm ≤ args.term)
      (ht' : r.state.currentTerm = args.term) (hp : args.prevLogIndex = prev)
      (he : rf.log[prev]? = some e) (het : e.termIdx = args.prevLogTerm)
      (hl : r.state.log = rf.spliced args prev)
      (ho : ∀ v T L, Obs.adopted v T L ∈ r.obs ↔
        v = me ∧ T = r.state.currentTerm ∧ L = r.state.log)

variable {me : Fin n} {rf : Server n C} {x : Input (Act C) (Msg n C)} {r : Outcome n C}

omit [Inhabited C] in
theorem AdoptStep.adopted (h : AdoptStep me rf x r) {v : Fin n} {T : ℕ} {L : List (LogEntry C)}
    (ha : Obs.adopted v T L ∈ r.obs) :
    v = me ∧ T = r.state.currentTerm ∧ L = r.state.log := by
  cases h with
  | silent _ ho => exact (ho v T L ha).elim
  | win _ _ _ _ _ ho | start _ _ _ ho | accept _ _ _ _ _ _ _ ho => exact (ho v T L).mp ha

theorem LogStep.log_eq_of_boots (h : LogStep me rf x r) (hb : r.state.boots ≠ rf.boots)
    (hs : rf.stored.log = rf.log) : r.state.log = rf.log := by
  cases h with
  | restart hl _ hs' => exact hl.trans (hs'.elim (fun h => h.trans hs) id)
  | keep _ hb' | extend _ hb' | accept _ _ _ _ _ _ _ _ hb' => exact (hb hb').elim

theorem adoptStep (hr : (raft n C).react me rf x = some r) (hg : rf.KeepsTerm x)
    (hs : rf.RestartsSaved me x) : AdoptStep me rf x r := by
  have h := react_reacts hr
  have hcrash : r.state.boots ≠ rf.boots → r.state.log = rf.log :=
    fun hb => h.moves.log.log_eq_of_boots hb (hs r hr hb)
  clear hr hs
  cases h with
  | pass | resume | matched | commit | emit | countVote | broadcast | campaign | depose =>
    exact .silent rfl (by simp)
  | brokenBroadcast | crashRaised => exact .silent (hcrash (by simp)) (by simp)
  | crash _ _ _ hb => exact .silent (hcrash (by simp [hb])) (by simp)
  | crashNominee => exact .silent (hcrash (by simp [nominate])) (by simp)
  | refuseVote | grantVote | refuseEntries => exact .silent (by simp) (by simp)
  | @win args h =>
    have ht : args.term = rf.currentTerm := hg.1 _ (by simp [cashes, h])
    exact .win rfl (by simp [ht]) (by simp [h, Routine.asks, ht]) rfl rfl (by simp [enterLeader])
  | start hs => exact .start hs rfl rfl (by simp [extend])
  | @accept p ch args reply e u prev ht hp he het _ hu =>
    have hlog : u.log = rf.spliced args prev ∧ u.currentTerm = args.term := by
      obtain ⟨ci, la, bs, rfl⟩ := acceptEntries_frame hu
      simp [splice, spliced, ht]
    exact .accept rfl ht hlog.2 hp he het hlog.1 (by simp [hlog.2])

end Server

/-- Adopted logs, the votes measured against them and the winners that stand on them. -/
structure Adopting (w : Cluster n C) : Prop where
  acting : Acting w
  matched : Matched w
  ballots : Ballots w
  logOk : ∀ v T L, Obs.adopted v T L ∈ w.trace → LogOk w.trace L
  newest : ∀ v, ∃ T ≤ (w.node v).currentTerm, Newest w.trace v (fun _ => True) T (w.node v).log
  votes : ∀ v c T L, Obs.granted v c T L ∈ w.trace → ∃ T' ≤ T, Newest w.trace v (· < T) T' L
  stands : ∀ i, (w.node i).currentTerm ∈ (w.node i).routine.asks →
    Obs.granted i i (w.node i).currentTerm (w.node i).log ∈ w.trace ∨
      ∃ c ≠ i, Obs.won c (w.node i).currentTerm ∈ w.trace
  office : ∀ i, (w.node i).status = .leader →
    Obs.adopted i (w.node i).currentTerm (w.node i).log ∈ w.trace
  derived : ∀ v T L, Obs.adopted v T L ∈ w.trace → Derived w.trace T L
  deeds : ∀ d ∈ deeds w.trace, Derived w.trace d.term d.log
  source : ∀ v T L, Obs.adopted v T L ∈ w.trace →
    Obs.won v T ∈ w.trace ∨ ∃ d ∈ DistLab.Raft.deeds w.trace, d.term = T ∧ d.log = L
  elected : ∀ c T, Obs.won c T ∈ w.trace →
    ∃ L, Obs.granted c c T L ∈ w.trace ∧ (∃ T' < T, Newest w.trace c (· < T) T' L) ∧
      ∃ Q : Finset (Fin n), Majority Q ∧ ∀ v ∈ Q, ∃ L, Obs.granted v c T L ∈ w.trace ∧
        ∃ T' < T, Newest w.trace v (· < T) T' L

namespace Adopting

section Step

variable {w : Cluster n C} {i : Fin n} {x : Input (Act C) (Msg n C)} {r : Outcome n C}
  {net : List (Msg n C)}

theorem accepted (h : Adopting w) {p : Fin n} {ch : ℕ} {args : AppendEntriesArgs n C} {prev : ℕ}
    {e : LogEntry C} (hf : (raft n C).Feeds w i (.recv (.appendEntries p ch args)))
    (hp : args.prevLogIndex = prev) (he : (w.node i).log[prev]? = some e)
    (het : e.termIdx = args.prevLogTerm) : i ≠ args.leaderId ∧
      Obs.won args.leaderId args.term ∈ w.trace ∧
      ∃ d ∈ DistLab.Raft.deeds w.trace, d.term = args.term ∧ args.CutFrom d.log ∧
        (w.node i).spliced args prev = d.log := by
  obtain ⟨hne, b, L, hsent, hcut, hspl, -⟩ := h.matched.accepted hf hp he het
  have hd := mem_deeds_of_sent hsent
  exact ⟨hne, h.acting.won _ hd, _, hd, rfl, hcut, hspl⟩

theorem not_leader_of_accept (h : Adopting w) {c : Fin n} {T : ℕ} (hne : i ≠ c)
    (hw : Obs.won c T ∈ w.trace) (ht : (w.node i).currentTerm = T) :
    (w.node i).status ≠ .leader := by
  intro hl
  have hwon := (h.acting.elected.office i).won hl
  exact hne (h.acting.elected.winner_unique (ht ▸ hwon) hw)

/-- Accepting a request does not lose what the server adopted last. -/
theorem newest_accept (h : Adopting w) {p : Fin n} {ch : ℕ} {args : AppendEntriesArgs n C}
    {prev : ℕ} {e : LogEntry C} (hf : (raft n C).Feeds w i (.recv (.appendEntries p ch args)))
    (hg : (w.node i).KeepsTail (.recv (.appendEntries p ch args)))
    (ht : (w.node i).currentTerm ≤ args.term) (hp : args.prevLogIndex = prev)
    (he : (w.node i).log[prev]? = some e) (het : e.termIdx = args.prevLogTerm)
    (ha : Adopted w.trace i args.term (w.node i).log) :
    (w.node i).log <+: (w.node i).spliced args prev := by
  obtain ⟨hne, hwon, d, hd, hdT, hcut, hspl⟩ := h.accepted hf hp he het
  rw [hspl]
  rcases ha with ⟨-, hl⟩ | ha
  · rw [hl]
    exact (h.matched.deeds d hd).rooted
  · rcases h.source i _ _ ha with hw | ⟨d', hd', hdT', hdl'⟩
    · exact (hne (h.acting.elected.winner_unique hw hwon)).elim
    · exact AckKept.isPrefix_accept h.matched rfl hg (Server.matches_of_eq ht hp he het) hcut hd' hd
        hdT' hdT hdl'

theorem newest_put (h : Adopting w) (hf : (raft n C).Feeds w i x)
    (hg : (w.node i).KeepsTail x) (hs : (w.node i).AdoptStep i x r)
    (hle : (w.node i).currentTerm ≤ r.state.currentTerm) :
    ∃ T ≤ r.state.currentTerm, Newest (r.obs ++ w.trace) i (fun _ => True) T r.state.log := by
  obtain ⟨T, hT, hnew⟩ := h.newest i
  cases hs with
  | silent hl ho =>
    exact ⟨T, hT.trans hle, hl ▸ hnew.append fun T' L' ha => (ho i T' L' ha).elim⟩
  | win hl _ _ ht _ ho =>
    refine ⟨_, le_rfl, hnew.adopt (hT.trans hle) (fun _ => ?_) (by simp [ho])⟩
    exact hl ▸ List.prefix_refl _
  | start _ hl _ ho =>
    refine ⟨_, le_rfl, hnew.adopt (hT.trans hle) (fun _ => ?_) (by simp [ho])⟩
    exact hl ▸ List.prefix_append _ _
  | accept hx ht ht' hp he het hl ho =>
    subst hx
    refine ⟨_, le_rfl, hnew.adopt (hT.trans hle) (fun hTT => ?_) (by simp [ho])⟩
    rw [hl]
    exact h.newest_accept hf hg ht hp he het (ht' ▸ hTT ▸ hnew.1)

theorem newest_granted (h : Adopting w) (hs : (w.node i).AdoptStep i x r)
    (hle : (w.node i).currentTerm ≤ r.state.currentTerm) {v c : Fin n} {T T' : ℕ}
    {L L' : List (LogEntry C)} (hg : Obs.granted v c T L ∈ w.trace)
    (hn : Newest w.trace v (· < T) T' L') : Newest (r.obs ++ w.trace) v (· < T) T' L' := by
  refine hn.append fun t K ha hlt => ?_
  obtain ⟨rfl, rfl, -⟩ := hs.adopted ha
  have := (h.acting.elected.votes.backed _ _ _ _ hg).1
  omega

theorem votes_put (h : Adopting w) (hr : (w.node i).Reacts i x r)
    (hs : (w.node i).AdoptStep i x r) {v c : Fin n} {T : ℕ} {L : List (LogEntry C)}
    (hg : Obs.granted v c T L ∈ r.obs ++ w.trace) :
    ∃ T' ≤ T, Newest (r.obs ++ w.trace) v (· < T) T' L := by
  have hv := hr.voteStep (h.acting.elected.votes.saved i)
  rcases List.mem_append.mp hg with hg | hg
  · obtain ⟨rfl, rfl, -⟩ := hr.granted hg
    obtain ⟨-, rfl, -⟩ := hv.granted _ _ _ _ hg
    obtain ⟨T', hT', hn⟩ := h.newest v
    refine ⟨T', hT'.trans hv.term_le, (hn.of_imp fun _ _ => trivial).append fun t K ha hlt => ?_⟩
    exact absurd (hs.adopted ha).2.1 hlt.ne
  · obtain ⟨T', hT', hn⟩ := h.votes v c T L hg
    exact ⟨T', hT', h.newest_granted hs hv.term_le hg hn⟩

theorem stands_put (h : Adopting w) (hf : (raft n C).Feeds w i x)
    (hs : (w.node i).AdoptStep i x r) (ho : (w.node i).OfficeStep i r)
    (ha : r.state.currentTerm ∈ r.state.routine.asks) :
    Obs.granted i i r.state.currentTerm r.state.log ∈ r.obs ++ w.trace ∨
      ∃ c ≠ i, Obs.won c r.state.currentTerm ∈ r.obs ++ w.trace := by
  cases ho with
  | steady hst =>
    have hold := hst.asks _ ha
    have hT : r.state.currentTerm = (w.node i).currentTerm :=
      le_antisymm ((h.acting.elected.counts.round i).asks_le hold) hst.term_le
    cases hs with
    | silent hl =>
      rw [hT, hl]
      rcases h.stands i (hT ▸ hold) with hg | ⟨c, hc, hw⟩
      · exact Or.inl (List.mem_append_right _ hg)
      · exact Or.inr ⟨c, hc, List.mem_append_right _ hw⟩
    | win _ _ _ _ hnone => simp [hnone] at ha
    | start hl =>
      have hnone := (h.acting.elected.office i).leaves hl
      simp [hnone] at hold
    | accept hx _ ht' hp he het =>
      subst hx
      obtain ⟨hne, hw, -⟩ := h.accepted hf hp he het
      exact Or.inr ⟨_, hne.symm, List.mem_append_right _ (ht' ▸ hw)⟩
  | campaign ht _ _ hg => exact Or.inl (ht ▸ List.mem_append_left _ hg)
  | win _ _ hnone => simp [hnone, Routine.asks] at ha

theorem office_put (h : Adopting w) (hf : (raft n C).Feeds w i x)
    (hs : (w.node i).AdoptStep i x r) (ho : (w.node i).OfficeStep i r)
    (hl : r.state.status = .leader) :
    Obs.adopted i r.state.currentTerm r.state.log ∈ r.obs ++ w.trace := by
  cases ho with
  | steady hst =>
    obtain ⟨hold, hT⟩ := hst.office hl
    cases hs with
    | silent hlog =>
      rw [hT, hlog]
      exact List.mem_append_right _ (h.office i hold)
    | win _ _ _ _ _ ho | start _ _ _ ho =>
      exact List.mem_append_left _ ((ho _ _ _).mpr ⟨rfl, rfl, rfl⟩)
    | accept hx _ ht' hp he het =>
      subst hx
      obtain ⟨hne, hw, -⟩ := h.accepted hf hp he het
      exact (h.not_leader_of_accept hne hw (hT.symm.trans ht') hold).elim
  | campaign _ _ hc =>
    obtain ⟨hold, hask⟩ := hc hl
    exact (hask ((h.acting.elected.office i).leaves hold)).elim
  | win _ ht _ _ hadopt => exact List.mem_append_left _ (ht ▸ hadopt)

theorem based_win (h : Adopting w) (he' : Elected (w.put i net r))
    (hq : (w.node i).routine.asks = some (w.node i).currentTerm)
    (hw : Obs.won i (w.node i).currentTerm ∈ r.obs) :
    Obs.granted i i (w.node i).currentTerm (w.node i).log ∈ w.trace := by
  rcases h.stands i hq with hg | ⟨c, hc, hwon⟩
  · exact hg
  · exact (hc (he'.winner_unique (List.mem_append_right _ hwon)
      (List.mem_append_left _ hw))).elim

theorem derived_new (h : Adopting w) (hf : (raft n C).Feeds w i x)
    (he' : Elected (w.put i net r)) (hs : (w.node i).AdoptStep i x r) {v : Fin n} {T : ℕ}
    {L : List (LogEntry C)} (ha : Obs.adopted v T L ∈ r.obs) :
    Derived (r.obs ++ w.trace) T L ∧ (Obs.won v T ∈ r.obs ++ w.trace ∨
      ∃ d ∈ DistLab.Raft.deeds (r.obs ++ w.trace), d.term = T ∧ d.log = L) := by
  have hsub : w.trace ⊆ r.obs ++ w.trace := List.subset_append_right _ _
  obtain ⟨rfl, rfl, rfl⟩ := hs.adopted ha
  cases hs with
  | silent _ ho => exact (ho _ _ _ ha).elim
  | win hl hw hq ht =>
    rw [hl, ht]
    have hwon := List.mem_append_left w.trace hw
    exact ⟨⟨_, ⟨v, hwon, hsub (h.based_win he' hq hw)⟩, .refl⟩, Or.inl hwon⟩
  | start hlead hl ht =>
    have hold := h.derived _ _ _ (h.office v hlead)
    rw [hl, ht]
    exact ⟨(hold.mono hsub).trans (.snoc rfl),
      Or.inl (hsub ((h.acting.elected.office v).won hlead))⟩
  | accept hx _ ht' hp he het hl =>
    subst hx
    obtain ⟨-, -, d, hd, hdT, -, hspl⟩ := h.accepted hf hp he het
    rw [ht', hl, hspl, ← hdT]
    exact ⟨(h.deeds d hd).mono hsub, Or.inr ⟨d, deeds_subset hsub hd, rfl, rfl⟩⟩

theorem deeds_new (h : Adopting w) (hr : (w.node i).Reacts i x r)
    (hg : (w.node i).KeepsOffice x) {d : Deed n C} (hd : d ∈ DistLab.Raft.deeds r.obs) :
    Derived (r.obs ++ w.trace) d.term d.log := by
  have hold := h.derived _ _ _ (h.office i (hr.acts_in_office hg hd))
  obtain ⟨hT, -, -, hl | ⟨hl, hgrow⟩⟩ := hr.moves.deeds d hd <;> rw [hT, hl]
  · exact hold.mono (List.subset_append_right _ _)
  · exact (hold.mono (List.subset_append_right _ _)).trans hgrow

/-- A winner was elected by votes measured against logs adopted before its term. -/
theorem elected_new (h : Adopting w) (hr : (w.node i).Reacts i x r)
    (hg : (w.node i).KeepsTerm x) (hs : (w.node i).AdoptStep i x r)
    (he' : Elected (w.put i net r)) {c : Fin n} {T : ℕ} (hw : Obs.won c T ∈ r.obs) :
    ∃ L, Obs.granted c c T L ∈ w.trace ∧ (∃ T' < T, Newest (r.obs ++ w.trace) c (· < T) T' L) ∧
      ∃ Q : Finset (Fin n), Majority Q ∧ ∀ v ∈ Q, ∃ L, Obs.granted v c T L ∈ w.trace ∧
        ∃ T' < T, Newest (r.obs ++ w.trace) v (· < T) T' L := by
  obtain ⟨rfl, ⟨args, hq, rfl⟩, rfl, -⟩ := hr.won hw
  have hT : args.term = (w.node c).currentTerm := hg.1 _ (by simp [Server.cashes, hq])
  have hask : (w.node c).routine.asks = some args.term := by rw [hq]; rfl
  have hfresh := h.ballots.fresh c _ hask
  have hle := (hr.voteStep (h.acting.elected.votes.saved c)).term_le
  have hvote : ∀ v L, Obs.granted v c args.term L ∈ w.trace →
      ∃ T' < args.term, Newest (r.obs ++ w.trace) v (· < args.term) T' L := by
    intro v L hgr
    obtain ⟨T', hT', hn⟩ := h.votes v c _ L hgr
    rcases hT'.lt_or_eq with hlt | rfl
    · exact ⟨T', hlt, h.newest_granted hs hle hgr hn⟩
    · rcases hn.1 with ⟨h0, -⟩ | ha
      · exact (hfresh.1 h0).elim
      · obtain ⟨L₀, ⟨c', hw', -⟩, -⟩ := h.derived v _ L ha
        obtain rfl : c' = c := he'.winner_unique (List.mem_append_right _ hw')
          (List.mem_append_left _ hw)
        exact (hfresh.2 hw').elim
  have hself : Obs.granted c c args.term (w.node c).log ∈ w.trace := by
    rw [hT]
    exact h.based_win he' (hT ▸ hask) (hT ▸ hw)
  have hround := h.acting.elected.counts.round c
  simp only [Server.RoundOk, hq] at hround
  refine ⟨_, hself, hvote c _ hself, tally w.trace c args.term, hround.2, fun v hv => ?_⟩
  obtain ⟨L, hL⟩ := mem_voters.mp (h.acting.elected.counts.tally_subset _ _ hv)
  exact ⟨L, hL, hvote v L hL⟩

theorem elected_put (h : Adopting w) (hr : (w.node i).Reacts i x r)
    (hg : (w.node i).KeepsTerm x) (hs : (w.node i).AdoptStep i x r)
    (he' : Elected (w.put i net r)) {c : Fin n} {T : ℕ} (hw : Obs.won c T ∈ r.obs ++ w.trace) :
    ∃ L, Obs.granted c c T L ∈ r.obs ++ w.trace ∧
      (∃ T' < T, Newest (r.obs ++ w.trace) c (· < T) T' L) ∧
      ∃ Q : Finset (Fin n), Majority Q ∧ ∀ v ∈ Q, ∃ L, Obs.granted v c T L ∈ r.obs ++ w.trace ∧
        ∃ T' < T, Newest (r.obs ++ w.trace) v (· < T) T' L := by
  have hsub : w.trace ⊆ r.obs ++ w.trace := List.subset_append_right _ _
  rcases List.mem_append.mp hw with hw | hw
  · obtain ⟨L, hL, hself, Q, hQ, hvotes⟩ := h.elected_new hr hg hs he' hw
    refine ⟨L, hsub hL, hself, Q, hQ, fun v hv => ?_⟩
    obtain ⟨K, hK, hn⟩ := hvotes v hv
    exact ⟨K, hsub hK, hn⟩
  · have hle := (hr.voteStep (h.acting.elected.votes.saved i)).term_le
    obtain ⟨L, hL, ⟨T', hT', hn⟩, Q, hQ, hvotes⟩ := h.elected c T hw
    refine ⟨L, hsub hL, ⟨T', hT', h.newest_granted hs hle hL hn⟩, Q, hQ, fun v hv => ?_⟩
    obtain ⟨K, hK, T'', hT'', hn'⟩ := hvotes v hv
    exact ⟨K, hsub hK, T'', hT'', h.newest_granted hs hle hK hn'⟩

theorem put (h : Adopting w) (hr : (raft n C).react i (w.node i) x = some r)
    (hg : (w.node i).KeepsLogs i x) (hf : (raft n C).Feeds w i x) (hn : net ⊆ w.net) :
    Adopting (w.put i net r) := by
  have hx := Server.react_reacts hr
  have hs := Server.adoptStep hr hg.1.1.1 hg.2
  have hv := h.acting.elected.votes.saved i
  have ho := hx.officeStep hv hg.1.1.1
  have hle := (hx.voteStep hv).term_le
  have hact := h.acting.put hr hg.1.1 hf hn
  have hm := h.matched.put hact.unique hx.moves hf hn
  have hsub : w.trace ⊆ r.obs ++ w.trace := List.subset_append_right _ _
  constructor
  case acting => exact hact
  case matched => exact hm
  case ballots => exact h.ballots.put h.acting.elected.votes h.acting.elected.counts ho hx hf hn
  case logOk =>
    intro v T L ha
    rcases List.mem_append.mp ha with ha | ha
    · obtain ⟨rfl, -, rfl⟩ := hs.adopted ha
      have := hm.logs v
      rwa [World.put_node_self] at this
    · exact (h.logOk v T L ha).mono hsub
  case newest =>
    intro v
    rcases eq_or_ne v i with rfl | hne
    · rw [World.put_node_self]
      exact h.newest_put hf hg.1.2 hs hle
    · rw [World.put_node_of_ne hne]
      obtain ⟨T, hT, hnew⟩ := h.newest v
      exact ⟨T, hT, hnew.append fun T' L' ha => (hne (hs.adopted ha).1).elim⟩
  case votes => exact fun v c T L => h.votes_put hx hs
  case stands =>
    intro j
    rcases eq_or_ne j i with rfl | hne
    · rw [World.put_node_self]
      exact h.stands_put hf hs ho
    · rw [World.put_node_of_ne hne]
      intro ha
      rcases h.stands j ha with hgr | ⟨c, hc, hw⟩
      · exact Or.inl (hsub hgr)
      · exact Or.inr ⟨c, hc, hsub hw⟩
  case office =>
    intro j
    rcases eq_or_ne j i with rfl | hne
    · rw [World.put_node_self]
      exact h.office_put hf hs ho
    · rw [World.put_node_of_ne hne]
      exact fun hl => hsub (h.office j hl)
  case derived =>
    intro v T L ha
    rcases List.mem_append.mp ha with ha | ha
    · exact (h.derived_new hf hact.elected hs ha).1
    · exact (h.derived v T L ha).mono hsub
  case deeds =>
    intro d hd
    rw [World.put_trace, deeds_append, List.mem_append] at hd
    rcases hd with hd | hd
    · exact h.deeds_new hx hg.1.1 hd
    · exact (h.deeds d hd).mono hsub
  case source =>
    intro v T L ha
    rcases List.mem_append.mp ha with ha | ha
    · exact (h.derived_new hf hact.elected hs ha).2
    · rcases h.source v T L ha with hw | ⟨d, hd, hd'⟩
      · exact Or.inl (hsub hw)
      · exact Or.inr ⟨d, deeds_subset hsub hd, hd'⟩
  case elected => exact fun c T => h.elected_put hx hg.1.1.1 hs hact.elected

theorem lose (h : Adopting w) (hn : net ⊆ w.net) : Adopting { w with net := net } :=
  ⟨h.acting.lose hn, h.matched.lose hn, h.ballots.lose hn, h.logOk, h.newest, h.votes, h.stands,
    h.office, h.derived, h.deeds, h.source, h.elected⟩

end Step

theorem init : Adopting (cluster n C).init where
  acting := .init
  matched := .init
  ballots := .init
  logOk := by simp [Protocol.system]
  newest v := by
    refine ⟨0, Nat.zero_le _, Or.inl ⟨rfl, rfl⟩, ?_⟩
    rintro T L - (⟨rfl, rfl⟩ | ha)
    · exact ⟨le_rfl, fun _ => List.prefix_refl _⟩
    · cases ha
  votes := by simp [Protocol.system]
  stands i ha := by cases ha
  office i hl := by cases hl
  derived := by simp [Protocol.system]
  deeds := by simp [Protocol.system]
  source := by simp [Protocol.system]
  elected := by simp [Protocol.system]

variable {w : Cluster n C}

/-- The history of a cluster is one of members that adopt logs and winners that stand on them. -/
theorem chronicle (h : Adopting w) :
    Chronicle LogEntry.termIdx (Adopted w.trace) (Based w.trace) where
  base_unique := by
    rintro T L L' ⟨c, hw, hg⟩ ⟨c', hw', hg'⟩
    obtain rfl := h.acting.elected.winner_unique hw hw'
    exact h.ballots.self c T L L' hg hg'
  origin := by
    rintro v T L (⟨rfl, rfl⟩ | ha)
    · exact Or.inl ⟨rfl, by simp [sentinel]⟩
    · exact Or.inr (h.derived v T L ha)
  adopted := by
    rintro T L ⟨c, hw, hg⟩
    obtain ⟨L', hg', ⟨T', hT', hn⟩, -⟩ := h.elected c T hw
    obtain rfl := h.ballots.self c T L L' hg hg'
    exact ⟨c, T', hT', hn.1⟩
  elected := by
    rintro T L ⟨c, hw, hg⟩
    obtain ⟨-, -, -, Q, hQ, hvotes⟩ := h.elected c T hw
    refine ⟨Q, hQ, fun v hv => ?_⟩
    obtain ⟨K, hK, T', hT', hn⟩ := hvotes v hv
    obtain ⟨L', hg', hup⟩ := h.ballots.upToDate v c T K hK
    obtain rfl := h.ballots.self c T L L' hg hg'
    exact ⟨K, T', hup, hT', hn⟩
  matching := by
    have hok : ∀ v T L, Adopted w.trace v T L → LogOk w.trace L := by
      rintro v T L (⟨-, rfl⟩ | ha)
      · exact .sentinel
      · exact h.logOk v T L ha
    intro v v' T T' L L' k e e' ha ha' he he' ht
    exact (hok v T L ha).backed.take_eq h.matched.coherent (hok v' T' L' ha').backed he he' ht

end Adopting

end DistLab.Raft
