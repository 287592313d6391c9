import DistLab.Raft.Election

/-! # Leaders and the votes they counted

A server counts each vote of a round once, so a round that ends in an election has
counted the votes of a majority for the term it asked for. A leader whose term was
raised behind its back is the flaw of the code: the routine may still take another
branch of its `select`, and `updateTerm` does not demote a server whose
`toFollower` channel is full. The guards below exclude these steps; under them a
server in office was elected in its current term.
-/

namespace DistLab.Raft

variable {n : ℕ} {C : Type*}

/-- The voters a candidate has counted for a term. -/
def tally (trace : List (Obs n C)) (c : Fin n) (T : ℕ) : Finset (Fin n) :=
  (trace.filterMap fun
    | .counted c' v T' => if c' = c ∧ T' = T then some v else none
    | _ => none).toFinset

theorem mem_tally {trace : List (Obs n C)} {c v : Fin n} {T : ℕ} :
    v ∈ tally trace c T ↔ Obs.counted c v T ∈ trace := by
  simp only [tally, List.mem_toFinset, List.mem_filterMap]
  constructor
  · rintro ⟨o, ho, hv⟩
    cases o <;> simp only [Option.ite_none_right_eq_some, Option.some.injEq, reduceCtorEq] at hv
    obtain ⟨⟨rfl, rfl⟩, rfl⟩ := hv
    exact ho
  · intro h
    exact ⟨_, h, by simp⟩

theorem tally_mono {trace trace' : List (Obs n C)} (h : trace ⊆ trace') (c : Fin n) (T : ℕ) :
    tally trace c T ⊆ tally trace' c T :=
  fun _ hv => mem_tally.mpr (h (mem_tally.mp hv))

theorem tally_counted {trace : List (Obs n C)} {c v : Fin n} {T : ℕ} :
    tally (.counted c v T :: trace) c T = insert v (tally trace c T) := by
  ext u
  simp [mem_tally]

theorem voters_mono {trace trace' : List (Obs n C)} (h : trace ⊆ trace') (c : Fin n) (T : ℕ) :
    voters trace c T ⊆ voters trace' c T := by
  intro v hv
  obtain ⟨L, hL⟩ := mem_voters.mp hv
  exact mem_voters.mpr ⟨L, h hL⟩

def Routine.asks : Routine n → Option ℕ
  | .candidate args _ _ => some args.term
  | .elected args => some args.term
  | _ => none

theorem Routine.Passes.asks {ρ ρ' : Routine n} {t : ℕ} (h : ρ.Passes ρ') (ht : t ∈ ρ'.asks) :
    t ∈ ρ.asks := by
  rcases h with rfl | rfl | rfl | rfl | ⟨args, waiting, g, p, rfl, rfl⟩
  · exact ht
  iterate 3 cases ht
  · exact ht

/-- The bookkeeping of a round of `candidateRoutine`: `grantN` does not exceed the number of votes
counted for its term, and nobody still awaited has been counted. -/
def Server.RoundOk (trace : List (Obs n C)) (me : Fin n) (rf : Server n C) : Prop :=
  match rf.routine with
  | .candidate args waiting g => args.candidateId = me ∧ args.term ≤ rf.currentTerm ∧
      g ≤ (tally trace me args.term).card ∧ ∀ p ∈ waiting, p ∉ tally trace me args.term
  | .elected args => args.term ≤ rf.currentTerm ∧ Majority (tally trace me args.term)
  | _ => True

namespace Server.RoundOk

variable {me : Fin n} {rf rf' : Server n C} {trace : List (Obs n C)}

theorem of_passes (h : rf.RoundOk trace me) (ht : rf.currentTerm ≤ rf'.currentTerm)
    (hr : rf.routine.Passes rf'.routine) : rf'.RoundOk trace me := by
  rcases hr with hr | hr | hr | hr | ⟨args, waiting, g, p, hr, hr'⟩
  · unfold RoundOk at h ⊢
    rw [hr]
    split at h
    · exact ⟨h.1, h.2.1.trans ht, h.2.2⟩
    · exact ⟨h.1.trans ht, h.2⟩
    · trivial
  iterate 3 simp only [RoundOk, hr]
  · simp only [RoundOk, hr] at h
    simp only [RoundOk, hr']
    exact ⟨h.1, h.2.1.trans ht, h.2.2.1, fun q hq => h.2.2.2 q (Finset.mem_of_mem_erase hq)⟩

theorem of_tally {trace' : List (Obs n C)} (h : rf.RoundOk trace me)
    (ht : ∀ T, tally trace' me T = tally trace me T) : rf.RoundOk trace' me := by
  unfold RoundOk at h ⊢
  split at h
  · simpa only [ht] using h
  · simpa only [ht] using h
  · trivial

theorem count (h : rf.RoundOk trace me) {args : RequestVoteArgs n} {waiting : Finset (Fin n)}
    {g : ℕ} {peer : Fin n} {ρ : Routine n} (hr : rf.routine = .candidate args waiting g)
    (hp : peer ∈ waiting)
    (hρ : ρ = .elected args ∧ n / 2 < g + 1 ∨ ρ = .candidate args (waiting.erase peer) (g + 1)) :
    { rf with routine := ρ }.RoundOk (.counted me peer args.term :: trace) me := by
  simp only [RoundOk, hr] at h
  obtain ⟨hme, hle, hcard, hwait⟩ := h
  have hnew : g + 1 ≤ (tally (.counted me peer args.term :: trace) me args.term).card := by
    rw [tally_counted, Finset.card_insert_of_notMem (hwait peer hp)]
    omega
  rcases hρ with ⟨rfl, hlt⟩ | rfl
  · refine ⟨hle, ?_⟩
    rw [Majority, Fintype.card_fin]
    exact (by omega : n < 2 * (g + 1)).trans_le (Nat.mul_le_mul_left 2 hnew)
  · refine ⟨hme, hle, hnew, fun q hq => ?_⟩
    obtain ⟨hne, hq⟩ := Finset.mem_erase.mp hq
    rw [tally_counted, Finset.mem_insert, not_or]
    exact ⟨hne, hwait q hq⟩

theorem asks_le (h : rf.RoundOk trace me) {t : ℕ} (ht : t ∈ rf.routine.asks) :
    t ≤ rf.currentTerm := by
  unfold Routine.asks at ht
  split at ht
  · rename_i hq
    simp only [RoundOk, hq] at h
    exact Option.some.inj ht ▸ h.2.1
  · rename_i hq
    simp only [RoundOk, hq] at h
    exact Option.some.inj ht ▸ h.1
  · cases ht

end Server.RoundOk

structure CountStep (trace : List (Obs n C)) (me : Fin n) (r : Outcome n C) : Prop where
  round : r.state.RoundOk (r.obs ++ trace) me
  counted : ∀ c v T, Obs.counted c v T ∈ r.obs →
    c = me ∧ v ∈ voters (r.obs ++ trace) me T ∧ T ≤ r.state.currentTerm
  won : ∀ i T, Obs.won i T ∈ r.obs → i = me ∧ Majority (tally (r.obs ++ trace) me T)
  replies : ∀ p args reply, Msg.requestVoteReply p args reply ∈ r.out →
    reply.voteGranted = true → p ∈ voters (r.obs ++ trace) args.candidateId args.term

namespace CountStep

variable {me : Fin n} {rf : Server n C} {trace : List (Obs n C)} {r : Outcome n C}

theorem tally_append_of_notMem {obs : List (Obs n C)} {c : Fin n} {T : ℕ}
    (h : ∀ v, Obs.counted c v T ∉ obs) : tally (obs ++ trace) c T = tally trace c T := by
  ext v
  simp [mem_tally, h v]

theorem of_passes (h : rf.RoundOk trace me) (ht : rf.currentTerm ≤ r.state.currentTerm)
    (hr : rf.routine.Passes r.state.routine) (hc : ∀ c v T, Obs.counted c v T ∉ r.obs)
    (hw : ∀ i T, Obs.won i T ∉ r.obs)
    (hm : ∀ p args reply, Msg.requestVoteReply p args reply ∈ r.out → reply.voteGranted = false) :
    CountStep trace me r where
  round := (h.of_passes ht hr).of_tally fun T => tally_append_of_notMem fun v => hc me v T
  counted c v T hv := (hc c v T hv).elim
  won i T hi := (hw i T hi).elim
  replies p args reply hp hg := by simp [hm p args reply hp] at hg

theorem of_follower (h : r.state.routine = .follower) (hc : ∀ c v T, Obs.counted c v T ∉ r.obs)
    (hw : ∀ i T, Obs.won i T ∉ r.obs)
    (hm : ∀ p args reply, Msg.requestVoteReply p args reply ∉ r.out) : CountStep trace me r where
  round := by simp [Server.RoundOk, h]
  counted c v T hv := (hc c v T hv).elim
  won i T hi := (hw i T hi).elim
  replies p args reply hp := (hm p args reply hp).elim

end CountStep

namespace Server

open CountStep

variable [Inhabited C] {me : Fin n} {rf : Server n C} {trace : List (Obs n C)}

theorem Reacts.countStep {x : Input (Act C) (Msg n C)} {r : Outcome n C}
    (h : Reacts me rf x r) (hr : rf.RoundOk trace me)
    (hc : ∀ v T, Obs.counted me v T ∈ trace → T ≤ rf.currentTerm)
    (hm : ∀ p args reply, x = .recv (.requestVoteReply p args reply) → reply.voteGranted = true →
      p ∈ voters trace args.candidateId args.term) : CountStep trace me r := by
  cases h with
  | pass h => exact of_passes hr le_rfl h (by simp) (by simp) (by simp)
  | resume => exact ⟨by simp [RoundOk, enterLeader], by simp, by simp, by simp⟩
  | matched | commit =>
    exact of_passes hr le_rfl (Or.inl rfl) (by simp) (by simp) (by simp)
  | campaign h =>
    have hnew : ∀ v, Obs.counted me v (rf.currentTerm + 1) ∉ trace :=
      fun v hv => absurd (hc v _ hv) (by omega)
    refine ⟨⟨rfl, le_rfl, ?_, fun p hp => ?_⟩, ?_, by simp, by simp⟩
    · exact Finset.card_pos.mpr ⟨me, mem_tally.mpr (by simp)⟩
    · have := Finset.ne_of_mem_erase hp
      simp [mem_tally, this, hnew]
    · intro c v T hv
      simp only [List.mem_cons, reduceCtorEq, Obs.counted.injEq, List.not_mem_nil, or_false,
        false_or] at hv
      obtain ⟨rfl, rfl, rfl⟩ := hv
      exact ⟨rfl, mem_voters.mpr ⟨rf.log, by simp⟩, le_rfl⟩
  | @win args h =>
    simp only [RoundOk, h] at hr
    refine ⟨by simp [RoundOk, enterLeader], by simp, ?_, by simp⟩
    intro i T hw
    simp only [List.mem_cons, Obs.won.injEq, reduceCtorEq, List.not_mem_nil, or_false] at hw
    obtain ⟨rfl, rfl⟩ := hw
    exact ⟨rfl, hr.2.mono (tally_mono (List.subset_append_right _ _) _ _)⟩
  | broadcast => exact ⟨by simp [RoundOk], by simp, by simp, by simp⟩
  | brokenBroadcast => exact of_follower (by simp) (by simp) (by simp) (by simp)
  | start | emit => exact of_passes hr le_rfl (Or.inl rfl) (by simp) (by simp) (by simp)
  | crash | crashRaised | crashNominee =>
    exact of_follower (by simp) (by simp) (by simp) (by simp)
  | depose => exact of_follower rfl (by simp) (by simp) (by simp)
  | refuseVote hf =>
    exact of_passes hr (by simp) (Or.inl (by simp)) (by simp) (by simp) (by simp_all)
  | grantVote =>
    refine ⟨?_, by simp, by simp, ?_⟩
    · refine (hr.of_passes ?_ (Or.inl ?_)).of_tally fun T => tally_append_of_notMem (by simp)
      · simp
      · simp
    · intro p args reply hp _
      simp only [List.mem_singleton, Msg.requestVoteReply.injEq] at hp
      obtain ⟨rfl, rfl, rfl⟩ := hp
      exact mem_voters.mpr ⟨rf.log, by simp⟩
  | countVote hq hp hg hρ =>
    refine ⟨hr.count hq hp hρ, ?_, by simp, by simp⟩
    simp only [RoundOk, hq] at hr
    obtain ⟨rfl, hle, -, -⟩ := hr
    intro c v T hv
    simp only [List.mem_singleton, Obs.counted.injEq] at hv
    obtain ⟨rfl, rfl, rfl⟩ := hv
    exact ⟨rfl, voters_mono (List.subset_append_right _ _) _ _ (hm _ _ _ rfl hg), hle⟩
  | refuseEntries =>
    exact of_passes hr (by simp) (Or.inl (by simp)) (by simp) (by simp) (by simp)
  | accept _ _ _ _ _ ha =>
    obtain ⟨ci, la, bs, rfl⟩ := acceptEntries_frame ha
    exact of_passes hr (by simp [splice]) (Or.inl (by simp [splice])) (by simp) (by simp)
      (by simp)

end Server

/-- Every vote counted was granted, and every round and every victory rests on counted votes. -/
structure VotesCounted (w : Cluster n C) : Prop where
  round : ∀ i, (w.node i).RoundOk w.trace i
  replies : ∀ p args reply, Msg.requestVoteReply p args reply ∈ w.net →
    reply.voteGranted = true → p ∈ voters w.trace args.candidateId args.term
  counted : ∀ c v T, Obs.counted c v T ∈ w.trace →
    v ∈ voters w.trace c T ∧ T ≤ (w.node c).currentTerm
  won : ∀ i T, Obs.won i T ∈ w.trace → Majority (tally w.trace i T)

namespace VotesCounted

variable {w w' : Cluster n C} {es : List (NetEvent (Fin n) (Act C))}

theorem lose {net : List (Msg n C)} (h : VotesCounted w) (hn : net ⊆ w.net) :
    VotesCounted { w with net := net } :=
  ⟨h.round, fun p args reply hm => h.replies p args reply (hn hm), h.counted, h.won⟩

theorem put {i : Fin n} {r : Outcome n C} {net : List (Msg n C)} (h : VotesCounted w)
    (hn : net ⊆ w.net) (ht : (w.node i).currentTerm ≤ r.state.currentTerm)
    (hs : CountStep w.trace i r) : VotesCounted (w.put i net r) where
  round := World.forall_put hs.round fun j hj => (h.round j).of_tally fun T =>
    CountStep.tally_append_of_notMem fun v hv => hj (hs.counted j v T hv).1
  replies p args reply hm hg := by
    rcases World.mem_put_net hn hm with hm | hm
    · exact voters_mono World.trace_subset_put _ _ (h.replies p args reply hm hg)
    · exact hs.replies p args reply hm hg
  counted c v T hv := by
    rcases List.mem_append.mp hv with hv | hv
    · obtain ⟨rfl, hm, hle⟩ := hs.counted c v T hv
      exact ⟨hm, by rwa [World.put_node_self]⟩
    · obtain ⟨hm, hle⟩ := h.counted c v T hv
      refine ⟨voters_mono World.trace_subset_put _ _ hm, hle.trans ?_⟩
      rcases eq_or_ne c i with rfl | hne
      · rwa [World.put_node_self]
      · rw [World.put_node_of_ne hne]
  won j T hj := by
    rcases List.mem_append.mp hj with hj | hj
    · obtain ⟨rfl, hm⟩ := hs.won j T hj
      exact hm
    · exact (h.won j T hj).mono (tally_mono World.trace_subset_put _ _)

theorem tally_subset (h : VotesCounted w) (c : Fin n) (T : ℕ) :
    tally w.trace c T ⊆ voters w.trace c T :=
  fun v hv => (h.counted c v T (mem_tally.mp hv)).1

theorem won_le (h : VotesCounted w) {i : Fin n} {T : ℕ} (hw : Obs.won i T ∈ w.trace) :
    T ≤ (w.node i).currentTerm := by
  obtain ⟨v, hv⟩ := (h.won i T hw).nonempty
  exact (h.counted i v T (mem_tally.mp hv)).2

variable [Inhabited C]

theorem init : VotesCounted (cluster n C).init where
  round _ := trivial
  replies := by simp [Protocol.system]
  counted := by simp [Protocol.system]
  won := by simp [Protocol.system]

theorem react {i : Fin n} {x : Input (Act C) (Msg n C)} {r : Outcome n C} {net : List (Msg n C)}
    (h : VotesCounted w) (hv : (w.node i).VoteSaved) (hr : (w.node i).Reacts i x r)
    (hf : (raft n C).Feeds w i x) (hn : net ⊆ w.net) : VotesCounted (w.put i net r) := by
  refine h.put hn (hr.voteStep hv).term_le (hr.countStep (h.round i) ?_ ?_)
  · exact fun v T hc => (h.counted i v T hc).2
  · rintro p args reply rfl hg
    exact h.replies p args reply hf.1 hg

end VotesCounted

def requestTerm : Input (Act C) (Msg n C) → Option ℕ
  | .recv (.requestVote _ args) => some args.term
  | .recv (.appendEntries _ _ args) => some args.term
  | _ => none

def isHeartbeat : Input (Act C) (Msg n C) → Bool
  | .act .heartbeat => true
  | _ => false

namespace Server

def cashes (rf : Server n C) : Input (Act C) (Msg n C) → Option ℕ
  | .act .becomeLeader => match rf.routine with
    | .elected args => some args.term
    | _ => none
  | _ => none

/-- The server takes office only in the term it collected the votes for, and a request of a later
term reaches no leader whose `toFollower` channel is full. -/
def KeepsTerm (rf : Server n C) (x : Input (Act C) (Msg n C)) : Prop :=
  (∀ t ∈ rf.cashes x, t = rf.currentTerm) ∧
  ∀ t ∈ requestTerm x, rf.status = .leader → rf.currentTerm < t → rf.toFollower = false

/-- Besides, the server broadcasts only while it is in office. -/
def KeepsOffice (rf : Server n C) (x : Input (Act C) (Msg n C)) : Prop :=
  rf.KeepsTerm x ∧ (isHeartbeat x = true → rf.status = .leader)

instance (rf : Server n C) (x : Input (Act C) (Msg n C)) : Decidable (rf.KeepsTerm x) :=
  inferInstanceAs (Decidable (_ ∧ _))

instance (rf : Server n C) (x : Input (Act C) (Msg n C)) : Decidable (rf.KeepsOffice x) :=
  inferInstanceAs (Decidable (_ ∧ _))

structure Steady (rf rf' : Server n C) : Prop where
  term_le : rf.currentTerm ≤ rf'.currentTerm
  office : rf'.status = .leader → rf.status = .leader ∧ rf'.currentTerm = rf.currentTerm
  asks : ∀ t ∈ rf'.routine.asks, t ∈ rf.routine.asks

inductive OfficeStep (me : Fin n) (rf : Server n C) (r : Outcome n C) : Prop
  | steady (h : rf.Steady r.state)
  | campaign (ht : r.state.currentTerm = rf.currentTerm + 1)
      (ha : r.state.routine.asks = some (rf.currentTerm + 1))
      (hs : r.state.status = .leader → rf.status = .leader ∧ rf.routine.asks ≠ none)
      (hg : Obs.granted me me (rf.currentTerm + 1) r.state.log ∈ r.obs)
  | win (hq : rf.routine.asks = some rf.currentTerm)
      (ht : r.state.currentTerm = rf.currentTerm) (ha : r.state.routine = .leader none)
      (hw : Obs.won me rf.currentTerm ∈ r.obs)
      (hl : Obs.adopted me rf.currentTerm r.state.log ∈ r.obs)

/-- A server in office has won an election of its current term and is not a candidate. -/
structure InOffice (trace : List (Obs n C)) (me : Fin n) (rf : Server n C) : Prop where
  won : rf.status = .leader → Obs.won me rf.currentTerm ∈ trace
  leaves : rf.status = .leader → rf.routine.asks = none

variable {me : Fin n} {rf rf' rf'' : Server n C} {trace : List (Obs n C)}

namespace Steady

theorem of_same (ht : rf'.currentTerm = rf.currentTerm) (hs : rf'.status = rf.status)
    (ha : ∀ t ∈ rf'.routine.asks, t ∈ rf.routine.asks) : rf.Steady rf' :=
  ⟨ht.ge, fun hl => ⟨hs ▸ hl, ht⟩, ha⟩

theorem of_not_leader (ht : rf.currentTerm ≤ rf'.currentTerm) (hs : rf'.status ≠ .leader)
    (ha : rf'.routine.asks = none) : rf.Steady rf' :=
  ⟨ht, fun hl => absurd hl hs, by simp [ha]⟩

theorem trans (h : rf.Steady rf') (h' : rf'.Steady rf'') : rf.Steady rf'' where
  term_le := h.term_le.trans h'.term_le
  office hl := by
    obtain ⟨hl', ht'⟩ := h'.office hl
    obtain ⟨hl, ht⟩ := h.office hl'
    exact ⟨hl, ht'.trans ht⟩
  asks t ht := h.asks t (h'.asks t ht)

theorem updateTerm {t : ℕ}
    (ht : rf.status = .leader → rf.currentTerm < t → rf.toFollower = false) :
    rf.Steady (rf.updateTerm t).1 := by
  refine ⟨by simp, ?_, by simp⟩
  rw [updateTerm_status, updateTerm_currentTerm]
  split_ifs with h
  · simp
  · intro hl
    have hle : ¬ rf.currentTerm < t := fun hlt => h ⟨hlt, ht hl hlt⟩
    exact ⟨hl, max_eq_left (Nat.not_lt.mp hle)⟩

theorem passes (h : rf.routine.Passes rf'.routine) (ht : rf'.currentTerm = rf.currentTerm)
    (hs : rf'.status = rf.status) : rf.Steady rf' :=
  of_same ht hs fun _ ha => h.asks ha

end Steady

variable [Inhabited C]

theorem Reacts.officeStep {x : Input (Act C) (Msg n C)} {r : Outcome n C} (h : Reacts me rf x r)
    (hv : rf.VoteSaved) (hg : rf.KeepsTerm x) : OfficeStep me rf r := by
  have hle := (h.voteStep hv).term_le
  cases h with
  | pass h => exact .steady (.passes h rfl rfl)
  | resume | broadcast => exact .steady (.of_same rfl rfl (by simp [enterLeader, Routine.asks]))
  | campaign h hs =>
    refine .campaign rfl rfl (fun hl => ?_) List.mem_cons_self
    rcases hs with hs | ⟨hs, args, waiting, g, hq⟩
    · exact (hs hl).elim
    · exact ⟨hs.trans hl, by simp [hq, Routine.asks]⟩
  | @win args h =>
    have ht : args.term = rf.currentTerm := hg.1 _ (by simp [cashes, h])
    exact .win (by simp [h, Routine.asks, ht]) rfl rfl (by simp [ht]) (by simp [enterLeader])
  | brokenBroadcast | crash | crashRaised | crashNominee =>
    exact .steady (.of_not_leader hle (by simp) (by simp [Routine.asks]))
  | start | emit | matched | commit => exact .steady (.of_same rfl rfl fun t ht => ht)
  | depose =>
    refine .steady (.of_not_leader hle ?_ ?_) <;> simp [Server.depose, Routine.asks]
  | @refuseVote p args => exact .steady (.updateTerm (hg.2 args.term rfl))
  | @grantVote p args =>
    exact .steady ((Steady.updateTerm (hg.2 args.term rfl)).trans
      (.of_same rfl rfl fun t ht => ht))
  | countVote hr hp hgr hρ =>
    refine .steady (.of_same rfl rfl fun t ht => ?_)
    rcases hρ with ⟨rfl, -⟩ | rfl <;> simpa [hr, Routine.asks] using ht
  | @refuseEntries p ch args =>
    exact .steady ((Steady.updateTerm (hg.2 args.term rfl)).trans
      (.of_same rfl rfl fun t ht => ht))
  | @accept p ch args _ _ _ _ _ _ _ _ _ ha =>
    have hu : rf.Steady _ := Steady.updateTerm (hg.2 args.term rfl)
    obtain ⟨ci, la, bs, rfl⟩ := acceptEntries_frame ha
    exact .steady (hu.trans (.of_same rfl rfl fun t ht => ht))

omit [Inhabited C] in
theorem OfficeStep.inOffice {r : Outcome n C} (h : OfficeStep me rf r)
    (ho : rf.InOffice trace me) : r.state.InOffice (r.obs ++ trace) me := by
  cases h with
  | steady h =>
    refine ⟨fun hl => ?_, fun hl => ?_⟩
    · obtain ⟨hl, ht⟩ := h.office hl
      exact ht ▸ List.mem_append_right _ (ho.won hl)
    · have hnone := ho.leaves (h.office hl).1
      exact Option.eq_none_iff_forall_not_mem.mpr fun t ht => by simpa [hnone] using h.asks t ht
  | campaign _ _ hs =>
    have hno : r.state.status ≠ .leader := fun hl => (hs hl).2 (ho.leaves (hs hl).1)
    exact ⟨fun hl => absurd hl hno, fun hl => absurd hl hno⟩
  | win _ ht ha hw =>
    exact ⟨fun _ => ht ▸ List.mem_append_left _ hw, fun _ => by rw [ha]; rfl⟩

end Server

variable [Inhabited C] {w w' : Cluster n C} {es fs : List (NetEvent (Fin n) (Act C))}

/-- The votes of the cluster and the offices that rest on them. -/
structure Elected (w : Cluster n C) : Prop where
  votes : VotesKept w
  counts : VotesCounted w
  office : ∀ i, (w.node i).InOffice w.trace i

namespace Elected

theorem init : Elected (cluster n C).init :=
  ⟨.init, .init, fun _ => ⟨nofun, nofun⟩⟩

theorem lose {net : List (Msg n C)} (h : Elected w) (hn : net ⊆ w.net) :
    Elected { w with net := net } :=
  ⟨h.votes.lose, h.counts.lose hn, h.office⟩

theorem react {i : Fin n} {x : Input (Act C) (Msg n C)} {r : Outcome n C} {net : List (Msg n C)}
    (h : Elected w) (hr : (raft n C).react i (w.node i) x = some r) (hg : (w.node i).KeepsTerm x)
    (hf : (raft n C).Feeds w i x) (hn : net ⊆ w.net) : Elected (w.put i net r) := by
  have hx := Server.react_reacts hr
  refine ⟨h.votes.put (hx.voteStep (h.votes.saved i)),
    h.counts.react (h.votes.saved i) hx hf hn, ?_⟩
  refine World.forall_put ((hx.officeStep (h.votes.saved i) hg).inOffice (h.office i))
    fun j _ => ⟨fun hl => ?_, (h.office j).leaves⟩
  exact World.trace_subset_put ((h.office j).won hl)

theorem run (hi : Elected w) (h : (cluster n C).run w es = some w')
    (hg : (cluster n C).Meets ((raft n C).Guards fun _ => Server.KeepsTerm) w es) : Elected w' :=
  Protocol.preserved (fun _ _ hi hn => hi.lose hn)
    (fun _ _ _ _ _ hi hr hg hf hn => hi.react hr hg hf hn) h hg hi

theorem winner_unique (h : Elected w) {i j : Fin n} {T : ℕ} (hi : Obs.won i T ∈ w.trace)
    (hj : Obs.won j T ∈ w.trace) : i = j :=
  h.votes.majority_unique ((h.counts.won i T hi).mono (h.counts.tally_subset i T))
    ((h.counts.won j T hj).mono (h.counts.tally_subset j T))

end Elected

/-- When no server cashes in votes of an earlier term and none misses its demotion, two servers
ever seen in office in one term are the same. -/
theorem election_safety (h : (cluster n C).run (cluster n C).init es = some w)
    (h' : (cluster n C).run w fs = some w')
    (hg : (cluster n C).Meets ((raft n C).Guards fun _ => Server.KeepsTerm) (cluster n C).init
      (es ++ fs)) {i j : Fin n} (hi : (w.node i).status = .leader)
    (hj : (w'.node j).status = .leader)
    (ht : (w.node i).currentTerm = (w'.node j).currentTerm) : i = j := by
  obtain ⟨hg, hg'⟩ := (System.meets_append h).mp hg
  have hw := Elected.init.run h hg
  have hw' := hw.run h' hg'
  have hwon := (hw.office i).won hi
  rw [ht] at hwon
  exact hw'.winner_unique (Protocol.trace_subset h' hwon) ((hw'.office j).won hj)

/-- Server 0 collects its votes for term 1, is raised to term 2 by server 1, which it elects there,
and then takes office. -/
def staleVictory : List (NetEvent (Fin 3) (Act ℕ)) :=
  [.act 0 .electionTimeout, .deliver 1, .act 1 .electionTimeout, .act 1 .voteTimeout, .deliver 4,
    .deliver 5, .act 1 .becomeLeader, .deliver 1, .act 0 .becomeLeader]

theorem two_leaders_staleVictory :
    ∃ w, (cluster 3 ℕ).run (cluster 3 ℕ).init staleVictory = some w ∧
      (w.node 0).status = .leader ∧ (w.node 1).status = .leader ∧
      (w.node 0).currentTerm = 2 ∧ (w.node 1).currentTerm = 2 :=
  ⟨_, (cluster 3 ℕ).run_after (cluster 3 ℕ).init staleVictory (by decide), by decide⟩

def firstElection : List (NetEvent (Fin 3) (Act ℕ)) :=
  [.act 0 .electionTimeout, .deliver 0, .deliver 1, .act 0 .becomeLeader]

theorem election_safety_firstElection :
    ∃ w w', (cluster 3 ℕ).run (cluster 3 ℕ).init firstElection = some w ∧
      (cluster 3 ℕ).run w [.act 0 .heartbeat, .deliver 0, .deliver 1] = some w' ∧
      (w.node 0).status = .leader ∧ (w'.node 0).status = .leader ∧
      ∀ j, (w'.node j).status = .leader → (w.node 0).currentTerm = (w'.node j).currentTerm →
        0 = j :=
  have h := (cluster 3 ℕ).run_after (cluster 3 ℕ).init firstElection (by decide)
  have h' := (cluster 3 ℕ).run_after
    ((cluster 3 ℕ).after (cluster 3 ℕ).init firstElection (by decide))
    [.act 0 .heartbeat, .deliver 0, .deliver 1] (by decide)
  ⟨_, _, h, h', by decide, by decide,
    fun _ hj ht => election_safety h h' (by decide) (by decide) hj ht⟩

/-- Every request was sent by a server that had counted the votes of a majority for its term. -/
def LedByVotes (w : Cluster n C) : Prop :=
  ∀ i b args L pre, .sent i b args L :: pre <:+ w.trace →
    Majority (tally pre i args.term ∩ voters pre i args.term)

theorem LedByVotes.react {i : Fin n} {x : Input (Act C) (Msg n C)} {r : Outcome n C}
    {net : List (Msg n C)} (h : LedByVotes w) (hw : Elected w)
    (hr : (raft n C).react i (w.node i) x = some r) (hg : (w.node i).KeepsOffice x) :
    LedByVotes (w.put i net r) := by
  intro j b args L pre hp
  rcases World.cons_suffix_put hp with hp | ⟨ho, hs⟩
  · exact h j b args L pre hp
  · obtain ⟨rfl, rfl, -, -, p, -, ha⟩ := (Server.react_reacts hr).sent ho
    obtain ⟨prev, e, -, rfl⟩ := Server.buildArgs_eq_some ha
    have hwon := (hw.office j).won (hg.2 rfl)
    exact (hw.counts.won _ _ hwon).mono (Finset.subset_inter (tally_mono hs _ _)
      ((hw.counts.tally_subset _ _).trans (voters_mono hs _ _)))

/-- When moreover no server broadcasts out of office, every request of a term is sent by a server
that had counted granted votes of a majority for that term. -/
theorem leader_authority (h : (cluster n C).run (cluster n C).init es = some w)
    (hg : (cluster n C).Meets ((raft n C).Guards fun _ => Server.KeepsOffice)
      (cluster n C).init es) : LedByVotes w := by
  refine (Protocol.preserved (I := fun w => Elected w ∧ LedByVotes w)
    (fun w net hi hn => ⟨hi.1.lose hn, hi.2⟩) ?_ h hg ⟨.init, ?_⟩).2
  · exact fun w i x r net hi hr hg hf hn => ⟨hi.1.react hr hg.1 hf hn, hi.2.react hi.1 hr hg⟩
  · intro i b args L pre hp
    simp [Protocol.system] at hp

/-- Server 0 leads term 1 and is raised to term 2 by a request of server 2; its ticker fires before
its routine takes the demotion. -/
def raisedLeader : List (NetEvent (Fin 3) (Act ℕ)) :=
  firstElection ++ [.act 2 .electionTimeout, .act 2 .voteTimeout, .deliver 3, .act 0 .heartbeat]

theorem unauthorised_raisedLeader :
    ∃ w b args L pre, (cluster 3 ℕ).run (cluster 3 ℕ).init raisedLeader = some w ∧
      .sent 0 b args L :: pre <:+ w.trace ∧ args.term = 2 ∧ tally pre 0 args.term = ∅ :=
  ⟨_, 0, ⟨2, 0, 0, 0, [], 0⟩, [sentinel],
    ((cluster 3 ℕ).after (cluster 3 ℕ).init raisedLeader (by decide)).trace.tail,
    (cluster 3 ℕ).run_after (cluster 3 ℕ).init raisedLeader (by decide), by decide⟩

theorem leader_authority_firstElection :
    ∃ w b args L pre, (cluster 3 ℕ).run (cluster 3 ℕ).init
        (firstElection ++ [.act 0 .heartbeat]) = some w ∧
      .sent 0 b args L :: pre <:+ w.trace ∧
      Majority (tally pre 0 args.term ∩ voters pre 0 args.term) :=
  have h := (cluster 3 ℕ).run_after (cluster 3 ℕ).init (firstElection ++ [.act 0 .heartbeat])
    (by decide)
  have hp : .sent 0 0 ⟨1, 0, 0, 0, [], 0⟩ [sentinel] :: List.tail ((cluster 3 ℕ).after
      (cluster 3 ℕ).init (firstElection ++ [.act 0 .heartbeat]) (by decide)).trace <:+ ((cluster 3
      ℕ).after (cluster 3 ℕ).init (firstElection ++ [.act 0 .heartbeat]) (by decide)).trace := by
    decide
  ⟨_, 0, ⟨1, 0, 0, 0, [], 0⟩, [sentinel], _, h, hp, leader_authority h (by decide) _ _ _ _ _ hp⟩

end DistLab.Raft
