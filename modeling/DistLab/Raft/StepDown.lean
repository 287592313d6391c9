import DistLab.Systems.History
import DistLab.Raft.Leadership
import DistLab.Raft.LogShape

/-! # Stepping down

A handler that raises the term of a server should leave it a follower, and a follower it
should stay until it opens an election of its own. `updateTerm` leaves the role alone when
the `toFollower` channel is full, and `candidateRoutine` takes office on its last vote
without a look at the term. A run without these two steps, and only such a run, keeps every
server that was raised a follower.
-/

namespace DistLab.Raft

variable {n : ℕ} {C : Type*}

def Msg.isReply : Msg n C → Bool
  | .requestVoteReply .. | .appendEntriesReply .. => true
  | .requestVote .. | .appendEntries .. => false

def Answers (r : Outcome n C) : Prop := ∃ m ∈ r.out, m.isReply = true

instance (r : Outcome n C) : Decidable (Answers r) :=
  inferInstanceAs (Decidable (∃ m ∈ r.out, m.isReply = true))

def Server.Campaigns (rf rf' : Server n C) : Prop :=
  rf.currentTerm < rf'.currentTerm ∧ rf'.routine.asks = some rf'.currentTerm

instance (rf rf' : Server n C) : Decidable (rf.Campaigns rf') :=
  inferInstanceAs (Decidable (_ ∧ _))

/-- Whether a handler has raised the term since the server last opened an election. -/
def raised (rf : Server n C) (r : Outcome n C) (b : Bool) : Bool :=
  if rf.Campaigns r.state then false
  else b || decide (Answers r ∧ rf.currentTerm < r.state.currentTerm)

def watchers (n : ℕ) (C : Type*) [Inhabited C] : Protocol (Fin n)
    (fun _ => Server n C × Bool) (Act C) (Msg n C) (Obs n C) :=
  (raft n C).watch (fun _ => false) fun _ => raised

/-- A server that was raised and has not opened an election since is a follower. -/
def SteppedDown (s : Server n C × Bool) : Prop := s.2 = true → s.1.status = .follower

namespace Server

/-- The server takes office only in the term it collected the votes for, and a request of a later
term reaches it as a follower or with room in its `toFollower` channel. -/
def StepsDown (rf : Server n C) (x : Input (Act C) (Msg n C)) : Prop :=
  (∀ t ∈ rf.cashes x, t = rf.currentTerm) ∧
  ∀ t ∈ requestTerm x, rf.currentTerm < t → rf.status = .follower ∨ rf.toFollower = false

instance (rf : Server n C) (x : Input (Act C) (Msg n C)) : Decidable (rf.StepsDown x) :=
  inferInstanceAs (Decidable (_ ∧ _))

/-- What a reaction does to the term, the role and the round of a server. -/
inductive TermStep (rf : Server n C) (x : Input (Act C) (Msg n C)) (r : Outcome n C) : Prop
  | keeps (ht : r.state.currentTerm = rf.currentTerm) (hs : r.state.status = rf.status)
      (ha : ∀ t ∈ r.state.routine.asks, t ∈ rf.routine.asks) (ho : ¬ Answers r)
  | leaves (hs : r.state.status = .follower) (ha : r.state.routine.asks = none) (ho : ¬ Answers r)
  | campaign (hc : rf.Campaigns r.state) (ho : ¬ Answers r)
  | win (t : ℕ) (hx : rf.cashes x = some t) (hq : rf.routine.asks = some t)
      (ht : r.state.currentTerm = rf.currentTerm) (ha : r.state.routine.asks = none)
      (hs : r.state.status = .leader) (ho : ¬ Answers r)
  | answers (t : ℕ) (hx : requestTerm x = some t)
      (ht : r.state.currentTerm = max rf.currentTerm t)
      (hs : r.state.status =
        if rf.currentTerm < t ∧ rf.toFollower = false then .follower else rf.status)
      (ha : r.state.routine.asks = rf.routine.asks) (ho : Answers r)

variable [Inhabited C] {me : Fin n} {rf : Server n C} {x : Input (Act C) (Msg n C)}
  {r : Outcome n C}

theorem Reacts.termStep (h : Reacts me rf x r) : TermStep rf x r := by
  cases h with
  | pass h => exact .keeps rfl rfl (fun t ht => h.asks ht) (by simp [Answers])
  | resume | broadcast =>
    exact .keeps rfl rfl (by simp [enterLeader, Routine.asks]) (by simp [Answers, Msg.isReply])
  | campaign =>
    exact .campaign ⟨Nat.lt_succ_self _, rfl⟩ (by simp [Answers, Msg.isReply])
  | @win args h =>
    exact .win args.term (by simp [cashes, h]) (by simp [h, Routine.asks]) rfl rfl rfl
      (by simp [Answers])
  | brokenBroadcast | crash | crashRaised | crashNominee =>
    exact .leaves (by simp) (by simp [Routine.asks]) (by simp [Answers, Msg.isReply])
  | start | emit | matched | commit =>
    exact .keeps rfl rfl (fun t ht => ht) (by simp [Answers])
  | depose => exact .leaves rfl rfl (by simp [Answers])
  | refuseVote | grantVote | refuseEntries =>
    exact .answers _ rfl (by simp) (by simp) (by simp) (by simp [Answers, Msg.isReply])
  | countVote hr hp hg hρ =>
    refine .keeps rfl rfl (fun t ht => ?_) (by simp [Answers])
    rcases hρ with ⟨rfl, -⟩ | rfl <;> simpa [hr, Routine.asks] using ht
  | accept _ _ _ _ _ hu =>
    obtain ⟨ci, la, bs, rfl⟩ := acceptEntries_frame hu
    exact .answers _ rfl (by simp [splice]) (by simp [splice]) (by simp [splice])
      (by simp [Answers, Msg.isReply])

theorem react_cashes {t : ℕ} (hr : (raft n C).react me rf x = some r) (ht : rf.cashes x = some t) :
    rf.routine.asks = some t ∧ r.state.status = .leader ∧
      r.state.currentTerm = rf.currentTerm ∧ ¬ Answers r := by
  unfold cashes at ht
  split at ht
  · simp only [raft, act] at hr
    split at ht
    · rename_i args hq
      rw [hq] at hr ⊢
      obtain rfl := Option.some.inj hr
      exact ⟨ht, rfl, rfl, by simp [Answers]⟩
    · cases ht
  · cases ht

end Server

section Raised

variable {rf : Server n C} {r : Outcome n C} {b : Bool}

theorem raised_of_campaigns (h : rf.Campaigns r.state) : raised rf r b = false := if_pos h

theorem raised_of_not_answers (hc : ¬ rf.Campaigns r.state) (ho : ¬ Answers r) :
    raised rf r b = b := by
  rw [raised, if_neg hc, decide_eq_false fun h => ho h.1, Bool.or_false]

theorem not_campaigns_of_term (ht : r.state.currentTerm = rf.currentTerm) :
    ¬ rf.Campaigns r.state := fun h => Nat.ne_of_gt h.1 ht

theorem raised_of_answers (hc : ¬ rf.Campaigns r.state) (ho : Answers r) :
    raised rf r b = true ↔ b = true ∨ rf.currentTerm < r.state.currentTerm := by
  simp [raised, if_neg hc, ho]

end Raised

structure Tracked (s : Server n C × Bool) : Prop where
  down : SteppedDown s
  le : ∀ t ∈ s.1.routine.asks, t ≤ s.1.currentTerm
  round : ∀ t ∈ s.1.routine.asks, s.2 = true ↔ t < s.1.currentTerm

namespace Tracked

variable {rf : Server n C} {x : Input (Act C) (Msg n C)} {r : Outcome n C} {b : Bool}

theorem of_asks_none (hs : SteppedDown (r.state, b)) (ha : r.state.routine.asks = none) :
    Tracked (r.state, b) :=
  ⟨hs, by simp [ha], by simp [ha]⟩

theorem not_campaigns (h : Tracked (rf, b)) (ha : r.state.routine.asks = rf.routine.asks) :
    ¬ rf.Campaigns r.state := by
  rintro ⟨hlt, hq⟩
  exact absurd (h.le _ (ha ▸ hq)) (Nat.not_le.mpr hlt)

theorem answers {t : ℕ} (h : Tracked (rf, b)) (ht : r.state.currentTerm = max rf.currentTerm t)
    (hs : r.state.status =
      if rf.currentTerm < t ∧ rf.toFollower = false then .follower else rf.status)
    (ha : r.state.routine.asks = rf.routine.asks) (ho : Answers r)
    (hg : rf.currentTerm < t → rf.status = .follower ∨ rf.toFollower = false) :
    Tracked (r.state, raised rf r b) := by
  have hc := h.not_campaigns ha
  constructor
  · intro hb
    show r.state.status = .follower
    rw [hs]
    split_ifs with hlt
    · rfl
    · rcases (raised_of_answers hc ho).mp hb with hb | hb
      · exact h.down hb
      · have hlt' : rf.currentTerm < t := by omega
        exact (hg hlt').resolve_right fun htok => hlt ⟨hlt', htok⟩
  · intro t' ht'
    have hle : t' ≤ rf.currentTerm := h.le t' (ha ▸ ht')
    show t' ≤ r.state.currentTerm
    omega
  · intro t' ht'
    have hle : t' ≤ rf.currentTerm := h.le t' (ha ▸ ht')
    have hround : b = true ↔ t' < rf.currentTerm := h.round t' (ha ▸ ht')
    show raised rf r b = true ↔ t' < r.state.currentTerm
    rw [raised_of_answers hc ho, hround]
    omega

theorem step (hr : rf.TermStep x r) (h : Tracked (rf, b))
    (hx : ∀ t ∈ rf.cashes x, t = rf.currentTerm)
    (hg : Answers r → ∀ t ∈ requestTerm x, rf.currentTerm < t →
      rf.status = .follower ∨ rf.toFollower = false) : Tracked (r.state, raised rf r b) := by
  cases hr with
  | keeps ht hs ha ho =>
    rw [raised_of_not_answers (not_campaigns_of_term ht) ho]
    constructor
    · intro hb
      exact hs.trans (h.down hb)
    · intro t hq
      exact (h.le t (ha t hq)).trans ht.ge
    · intro t hq
      show b = true ↔ t < r.state.currentTerm
      rw [ht]
      exact h.round t (ha t hq)
  | leaves hs ha ho => exact of_asks_none (fun _ => hs) ha
  | campaign hc ho =>
    rw [raised_of_campaigns hc]
    refine ⟨nofun, fun t hq => ?_, fun t hq => ?_⟩
    all_goals
      obtain rfl := Option.some.inj (hc.2.symm.trans hq)
      simp
  | win t hx' hq ht ha hs ho =>
    rw [raised_of_not_answers (not_campaigns_of_term ht) ho]
    refine of_asks_none (fun hb => ?_) ha
    have hlt : t < rf.currentTerm := (h.round t hq).mp hb
    exact absurd (hx t hx') hlt.ne
  | answers t hx' ht hs ha ho => exact h.answers ht hs ha ho (hg ho t hx')

end Tracked

section Runs

variable [Inhabited C] {me : Fin n} {x : Input (Act C) (Msg n C)} {r : Outcome n C}

def Server.AnswersDown (me : Fin n) (rf : Server n C) (x : Input (Act C) (Msg n C)) : Prop :=
  (∀ t ∈ rf.cashes x, t = rf.currentTerm) ∧
  ∀ r ∈ (raft n C).react me rf x, Answers r → ∀ t ∈ requestTerm x, rf.currentTerm < t →
    rf.status = .follower ∨ rf.toFollower = false

theorem tracked_react {s : Server n C × Bool} (h : Tracked s)
    (hr : (raft n C).react me s.1 x = some r) :
    (SteppedDown (r.state, raised s.1 r s.2) → s.1.AnswersDown me x) ∧
      (s.1.AnswersDown me x → Tracked (r.state, raised s.1 r s.2)) := by
  have hstep := (Server.react_reacts hr).termStep
  constructor
  · intro hd
    constructor
    · intro t ht
      obtain ⟨hq, hs, hterm, ho⟩ := Server.react_cashes hr ht
      rw [raised_of_not_answers (not_campaigns_of_term hterm) ho] at hd
      have hb : ¬ s.2 = true := by
        intro hb
        exact absurd ((hd hb).symm.trans hs) (by decide)
      have hlt : ¬ t < s.1.currentTerm := mt (h.round t hq).mpr hb
      exact Nat.le_antisymm (h.le t hq) (Nat.not_lt.mp hlt)
    · intro r' hr' ho t ht hlt
      obtain rfl : r = r' := Option.some.inj (hr.symm.trans hr')
      cases hstep with
      | keeps _ _ _ hno | leaves _ _ hno | campaign _ hno | win _ _ _ _ _ _ hno =>
        exact absurd ho hno
      | answers t' ht' hterm hs ha _ =>
        obtain rfl : t' = t := Option.some.inj (ht'.symm.trans ht)
        have hraised : raised s.1 r s.2 = true :=
          (raised_of_answers (h.not_campaigns ha) ho).mpr (Or.inr (by omega))
        have hdown : r.state.status = .follower := hd hraised
        rw [hs] at hdown
        split_ifs at hdown with htok
        · exact Or.inr htok.2
        · exact Or.inl hdown
  · intro hg
    exact .step hstep h hg.1 fun ho => hg.2 r hr ho

theorem Server.answers_of_sound {rf : Server n C} {m : Msg n C} {t : ℕ} (h : rf.log ≠ [])
    (hm : m.Sound) (ht : t ∈ requestTerm (.recv m : Input (Act C) (Msg n C))) :
    Answers (rf.recv me m) := by
  cases m with
  | requestVote p args =>
    obtain ⟨u, reply, hu⟩ := exists_requestVote h args
    simp [recv, hu, Answers, Msg.isReply]
  | appendEntries p ch args =>
    obtain ⟨L, ⟨prev, e, hp, -⟩, -⟩ := hm
    obtain ⟨u, reply, hu⟩ := exists_appendEntries rf args (by omega)
    simp [recv, hu, Answers, Msg.isReply]
  | requestVoteReply => cases ht
  | appendEntriesReply => cases ht

theorem Server.StepsDown.answersDown {rf : Server n C} (h : rf.StepsDown x) :
    rf.AnswersDown me x :=
  ⟨h.1, fun _ _ _ => h.2⟩

/-- In a cluster no handler panics. -/
theorem Shaped.stepsDown {w : Cluster n C} {e : NetEvent (Fin n) (Act C)} (hw : Shaped w)
    (h : (raft n C).Guards Server.AnswersDown w e) :
    (raft n C).Guards (fun _ => Server.StepsDown) w e := by
  cases e with
  | act i x =>
    refine ⟨h.1, fun t ht => ?_⟩
    cases ht
  | deliver k =>
    intro m hm
    refine ⟨(h m hm).1, fun t ht => (h m hm).2 _ rfl ?_ t ht⟩
    exact Server.answers_of_sound (hw.server _).log.ne_nil
      (hw.net m (List.mem_of_getElem? hm)) ht
  | drop k => trivial

theorem meets_answersDown_iff {w : Cluster n C} {es : List (NetEvent (Fin n) (Act C))}
    (hw : Shaped w) :
    (cluster n C).Meets ((raft n C).Guards Server.AnswersDown) w es ↔
      (cluster n C).Meets ((raft n C).Guards fun _ => Server.StepsDown) w es := by
  constructor
  · intro h
    exact System.Meets.of_invariant (fun _ _ _ hw _ hs => hw.step hs)
      (fun _ _ hw hg => hw.stepsDown hg) h hw
  · intro h
    exact h.mono fun _ _ hg => hg.mono fun _ _ _ hx => hx.answersDown

/-- In every reachable state, a request of a later term that is answered leaves its server a
follower exactly when it is one or its `toFollower` channel has room. Throughout a run, every
server that was raised is a follower until it opens an election exactly when every request of a
later term of the run meets this, and every server takes office in the term of its votes. -/
theorem step_down_iff {w : Cluster n C} {es : List (NetEvent (Fin n) (Act C))}
    (h : (cluster n C).run (cluster n C).init es = some w) :
    (∀ i m, ∀ t ∈ requestTerm (.recv m : Input (Act C) (Msg n C)), (w.node i).currentTerm < t →
      Answers ((w.node i).recv i m) → (((w.node i).recv i m).state.status = .follower ↔
        (w.node i).status = .follower ∨ (w.node i).toFollower = false)) ∧
    ((watchers n C).system.Always (fun v => ∀ i, SteppedDown (v.node i))
        (watchers n C).system.init es ↔
      (cluster n C).Meets ((raft n C).Guards fun _ => Server.StepsDown) (cluster n C).init es) := by
  constructor
  · intro i m t ht hlt ho
    have hr : (raft n C).react i (w.node i) (.recv m) = some ((w.node i).recv i m) := rfl
    cases (Server.react_reacts hr).termStep with
    | keeps _ _ _ hno | leaves _ _ hno | campaign _ hno | win _ _ _ _ _ _ hno =>
      exact absurd ho hno
    | answers t' ht' hterm hs ha _ =>
      obtain rfl : t' = t := Option.some.inj (ht'.symm.trans ht)
      rw [hs]
      simp only [hlt, true_and]
      split_ifs with htok
      · simp [htok]
      · simp [htok]
  · obtain ⟨v, hv, -⟩ := Protocol.exists_run_watch (a := fun _ => false) (f := fun _ => raised) h
    have hguard : (watchers n C).system.Meets
        ((watchers n C).Guards fun i s => s.1.AnswersDown i) (watchers n C).system.init es ↔ _ :=
      Protocol.meets_watch es
    refine Iff.trans ?_ (hguard.trans (meets_answersDown_iff shaped_init))
    refine Protocol.always_iff_meets_of (N := fun _ => Tracked) (fun _ _ hs => hs.down) ?_ hv
      fun _ => ⟨nofun, nofun, nofun⟩
    intro i s y t hs ht
    obtain ⟨r, hr, rfl⟩ := Option.map_eq_some_iff.mp ht
    exact tracked_react hs hr

end Runs

/-- Server 0 is raised to term 2 as a candidate and keeps the token of its demotion while it is
elected in term 3; a request of term 4 then leaves it in office. -/
def staleToken : List (NetEvent (Fin 3) (Act ℕ)) :=
  [.act 0 .electionTimeout, .act 1 .electionTimeout, .act 1 .voteTimeout, .deliver 4,
    .act 0 .voteTimeout, .deliver 6, .deliver 7, .act 0 .becomeLeader, .deliver 6,
    .act 2 .electionTimeout, .deliver 7]

theorem demotion_missed :
    (∃ v, (watchers 3 ℕ).system.run (watchers 3 ℕ).system.init staleToken = some v ∧
      (v.node 0).2 = true ∧ (v.node 0).1.currentTerm = 4 ∧ (v.node 0).1.status = .leader) ∧
    ∃ v, (watchers 3 ℕ).system.run (watchers 3 ℕ).system.init staleVictory = some v ∧
      (v.node 0).2 = true ∧ (v.node 0).1.currentTerm = 2 ∧ (v.node 0).1.status = .leader :=
  ⟨⟨_, (watchers 3 ℕ).system.run_after (watchers 3 ℕ).system.init staleToken (by decide +kernel),
    by decide +kernel⟩,
    ⟨_, (watchers 3 ℕ).system.run_after (watchers 3 ℕ).system.init staleVictory
      (by decide +kernel), by decide +kernel⟩⟩

/-- Server 0 leads term 1 and is raised to term 2 by server 2. -/
theorem step_down_iff_raised :
    ∃ v, (watchers 3 ℕ).system.run (watchers 3 ℕ).system.init
        (firstElection ++ [.act 2 .electionTimeout, .act 2 .voteTimeout, .deliver 3]) = some v ∧
      (v.node 0).2 = true ∧
      (watchers 3 ℕ).system.Always (fun v => ∀ i, SteppedDown (v.node i))
        (watchers 3 ℕ).system.init
        (firstElection ++ [.act 2 .electionTimeout, .act 2 .voteTimeout, .deliver 3]) :=
  have h := (cluster 3 ℕ).run_after (cluster 3 ℕ).init
    (firstElection ++ [.act 2 .electionTimeout, .act 2 .voteTimeout, .deliver 3])
    (by decide +kernel)
  ⟨_, (watchers 3 ℕ).system.run_after (watchers 3 ℕ).system.init
    (firstElection ++ [.act 2 .electionTimeout, .act 2 .voteTimeout, .deliver 3])
    (by decide +kernel), by decide +kernel, (step_down_iff h).2.mpr (by decide +kernel)⟩

end DistLab.Raft
