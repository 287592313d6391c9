import DistLab.Raft.Memory

/-! # The shape of a log

A log starts with the sentinel of term 0; the terms after it are positive, never
decrease and never exceed the term of the server. A request carries a part of such a
log, so that accepting it keeps the shape, whoever sent it and however late it comes.
-/

namespace DistLab.Raft

variable {n : ℕ} {C : Type*}

/-- The sentinel of term 0 first, then positive terms that never decrease. -/
structure LogShape (L : List (LogEntry C)) : Prop where
  sentinel : L[0]?.map LogEntry.termIdx = some 0
  pos : ∀ k e, L[k + 1]? = some e → 1 ≤ e.termIdx
  mono : (L.map LogEntry.termIdx).Pairwise (· ≤ ·)

theorem logShape_iff {L : List (LogEntry C)} : LogShape L ↔ L[0]?.map LogEntry.termIdx = some 0 ∧
    (∀ e ∈ L.tail, 1 ≤ e.termIdx) ∧ (L.map LogEntry.termIdx).Pairwise (· ≤ ·) := by
  constructor
  · intro h
    refine ⟨h.sentinel, fun e he => ?_, h.mono⟩
    obtain ⟨k, hk⟩ := List.mem_iff_getElem?.mp he
    rw [List.getElem?_tail] at hk
    exact h.pos k e hk
  · rintro ⟨h0, hpos, hmono⟩
    refine ⟨h0, fun k e he => hpos e ?_, hmono⟩
    rw [← List.getElem?_tail] at he
    exact List.mem_of_getElem? he

instance (L : List (LogEntry C)) : Decidable (LogShape L) := decidable_of_iff' _ logShape_iff

namespace LogShape

variable {L F R : List (LogEntry C)} {T prev : ℕ} {e e' : LogEntry C}

theorem ne_nil (h : LogShape L) : L ≠ [] := by
  rintro rfl
  exact absurd h.sentinel (by simp)

theorem le_of_le (h : LogShape L) {i j : ℕ} (he : L[i]? = some e) (he' : L[j]? = some e')
    (hij : i ≤ j) : e.termIdx ≤ e'.termIdx := by
  rcases hij.eq_or_lt with rfl | hlt
  · rw [Option.some.inj (he.symm.trans he')]
  · obtain ⟨hi, rfl⟩ := List.getElem?_eq_some_iff.mp he
    obtain ⟨hj, rfl⟩ := List.getElem?_eq_some_iff.mp he'
    have hmono := List.pairwise_iff_getElem.mp h.mono i j (by simpa) (by simpa) hlt
    simpa using hmono

theorem singleton (h : e.termIdx = 0) : LogShape [e] where
  sentinel := by simp [h]
  pos k e he := by simp at he
  mono := by simp

theorem take (h : LogShape L) (k : ℕ) : LogShape (L.take (k + 1)) where
  sentinel := by
    rw [List.getElem?_take_of_lt (Nat.succ_pos k)]
    exact h.sentinel
  pos i e he := by
    rw [List.getElem?_take] at he
    split_ifs at he
    exact h.pos i e he
  mono := by
    rw [List.map_take]
    exact h.mono.take

theorem snoc (h : LogShape L) (hT : 1 ≤ T) (hle : ∀ e ∈ L, e.termIdx ≤ T) (c : C) :
    LogShape (L ++ [⟨c, T⟩]) where
  sentinel := by
    rw [List.getElem?_append_left (List.length_pos_iff.mpr h.ne_nil)]
    exact h.sentinel
  pos k e he := by
    rw [List.getElem?_append] at he
    split_ifs at he
    · exact h.pos k e he
    · obtain ⟨-, rfl⟩ := List.getElem?_eq_some_iff.mp he
      simpa using hT
  mono := by
    rw [List.map_append, List.pairwise_append]
    refine ⟨h.mono, by simp, ?_⟩
    simpa using hle

theorem join (hF : LogShape F) (hR : LogShape R) (he : F[prev]? = some e)
    (he' : R[prev]? = some e') (ht : e.termIdx = e'.termIdx) :
    LogShape (F.take (prev + 1) ++ R.drop (prev + 1)) where
  sentinel := by
    rw [List.getElem?_append_left]
    · exact (hF.take prev).sentinel
    · exact List.length_pos_iff.mpr (hF.take prev).ne_nil
  pos k a ha := by
    rw [List.getElem?_append] at ha
    split_ifs at ha
    · exact (hF.take prev).pos k a ha
    · rw [List.getElem?_drop, Nat.add_right_comm] at ha
      exact hR.pos _ a ha
  mono := by
    rw [List.map_append, List.pairwise_append]
    refine ⟨(hF.take prev).mono, ?_, ?_⟩
    · rw [List.map_drop]
      exact hR.mono.drop
    · simp only [List.mem_map]
      rintro _ ⟨a, ha, rfl⟩ _ ⟨b, hb, rfl⟩
      obtain ⟨i, hi⟩ := List.mem_iff_getElem?.mp ha
      obtain ⟨k, hk⟩ := List.mem_iff_getElem?.mp hb
      rw [List.getElem?_take] at hi
      rw [List.getElem?_drop] at hk
      split_ifs at hi with hlt
      calc a.termIdx ≤ e.termIdx := hF.le_of_le hi he (by omega)
        _ = e'.termIdx := ht
        _ ≤ b.termIdx := hR.le_of_le he' hk (by omega)

theorem congr (h : LogShape L) (ht : F.map LogEntry.termIdx = L.map LogEntry.termIdx) :
    LogShape F where
  sentinel := by
    rw [← List.getElem?_map, ht, List.getElem?_map]
    exact h.sentinel
  pos k e he := by
    have hk : (L.map LogEntry.termIdx)[k + 1]? = some e.termIdx := by
      rw [← ht, List.getElem?_map, he, Option.map_some]
    rw [List.getElem?_map] at hk
    obtain ⟨a, ha, hae⟩ := Option.map_eq_some_iff.mp hk
    exact hae ▸ h.pos k a ha
  mono := ht ▸ h.mono

end LogShape

namespace Server

variable {rf u : Server n C} {args : AppendEntriesArgs n C} {prev : ℕ}

theorem skipSame_terms {es os : List (LogEntry C)} :
    (os.take (skipSame es os)).map LogEntry.termIdx =
      (es.take (skipSame es os)).map LogEntry.termIdx := by
  fun_induction skipSame es os with
  | case1 e es o os he ih => simp [he, ih]
  | case2 => rfl
  | case3 => rfl

theorem spliced_terms : (rf.spliced args prev).map LogEntry.termIdx =
    (rf.log.take (prev + 1) ++ args.entries).map LogEntry.termIdx := by
  simp only [spliced, List.take_add, List.map_append, skipSame_terms, List.append_assoc]
  rw [← List.map_append, List.take_append_drop]

def Active (rf : Server n C) : Prop :=
  rf.status = .leader ∨ (∃ a, rf.routine = .elected a) ∨
    ∃ a q g, rf.routine = .candidate a q g

end Server

/-- The request carries a part of a log whose terms its own term bounds. -/
def AppendEntriesArgs.Sound (args : AppendEntriesArgs n C) : Prop :=
  ∃ L, args.CutFrom L ∧ LogShape L ∧ ∀ e ∈ L, e.termIdx ≤ args.term

/-- A refusal that moves the leader's index does not move it below the first entry. -/
def AppendEntriesReply.Sound (reply : AppendEntriesReply) : Prop :=
  reply.success = false → reply.nextIndex ≠ -1 → 1 ≤ reply.nextIndex

def Msg.Sound : Msg n C → Prop
  | .appendEntries _ _ args => args.Sound
  | .appendEntriesReply _ _ _ reply => reply.Sound
  | _ => True

namespace Server

variable {rf u : Server n C} {args : AppendEntriesArgs n C} {prev : ℕ}

theorem Active.of_updateTerm {t : ℕ} (h : (rf.updateTerm t).1.Active) : rf.Active := by
  refine h.imp (fun hs => ?_) fun hr => by simpa using hr
  rw [updateTerm_status] at hs
  split_ifs at hs
  exact hs

theorem conflictStart_pos {e : LogEntry C} {L : List (LogEntry C)} {t k : ℕ} (h : LogShape L)
    (he : L[k]? = some e) (ht : e.termIdx = t) (h0 : k ≠ 0) : 1 ≤ conflictStart L t k := by
  obtain ⟨-, hrun, -⟩ := conflictStart_spec L t k
  by_contra hlt
  have hs : L[0]?.map LogEntry.termIdx = some t := hrun 0 (by omega) (Nat.pos_of_ne_zero h0)
  obtain ⟨k, rfl⟩ := Nat.exists_eq_succ_of_ne_zero h0
  have hpos : 1 ≤ e.termIdx := h.pos k e he
  have hzero : t = 0 := Option.some.inj (hs.symm.trans h.sentinel)
  omega

theorem sound_of_appendEntries {reply : AppendEntriesReply} (h : LogShape rf.log)
    (ha : args.Sound) (hr : rf.appendEntries args = .ok (u, reply)) : reply.Sound := by
  intro hf hn
  rcases appendEntries_refused hr hf with ⟨-, hi⟩ | ⟨-, hi⟩ | ⟨prev, e, hp, he, hne, hi⟩
  · exact absurd hi hn
  · have := List.length_pos_iff.mpr h.ne_nil
    omega
  · obtain ⟨L, ⟨prev', e', hp', he', het', -⟩, hL, -⟩ := ha
    obtain rfl : prev' = prev := by omega
    have h0 : prev' ≠ 0 := by
      rintro rfl
      have hs : e.termIdx = 0 := by simpa [he] using h.sentinel
      have hs' : e'.termIdx = 0 := by simpa [he'] using hL.sentinel
      exact hne (by rw [hs, het', hs'])
    have := conflictStart_pos h he rfl h0
    omega

def Leads (rf : Server n C) : Prop :=
  ∀ ch, rf.routine = .leader ch → ∀ p, 1 ≤ rf.nextIndex p

variable {x : Input (Act C) (Msg n C)}

/-- Where the next indices of a running `leaderRoutine` come from: they are kept, set as it starts,
or moved by a reply of its round. -/
inductive Steers (rf : Server n C) (x : Input (Act C) (Msg n C)) (u : Server n C) : Prop
  | keeps (hr : ∃ ch, rf.routine = .leader ch) (hn : u.nextIndex = rf.nextIndex)
  | enters (hl : u.log = rf.log) (hn : u.nextIndex = fun _ => (rf.log.length : ℤ))
  | matched {peer ch args reply} (hx : x = .recv (.appendEntriesReply peer ch args reply))
      (hr : rf.routine = .leader (some ch)) (hl : u.log = rf.log)
      (hn : u.nextIndex = (rf.matched peer args).nextIndex)
  | refused {peer ch args reply} (hx : x = .recv (.appendEntriesReply peer ch args reply))
      (hr : rf.routine = .leader (some ch)) (hl : u.log = rf.log) (hs : reply.success = false)
      (hi : reply.nextIndex ≠ -1)
      (hn : u.nextIndex = Function.update rf.nextIndex peer reply.nextIndex)

theorem Steers.of_updateTerm {t : ℕ} {ch : Option ℕ} (hr : rf.routine = .leader ch)
    (hn : u.nextIndex = (rf.updateTerm t).1.nextIndex) : rf.Steers x u :=
  .keeps ⟨ch, hr⟩ (by rw [hn, updateTerm_eq])

theorem requestVote_steers {args : RequestVoteArgs n} {reply : RequestVoteReply} {ch : Option ℕ}
    (hr : rf.requestVote args = .ok (u, reply)) (hl : u.routine = .leader ch) : rf.Steers x u := by
  rcases requestVote_ok hr with ⟨rfl, -⟩ | ⟨-, -, -, rfl, -⟩
  all_goals exact .of_updateTerm (by simpa using hl) rfl

theorem appendEntries_steers {reply : AppendEntriesReply} {ch : Option ℕ}
    (hr : rf.appendEntries args = .ok (u, reply)) (hl : u.routine = .leader ch) :
    rf.Steers x u := by
  rcases appendEntries_ok hr with ⟨-, rfl, -⟩ | ⟨-, -, rfl⟩ | ⟨-, -, prev, e, v, -, -, -, hv, rfl⟩
  · exact .keeps ⟨ch, hl⟩ rfl
  · exact .of_updateTerm (by simpa using hl) rfl
  · obtain ⟨ci, la, bs, rfl⟩ := acceptEntries_frame hv
    exact .of_updateTerm (by simpa [splice] using hl) rfl

theorem voteReply_routine {args : RequestVoteArgs n} {q : Finset (Fin n)} {g : ℕ} {p : Fin n}
    {reply : RequestVoteReply} {ch : Option ℕ} :
    (rf.voteReply args q g p reply).routine ≠ .leader ch := by
  unfold Server.voteReply
  split_ifs
  all_goals simp

theorem appendReply_steers {reply : AppendEntriesReply} {p : Fin n} {c : ℕ} {ch : Option ℕ}
    (hc : rf.routine = .leader (some c)) (hr : rf.appendReply p args reply = .ok u)
    (hl : u.routine = .leader ch) :
    rf.Steers (.recv (.appendEntriesReply p c args reply)) u := by
  unfold Server.appendReply at hr
  split_ifs at hr with hlt hs he hn
  · obtain rfl := Except.ok.inj hr
    cases hl
  · dsimp only at hr
    split at hr
    · cases hr
    · split at hr
      · cases hr
      · split_ifs at hr
        · obtain ⟨ms, -, rfl⟩ := applyLog_ok hr
          exact .matched rfl hc rfl rfl
        · obtain rfl := Except.ok.inj hr
          exact .matched rfl hc rfl rfl
  · obtain rfl := Except.ok.inj hr
    exact .keeps ⟨_, hc⟩ rfl
  · obtain rfl := Except.ok.inj hr
    exact .refused rfl hc rfl (by simpa using hs) hn rfl
  · obtain rfl := Except.ok.inj hr
    exact .keeps ⟨_, hc⟩ rfl

theorem Leads.steer (h : rf.Leads) (hl : rf.log ≠ []) (hx : ∀ m, x = .recv m → m.Sound)
    (hs : rf.Steers x u) (p : Fin n) : 1 ≤ u.nextIndex p := by
  cases hs with
  | keeps hr hn =>
    obtain ⟨ch, hr⟩ := hr
    rw [hn]
    exact h ch hr p
  | enters _ hn =>
    have := List.length_pos_iff.mpr hl
    simp only [hn]
    omega
  | matched _ hr _ hn =>
    simp only [hn, Server.matched, Function.update_apply]
    split_ifs
    · omega
    · exact h _ hr p
  | refused hx' hr _ hf hi hn =>
    rw [hn, Function.update_apply]
    split_ifs
    · exact hx _ hx' hf hi
    · exact h _ hr p

theorem logShape_spliced {e : LogEntry C} (h : LogShape rf.log) (ha : args.Sound)
    (hp : args.prevLogIndex = prev) (he : rf.log[prev]? = some e)
    (het : e.termIdx = args.prevLogTerm) : LogShape (rf.spliced args prev) := by
  obtain ⟨L, ⟨prev', e', hp', he', het', hes⟩, hL, -⟩ := ha
  obtain rfl : prev' = prev := by omega
  refine (h.join hL he he' (het.trans het')).congr ?_
  rw [spliced_terms, hes]

theorem mem_spliced_le {T : ℕ} (h : ∀ e ∈ rf.log, e.termIdx ≤ T) (ha : args.Sound)
    (hT : args.term ≤ T) : ∀ e ∈ rf.spliced args prev, e.termIdx ≤ T := by
  obtain ⟨L, ⟨prev', e', -, -, -, hes⟩, -, hL⟩ := ha
  intro e he
  rcases List.mem_append.mp he with he | he
  · exact h e (List.mem_of_mem_take he)
  · rw [hes] at he
    exact (hL e (List.mem_of_mem_drop (List.mem_of_mem_drop he))).trans hT

end Server

variable [Inhabited C]

namespace Server

/-- The logs of a server in memory and on disk have the shape, within its term. -/
structure Sound (rf : Server n C) : Prop where
  log : LogShape rf.log
  bound : ∀ e ∈ rf.log, e.termIdx ≤ rf.currentTerm
  stored : LogShape rf.stored.log
  stored_bound : ∀ e ∈ rf.stored.log, e.termIdx ≤ rf.stored.currentTerm
  stored_le : rf.stored.currentTerm ≤ rf.currentTerm
  active : rf.Active → 1 ≤ rf.currentTerm

variable {me : Fin n} {rf u : Server n C} {args : AppendEntriesArgs n C} {prev : ℕ}
  {x : Input (Act C) (Msg n C)} {r : Outcome n C}

theorem Sound.of_elects (h : rf.Sound) (he : rf.Elects u) (ha : u.Active → 1 ≤ u.currentTerm) :
    u.Sound := by
  have hbound : ∀ e ∈ u.log, e.termIdx ≤ u.currentTerm := by
    intro e hu
    rw [he.log] at hu
    exact (h.bound e hu).trans he.term_le
  rcases he.persister with hp | hp
  · have hs : u.stored = rf.stored := by rw [Server.stored, hp, Server.stored]
    exact ⟨he.log ▸ h.log, hbound, hs ▸ h.stored, hs ▸ h.stored_bound,
      hs ▸ h.stored_le.trans he.term_le, ha⟩
  · have hs : u.stored = u.saved := by rw [Server.stored, hp, Option.getD_some]
    have hlog : LogShape u.log := he.log ▸ h.log
    exact ⟨hlog, hbound, hs ▸ hlog, hs ▸ hbound, hs ▸ le_rfl, ha⟩

theorem Sound.restart (h : rf.Sound) : rf.restart.Sound where
  log := by simpa using h.stored
  bound := by simpa using h.stored_bound
  stored := by simpa using h.stored
  stored_bound := by simpa using h.stored_bound
  stored_le := by simp
  active := by simp [Active]

theorem Sound.restart_of_elects (h : rf.Sound) (he : rf.Elects u) : u.restart.Sound := by
  have hidle : rf.Elects { u with status := .follower, routine := .follower } :=
    ⟨he.log, he.boots, he.term_le, he.persister⟩
  exact (h.of_elects hidle (by simp [Active])).restart

theorem Sound.updateTerm (h : rf.Sound) (t : ℕ) : (rf.updateTerm t).1.Sound :=
  h.of_elects (elects_updateTerm t) fun ha =>
    (h.active ha.of_updateTerm).trans (elects_updateTerm t).term_le

theorem Sound.extend (h : rf.Sound) (hs : rf.status = .leader) (command : C) :
    (rf.extend me command).Sound := by
  have hT : 1 ≤ rf.currentTerm := h.active (Or.inl hs)
  have hlog : LogShape (rf.log ++ [⟨command, rf.currentTerm⟩]) := h.log.snoc hT h.bound command
  have hbound : ∀ e ∈ rf.log ++ [⟨command, rf.currentTerm⟩], e.termIdx ≤ rf.currentTerm := by
    simpa [or_imp, forall_and] using h.bound
  exact ⟨hlog, hbound, hlog, hbound, le_rfl, fun _ => hT⟩

theorem Sound.acceptEntries {e : LogEntry C} (h : rf.Sound) (ha : args.Sound)
    (ht : args.term = rf.currentTerm) (hp : args.prevLogIndex = prev)
    (he : rf.log[prev]? = some e) (het : e.termIdx = args.prevLogTerm)
    (hu : rf.acceptEntries args prev = .ok u) : u.Sound := by
  have hcut : LogShape
      (rf.log.take (prev + 1 + skipSame args.entries (rf.log.drop (prev + 1)))) := by
    rw [Nat.add_right_comm]
    exact h.log.take _
  obtain ⟨ci, la, bs, rfl⟩ := acceptEntries_frame hu
  exact ⟨logShape_spliced h.log ha hp he het, mem_spliced_le h.bound ha ht.le, hcut,
    fun e he => h.bound e (List.mem_of_mem_take he), le_rfl, h.active⟩

/-- The server after one reaction. -/
theorem Reacts.sound (h : Reacts me rf x r) (hs : rf.Sound)
    (hx : ∀ p ch args, x = .recv (.appendEntries p ch args) → args.Sound) : r.state.Sound := by
  cases h with
  | pass hρ =>
    refine hs.of_elects ⟨rfl, rfl, le_rfl, Or.inl rfl⟩ fun ha => hs.active ?_
    rcases hρ with rfl | rfl | rfl | rfl | ⟨a, q, g, p, hr, rfl⟩
    · exact ha
    all_goals simp_all [Active]
  | resume hl => exact hs.of_elects ⟨rfl, rfl, le_rfl, Or.inl rfl⟩ fun _ => hs.active (Or.inl hl)
  | campaign => exact hs.of_elects ⟨rfl, rfl, Nat.le_succ _, Or.inr rfl⟩ fun _ => Nat.le_add_left ..
  | win hr =>
    exact hs.of_elects ⟨rfl, rfl, le_rfl, Or.inl rfl⟩ fun _ => hs.active (Or.inr (Or.inl ⟨_, hr⟩))
  | broadcast hr =>
    refine hs.of_elects ⟨rfl, rfl, le_rfl, Or.inl rfl⟩ fun ha => hs.active ?_
    exact ha.imp_right (by simp)
  | brokenBroadcast => exact hs.restart_of_elects ⟨rfl, rfl, le_rfl, Or.inl rfl⟩
  | start hl => exact hs.extend hl _
  | emit | matched | commit => exact hs.of_elects ⟨rfl, rfl, le_rfl, Or.inl rfl⟩ hs.active
  | crash hp hsv hc hb =>
    obtain ⟨ht, -, hl⟩ := saved_eq_iff.mp hsv
    exact hs.restart_of_elects ⟨hl, hb, ht.ge, Or.inl hp⟩
  | crashRaised => exact (hs.updateTerm _).restart
  | crashNominee =>
    exact hs.restart_of_elects (u := rf.nominate me) ⟨rfl, rfl, Nat.le_succ _, Or.inr rfl⟩
  | depose ht => exact hs.of_elects ⟨rfl, rfl, ht.le, Or.inr rfl⟩ fun _ => Nat.one_le_of_lt ht
  | refuseVote => exact hs.updateTerm _
  | @grantVote p args reply =>
    have h' := hs.updateTerm args.term
    exact h'.of_elects ⟨rfl, rfl, le_rfl, Or.inr rfl⟩ h'.active
  | countVote hr =>
    exact hs.of_elects ⟨rfl, rfl, le_rfl, Or.inl rfl⟩ fun _ =>
      hs.active (Or.inr (Or.inr ⟨_, _, _, hr⟩))
  | @refuseEntries p ch args =>
    have h' := hs.updateTerm args.term
    exact h'.of_elects ⟨rfl, rfl, le_rfl, Or.inl rfl⟩ h'.active
  | @accept p ch args reply e u prev ht hp he het hsc hu =>
    have h' := (hs.updateTerm args.term).acceptEntries (hx p ch args rfl) (by simp [ht]) hp
      (by simpa using he) het hu
    exact h'.of_elects ⟨rfl, rfl, le_rfl, Or.inl rfl⟩ h'.active

theorem campaign_routine {ch : Option ℕ} : (rf.campaign me).state.routine ≠ .leader ch := by
  rw [campaign_eq]
  split <;> simp

theorem act_steers {a : Act C} {ch : Option ℕ} (hr : rf.act me a = some r)
    (hl : r.state.routine = .leader ch) : rf.Steers (.act a) r.state := by
  cases a <;> simp only [act] at hr
  case electionTimeout | voteTimeout =>
    split at hr <;> cases hr
    exact absurd hl campaign_routine
  case switchRole =>
    split at hr <;> cases hr
    unfold Server.switchRole at hl ⊢
    split at hl
    · exact .enters rfl rfl
    · exact absurd hl campaign_routine
    · cases hl
  case becomeLeader =>
    split at hr <;> cases hr
    exact .enters rfl rfl
  case heartbeat =>
    split at hr <;> cases hr
    rename_i ch hch
    unfold Server.broadcast at hl ⊢
    dsimp only at hl ⊢
    split_ifs at hl ⊢
    · exact .keeps ⟨ch, hch⟩ rfl
    · simp at hl
  case start command =>
    obtain rfl := Option.some.inj hr
    unfold Server.start at hl ⊢
    dsimp only at hl ⊢
    split_ifs at hl ⊢
    all_goals exact .keeps ⟨ch, hl⟩ rfl
  case emit k =>
    split at hr <;> cases hr
    exact .keeps ⟨ch, hl⟩ rfl
  case kill =>
    obtain rfl := Option.some.inj hr
    exact .keeps ⟨ch, hl⟩ rfl
  case restart =>
    obtain rfl := Option.some.inj hr
    simp at hl
  case resetTimer =>
    split at hr
    · split_ifs at hr
      obtain rfl := Option.some.inj hr
      exact .keeps ⟨ch, hl⟩ rfl
    · cases hr
  case takeToFollower | terminate =>
    split at hr
    iterate 2
      · split_ifs at hr
        obtain rfl := Option.some.inj hr
        cases hl
    · cases hr

theorem recv_steers {m : Msg n C} {ch : Option ℕ} (hl : (rf.recv me m).state.routine = .leader ch) :
    rf.Steers (.recv m) (rf.recv me m).state := by
  cases m with
  | requestVote p args =>
    simp only [recv] at hl ⊢
    split at hl
    · simp at hl
    · exact requestVote_steers ‹_› hl
  | requestVoteReply p args reply =>
    simp only [recv] at hl ⊢
    split at hl
    · split at hl
      · exact absurd hl voteReply_routine
      · simp_all
    · exact .keeps ⟨ch, hl⟩ rfl
  | appendEntries p c args =>
    simp only [recv] at hl ⊢
    split at hl
    · simp at hl
    · exact appendEntries_steers ‹_› hl
  | appendEntriesReply p c args reply =>
    simp only [recv] at hl ⊢
    split_ifs at hl ⊢ with hc
    · split at hl
      · simp at hl
      · exact appendReply_steers hc ‹_› hl
    · exact .keeps ⟨ch, hl⟩ rfl

theorem react_steers {ch : Option ℕ} (hr : (raft n C).react me rf x = some r)
    (hl : r.state.routine = .leader ch) : rf.Steers x r.state := by
  cases x with
  | act a => exact act_steers hr hl
  | recv m =>
    obtain rfl := Option.some.inj hr
    exact recv_steers hl

end Server

namespace Server

variable {me p : Fin n} {rf : Server n C} {args : AppendEntriesArgs n C} {ch : ℕ}
  {reply : AppendEntriesReply} {x : Input (Act C) (Msg n C)} {r : Outcome n C}

theorem Reacts.recv_of_reply (h : Reacts me rf x r)
    (hm : Msg.appendEntriesReply p ch args reply ∈ r.out) :
    ∃ q, x = .recv (.appendEntries q ch args) := by
  cases h
  case refuseEntries | accept =>
    obtain ⟨-, rfl, rfl, -⟩ := Msg.appendEntriesReply.inj (List.mem_singleton.mp hm)
    exact ⟨_, rfl⟩
  all_goals simp at hm

theorem appendEntries_of_reply (hr : (raft n C).react me rf x = some r)
    (hm : Msg.appendEntriesReply p ch args reply ∈ r.out) :
    ∃ q u, x = .recv (.appendEntries q ch args) ∧ rf.appendEntries args = .ok (u, reply) := by
  obtain ⟨q, rfl⟩ := (react_reacts hr).recv_of_reply hm
  obtain rfl := Option.some.inj hr
  simp only [recv] at hm
  split at hm
  · simp at hm
  · rename_i u reply' ha
    obtain ⟨-, -, -, rfl⟩ := Msg.appendEntriesReply.inj (List.mem_singleton.mp hm)
    exact ⟨q, u, rfl, ha⟩

theorem react_out_sound (hr : (raft n C).react me rf x = some r) (h : rf.Sound)
    (hx : ∀ m, x = .recv m → m.Sound) : ∀ m ∈ r.out, m.Sound := by
  have hmoves := (react_reacts hr).moves
  intro m hm
  cases m with
  | appendEntries p ch args =>
    obtain ⟨-, -, hsent, hcut⟩ := hmoves.msgs p ch args hm
    obtain ⟨ht, -⟩ := hmoves.deeds _ (mem_deeds_of_sent hsent)
    exact ⟨rf.log, hcut, h.log, fun e he => (h.bound e he).trans ht.ge⟩
  | appendEntriesReply p ch args reply =>
    obtain ⟨q, u, rfl, ha⟩ := appendEntries_of_reply hr hm
    exact sound_of_appendEntries h.log (hx _ rfl) ha
  | requestVote => trivial
  | requestVoteReply => trivial

theorem react_leads (hr : (raft n C).react me rf x = some r) (h : rf.Leads) (hl : rf.log ≠ [])
    (hx : ∀ m, x = .recv m → m.Sound) : r.state.Leads :=
  fun _ hq => h.steer hl hx (react_steers hr hq)

end Server

structure Shaped (w : Cluster n C) : Prop where
  server : ∀ i, (w.node i).Sound
  leads : ∀ i, (w.node i).Leads
  net : ∀ m ∈ w.net, m.Sound

theorem shaped_init : Shaped (cluster n C).init where
  server _ := by
    have hlog : LogShape [(sentinel : LogEntry C)] := .singleton rfl
    have hbound : ∀ e ∈ [(sentinel : LogEntry C)], e.termIdx ≤ 0 := by simp [sentinel]
    refine ⟨hlog, hbound, hlog, hbound, le_rfl, ?_⟩
    simp [Server.Active, raft, Protocol.system, Server.make, Server.readPersist]
  leads _ := by simp [Server.Leads, raft, Protocol.system, Server.make, Server.readPersist]
  net := by simp [Protocol.system]

theorem Shaped.put {w : Cluster n C} {i : Fin n} {x : Input (Act C) (Msg n C)} {r : Outcome n C}
    {net : List (Msg n C)} (h : Shaped w) (hr : (raft n C).react i (w.node i) x = some r)
    (hf : (raft n C).Feeds w i x) (hn : net ⊆ w.net) : Shaped (w.put i net r) := by
  have hx : ∀ m, x = .recv m → m.Sound := by
    rintro m rfl
    exact h.net m hf.1
  constructor
  · refine World.forall_put (N := fun _ => Server.Sound) ?_ fun j _ => h.server j
    exact (Server.react_reacts hr).sound (h.server i) fun p ch args he => hx _ he
  · refine World.forall_put (N := fun _ => Server.Leads) ?_ fun j _ => h.leads j
    exact Server.react_leads hr (h.leads i) (h.server i).log.ne_nil hx
  · intro m hm
    rcases World.mem_put_net hn hm with hm | hm
    · exact h.net m hm
    · exact Server.react_out_sound hr (h.server i) hx m hm

theorem Shaped.run {w w' : Cluster n C} {es : List (NetEvent (Fin n) (Act C))} (hw : Shaped w)
    (h : (cluster n C).run w es = some w') : Shaped w' :=
  Protocol.invariant (fun _ _ hw hn => ⟨hw.server, hw.leads, fun m hm => hw.net m (hn hm)⟩)
    (fun _ _ _ _ _ hw hr hf hn => hw.put hr hf hn) h hw

theorem Shaped.step {w w' : Cluster n C} {e : NetEvent (Fin n) (Act C)} (hw : Shaped w)
    (h : (cluster n C).step w e = some w') : Shaped w' := by
  have hr : (cluster n C).run w [e] = some w' := System.run_cons_eq_some.mpr ⟨w', h, rfl⟩
  exact hw.run hr

theorem shaped_of_run {w : Cluster n C} {es : List (NetEvent (Fin n) (Act C))}
    (h : (cluster n C).run (cluster n C).init es = some w) : Shaped w :=
  shaped_init.run h

/-- In every state reached without overwriting a request to be encoded, every log, in memory and on
disk, has the shape and stays within the term of its server. Every request, on the wire or yet to
be encoded, names an entry; no running `leaderRoutine` has a next index before the first entry, so
that none fails to build one for that reason. -/
theorem logs_shaped {A : Growth} {s : Memory n C} {es : List (MemoryEvent n C)}
    (h : (memory A n C).run (memory A n C).init es = some s)
    (hg : (memory A n C).Meets (Memory.Guards Memory.Spares) (memory A n C).init es) :
    (∀ i, LogShape (s.world.node i).log ∧ LogShape (s.world.node i).stored.log ∧
      (∀ e ∈ (s.world.node i).log, e.termIdx ≤ (s.world.node i).currentTerm) ∧
      ∀ e ∈ (s.world.node i).stored.log, e.termIdx ≤ (s.world.node i).currentTerm) ∧
    (∀ p ch args, Msg.appendEntries p ch args ∈ s.world.net ++ s.drafts.map Draft.msg →
      0 ≤ args.prevLogIndex) ∧
    ∀ i ch, (s.world.node i).routine = .leader ch → ∀ p, 1 ≤ (s.world.node i).nextIndex p := by
  obtain ⟨fs, w, hw, -, hnode, -, hnet⟩ := Memory.Sound.init.exists_run
    (G := fun _ _ _ => True) h (hg.mono fun _ _ => Memory.Guards.mono fun _ _ h => ⟨trivial, h⟩)
    Memory.covers_init
  have hshaped := shaped_of_run hw
  rw [show s.world.node = w.node from hnode.symm]
  refine ⟨fun i => ?_, fun p ch args hm => ?_, hshaped.leads⟩
  · have hs := hshaped.server i
    exact ⟨hs.log, hs.stored, hs.bound, fun e he => (hs.stored_bound e he).trans hs.stored_le⟩
  · obtain ⟨L, ⟨prev, e, hp, -⟩, -⟩ := hshaped.net _ (hnet.subset hm)
    omega

def reelected : List (MemoryEvent 2 ℕ) :=
  [.net (.act 0 .electionTimeout), .net (.deliver 0), .net (.deliver 0),
    .net (.act 0 .becomeLeader), .net (.act 0 (.start 10)), .net (.act 0 .restart),
    .net (.act 0 .electionTimeout), .net (.deliver 0), .net (.deliver 0),
    .net (.act 0 .becomeLeader), .net (.act 0 (.start 11)), .net (.act 0 .heartbeat), .encode 0]

theorem logs_shaped_reelected :
    ∃ s, (memory .doubling 2 ℕ).run (memory .doubling 2 ℕ).init reelected = some s ∧
      (s.world.node 0).log = [sentinel, ⟨10, 1⟩, ⟨11, 2⟩] ∧ LogShape (s.world.node 0).log ∧
      LogShape (s.world.node 0).stored.log ∧
      .appendEntries 1 0 ⟨2, 0, 1, 1, [⟨11, 2⟩], 0⟩ ∈ s.world.net := by
  have h := (memory .doubling 2 ℕ).run_after (memory .doubling 2 ℕ).init reelected (by decide)
  have hshaped := logs_shaped h (by decide)
  exact ⟨_, h, by decide, (hshaped.1 0).1, (hshaped.1 0).2.1, by decide⟩

/-- A server in term 1 has an entry of term 2. -/
theorem logs_misshaped_aliased :
    ∃ s, (memory .doubling 5 ℕ).run (memory .doubling 5 ℕ).init aliased = some s ∧
      (s.world.node 1).currentTerm = 1 ∧
      (s.world.node 1).log = [sentinel, ⟨10, 1⟩, ⟨21, 2⟩] :=
  ⟨_, (memory .doubling 5 ℕ).run_after (memory .doubling 5 ℕ).init aliased (by decide +kernel),
    by decide +kernel, by decide +kernel⟩

end DistLab.Raft
