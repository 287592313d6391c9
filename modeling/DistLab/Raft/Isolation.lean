import DistLab.Raft.Deployment

/-! # Superseded instances are isolated

A call that has not been read when the instance that made it is superseded, or whose
handler has not returned when the instance it runs on is superseded, is cut off: from then
on no running instance handles its request and none takes its reply. This is what the
order of `crash1` is for, which disables the ends and deletes the server before it copies
the persister.
-/

namespace DistLab.Raft

variable {n : ℕ} {C : Type*}

namespace Config

variable {cfg cfg' : Config n C} {k : ℕ} {c : RaftCall n C}

theorem getElem?_append_call {l : List (RaftCall n C)} (hc : cfg.net.calls[k]? = some c) :
    (cfg.net.calls ++ l)[k]? = some c := by
  obtain ⟨hlt, -⟩ := List.getElem?_eq_some_iff.mp hc
  rw [List.getElem?_append_left hlt, hc]

theorem getElem?_set_call {j : ℕ} {d d' : RaftCall n C} {a : Labrpc.Act (Msg n C)}
    (hc : cfg.net.calls[k]? = some c) (hd : cfg.net.calls[j]? = some d)
    (hm : d.Moves cfg.net a d') : ∃ c', (cfg.net.calls.set j d')[k]? = some c' ∧
      (c' = c ∨ ∃ a, c.Moves cfg.net a c') := by
  obtain ⟨hlt, -⟩ := List.getElem?_eq_some_iff.mp hd
  rcases eq_or_ne j k with rfl | hjk
  · obtain rfl := Option.some.inj (hd.symm.trans hc)
    exact ⟨d', List.getElem?_set_self hlt, Or.inr ⟨a, hm⟩⟩
  · exact ⟨c, (List.getElem?_set_ne hjk).trans hc, Or.inl rfl⟩

theorem getElem?_returned {j : ℕ} {req : Labrpc.ReqMsg (EndName n) (Msg n C)}
    {st : Labrpc.Stage (Fin n) (Msg n C)} {info : Labrpc.Info (Fin n)} {d : Bool}
    (out : List (Msg n C)) (hc : cfg.net.calls[k]? = some c)
    (hd : cfg.net.calls[j]? = some ⟨req, st, .running info, d⟩) :
    ∃ c', (cfg.returned j ⟨req, st, .running info, d⟩ info out).net.calls[k]? = some c' ∧
      (c' = c ∨ ∃ a, c.Moves cfg.net a c') := by
  unfold returned
  split
  · next m => exact getElem?_set_call hc hd (.finish (b := m) rfl)
  · exact ⟨c, hc, Or.inl rfl⟩

theorem returned_setting {j : ℕ} {d : RaftCall n C} {info : Labrpc.Info (Fin n)}
    {out : List (Msg n C)} : (cfg.returned j d info out).setting = cfg.setting := by
  unfold returned
  split <;> rfl

variable [Inhabited C] {e : Happening n C}

/-- A call after a step: it is the same and instances may have been superseded, or it has moved
and the setting is the same. -/
theorem Sane.step_call (h : cfg.Sane) (hs : cfg.step e = some cfg')
    (hc : cfg.net.calls[k]? = some c) : ∃ c', cfg'.net.calls[k]? = some c' ∧
      (c' = c ∧ Evolves cfg.setting cfg'.setting ∨
        cfg'.setting = cfg.setting ∧ ∃ a, c.Moves cfg.net a c') := by
  obtain ⟨-, hs⟩ := Option.ite_none_left_eq_some.mp hs
  have hone : ∀ {c' : RaftCall n C}, cfg'.setting = cfg.setting →
      (c' = c ∨ ∃ a, c.Moves cfg.net a c') → c' = c ∧ Evolves cfg.setting cfg'.setting ∨
        cfg'.setting = cfg.setting ∧ ∃ a, c.Moves cfg.net a c' := by
    rintro c' hset (rfl | hmove)
    · exact Or.inl ⟨rfl, .of_eq (congrArg Setting.instances hset)⟩
    · exact Or.inr ⟨hset, hmove⟩
  cases e with
  | call cmd =>
    dsimp only at hs
    split at hs
    · refine ⟨c, ?_, Or.inl ⟨rfl, .of_eq ?_⟩⟩
      all_goals
        cases cmd <;>
          simp only [Config.call, Option.ite_none_right_eq_some, Option.some.injEq] at hs
        case connect =>
          obtain ⟨-, rfl⟩ := hs
          first | exact hc | rfl
        all_goals
          obtain rfl := hs
          first | exact hc | rfl
    · cases hs
  | next =>
    have hready := h.ready
    dsimp only at hs
    split at hs
    · cases hs
    · next op ops htodo =>
      obtain rfl := Option.some.inj hs
      rw [htodo] at hready
      have hevolves : Evolves cfg.setting (cfg.exec op).setting :=
        exec_setting cfg op ▸ .exec h.orderly hready.1
      exact ⟨c, (exec_frame cfg op).1 ▸ hc, Or.inl ⟨rfl, hevolves⟩⟩
  | act i x =>
    dsimp only at hs
    split at hs
    · cases hs
    · obtain ⟨a, -, hs⟩ := Option.bind_eq_some_iff.mp hs
      obtain ⟨r, -, rfl⟩ := Option.map_eq_some_iff.mp hs
      exact ⟨c, getElem?_append_call hc, hone rfl (Or.inl rfl)⟩
  | handle j =>
    dsimp only [Config.handle] at hs
    split at hs
    · next req st info d hd =>
      split at hs
      · next i ha =>
        obtain rfl := Option.some.inj hs
        have hc' : (cfg.react i ((cfg.rafts i).recv i req.args)).net.calls[k]? = some c := hc
        obtain ⟨c', hc', hmove⟩ := getElem?_returned _ hc' hd
        exact ⟨c', hc', hone returned_setting hmove⟩
      · cases hs
    · cases hs
  | hear j =>
    obtain ⟨-, hs⟩ := Option.ite_none_left_eq_some.mp hs
    split at hs
    · split at hs
      · obtain rfl := Option.some.inj hs
        exact ⟨c, getElem?_append_call hc, hone rfl (Or.inl rfl)⟩
      · cases hs
    · cases hs
  | rpc j a =>
    dsimp only at hs
    split at hs
    · cases hs
    · obtain ⟨rn, hrn, rfl⟩ := Option.map_eq_some_iff.mp hs
      cases (Labrpc.Network.step_steps hrn).2 with
      | @on _ _ d d' hd hm =>
        obtain ⟨c', hc', hmove⟩ := getElem?_set_call hc hd hm
        exact ⟨c', hc', hone (by simp [setting]) hmove⟩
  | stopListening =>
    obtain ⟨rn, hrn, rfl⟩ := Option.map_eq_some_iff.mp hs
    cases (Labrpc.Network.step_steps hrn).2 with
    | stopListening => exact ⟨c, hc, hone rfl (Or.inl rfl)⟩
  | strayCall a req =>
    dsimp only at hs
    split at hs
    · obtain rfl := Option.some.inj hs
      exact ⟨c, getElem?_append_call hc, hone rfl (Or.inl rfl)⟩
    · cases hs
  | strayReply j m =>
    dsimp only [Config.strayReply] at hs
    split at hs
    · next req st info d hd =>
      split at hs
      · obtain rfl := Option.some.inj hs
        obtain ⟨c', hc', hmove⟩ := getElem?_returned [m] hc hd
        exact ⟨c', hc', hone returned_setting hmove⟩
      · cases hs
    · cases hs

/-- The call delivers nothing any more. -/
def CutOff (cfg : Config n C) (k : ℕ) : Prop :=
  ∃ c, cfg.net.calls[k]? = some c ∧ cfg.setting.holds false c = none

theorem CutOff.step (h : cfg.CutOff k) (hsane : cfg.Sane) (hs : cfg.step e = some cfg') :
    cfg'.CutOff k := by
  obtain ⟨c, hc, hnone⟩ := h
  have hacc := hsane.accounted k c hc
  obtain ⟨c', hc', ⟨rfl, he⟩ | ⟨hset, a, hm⟩⟩ := hsane.step_call hs hc
  · refine ⟨c', hc', Option.eq_none_iff_forall_ne_some.mpr fun m hm => ?_⟩
    rw [hacc.holds_evolves he hm] at hnone
    cases hnone
  · refine ⟨c', hc', Option.eq_none_iff_forall_ne_some.mpr fun m hmsg => ?_⟩
    rw [hset] at hmsg
    by_cases ha : ∃ b, a = .finish b
    · obtain ⟨b, rfl⟩ := ha
      obtain ⟨info, hinfo, hlive, -⟩ := hm.holds_finish hacc.sound hmsg
      rw [Setting.holds, Labrpc.Call.holds_running hinfo hlive] at hnone
      cases hnone
    · have hheld := hm.holds hacc.sound (fun b hb => ha ⟨b, hb⟩)
        (fun he => hsane.orderly.enabled _ _ he)
        (fun i o ho => Setting.runs_iff.mpr ⟨i, hsane.orderly.servers i o ho⟩) hmsg
      rw [Setting.holds, hheld] at hnone
      cases hnone

theorem CutOff.ne (h : cfg.CutOff k) (hsane : cfg.Sane) (hs : cfg.step e = some cfg') :
    e ≠ .handle k ∧ e ≠ .hear k := by
  obtain ⟨c, hc, hnone⟩ := h
  obtain ⟨-, hs⟩ := Option.ite_none_left_eq_some.mp hs
  constructor
  · rintro rfl
    dsimp only [Config.handle] at hs
    rw [hc] at hs
    split at hs
    · next req st info d hd =>
      obtain rfl := Option.some.inj hd
      split at hs
      · next i ha =>
        have hlive : cfg.setting.runs info.server = true := Setting.runs_iff.mpr ⟨i, ha⟩
        rw [Setting.holds, Labrpc.Call.holds_running rfl hlive] at hnone
        cases hnone
      · cases hs
    · cases hs
  · rintro rfl
    obtain ⟨-, hs⟩ := Option.ite_none_left_eq_some.mp hs
    rw [hc] at hs
    split at hs
    · next req m hd d hd =>
      obtain rfl := Option.some.inj hd
      rw [Setting.holds, Labrpc.Call.holds_returned (hsane.accounted k _ hc).sound rfl] at hnone
      cases hnone
    · cases hs

end Config

/-- A call that its caller's instance had not got read, or whose handler had not returned on the
server's instance, when that instance was superseded: no running instance ever handles its request
or takes its reply. -/
theorem superseded_isolated {es fs : List (Happening n C)} {cfg cfg' : Config n C} {k : ℕ}
    {c : RaftCall n C} {i : Fin n} [Inhabited C]
    (h : (deployment n C).run (deployment n C).init es = some cfg)
    (hc : cfg.net.calls[k]? = some c)
    (hs : (c.stage = .calling ∨ c.stage = .accepted) ∧
        cfg.instances[c.req.endname.1]? = some ⟨i, .superseded⟩ ∨
      ∃ info, (c.handler = .spawned info ∨ c.handler = .running info) ∧
        cfg.instances[info.server]? = some ⟨i, .superseded⟩)
    (h' : (deployment n C).run cfg fs = some cfg') : .handle k ∉ fs ∧ .hear k ∉ fs := by
  have hsane : cfg.Sane := System.invariant (I := Config.Sane)
    (fun cfg e cfg' hsane hs => (hsane.step hs).1) h Config.sane_makeConfig
  have hdead : ∀ a, cfg.instances[a]? = some ⟨i, .superseded⟩ → cfg.setting.runs a = false := by
    intro a ha
    simp [Setting.runs, Config.setting, ha]
  have hcut : cfg.CutOff k := by
    refine ⟨c, hc, ?_⟩
    have hsound := (hsane.accounted k c hc).sound
    obtain ⟨req, st, hd, d⟩ := c
    rcases hs with ⟨rfl | rfl, ha⟩ | ⟨info, rfl | rfl, ha⟩
    · cases hsound
      simp [Setting.holds, Labrpc.Call.holds, hdead _ ha]
    · cases hsound
      simp [Setting.holds, Labrpc.Call.holds, hdead _ ha]
    · simp [Setting.holds, Labrpc.Call.holds, hdead _ ha]
    · simp [Setting.holds, Labrpc.Call.holds, hdead _ ha]
  have hall := System.forall_mem_of_invariant (Q := fun e => e ≠ .handle k ∧ e ≠ .hear k)
    (I := fun cfg => cfg.Sane ∧ cfg.CutOff k)
    (fun cfg e cfg' hi hs => ⟨hi.2.ne hi.1 hs, (hi.1.step hs).1, hi.2.step hi.1 hs⟩) h'
    ⟨hsane, hcut⟩
  exact ⟨fun hm => (hall _ hm).1 rfl, fun hm => (hall _ hm).2 rfl⟩

def crashedVoter : List (Happening 2 ℕ) :=
  madeConfig ++ [.act 0 .electionTimeout, .rpc 0 .accept, .rpc 0 .read, .rpc 0 .execute,
    .rpc 0 .dispatch, .call (.start1 1)] ++ List.replicate 15 .next

def voteRequest : Msg 2 ℕ := .requestVote 1 ⟨1, 0, 0, 0⟩

def strayGrant : Msg 2 ℕ := .requestVoteReply 1 ⟨1, 0, 0, 0⟩ ⟨0, true⟩

def strayVote : List (Happening 2 ℕ) :=
  [.strayReply 0 strayGrant, .rpc 0 .receive, .rpc 0 (.check .send), .rpc 0 .answer]

theorem superseded_isolated_voter : ∃ cfg cfg' c,
    (deployment 2 ℕ).run (deployment 2 ℕ).init crashedVoter = some cfg ∧
      (deployment 2 ℕ).run cfg strayVote = some cfg' ∧ cfg'.net.calls[0]? = some c ∧
      c.handler.reply = some strayGrant ∧ c.stage = .returned none ∧
      .handle 0 ∉ strayVote ∧ .hear 0 ∉ strayVote := by
  have h := (deployment 2 ℕ).run_after (deployment 2 ℕ).init crashedVoter (by decide +kernel)
  have h' := (deployment 2 ℕ).run_after ((deployment 2 ℕ).after (deployment 2 ℕ).init crashedVoter
    (by decide +kernel)) strayVote (by decide +kernel)
  have hc : ((deployment 2 ℕ).after (deployment 2 ℕ).init crashedVoter
      (by decide +kernel)).net.calls[0]? = some ⟨⟨(0, 1), voteRequest.svcMeth, voteRequest⟩,
        .waiting ⟨1, 1, true, false⟩, .running ⟨1, 1, true, false⟩, false⟩ := by decide +kernel
  have hc' : ((deployment 2 ℕ).after ((deployment 2 ℕ).after (deployment 2 ℕ).init crashedVoter
      (by decide +kernel)) strayVote (by decide +kernel)).net.calls[0]? =
        some ⟨⟨(0, 1), voteRequest.svcMeth, voteRequest⟩, .returned none,
          .ended ⟨1, 1, true, false⟩ strayGrant, false⟩ := by decide +kernel
  exact ⟨_, _, _, h, h', hc', rfl, rfl, superseded_isolated (i := (1 : Fin 2)) h hc
    (Or.inr ⟨_, Or.inr rfl, by decide +kernel⟩) h'⟩

end DistLab.Raft
