import DistLab.Labrpc.Network

/-! # The life of a call

What one step can do to a call, with everything it reads. The stage of a call, its
handler and its drainer always fit together: a handler that has a reply to send has a
receiver, and only the reply of its handler reaches the caller as a success.
-/

namespace DistLab.Labrpc

variable {E S B : Type*}

def Handler.info : Handler S B → Option (Info S)
  | .idle => none
  | .spawned info | .running info | .sending info _ | .ended info _ => some info

def Handler.begun : Handler S B → Bool
  | .idle | .spawned _ => false
  | .running _ | .sending .. | .ended .. => true

def Handler.reply : Handler S B → Option B
  | .idle | .spawned _ | .running _ => none
  | .sending _ b | .ended _ b => some b

def Stage.info : Stage S B → Option (Info S)
  | .delayed info | .waiting info | .decided info _ => some info
  | .calling | .accepted | .answering _ | .returned _ => none

section Moves

variable [DecidableEq S] {rn : Network E S B} {c c' : Call E S B} {a : Act B}

/-- The steps of a call, one case for each way a goroutine can go on. -/
inductive Call.Moves (rn : Network E S B) (c : Call E S B) : Act B → Call E S B → Prop
  | accept (h : c.stage = .calling) (hl : rn.listening = true) :
      Moves rn c .accept { c with stage := .accepted }
  | refuse (h : c.stage = .calling) (hd : rn.done = true) :
      Moves rn c .refuse { c with stage := .returned none }
  | read {info} (h : c.stage = .accepted) (he : rn.enabled c.req.endname = true)
      (hc : rn.connections c.req.endname = some info.servername)
      (hs : rn.servers info.servername = some info.server) :
      Moves rn c .read { c with stage := .delayed info }
  | unread (h : c.stage = .accepted) : Moves rn c .read { c with stage := .answering .lost }
  | drop {info} (h : c.stage = .delayed info) (hr : info.reliable = false) :
      Moves rn c .drop { c with stage := .answering .lost }
  | execute {info} (h : c.stage = .delayed info) :
      Moves rn c .execute { c with stage := .waiting info, handler := .spawned info }
  | dispatch {info} (h : c.handler = .spawned info) :
      Moves rn c .dispatch { c with handler := .running info }
  | finish {info b} (h : c.handler = .running info) :
      Moves rn c (.finish b) { c with handler := .sending info b }
  | receive {info info' b} (h : c.stage = .waiting info) (hh : c.handler = .sending info' b) :
      Moves rn c .receive
        { c with stage := .decided info (some ⟨true, some b⟩), handler := .ended info' b }
  | expire {info} (h : c.stage = .waiting info)
      (hd : rn.isServerDead c.req.endname info.servername info.server = true) :
      Moves rn c .tick { c with stage := .decided info none, drainer := true }
  | wait {info} (h : c.stage = .waiting info) : Moves rn c .tick c
  | drain {info b} (h : c.drainer = true) (hh : c.handler = .sending info b) :
      Moves rn c .drain { c with handler := .ended info b }
  | lose {info reply choice} (h : c.stage = .decided info reply) :
      Moves rn c (.check choice) { c with stage := .answering .lost }
  | confirm {info rep choice} (h : c.stage = .decided info (some rep))
      (hd : rn.isServerDead c.req.endname info.servername info.server = false) :
      Moves rn c (.check choice) { c with stage := .answering rep }
  | answer {rep} (h : c.stage = .answering rep) :
      Moves rn c .answer { c with stage := .returned (if rep.ok then rep.reply else none) }

theorem Call.read_moves (h : c.act rn .read = some c') : c.Moves rn .read c' := by
  simp only [act] at h
  split at h
  · rename_i hst
    split at h
    · rename_i s o r l hinfo
      simp only [Network.readEndnameInfo, Prod.mk.injEq] at hinfo
      obtain ⟨he, hc, hs, -, -⟩ := hinfo
      rw [hc] at hs
      obtain rfl := Option.some.inj h
      exact .read hst he hc hs
    · obtain rfl := Option.some.inj h
      exact .unread hst
  · cases h

theorem Call.check_moves {choice : Choice} (h : c.act rn (.check choice) = some c') :
    c.Moves rn (.check choice) c' := by
  simp only [act] at h
  split at h
  · rename_i info reply hst
    split at h
    · obtain rfl := Option.some.inj h
      exact .lose hst
    · by_cases hd : rn.isServerDead c.req.endname info.servername info.server = true
      · rw [if_pos hd] at h
        obtain rfl := Option.some.inj h
        exact .lose hst
      · rw [if_neg hd] at h
        have hd : rn.isServerDead c.req.endname info.servername info.server = false := by
          simpa using hd
        cases choice with
        | drop =>
          obtain ⟨-, h⟩ := Option.ite_none_left_eq_some.mp h
          obtain rfl := Option.some.inj h
          exact .lose hst
        | delay =>
          obtain ⟨-, h⟩ := Option.ite_none_right_eq_some.mp h
          obtain rfl := Option.some.inj h
          exact .confirm hst hd
        | send =>
          obtain rfl := Option.some.inj h
          exact .confirm hst hd
  · cases h

theorem Call.act_moves (h : c.act rn a = some c') : c.Moves rn a c' := by
  cases a with
  | read => exact read_moves h
  | check choice => exact check_moves h
  | accept =>
    simp only [act] at h
    split at h
    · split_ifs at h with hl
      obtain rfl := Option.some.inj h
      exact .accept ‹_› hl
    · cases h
  | refuse =>
    simp only [act] at h
    split at h
    · split_ifs at h with hd
      obtain rfl := Option.some.inj h
      exact .refuse ‹_› hd
    · cases h
  | drop =>
    simp only [act] at h
    split at h
    · split_ifs at h with hr
      obtain rfl := Option.some.inj h
      exact .drop ‹_› (by simpa using hr)
    · cases h
  | execute =>
    simp only [act] at h
    split at h <;> cases h
    exact .execute ‹_›
  | dispatch =>
    simp only [act] at h
    split at h <;> cases h
    exact .dispatch ‹_›
  | finish b =>
    simp only [act] at h
    split at h <;> cases h
    exact .finish ‹_›
  | receive =>
    simp only [act] at h
    split at h <;> cases h
    exact .receive ‹_› ‹_›
  | tick =>
    simp only [act] at h
    split at h
    · split_ifs at h with hd
      · obtain rfl := Option.some.inj h
        exact .expire ‹_› hd
      · obtain rfl := Option.some.inj h
        exact .wait ‹_›
    · cases h
  | drain =>
    simp only [act] at h
    split at h <;> cases h
    exact .drain ‹_› ‹_›
  | answer =>
    simp only [act] at h
    split at h <;> cases h
    exact .answer ‹_›

end Moves

def Settled (h : Handler S B) (drainer : Bool) : Prop :=
  h = .idle ∨ (∃ info b, h = .ended info b) ∨ drainer = true ∧ h ≠ .idle

/-- The stages, handlers and drainers that occur together. -/
inductive Coherent : Stage S B → Handler S B → Bool → Prop
  | calling : Coherent .calling .idle false
  | accepted : Coherent .accepted .idle false
  | delayed {info} : Coherent (.delayed info) .idle false
  | waiting {info h} (hs : h.info = some info) (he : ∀ info b, h ≠ .ended info b) :
      Coherent (.waiting info) h false
  | received {info b} :
      Coherent (.decided info (some ⟨true, some b⟩)) (.ended info b) false
  | abandoned {info h} (hs : h.info = some info) : Coherent (.decided info none) h true
  | confirmed {info b} : Coherent (.answering ⟨true, some b⟩) (.ended info b) false
  | lost {h d} (hs : Settled h d) : Coherent (.answering .lost) h d
  | returned {info b} : Coherent (.returned (some b)) (.ended info b) false
  | failed {h d} (hs : Settled h d) : Coherent (.returned none) h d

def Call.Sound (c : Call E S B) : Prop := Coherent c.stage c.handler c.drainer

theorem Settled.mono {h h' : Handler S B} {d : Bool} (hs : Settled h d)
    (hstep : h ≠ .idle ∧ h' ≠ .idle ∧ ∀ info b, h ≠ .ended info b) : Settled h' d := by
  obtain ⟨hi, hi', he⟩ := hstep
  rcases hs with rfl | ⟨info, b, rfl⟩ | ⟨hd, -⟩
  · exact (hi rfl).elim
  · exact (he info b rfl).elim
  · exact Or.inr (Or.inr ⟨hd, hi'⟩)

theorem Coherent.progress {st : Stage S B} {h h' : Handler S B} {d : Bool} {info : Info S}
    (hc : Coherent st h d) (hs : h.info = some info) (hs' : h'.info = some info)
    (he : ∀ info b, h ≠ .ended info b) (he' : (∀ info b, h' ≠ .ended info b) ∨ d = true) :
    Coherent st h' d := by
  have hi : h ≠ .idle := by
    rintro rfl
    cases hs
  have hi' : h' ≠ .idle := by
    rintro rfl
    cases hs'
  cases hc with
  | calling | accepted | delayed => cases hs
  | waiting hw hne =>
    refine .waiting ?_ (he'.resolve_right (by simp))
    rw [hs', ← hs, hw]
  | received | confirmed | returned => exact (he _ _ rfl).elim
  | abandoned hw =>
    refine .abandoned ?_
    rw [hs', ← hs, hw]
  | lost hset => exact .lost (hset.mono ⟨hi, hi', he⟩)
  | failed hset => exact .failed (hset.mono ⟨hi, hi', he⟩)

section Steps

variable [DecidableEq S] {rn : Network E S B} {c c' : Call E S B} {a : Act B}

theorem Call.Sound.moves (h : c.Sound) (hm : c.Moves rn a c') : c'.Sound := by
  obtain ⟨req, st, hd, d⟩ := c
  unfold Sound at h ⊢
  cases hm with
  | accept hst => cases hst; cases h; exact .accepted
  | refuse hst => cases hst; cases h; exact .failed (Or.inl rfl)
  | read hst => cases hst; cases h; exact .delayed
  | unread hst => cases hst; cases h; exact .lost (Or.inl rfl)
  | drop hst => cases hst; cases h; exact .lost (Or.inl rfl)
  | execute hst => cases hst; cases h; exact .waiting rfl (by simp)
  | dispatch hh => cases hh; exact h.progress rfl rfl (by simp) (Or.inl (by simp))
  | finish hh => cases hh; exact h.progress rfl rfl (by simp) (Or.inl (by simp))
  | receive hst hh =>
    cases hst; cases hh
    cases h with
    | waiting hs =>
      obtain rfl := Option.some.inj hs
      exact .received
  | expire hst =>
    cases hst
    cases h with
    | waiting hs => exact .abandoned hs
  | wait => exact h
  | drain hd hh => cases hd; cases hh; exact h.progress rfl rfl (by simp) (Or.inr rfl)
  | lose hst =>
    cases hst
    cases h with
    | received => exact .lost (Or.inr (Or.inl ⟨_, _, rfl⟩))
    | abandoned hs => exact .lost (Or.inr (Or.inr ⟨rfl, by rintro rfl; cases hs⟩))
  | confirm hst => cases hst; cases h; exact .confirmed
  | answer hst =>
    cases hst
    cases h with
    | confirmed => exact .returned
    | lost hs => exact .failed hs

end Steps

section Runs

variable [DecidableEq E] [DecidableEq S] {rn rn' : Network E S B} {e : Event E S B}
  {es : List (Event E S B)} {k : ℕ} {c c' : Call E S B}

@[simp] theorem Network.admin_calls (a : Admin E S) : (rn.admin a).calls = rn.calls := by
  cases a <;> simp only [admin] <;> repeat' split
  all_goals rfl

inductive Network.Steps (rn : Network E S B) : Event E S B → Network E S B → Prop
  | admin {a} : Steps rn (.admin a) (rn.admin a)
  | call {req} (h : rn.ends req.endname = true) :
      Steps rn (.call req) { rn with calls := rn.calls ++ [⟨req, .calling, .idle, false⟩] }
  | stopListening (hd : rn.done = true) : Steps rn .stopListening { rn with listening := false }
  | on {k a c c'} (hc : rn.calls[k]? = some c) (hm : c.Moves rn a c') :
      Steps rn (.on k a) { rn.effect c a with calls := rn.calls.set k c' }

theorem Network.step_steps (h : rn.step e = some rn') : rn.fatal = false ∧ rn.Steps e rn' := by
  obtain ⟨hf, h⟩ := Option.ite_none_left_eq_some.mp h
  refine ⟨by simpa using hf, ?_⟩
  cases e with
  | admin a =>
    obtain rfl := Option.some.inj h
    exact .admin
  | call req =>
    obtain ⟨he, h⟩ := Option.ite_none_right_eq_some.mp h
    obtain rfl := Option.some.inj h
    exact .call he
  | stopListening =>
    obtain ⟨hd, h⟩ := Option.ite_none_right_eq_some.mp h
    obtain rfl := Option.some.inj h
    exact .stopListening (Bool.and_eq_true_iff.mp hd).1
  | on k a =>
    obtain ⟨c, hc, h⟩ := Option.bind_eq_some_iff.mp h
    obtain ⟨c', hc', rfl⟩ := Option.map_eq_some_iff.mp h
    exact .on hc (Call.act_moves hc')

theorem Network.Steps.call_cases (h : rn.Steps e rn') (hc : rn'.calls[k]? = some c') :
    (∃ c, rn.calls[k]? = some c ∧ ((∀ a, e ≠ .on k a) ∧ c' = c ∨
      ∃ a, e = .on k a ∧ c.Moves rn a c')) ∨
    ∃ req, e = .call req ∧ k = rn.calls.length ∧ c' = ⟨req, .calling, .idle, false⟩ := by
  cases h with
  | admin => exact Or.inl ⟨c', by simpa using hc, Or.inl ⟨by simp, rfl⟩⟩
  | stopListening => exact Or.inl ⟨c', hc, Or.inl ⟨by simp, rfl⟩⟩
  | @call req =>
    rw [List.getElem?_append] at hc
    split_ifs at hc with hk
    · exact Or.inl ⟨c', hc, Or.inl ⟨by simp, rfl⟩⟩
    · obtain ⟨hlt, rfl⟩ := List.getElem?_eq_some_iff.mp hc
      rw [List.length_singleton] at hlt
      exact Or.inr ⟨req, rfl, by omega, by simp⟩
  | @on j a c d hj hm =>
    rw [List.getElem?_set] at hc
    split_ifs at hc with hjk
    · subst hjk
      obtain rfl := Option.some.inj hc
      exact Or.inl ⟨c, hj, Or.inr ⟨a, rfl, hm⟩⟩
    · refine Or.inl ⟨c', hc, Or.inl ⟨?_, rfl⟩⟩
      rintro a' he
      exact hjk (Event.on.inj he).1

theorem Network.Steps.length_le (h : rn.Steps e rn') : rn.calls.length ≤ rn'.calls.length := by
  cases h <;> simp

theorem Network.Steps.exists_call (h : rn.Steps e rn') (hc : rn.calls[k]? = some c) :
    ∃ c', rn'.calls[k]? = some c' ∧ (c' = c ∨ ∃ a, e = .on k a ∧ c.Moves rn a c') := by
  obtain ⟨hk, -⟩ := List.getElem?_eq_some_iff.mp hc
  have hk' : k < rn'.calls.length := Nat.lt_of_lt_of_le hk h.length_le
  refine ⟨_, List.getElem?_eq_getElem hk', ?_⟩
  rcases h.call_cases (List.getElem?_eq_getElem hk') with ⟨d, hd, hcases⟩ | ⟨req, -, rfl, -⟩
  · obtain rfl := Option.some.inj (hd.symm.trans hc)
    exact hcases.imp_left And.right
  · omega

theorem sound_of_run (h : (network E S B).run (network E S B).init es = some rn)
    (hc : rn.calls[k]? = some c) : c.Sound := by
  refine System.invariant (I := fun v => ∀ k c, v.calls[k]? = some c → Call.Sound c)
    (fun v e v' hv hs k c' hc' => ?_) h (by simp [network, makeNetwork]) k c hc
  rcases (Network.step_steps hs).2.call_cases hc' with
    ⟨c, hk, ⟨-, rfl⟩ | ⟨a, -, hm⟩⟩ | ⟨req, -, -, rfl⟩
  · exact hv k c' hk
  · exact (hv k c hk).moves hm
  · exact .calling

end Runs

end DistLab.Labrpc
