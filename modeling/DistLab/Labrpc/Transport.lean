import DistLab.Labrpc.Delivery

/-! # What a call can still deliver

A call carries its request until the handler returns and the reply until the caller has
it. Some servers and some ends are given up for good: nothing is delivered any more by a
call that needs one of them. Every step of a call other than the return of its handler
keeps what it can deliver or loses it.
-/

namespace DistLab.Labrpc

variable {E S B : Type*}

/-- What the call can still deliver: the request to a server that lives, or the reply to a caller
that has not taken it. A request that has not been read needs the end it was made on. -/
def Call.holds (opened : E → Bool) (live : ℕ → Bool) (heard : Bool) (c : Call E S B) : Option B :=
  match c.handler with
  | .spawned info | .running info => if live info.server then some c.req.args else none
  | h => match c.stage with
    | .calling | .accepted => if opened c.req.endname then some c.req.args else none
    | .delayed info => if live info.server then some c.req.args else none
    | .waiting info => if live info.server then h.reply else none
    | .decided info (some rep) => if live info.server then rep.reply else none
    | .decided _ none => none
    | .answering rep => rep.reply
    | .returned reply => if heard then none else reply

variable {opened opened' : E → Bool} {live live' : ℕ → Bool} {heard heard' : Bool}
  {c c' : Call E S B} {a : Act B} {m b : B} {info : Info S}

theorem Call.Sound.routed (hs : c.Sound)
    (h : c.stage.info = some info ∨ c.handler.info = some info) : c.Routed info := by
  obtain ⟨req, st, hd, d⟩ := c
  rcases h with h | h
  · cases hs with
    | delayed => exact Or.inl (by rw [Option.some.inj h])
    | waiting hi | abandoned hi => exact Or.inr (hi.trans h)
    | received => exact Or.inr h
    | _ => cases h
  · exact Or.inr h

theorem Call.holds_running (h : c.handler = .running info) (hl : live info.server = true) :
    c.holds opened live heard = some c.req.args := by
  simp [holds, h, hl]

theorem Call.holds_returned (hs : c.Sound) (h : c.stage = .returned (some b)) :
    c.holds opened live heard = if heard then none else some b := by
  obtain ⟨req, st, hd, d⟩ := c
  cases h
  cases hs
  rfl

theorem Call.holds_mono (ho : opened' c.req.endname = true → opened c.req.endname = true)
    (hl : ∀ info, c.stage.info = some info ∨ c.handler.info = some info →
      live' info.server = true → live info.server = true)
    (hh : heard = true → heard' = true) (h : c.holds opened' live' heard' = some m) :
    c.holds opened live heard = some m := by
  obtain ⟨req, st, hd, d⟩ := c
  cases hd with
  | spawned info | running info =>
    simp only [holds, Option.ite_none_right_eq_some] at h ⊢
    exact ⟨hl info (Or.inr rfl) h.1, h.2⟩
  | idle | sending | ended =>
    cases st with
    | calling | accepted =>
      simp only [holds, Option.ite_none_right_eq_some] at h ⊢
      exact ⟨ho h.1, h.2⟩
    | delayed info | waiting info =>
      simp only [holds, Option.ite_none_right_eq_some] at h ⊢
      exact ⟨hl info (Or.inl rfl) h.1, h.2⟩
    | decided info reply =>
      cases reply with
      | none => exact h
      | some rep =>
        simp only [holds, Option.ite_none_right_eq_some] at h ⊢
        exact ⟨hl info (Or.inl rfl) h.1, h.2⟩
    | answering => exact h
    | returned =>
      simp only [holds, Option.ite_none_left_eq_some] at h ⊢
      exact ⟨fun hq => h.1 (hh hq), h.2⟩

section Moves

variable [DecidableEq S] {rn : Network E S B}

theorem Call.Moves.holds (h : c.Moves rn a c') (hs : c.Sound) (ha : ∀ b, a ≠ .finish b)
    (he : rn.enabled c.req.endname = true → opened c.req.endname = true)
    (hv : ∀ s o, rn.servers s = some o → live o = true)
    (hm : c'.holds opened live heard = some m) : c.holds opened live heard = some m := by
  obtain ⟨req, st, hd, d⟩ := c
  cases h with
  | accept hst => cases hst; cases hs; exact hm
  | refuse hst => cases hst; cases hs; simp [Call.holds] at hm
  | read hst hen hc hsv =>
    cases hst; cases hs
    simp only [Call.holds, hv _ _ hsv, he hen] at hm ⊢
    exact hm
  | unread hst | drop hst => cases hst; cases hs; simp [Call.holds, ReplyMsg.lost] at hm
  | execute hst => cases hst; cases hs; exact hm
  | dispatch hh => cases hh; exact hm
  | finish => exact (ha _ rfl).elim
  | receive hst hh =>
    cases hst; cases hh
    exact hm
  | expire hst =>
    cases hst
    cases hd <;> simp_all [Call.holds]
  | wait => exact hm
  | drain hdr hh =>
    cases hdr; cases hh
    cases hs with
    | abandoned | lost | failed => exact hm
  | lose hst =>
    cases hst
    cases hs with
    | received => simp [Call.holds, ReplyMsg.lost] at hm
    | abandoned => cases hd <;> simp_all [Call.holds, ReplyMsg.lost]
  | confirm hst halive =>
    cases hst
    cases hs
    simp only [Network.isServerDead, Bool.or_eq_false_iff, bne_eq_false_iff_eq] at halive
    simpa [Call.holds, hv _ _ halive.2] using hm
  | answer hst =>
    cases hst
    cases hs with
    | confirmed => cases heard <;> simp_all [Call.holds]
    | lost => cases hd <;> simp_all [Call.holds, ReplyMsg.lost]

theorem Call.Moves.holds_finish (h : c.Moves rn (.finish b) c') (hs : c.Sound)
    (hm : c'.holds opened live heard = some m) :
    ∃ info, c.handler = .running info ∧ live info.server = true ∧ m = b := by
  obtain ⟨req, st, hd, d⟩ := c
  cases h with
  | finish hh =>
    cases hh
    refine ⟨_, rfl, ?_⟩
    cases hs with
    | waiting hi =>
      cases hi
      simp only [Call.holds, Handler.reply, Option.ite_none_right_eq_some, Option.some.injEq] at hm
      exact ⟨hm.1, hm.2.symm⟩
    | abandoned => simp [Call.holds] at hm
    | lost => simp [Call.holds, ReplyMsg.lost] at hm
    | failed => simp [Call.holds] at hm

end Moves

section Frame

variable {rn : Network E S B}

@[simp] theorem Network.effect_ends (a : Act B) : (rn.effect c a).ends = rn.ends := by
  cases a <;> simp only [effect] <;> repeat' split
  all_goals rfl

@[simp] theorem Network.effect_connections (a : Act B) :
    (rn.effect c a).connections = rn.connections := by
  cases a <;> simp only [effect] <;> repeat' split
  all_goals rfl

end Frame

end DistLab.Labrpc
