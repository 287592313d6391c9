import DistLab.Systems.Progress
import DistLab.Labrpc.Delivery

/-! # Every call comes to an end

Whatever state the network is in, the goroutines of a call can bring it to its return in
a few steps once the handler returns, and none of them is left behind. When the server
is dead the caller does not even wait for the handler.
-/

namespace DistLab.Labrpc

variable {E S B : Type*}

/-- How many steps a call is away from its return at most. -/
def Stage.rank : Stage S B → ℕ
  | .calling => 10
  | .accepted => 9
  | .delayed _ => 8
  | .waiting _ => 3
  | .decided .. => 2
  | .answering _ => 1
  | .returned _ => 0

def Handler.rank : Handler S B → ℕ
  | .idle => 0
  | .spawned _ => 3
  | .running _ => 2
  | .sending .. => 1
  | .ended .. => 0

def Call.rank (c : Call E S B) : ℕ := c.stage.rank + c.handler.rank

variable [DecidableEq S] {rn : Network E S B} {c : Call E S B}

theorem Call.exists_act_handler {req : ReqMsg E B} {st : Stage S B} {hd : Handler S B} {d : Bool}
    (b : B) (hr : hd.rank ≠ 0) (hd' : d = true ∨ ∃ info, st = .waiting info) :
    ∃ a c', (∀ b', a = .finish b' → b' = b) ∧
      (⟨req, st, hd, d⟩ : Call E S B).act rn a = some c' ∧
      c'.rank < (⟨req, st, hd, d⟩ : Call E S B).rank := by
  cases hd with
  | idle | ended => exact (hr rfl).elim
  | spawned info => exact ⟨.dispatch, _, by simp, rfl, by simp [rank, Handler.rank]⟩
  | running info => exact ⟨.finish b, _, by simp, rfl, by simp [rank, Handler.rank]⟩
  | sending info x =>
    rcases hd' with rfl | ⟨info', rfl⟩
    · exact ⟨.drain, _, by simp, rfl, by simp [rank, Handler.rank]⟩
    · exact ⟨.receive, _, by simp, rfl, by simp [rank, Stage.rank, Handler.rank]⟩

theorem Call.exists_act (hs : c.Sound) (hl : rn.listening = true ∨ rn.done = true) (b : B)
    (hr : c.rank ≠ 0) : ∃ a c', (∀ b', a = .finish b' → b' = b) ∧ c.act rn a = some c' ∧
      c'.rank < c.rank := by
  obtain ⟨req, st, hd, d⟩ := c
  cases hs with
  | calling =>
    rcases hl with hl | hl
    · exact ⟨.accept, _, by simp, if_pos hl, by simp [rank, Stage.rank]⟩
    · exact ⟨.refuse, _, by simp, if_pos hl, by simp [rank, Stage.rank]⟩
  | accepted =>
    refine ⟨.read, ?_⟩
    simp only [act]
    split
    all_goals exact ⟨_, by simp, rfl, by simp [rank, Stage.rank]⟩
  | delayed => exact ⟨.execute, _, by simp, rfl, by simp [rank, Stage.rank, Handler.rank]⟩
  | waiting hi he =>
    refine exists_act_handler b ?_ (Or.inr ⟨_, rfl⟩)
    cases hd <;> simp_all [Handler.rank, Handler.info]
  | received =>
    refine ⟨.check .send, ?_⟩
    simp only [act]
    split
    all_goals exact ⟨_, by simp, rfl, by simp [rank, Stage.rank]⟩
  | abandoned => exact ⟨.check .send, _, by simp, rfl, by simp [rank, Stage.rank]⟩
  | confirmed | lost => exact ⟨.answer, _, by simp, rfl, by simp [rank, Stage.rank]⟩
  | returned => exact (hr rfl).elim
  | failed hset =>
    rcases hset with rfl | ⟨info, x, rfl⟩ | ⟨rfl, -⟩
    · exact (hr rfl).elim
    · exact (hr rfl).elim
    · exact exists_act_handler b (by simpa [rank, Stage.rank] using hr) (Or.inl rfl)

variable [DecidableEq E] {es : List (Event E S B)} {k : ℕ}

theorem Network.Steps.listens {e : Event E S B} {rn' : Network E S B} (h : rn.Steps e rn')
    (hl : rn.listening = true ∨ rn.done = true) : rn'.listening = true ∨ rn'.done = true := by
  cases h with
  | @admin a =>
    cases a <;> simp only [Network.admin] <;> try exact hl
    all_goals
      split
      · exact hl
      · simp_all
  | call => exact hl
  | stopListening hd => exact Or.inr hd
  | @on k a =>
    cases a <;> simp only [Network.effect] <;> try exact hl
    all_goals split <;> exact hl

def Call.Over (c : Call E S B) : Prop :=
  (∃ result, c.stage = .returned result) ∧
    (c.handler = .idle ∨ ∃ info b, c.handler = .ended info b)

omit [DecidableEq S] [DecidableEq E] in
theorem Call.over_of_rank (h : c.rank = 0) : c.Over := by
  obtain ⟨req, st, hd, d⟩ := c
  obtain ⟨hst, hh⟩ : st.rank = 0 ∧ hd.rank = 0 := by simpa [rank] using h
  constructor
  · cases st <;> simp_all [Stage.rank]
  · cases hd <;> simp_all [Handler.rank]

omit [DecidableEq S] [DecidableEq E] in
theorem Call.Sound.rank_le (h : c.Sound) : c.rank ≤ 10 := by
  have hhandler : ∀ hd : Handler S B, hd.rank ≤ 3 := by
    intro hd
    cases hd <;> simp [Handler.rank]
  have hle := hhandler c.handler
  obtain ⟨req, st, hd, d⟩ := c
  cases h <;> simp only [rank, Stage.rank, Handler.rank] at hle ⊢
  all_goals omega

theorem Network.step_of_act {c' : Call E S B} {a : Act B} (hf : rn.fatal = false)
    (hc : rn.calls[k]? = some c) (ha : c.act rn a = some c') :
    ∃ rn', rn.step (.on k a) = some rn' ∧ rn'.calls[k]? = some c' ∧
      rn' = { rn.effect c a with calls := rn.calls.set k c' } := by
  obtain ⟨hk, -⟩ := List.getElem?_eq_some_iff.mp hc
  refine ⟨_, by simp [Network.step, hf, hc, ha], ?_, rfl⟩
  simp [hk]

/-- The call exists, is coherent and has somebody to accept or refuse it. -/
def Network.Carries (k : ℕ) (rn : Network E S B) : Prop :=
  (∃ c, rn.calls[k]? = some c ∧ c.Sound) ∧ (rn.listening = true ∨ rn.done = true)

def Network.rank (k : ℕ) (rn : Network E S B) : ℕ := (rn.calls[k]?.map Call.rank).getD 0

theorem Network.Carries.exists_step (h : rn.Carries k) (b : B) :
    (rn.fatal = true ∨ ∃ c, rn.calls[k]? = some c ∧ c.Over) ∨
    ∃ e rn', (∃ a, e = .on k a ∧ ∀ b', a = .finish b' → b' = b) ∧
      (network E S B).step rn e = some rn' ∧ rn'.Carries k ∧ rn'.rank k < rn.rank k := by
  obtain ⟨⟨c, hc, hs⟩, hl⟩ := h
  cases hf : rn.fatal with
  | true => exact Or.inl (Or.inl rfl)
  | false =>
    by_cases hr : c.rank = 0
    · exact Or.inl (Or.inr ⟨c, hc, Call.over_of_rank hr⟩)
    · obtain ⟨a, c', hfin, ha, hlt⟩ := Call.exists_act hs hl b hr
      obtain ⟨rn', hstep, hc', -⟩ := Network.step_of_act hf hc ha
      refine Or.inr ⟨.on k a, rn', ⟨a, rfl, hfin⟩, hstep, ⟨⟨c', hc', ?_⟩, ?_⟩, ?_⟩
      · exact hs.moves (Call.act_moves ha)
      · exact (Network.step_steps hstep).2.listens hl
      · simpa [rank, hc, hc'] using hlt

theorem Network.exists_run_of_dead {info : Info S} (hf : rn.fatal = false)
    (hc : rn.calls[k]? = some c) (hst : c.stage = .waiting info)
    (hd : rn.isServerDead c.req.endname info.servername info.server = true) :
    ∃ rn' c', (network E S B).run rn [.on k .tick, .on k (.check .send), .on k .answer] =
      some rn' ∧ rn'.calls[k]? = some c' ∧ c'.stage = .returned none := by
  have htick : c.act rn .tick = some { c with stage := .decided info none, drainer := true } := by
    simp [Call.act, hst, hd]
  obtain ⟨v₁, h₁, hc₁, hv₁⟩ := step_of_act hf hc htick
  have hf₁ : v₁.fatal = false := by rw [hv₁]; exact hf
  obtain ⟨v₂, h₂, hc₂, hv₂⟩ := step_of_act (a := .check .send) hf₁ hc₁ rfl
  have hf₂ : v₂.fatal = false := by rw [hv₂]; exact hf₁
  obtain ⟨v₃, h₃, hc₃, -⟩ := step_of_act (a := .answer) hf₂ hc₂ rfl
  refine ⟨v₃, _, ?_, hc₃, rfl⟩
  exact System.run_cons_eq_some.mpr ⟨_, h₁, System.run_cons_eq_some.mpr ⟨_, h₂,
    System.run_cons_eq_some.mpr ⟨_, h₃, rfl⟩⟩⟩

/-- From every reachable state the goroutines of a call alone can bring it to its end in at most
ten steps, whatever its handler returns, unless the process ends for want of a handler. A call
whose server is dead returns without its handler. -/
theorem call_returns (h : (network E S B).run (network E S B).init es = some rn)
    (hf : rn.fatal = false) (hc : rn.calls[k]? = some c) (b : B) :
    (∃ fs rn', (network E S B).run rn fs = some rn' ∧ fs.length ≤ 10 ∧
      (∀ e ∈ fs, ∃ a, e = .on k a ∧ ∀ b', a = .finish b' → b' = b) ∧
      (rn'.fatal = true ∨ ∃ c', rn'.calls[k]? = some c' ∧ c'.Over)) ∧
    ∀ info, c.stage = .waiting info →
      rn.isServerDead c.req.endname info.servername info.server = true →
      ∃ rn' c', (network E S B).run rn [.on k .tick, .on k (.check .send), .on k .answer] =
        some rn' ∧ rn'.calls[k]? = some c' ∧ c'.stage = .returned none := by
  have hlisten : rn.listening = true ∨ rn.done = true :=
    System.invariant (I := fun v => v.listening = true ∨ v.done = true)
      (fun v e v' hv hs => (Network.step_steps hs).2.listens hv) h (Or.inl rfl)
  have hs := sound_of_run h hc
  refine ⟨?_, fun info hst hd => Network.exists_run_of_dead hf hc hst hd⟩
  obtain ⟨fs, rn', hr, hgoal, hall, hlen⟩ := System.exists_run_of_rank (S := network E S B)
    (P := fun v => v.fatal = true ∨ ∃ d, v.calls[k]? = some d ∧ d.Over)
    (A := fun e => ∃ a, e = .on k a ∧ ∀ b', a = .finish b' → b' = b) (r := Network.rank k)
    (fun v hv => Network.Carries.exists_step hv b) (⟨⟨c, hc, hs⟩, hlisten⟩ : rn.Carries k)
  refine ⟨fs, rn', hr, Nat.le_trans hlen ?_, hall, hgoal⟩
  simpa [Network.rank, hc] using hs.rank_le

theorem call_returns_started : ∃ rn fs rn',
    (network ℕ ℕ ℕ).run (network ℕ ℕ ℕ).init started = some rn ∧
      (network ℕ ℕ ℕ).run rn fs = some rn' ∧ fs.length ≤ 10 ∧
      (rn'.fatal = true ∨ ∃ c, rn'.calls[0]? = some c ∧ c.Over) := by
  have h := (network ℕ ℕ ℕ).run_after (network ℕ ℕ ℕ).init started (by decide +kernel)
  have hc : ((network ℕ ℕ ℕ).after (network ℕ ℕ ℕ).init started (by decide +kernel)).calls[0]? =
      some ⟨⟨0, ['R', '.', 'P'], 7⟩, .waiting ⟨1, 5, true, false⟩, .spawned ⟨1, 5, true, false⟩,
        false⟩ := by decide +kernel
  obtain ⟨⟨fs, rn', hr, hlen, -, hgoal⟩, -⟩ := call_returns h (by decide +kernel) hc 8
  exact ⟨_, fs, rn', h, hr, hlen, hgoal⟩

end DistLab.Labrpc
