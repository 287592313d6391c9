import Mathlib.Algebra.Order.Ring.Rat
import DistLab.Rdt.Simulation

/-! # The clock of the simulator

Whatever the lower layer does to packets, the event chain stays in order, time never goes back,
and the one timeout in the chain is that of the sender's timer and due when the record in front
of the virtual timers ends. The calls of a handler of the sender are summarised by the deadline
they leave.
-/

namespace DistLab.Rdt

section Calls

def deadline (now : ℚ) (d : Option ℚ) : Call → Option ℚ
  | .startTimer timeout => some (now + timeout)
  | .stopTimer => none
  | .toLowerLayer _ => d

namespace VirtualTimer

def front (v : VirtualTimer) : Option ℚ := v.records.head?.map Prod.snd

/-- The records are in the order they end in, and none has ended. -/
structure Pending (v : VirtualTimer) (now : ℚ) : Prop where
  sorted : v.records.Pairwise (·.2 ≤ ·.2)
  ahead : ∀ r ∈ v.records, now ≤ r.2

variable {v v' : VirtualTimer} {now t : ℚ} {key : ℕ}

theorem mem_insert {x : ℕ × ℚ} {rs : List (ℕ × ℚ)} :
    x ∈ insert key t rs ↔ x = (key, t) ∨ x ∈ rs := by
  induction rs with
  | nil => simp [insert]
  | cons r rs ih =>
    rw [insert]
    split
    · rw [List.mem_cons, ih, List.mem_cons, or_left_comm]
    · rw [List.mem_cons]

theorem sorted_insert {rs : List (ℕ × ℚ)} (h : rs.Pairwise (·.2 ≤ ·.2)) :
    (insert key t rs).Pairwise (·.2 ≤ ·.2) := by
  induction rs with
  | nil => exact List.pairwise_singleton _ _
  | cons r rs ih =>
    obtain ⟨hr, hrs⟩ := List.pairwise_cons.mp h
    rw [insert]
    split_ifs with hlt
    · refine List.pairwise_cons.mpr ⟨fun x hx => ?_, ih hrs⟩
      rcases mem_insert.mp hx with rfl | hx
      · exact hlt.le
      · exact hr x hx
    · refine List.pairwise_cons.mpr ⟨fun x hx => ?_, h⟩
      rcases List.mem_cons.mp hx with rfl | hx
      · exact not_lt.mp hlt
      · exact (not_lt.mp hlt).trans (hr x hx)

theorem Pending.start (h : v.Pending now) {time : ℚ} (h0 : 0 ≤ time)
    (hs : v.start now key time = some v') : v'.Pending now := by
  rw [VirtualTimer.start, Option.ite_none_right_eq_some] at hs
  obtain ⟨-, hs⟩ := hs
  obtain rfl := Option.some.inj hs
  constructor
  · exact sorted_insert h.sorted
  · intro r hr
    rcases mem_insert.mp hr with rfl | hr
    · exact le_add_of_nonneg_right h0
    · exact h.ahead r hr

theorem Pending.sublist (h : v.Pending now) (hs : v'.records.Sublist v.records) :
    v'.Pending now :=
  ⟨h.sorted.sublist hs, fun r hr => h.ahead r (hs.subset hr)⟩

theorem Pending.finish (h : v.Pending now) (key : ℤ) : (v.finish key).Pending now :=
  h.sublist List.eraseP_sublist

theorem Pending.mono (h : v.Pending now) (ht : ∀ d ∈ v.front, t ≤ d) : v.Pending t := by
  refine ⟨h.sorted, fun r hr => ?_⟩
  have hs := h.sorted
  unfold front at ht
  cases hv : v.records with
  | nil => simp [hv] at hr
  | cons x xs =>
    rw [hv] at hr ht hs
    have hx : t ≤ x.2 := ht x.2 rfl
    rcases List.mem_cons.mp hr with rfl | hr
    · exact hx
    · exact hx.trans ((List.pairwise_cons.mp hs).1 r hr)

@[simp] theorem deadline_arm (d : Option ℚ) : deadline now d (v.arm now) = v.front := by
  unfold arm front
  cases v.records with
  | nil => rfl
  | cons r rs => simp [deadline]

theorem Pending.arm_nonneg (h : v.Pending now) (ht : v.arm now = .startTimer t) : 0 ≤ t := by
  unfold arm at ht
  cases hv : v.records with
  | nil => simp [hv] at ht
  | cons r rs =>
    rw [hv] at ht
    obtain rfl := Call.startTimer.inj ht
    exact sub_nonneg.mpr (h.ahead r (hv ▸ List.mem_cons_self))

theorem foldl_endCalls (key : ℤ) :
    (v.endCalls now key).foldl (deadline now) v.front = (v.finish key).front := by
  unfold endCalls
  cases hv : v.records with
  | nil => simp [front, finish, hv]
  | cons r rs =>
    simp only
    split_ifs with hk
    · simp
    · simp [front, finish, hv, hk]

end VirtualTimer

/-- The calls leave the timer set for the record in front and start it with no negative delay. -/
structure Arms (now : ℚ) (d : Option ℚ) (calls : List Call) (v : VirtualTimer) : Prop where
  pending : v.Pending now
  front : calls.foldl (deadline now) d = v.front
  delays : ∀ t, .startTimer t ∈ calls → 0 ≤ t

namespace Arms

variable {now : ℚ} {d : Option ℚ} {v v' : VirtualTimer} {calls calls' : List Call}

theorem nil (h : v.Pending now) : Arms now v.front [] v := ⟨h, rfl, by simp⟩

theorem arm (h : v.Pending now) : Arms now d [v.arm now] v where
  pending := h
  front := by simp
  delays t ht := h.arm_nonneg (List.mem_singleton.mp ht).symm

theorem packet (h : Arms now d calls v) (pkt : Packet) :
    Arms now d (calls ++ [.toLowerLayer pkt]) v where
  pending := h.pending
  front := by simpa [deadline] using h.front
  delays t ht := h.delays t (by simpa using ht)

theorem append (h : Arms now d calls v) (h' : Arms now v.front calls' v') :
    Arms now d (calls ++ calls') v' where
  pending := h'.pending
  front := by rw [List.foldl_append, h.front, h'.front]
  delays t ht := (List.mem_append.mp ht).elim (h.delays t) (h'.delays t)

theorem endCalls (h : v.Pending now) (key : ℤ) :
    Arms now v.front (v.endCalls now key) (v.finish key) where
  pending := h.finish key
  front := VirtualTimer.foldl_endCalls key
  delays t ht := by
    unfold VirtualTimer.endCalls at ht
    split at ht
    · simp at ht
    · split_ifs at ht
      · exact (h.finish key).arm_nonneg (List.mem_singleton.mp ht).symm
      · simp at ht

end Arms

namespace Sender.Calling

open StringManager

variable {now : ℚ} {s s' : Sender} {pkt : Packet} {calls : List Call}

theorem sendLoop_arms {σ : Type} [StringManager σ] {fuel : ℕ} {w w' : SlidingWindow}
    {v v' : VirtualTimer} {str str' : σ} (h : v.Pending now)
    (hs : sendLoop now fuel w v str pkt = some (w', v', str', calls)) :
    Arms now v.front calls v' := by
  induction fuel generalizing w v str pkt calls with
  | zero => cases hs
  | succ fuel ih =>
    rw [sendLoop] at hs
    split_ifs at hs with he
    · obtain ⟨-, rfl, -, rfl⟩ := by simpa using hs
      exact .nil h
    · cases hsend : w.send with
      | none =>
        rw [hsend] at hs
        obtain ⟨-, rfl, -, rfl⟩ := by simpa using hs
        exact .nil h
      | some r =>
        rw [hsend] at hs
        obtain ⟨⟨str₁, pkt₁⟩, -, hs⟩ := Option.bind_eq_some_iff.mp hs
        obtain ⟨w₁, -, hs⟩ := Option.bind_eq_some_iff.mp hs
        obtain ⟨v₁, hv, hs⟩ := Option.bind_eq_some_iff.mp hs
        obtain ⟨⟨w₂, v₂, str₂, calls₂⟩, hloop, hs⟩ := Option.bind_eq_some_iff.mp hs
        obtain ⟨rfl, rfl, rfl, rfl⟩ := by simpa using hs
        have hp := h.start (by norm_num) hv
        exact ((Arms.arm hp).packet pkt₁).append (ih hp hloop)

theorem fromUpperLayer_arms {msg : List Byte} (h : s.timer.Pending now)
    (hs : fromUpperLayer now pkt msg s = some (s', calls)) :
    Arms now s.timer.front calls s'.timer := by
  rw [fromUpperLayer] at hs
  split_ifs at hs with he hw
  · obtain ⟨b, -, hs⟩ := Option.map_eq_some_iff.mp hs
    obtain ⟨rfl, rfl⟩ := Prod.mk.inj hs
    exact .nil h
  · obtain ⟨⟨w, v, data, calls'⟩, hloop, hs⟩ := Option.bind_eq_some_iff.mp hs
    have harms := sendLoop_arms h hloop
    simp only at hs
    split_ifs at hs with hd
    · obtain ⟨rfl, rfl⟩ := by simpa using hs
      exact harms
    · obtain ⟨b, -, hs⟩ := Option.bind_eq_some_iff.mp hs
      obtain ⟨rfl, rfl⟩ := by simpa using hs
      exact harms

theorem fromLowerLayer_arms {ackPkt : Packet} (h : s.timer.Pending now)
    (hs : fromLowerLayer now pkt ackPkt s = some (s', calls)) :
    Arms now s.timer.front calls s'.timer := by
  rw [fromLowerLayer] at hs
  split_ifs at hs with hacc
  · obtain ⟨rfl, rfl⟩ := by simpa using hs
    exact .nil h
  · obtain ⟨⟨moved, w⟩, -, hs⟩ := Option.bind_eq_some_iff.mp hs
    have hend := Arms.endCalls h (ackPkt 3).toInt
    simp only at hs
    split_ifs at hs with hm
    · obtain ⟨rfl, rfl⟩ := by simpa using hs
      exact hend
    · obtain ⟨⟨w', v, b, calls'⟩, hloop, hs⟩ := Option.bind_eq_some_iff.mp hs
      obtain ⟨rfl, rfl⟩ := by simpa using hs
      exact hend.append (sendLoop_arms hend.pending hloop)

theorem timeout_arms (h : s.timer.Pending now) (d : Option ℚ)
    (hs : timeout now s = some (s', calls)) : Arms now d calls s'.timer := by
  rw [timeout] at hs
  split at hs
  · cases hs
  · rename_i seqN t rs hr
    obtain ⟨pkt, -, hs⟩ := Option.bind_eq_some_iff.mp hs
    obtain ⟨v, hv, hs⟩ := Option.bind_eq_some_iff.mp hs
    obtain ⟨rfl, rfl⟩ := by simpa using hs
    have hp : VirtualTimer.Pending { s.timer with records := rs } now :=
      h.sublist (hr ▸ List.sublist_cons_self _ rs)
    have harm := hp.start (by norm_num) hv
    exact ((Arms.arm harm).packet pkt).append (.arm harm)

end Sender.Calling

end Calls

def SimEvent.timeout : ℚ × SimEvent → Option (ℚ × ℕ)
  | (t, .senderTimeout id) => some (t, id)
  | _ => none

namespace Simulation

/-- The timer is set for a time, if for any: the chain has this one timeout. -/
def Armed (s : Simulation) : Option ℚ → Prop
  | none => s.senderTimer = none ∧ s.core.events.filterMap SimEvent.timeout = []
  | some t => ∃ id, s.senderTimer = some id ∧
      s.core.events.filterMap SimEvent.timeout = [(t, id)]

structure Ticks (s : Simulation) (d : Option ℚ) : Prop where
  sorted : Agenda.Sorted s.core.events
  ahead : ∀ e ∈ s.core.events, s.core.simTime ≤ e.1
  armed : s.Armed d

/-- The chain is in order and not in the past, and the timer is set for the record in front of the
virtual timers, which are in order as well. -/
structure Clocked (s : Simulation) : Prop where
  ticks : s.Ticks s.sender.timer.front
  timers : s.sender.timer.Pending s.core.simTime

structure SameParties (s s' : Simulation) : Prop where
  simTime : s'.core.simTime = s.core.simTime
  sender : s'.sender = s.sender
  receiver : s'.receiver = s.receiver
  generateCnt : s'.generateCnt = s.generateCnt
  verifyCnt : s'.verifyCnt = s.verifyCnt
  totCharsSent : s'.totCharsSent = s.totCharsSent
  totCharsDelivered : s'.totCharsDelivered = s.totCharsDelivered
  messageVerificationPassed : s'.messageVerificationPassed = s.messageVerificationPassed

theorem SameParties.refl (s : Simulation) : s.SameParties s :=
  ⟨rfl, rfl, rfl, rfl, rfl, rfl, rfl, rfl⟩

theorem SameParties.trans {s t u : Simulation} (h : s.SameParties t) (h' : t.SameParties u) :
    s.SameParties u :=
  ⟨h'.simTime.trans h.simTime, h'.sender.trans h.sender, h'.receiver.trans h.receiver,
    h'.generateCnt.trans h.generateCnt, h'.verifyCnt.trans h.verifyCnt,
    h'.totCharsSent.trans h.totCharsSent, h'.totCharsDelivered.trans h.totCharsDelivered,
    h'.messageVerificationPassed.trans h.messageVerificationPassed⟩

variable {p : Params} {s s' : Simulation} {d : Option ℚ} {t : ℚ}

@[simp] theorem schedule_simTime {ε : Type} (c : EventChain ε) (t : ℚ) (e : ε) :
    (c.schedule t e).simTime = c.simTime := by
  unfold EventChain.schedule
  split_ifs <;> rfl

theorem schedule_events {ε : Type} {c : EventChain ε} (h : c.simTime ≤ t) (e : ε) :
    (c.schedule t e).events = Agenda.enter t e c.events := by
  rw [EventChain.schedule, if_neg (not_lt.mpr h)]

theorem stopTimer_same (s : Simulation) : s.SameParties s.stopTimer := by
  unfold stopTimer
  split
  · exact .refl s
  · exact ⟨rfl, rfl, rfl, rfl, rfl, rfl, rfl, rfl⟩

theorem toLowerLayer_same (event : Packet → Bool → SimEvent) (pkt : Packet) :
    s.SameParties (s.toLowerLayer p event pkt) := by
  unfold toLowerLayer
  split
  · exact ⟨rfl, rfl, rfl, rfl, rfl, rfl, rfl, rfl⟩
  · exact ⟨schedule_simTime .., rfl, rfl, rfl, rfl, rfl, rfl, rfl⟩

theorem call_same (c : Call) : s.SameParties (s.call p c) := by
  cases c with
  | startTimer timeout =>
    have h := stopTimer_same s
    exact h.trans ⟨schedule_simTime .., rfl, rfl, rfl, rfl, rfl, rfl, rfl⟩
  | stopTimer => exact stopTimer_same s
  | toLowerLayer pkt => exact toLowerLayer_same _ pkt

theorem foldl_same {α : Type} {f : Simulation → α → Simulation}
    (hf : ∀ s a, SameParties s (f s a)) (l : List α) (s : Simulation) :
    s.SameParties (l.foldl f s) := by
  induction l generalizing s with
  | nil => exact .refl s
  | cons a l ih => exact (hf s a).trans (ih (f s a))

theorem Armed.congr (h : s.Armed d) (hid : s'.senderTimer = s.senderTimer)
    (hev : s'.core.events.filterMap SimEvent.timeout =
      s.core.events.filterMap SimEvent.timeout) : s'.Armed d := by
  cases d with
  | none => exact ⟨hid.trans h.1, hev.trans h.2⟩
  | some t =>
    obtain ⟨id, hi, he⟩ := h
    exact ⟨id, hid.trans hi, hev.trans he⟩

theorem Ticks.schedule (h : s.Ticks d) {e : SimEvent} (hs : s'.core = s.core.schedule t e)
    (ht : s.core.simTime ≤ t) (he : SimEvent.timeout (t, e) = none)
    (hid : s'.senderTimer = s.senderTimer) : s'.Ticks d := by
  have hev : s'.core.events = Agenda.enter t e s.core.events := by rw [hs, schedule_events ht]
  have hnow : s'.core.simTime = s.core.simTime := by rw [hs, schedule_simTime]
  constructor
  · rw [hev]
    exact h.sorted.enter t e
  · rw [hev, hnow]
    intro x hx
    rcases Agenda.mem_enter.mp hx with rfl | hx
    · exact ht
    · exact h.ahead x hx
  · exact h.armed.congr hid (by rw [hev, Agenda.filterMap_enter_of_none he])

theorem filterMap_cancel {id : ℕ} {es : List (ℚ × SimEvent)}
    (h : es.filterMap SimEvent.timeout = [(t, id)]) :
    (es.eraseP fun e => e.2.isTimeout id).filterMap SimEvent.timeout = [] := by
  induction es with
  | nil => cases h
  | cons e es ih =>
    obtain ⟨t', e⟩ := e
    rw [List.eraseP_cons]
    cases e with
    | senderTimeout id' =>
      obtain ⟨he, hes⟩ := List.cons.inj h
      obtain ⟨-, rfl⟩ := Prod.mk.inj he
      simpa [SimEvent.isTimeout] using hes
    | senderFromUpperLayer => exact ih h
    | senderFromLowerLayer pkt c => exact ih h
    | receiverFromLowerLayer pkt c => exact ih h

theorem Ticks.stopTimer (h : s.Ticks d) : s.stopTimer.Ticks none := by
  have harmed := h.armed
  unfold Simulation.stopTimer
  cases d with
  | none =>
    rw [harmed.1]
    exact h
  | some t =>
    obtain ⟨id, hid, hev⟩ := harmed
    rw [hid]
    have hsub : (s.core.events.eraseP fun e => e.2.isTimeout id).Sublist s.core.events :=
      List.eraseP_sublist
    exact ⟨h.sorted.sublist hsub, fun e he => h.ahead e (hsub.subset he), rfl,
      filterMap_cancel hev⟩

theorem Ticks.startTimer (h : s.Ticks d) (ht : 0 ≤ t) :
    (s.startTimer t).Ticks (some (s.core.simTime + t)) := by
  have hstop := h.stopTimer
  have hnow := s.stopTimer_same.simTime
  have hle : s.stopTimer.core.simTime ≤ s.stopTimer.core.simTime + t := le_add_of_nonneg_right ht
  have hev := schedule_events hle (.senderTimeout s.stopTimer.allocated)
  constructor
  · exact hev ▸ hstop.sorted.enter _ _
  · intro x hx
    simp only [Simulation.startTimer, schedule_simTime] at hx ⊢
    rcases Agenda.mem_enter.mp (hev ▸ hx) with rfl | hx
    · exact hle
    · exact hstop.ahead x hx
  · refine ⟨s.stopTimer.allocated, rfl, ?_⟩
    simp only [Simulation.startTimer]
    rw [hev, hstop.sorted.filterMap_enter, hstop.armed.2, hnow]
    · rfl
    · intro e he hsome
      have hnone := List.filterMap_eq_nil_iff.mp hstop.armed.2 e he
      rw [hnone] at hsome
      cases hsome

/-- A packet that is not corrupted arrives as it is, and a packet takes the normal latency or, at
the rate for it, a random time. -/
theorem channel_some {draws draws' : ℕ} {pkt pkt' : Packet} {c : Bool}
    (h : p.channel draws pkt = (some (pkt', c, t), draws')) : (c = false → pkt' = pkt) ∧
      (t = pktLatency ∨
        ∃ i, p.random i < p.outoforderRate ∧ t = pktLatency * 2 * p.random (i + 1)) := by
  unfold Params.channel at h
  split_ifs at h with hloss hcorrupt
  · simp at h
  · dsimp only at h
    split_ifs at h with hlate
    · obtain ⟨⟨rfl, rfl, rfl⟩, -⟩ := by simpa using h
      exact ⟨by simp, Or.inr ⟨_, hlate, rfl⟩⟩
    · obtain ⟨⟨rfl, rfl, rfl⟩, -⟩ := by simpa using h
      exact ⟨by simp, Or.inl rfl⟩
  · dsimp only at h
    split_ifs at h with hlate
    · obtain ⟨⟨rfl, rfl, rfl⟩, -⟩ := by simpa using h
      exact ⟨by simp, Or.inr ⟨_, hlate, rfl⟩⟩
    · obtain ⟨⟨rfl, rfl, rfl⟩, -⟩ := by simpa using h
      exact ⟨by simp, Or.inl rfl⟩

theorem channel_nonneg (hp : p.Accepted) {draws draws' : ℕ} {pkt pkt' : Packet} {c : Bool}
    (h : p.channel draws pkt = (some (pkt', c, t), draws')) : 0 ≤ t := by
  rcases (channel_some h).2 with rfl | ⟨i, -, rfl⟩
  · norm_num [pktLatency]
  · exact mul_nonneg (by norm_num [pktLatency]) (hp.random _).1

theorem Ticks.toLowerLayer (hp : p.Accepted) (h : s.Ticks d) {event : Packet → Bool → SimEvent}
    (he : ∀ t pkt c, SimEvent.timeout (t, event pkt c) = none) (pkt : Packet) :
    (s.toLowerLayer p event pkt).Ticks d := by
  unfold Simulation.toLowerLayer
  split
  · exact ⟨h.sorted, h.ahead, h.armed⟩
  · rename_i hch
    exact h.schedule rfl (le_add_of_nonneg_right (channel_nonneg hp hch)) (he _ _ _) rfl

theorem Ticks.call (hp : p.Accepted) (h : s.Ticks d) {c : Call}
    (hc : ∀ t, c = .startTimer t → 0 ≤ t) :
    (s.call p c).Ticks (deadline s.core.simTime d c) := by
  cases c with
  | startTimer t => exact h.startTimer (hc t rfl)
  | stopTimer => exact h.stopTimer
  | toLowerLayer pkt => exact h.toLowerLayer hp (fun _ _ _ => rfl) pkt

theorem Ticks.calls (hp : p.Accepted) {calls : List Call} (h : s.Ticks d)
    (hc : ∀ t, .startTimer t ∈ calls → 0 ≤ t) :
    (calls.foldl (Simulation.call p) s).Ticks (calls.foldl (deadline s.core.simTime) d) := by
  induction calls generalizing s d with
  | nil => exact h
  | cons c calls ih =>
    have hcall := h.call hp (c := c) fun t ht => hc t (ht ▸ List.mem_cons_self)
    have hnow : (s.call p c).core.simTime = s.core.simTime := (call_same c).simTime
    have hrest := ih hcall fun t ht => hc t (List.mem_cons_of_mem _ ht)
    rwa [hnow] at hrest

theorem Ticks.acks (hp : p.Accepted) (h : s.Ticks d) (acks : List Packet) :
    (acks.foldl (receiverToLowerLayer p) s).Ticks d := by
  induction acks generalizing s with
  | nil => exact h
  | cons ack acks ih => exact ih (h.toLowerLayer hp (fun _ _ _ => rfl) ack)

theorem senderCalls_same (sender : Sender) (calls : List Call) :
    SameParties { s with sender := sender } (s.senderCalls p (sender, calls)) :=
  foldl_same (fun _ c => call_same c) calls _

theorem clocked_senderCalls (hp : p.Accepted) (h : s.Ticks d) {sender : Sender}
    {calls : List Call} (ha : Arms s.core.simTime d calls sender.timer) :
    (s.senderCalls p (sender, calls)).Clocked := by
  have hsame := senderCalls_same (p := p) (s := s) sender calls
  have hbegin : Ticks { s with sender := sender } d := ⟨h.sorted, h.ahead, h.armed⟩
  constructor
  · rw [hsame.sender, ← ha.front]
    exact hbegin.calls hp ha.delays
  · rw [hsame.sender, hsame.simTime]
    exact ha.pending

theorem Clocked.recur (hp : p.Accepted) (h : s.Clocked) : (s.recur p).Clocked := by
  unfold Simulation.recur
  split_ifs
  · have hle : s.core.simTime ≤ s.core.simTime + p.msgArrivalint * 2 * p.random s.draws :=
      le_add_of_nonneg_right (mul_nonneg (mul_nonneg hp.msgArrivalint.le (by norm_num))
        (hp.random _).1)
    exact ⟨h.ticks.schedule rfl hle rfl rfl, by simpa using h.timers⟩
  · exact h

/-- The timer is set for the record in front, unless the event at hand is its expiry. -/
inductive Due (s : Simulation) : SimEvent → Prop
  | other {e : SimEvent} (hne : ∀ id, e ≠ .senderTimeout id)
      (h : s.Ticks s.sender.timer.front) : s.Due e
  | timeout {id : ℕ} (hid : s.senderTimer = some id)
      (hf : s.sender.timer.front = some s.core.simTime)
      (h : Ticks { s with senderTimer := none } none) : s.Due (.senderTimeout id)

theorem Ticks.tail (h : s.Ticks d) {e : SimEvent} {es : List (ℚ × SimEvent)}
    (hev : s.core.events = (t, e) :: es) (he : SimEvent.timeout (t, e) = none) :
    (s.advance ⟨t, es⟩).Ticks d := by
  have hsorted := h.sorted
  rw [hev] at hsorted
  constructor
  · exact hsorted.tail
  · intro x hx
    exact hsorted.head_le x (List.mem_cons_of_mem _ hx)
  · exact h.armed.congr rfl (by rw [hev, List.filterMap_cons_none he]; rfl)

theorem Clocked.next (h : s.Clocked) {e : SimEvent} {es : List (ℚ × SimEvent)}
    (hev : s.core.events = (t, e) :: es) :
    s.sender.timer.Pending t ∧ (s.advance ⟨t, es⟩).Due e := by
  have hsorted := h.ticks.sorted
  have harmed := h.ticks.armed
  rw [hev] at hsorted
  constructor
  · refine h.timers.mono fun d hd => ?_
    rw [Option.mem_def.mp hd] at harmed
    obtain ⟨id, -, hone⟩ := harmed
    obtain ⟨x, hx, hxd⟩ := List.mem_filterMap.mp (hone ▸ List.mem_singleton_self (d, id))
    obtain rfl : x.1 = d := by
      obtain ⟨t', _ | _ | _ | _⟩ := x <;> simp_all [SimEvent.timeout]
    exact hsorted.head_le x (hev ▸ hx)
  · cases e with
    | senderTimeout id =>
      cases hf : s.sender.timer.front with
      | none =>
        rw [hf, Armed, hev] at harmed
        cases harmed.2
      | some d =>
        rw [hf] at harmed
        obtain ⟨id', hid, hone⟩ := harmed
        rw [hev] at hone
        obtain ⟨he, hnone⟩ := List.cons.inj hone
        obtain ⟨rfl, rfl⟩ := Prod.mk.inj he
        exact .timeout hid hf ⟨hsorted.tail,
          fun x hx => hsorted.head_le x (List.mem_cons_of_mem _ hx), rfl, hnone⟩
    | senderFromUpperLayer => exact .other (fun id he => nomatch he) (h.ticks.tail hev rfl)
    | senderFromLowerLayer pkt c => exact .other (fun id he => nomatch he) (h.ticks.tail hev rfl)
    | receiverFromLowerLayer pkt c => exact .other (fun id he => nomatch he) (h.ticks.tail hev rfl)

theorem Ticks.congr (h : s.Ticks d) (hc : s'.core = s.core)
    (hid : s'.senderTimer = s.senderTimer) : s'.Ticks d := by
  constructor
  · rw [hc]
    exact h.sorted
  · rw [hc]
    exact h.ahead
  · exact h.armed.congr hid (by rw [hc])

theorem receiverToUpperLayer_clocked (h : s.Clocked) (msg : List Byte) :
    (s.receiverToUpperLayer msg).Clocked :=
  ⟨h.ticks.congr rfl rfl, h.timers⟩

theorem Clocked.receiverCalls (hp : p.Accepted) (h : s.Clocked) (receiver : Receiver)
    (acks : List Packet) (msg : Option (List Byte)) :
    (s.receiverCalls p (receiver, acks, msg)).Clocked := by
  have hsame := foldl_same (f := receiverToLowerLayer p) (fun _ pkt => toLowerLayer_same _ pkt) acks
    { s with receiver := receiver }
  have hbegin : Ticks { s with receiver := receiver } s.sender.timer.front :=
    h.ticks.congr rfl rfl
  have hacks : (acks.foldl (receiverToLowerLayer p) { s with receiver := receiver }).Clocked := by
    constructor
    · rw [hsame.sender]
      exact hbegin.acks hp acks
    · rw [hsame.sender, hsame.simTime]
      exact h.timers
  cases msg with
  | none => exact hacks
  | some msg => exact receiverToUpperLayer_clocked hacks msg

theorem handle_clocked (hp : p.Accepted) {e : SimEvent}
    (hpend : s.sender.timer.Pending s.core.simTime) (hdue : s.Due e)
    (hs : s.handle p e = some s') : s'.Clocked := by
  cases hdue with
  | other hne hticks =>
    cases e with
    | senderFromUpperLayer =>
      obtain ⟨⟨sender, calls⟩, hx, rfl⟩ := Option.map_eq_some_iff.mp hs
      have harms := Sender.Calling.fromUpperLayer_arms (by exact hpend) hx
      have hgen : (s.generateMsg p).2.Ticks s.sender.timer.front := hticks.congr rfl rfl
      exact (clocked_senderCalls hp hgen harms).recur hp
    | senderFromLowerLayer pkt c =>
      obtain ⟨⟨sender, calls⟩, hx, rfl⟩ := Option.map_eq_some_iff.mp hs
      exact clocked_senderCalls hp hticks (Sender.Calling.fromLowerLayer_arms hpend hx)
    | senderTimeout id => exact absurd rfl (hne id)
    | receiverFromLowerLayer pkt c =>
      obtain ⟨⟨receiver, acks, msg⟩, hx, rfl⟩ := Option.map_eq_some_iff.mp hs
      exact Clocked.receiverCalls hp ⟨hticks, hpend⟩ receiver acks msg
  | timeout hid hf hticks =>
    obtain ⟨⟨sender, calls⟩, hx, rfl⟩ := Option.map_eq_some_iff.mp hs
    exact clocked_senderCalls hp hticks (Sender.Calling.timeout_arms hpend none hx)

theorem cycle_of_nil (hev : s.core.events = []) : s.cycle p = some s := by
  rw [cycle, EventChain.nextEvent, hev]

theorem cycle_of_cons {e : SimEvent} {es : List (ℚ × SimEvent)}
    (hev : s.core.events = (t, e) :: es) : s.cycle p = (s.advance ⟨t, es⟩).handle p e := by
  rw [cycle, EventChain.nextEvent, hev]

theorem Clocked.cycle (hp : p.Accepted) (h : s.Clocked) (hs : s.cycle p = some s') :
    s'.Clocked := by
  cases hev : s.core.events with
  | nil =>
    rw [cycle_of_nil hev] at hs
    exact Option.some.inj hs ▸ h
  | cons x es =>
    rw [cycle_of_cons hev] at hs
    obtain ⟨hpend, hdue⟩ := h.next hev
    exact handle_clocked hp hpend hdue hs

theorem clocked_init (p : Params) : (simulation p).init.Clocked := by
  refine ⟨⟨?_, ?_, rfl, rfl⟩, ?_, ?_⟩
  · exact List.pairwise_singleton _ _
  · simp [simulation, EventChain.schedule, Agenda.enter]
  · exact .nil
  · simp [simulation]

end Simulation

/-- Whatever is lost, corrupted or late: the chain stays in order, the timer is that of the record
in front, and an expiry finds the record that ends at this time. -/
theorem simulation_clocked {p : Params} (hp : p.Accepted) {es : List Unit} {s : Simulation}
    (h : (simulation p).run (simulation p).init es = some s) :
    s.Clocked ∧ ∀ t id rest, s.core.events = (t, .senderTimeout id) :: rest →
      s.senderTimer = some id ∧ ∃ key rs, s.sender.timer.records = (key, t) :: rs := by
  have hs : s.Clocked := System.invariant (I := Simulation.Clocked)
    (fun _ _ _ hi hstep => hi.cycle hp hstep) h (Simulation.clocked_init p)
  refine ⟨hs, fun t id rest hev => ?_⟩
  cases (hs.next hev).2 with
  | other hne => exact absurd rfl (hne id)
  | timeout hid hf =>
    refine ⟨hid, ?_⟩
    obtain ⟨⟨key, t'⟩, hr, rfl⟩ := Option.map_eq_some_iff.mp hf
    obtain ⟨rs, hrs⟩ := List.head?_eq_some_iff.mp hr
    exact ⟨key, rs, hrs⟩

def lossy : Params where
  simTime := 1 / 10
  msgArrivalint := 1 / 4
  msgSize := 1
  outoforderRate := 0
  lossRate := 1 / 4
  corruptRate := 1 / 4
  random i := if i = 1001 ∨ i = 1004 then 0 else 3 / 4
  stack _ _ := 0

theorem accepted_lossy : lossy.Accepted where
  simTime := by decide +kernel
  msgArrivalint := by decide +kernel
  msgSize := by decide +kernel
  outoforderRate := by decide +kernel
  lossRate := by decide +kernel
  corruptRate := by decide +kernel
  randtest := by decide +kernel
  random i := by
    simp only [lossy]
    split_ifs <;> decide +kernel

theorem simulation_clocked_lossy :
    ∃ s, (simulation lossy).run (simulation lossy).init [(), ()] = some s ∧ s.Clocked :=
  have h := (simulation lossy).run_after (simulation lossy).init [(), ()] (by decide +kernel)
  ⟨_, h, (simulation_clocked accepted_lossy h).1⟩

end DistLab.Rdt
