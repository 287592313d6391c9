import DistLab.Rdt.Clock
import DistLab.Rdt.Reactions

/-! # Sessions of the simulator

When no packet is out of order, packets of one direction arrive in the order they are sent in.
A packet on its way is then at most one window behind those that have arrived before it, which
is what the handlers rely on. If corrupted packets are rejected, no assertion fails, the
verification of the messages passes, and a session that is over is free of errors.
-/

namespace DistLab.Rdt

/-- The packets of one direction in the order they arrive in. One that is not corrupted has a
number, at most a window below those that have arrived before it. -/
inductive Flying (Good : ℕ → Packet → Prop) : ℕ → List (Packet × Bool) → Prop
  | nil {bound : ℕ} : Flying Good bound []
  | corrupted {bound : ℕ} {pkt : Packet} {ps : List (Packet × Bool)} :
      Flying Good bound ps → Flying Good bound ((pkt, true) :: ps)
  | packet {bound no : ℕ} {pkt : Packet} {ps : List (Packet × Bool)} :
      Good no pkt → bound ≤ no + kWindowSize → Flying Good (max bound (no + 1)) ps →
      Flying Good bound ((pkt, false) :: ps)

namespace Flying

variable {Good Good' : ℕ → Packet → Prop} {bound a : ℕ} {ps : List (Packet × Bool)}
  {pkt : Packet} {c : Bool}

theorem mono (h : Flying Good bound ps) (hG : ∀ no pkt, Good no pkt → Good' no pkt) :
    Flying Good' bound ps := by
  induction h with
  | nil => exact .nil
  | corrupted _ ih => exact .corrupted ih
  | packet hg hb _ ih => exact .packet (hG _ _ hg) hb ih

theorem append (h : Flying Good bound ps) (hb : bound ≤ a + kWindowSize)
    (hlt : ∀ no pkt, Good no pkt → no < a + kWindowSize) (hg : c = false → Good a pkt) :
    Flying Good bound (ps ++ [(pkt, c)]) := by
  induction h with
  | nil =>
    cases c with
    | true => exact .corrupted .nil
    | false => exact .packet (hg rfl) hb .nil
  | corrupted _ ih => exact .corrupted (ih hb)
  | packet hgood hle _ ih => exact .packet hgood hle (ih (max_le hb (hlt _ _ hgood)))

end Flying

namespace SimEvent

def data : ℚ × SimEvent → Option (Packet × Bool)
  | (_, .receiverFromLowerLayer pkt c) => some (pkt, c)
  | _ => none

def ack : ℚ × SimEvent → Option (Packet × Bool)
  | (_, .senderFromLowerLayer pkt c) => some (pkt, c)
  | _ => none

def isPacket : SimEvent → Bool
  | .senderFromLowerLayer _ _ => true
  | .receiverFromLowerLayer _ _ => true
  | _ => false

end SimEvent

namespace Simulation

variable {p : Params} {s s' : Simulation} {β : Type} {f : ℚ × SimEvent → Option β}

def data (s : Simulation) : List (Packet × Bool) := s.core.events.filterMap SimEvent.data

def acks (s : Simulation) : List (Packet × Bool) := s.core.events.filterMap SimEvent.ack

def Prompt (s : Simulation) : Prop :=
  ∀ e ∈ s.core.events, e.2.isPacket = true → e.1 ≤ s.core.simTime + pktLatency

section Chain

theorem schedule_filterMap {c : EventChain SimEvent} {t : ℚ} {e : SimEvent}
    (h : f (t, e) = none) : (c.schedule t e).events.filterMap f = c.events.filterMap f := by
  unfold EventChain.schedule
  split_ifs
  · rfl
  · exact Agenda.filterMap_enter_of_none h c.events

theorem mem_schedule {c : EventChain SimEvent} {t : ℚ} {e : SimEvent} {x : ℚ × SimEvent}
    (h : x ∈ (c.schedule t e).events) : x = (t, e) ∨ x ∈ c.events := by
  unfold EventChain.schedule at h
  split_ifs at h
  · exact Or.inr h
  · exact Agenda.mem_enter.mp h

theorem stopTimer_filterMap (hf : ∀ t id, f (t, .senderTimeout id) = none) :
    s.stopTimer.core.events.filterMap f = s.core.events.filterMap f := by
  unfold stopTimer
  split
  · rfl
  · apply Agenda.filterMap_eraseP_of_none
    rintro ⟨t, e⟩ he
    cases e with
    | senderTimeout id => exact hf t id
    | senderFromUpperLayer => cases he
    | senderFromLowerLayer pkt c => cases he
    | receiverFromLowerLayer pkt c => cases he

theorem startTimer_filterMap (hf : ∀ t id, f (t, .senderTimeout id) = none) (timeout : ℚ) :
    (s.startTimer timeout).core.events.filterMap f = s.core.events.filterMap f :=
  (schedule_filterMap (hf _ _)).trans (stopTimer_filterMap hf)

theorem toLowerLayer_filterMap {event : Packet → Bool → SimEvent}
    (hf : ∀ t pkt c, f (t, event pkt c) = none) (pkt : Packet) :
    (s.toLowerLayer p event pkt).core.events.filterMap f = s.core.events.filterMap f := by
  unfold toLowerLayer
  split
  · rfl
  · exact schedule_filterMap (hf _ _ _)

theorem Prompt.stopTimer (h : s.Prompt) : s.stopTimer.Prompt := by
  unfold Simulation.stopTimer
  split
  · exact h
  · intro e he
    exact h e (List.eraseP_sublist.subset he)

theorem Prompt.schedule (h : s.Prompt) {t : ℚ} {e : SimEvent}
    (hs : s'.core = s.core.schedule t e)
    (ht : e.isPacket = true → t ≤ s.core.simTime + pktLatency) : s'.Prompt := by
  intro x hx hp
  rw [hs] at hx ⊢
  rw [schedule_simTime]
  rcases mem_schedule hx with rfl | hx
  · exact ht hp
  · exact h x hx hp

theorem channel_latency (hp : p.Accepted) (h0 : p.outoforderRate = 0) {draws draws' : ℕ}
    {pkt pkt' : Packet} {c : Bool} {t : ℚ}
    (h : p.channel draws pkt = (some (pkt', c, t), draws')) : t = pktLatency := by
  rcases (channel_some h).2 with ht | ⟨i, hi, -⟩
  · exact ht
  · rw [h0] at hi
    exact absurd (hp.random i).1 (not_le.mpr hi)

theorem Prompt.toLowerLayer (hp : p.Accepted) (h0 : p.outoforderRate = 0) (h : s.Prompt)
    (event : Packet → Bool → SimEvent) (pkt : Packet) : (s.toLowerLayer p event pkt).Prompt := by
  unfold Simulation.toLowerLayer
  split
  · exact h
  · rename_i hch
    exact h.schedule rfl fun _ => by rw [channel_latency hp h0 hch]

theorem Prompt.call (hp : p.Accepted) (h0 : p.outoforderRate = 0) (h : s.Prompt) (c : Call) :
    (s.call p c).Prompt := by
  cases c with
  | startTimer t => exact h.stopTimer.schedule rfl fun he => nomatch he
  | stopTimer => exact h.stopTimer
  | toLowerLayer pkt => exact h.toLowerLayer hp h0 _ pkt

theorem recur_same (p : Params) : s.SameParties (s.recur p) := by
  unfold recur
  split_ifs
  · exact ⟨schedule_simTime .., rfl, rfl, rfl, rfl, rfl, rfl, rfl⟩
  · exact .refl s

theorem recur_filterMap (p : Params) (hf : ∀ t, f (t, .senderFromUpperLayer) = none) :
    (s.recur p).core.events.filterMap f = s.core.events.filterMap f := by
  unfold recur
  split_ifs
  · exact schedule_filterMap (hf _)
  · rfl

theorem Prompt.recur (h : s.Prompt) (p : Params) : (s.recur p).Prompt := by
  unfold Simulation.recur
  split_ifs
  · exact h.schedule rfl fun he => nomatch he
  · exact h

theorem Prompt.advance (h : s.Prompt) {t : ℚ} {e : SimEvent} {es : List (ℚ × SimEvent)}
    (hev : s.core.events = (t, e) :: es) (ht : s.core.simTime ≤ t) :
    (s.advance ⟨t, es⟩).Prompt := by
  intro x hx hp
  have hle := h x (hev ▸ List.mem_cons_of_mem _ hx) hp
  exact hle.trans (add_le_add_left ht _)

end Chain

section Lanes

variable {Good : ℕ → Packet → Prop} {bound a : ℕ} {pkt : Packet} {d : Option ℚ}

theorem flying_toLowerLayer (hp : p.Accepted) (h0 : p.outoforderRate = 0) (ht : s.Ticks d)
    (hpr : s.Prompt) {event : Packet → Bool → SimEvent}
    {f : ℚ × SimEvent → Option (Packet × Bool)}
    (hf : ∀ e, (f e).isSome = true → e.2.isPacket = true)
    (hfe : ∀ t pkt c, f (t, event pkt c) = some (pkt, c))
    (h : Flying Good bound (s.core.events.filterMap f)) (hb : bound ≤ a + kWindowSize)
    (hlt : ∀ no pkt, Good no pkt → no < a + kWindowSize) (hg : Good a pkt) :
    Flying Good bound ((s.toLowerLayer p event pkt).core.events.filterMap f) := by
  unfold Simulation.toLowerLayer
  split
  · exact h
  · rename_i pkt' c t draws hch
    obtain rfl := channel_latency hp h0 hch
    have hle : s.core.simTime ≤ s.core.simTime + pktLatency :=
      le_add_of_nonneg_right (channel_nonneg hp hch)
    simp only [schedule_events hle]
    rw [ht.sorted.filterMap_enter fun e he hsome => hpr e he (hf e hsome), hfe]
    exact h.append hb hlt fun hc => (channel_some hch).1 hc ▸ hg

theorem flying_calls (hp : p.Accepted) (h0 : p.outoforderRate = 0) {calls : List Call}
    (ht : s.Ticks d) (hd : ∀ t, .startTimer t ∈ calls → 0 ≤ t) (hpr : s.Prompt)
    (h : Flying Good bound s.data)
    (hout : ∀ pkt ∈ packets calls, ∃ a, Good a pkt ∧ bound ≤ a + kWindowSize ∧
      ∀ no pkt, Good no pkt → no < a + kWindowSize) :
    (calls.foldl (Simulation.call p) s).Prompt ∧
      Flying Good bound (calls.foldl (Simulation.call p) s).data ∧
      (calls.foldl (Simulation.call p) s).acks = s.acks := by
  induction calls generalizing s d with
  | nil => exact ⟨hpr, h, rfl⟩
  | cons c calls ih =>
    have ht' := ht.call hp (c := c) fun t hc => hd t (hc ▸ List.mem_cons_self)
    have hd' : ∀ t, .startTimer t ∈ calls → 0 ≤ t := fun t hc => hd t (List.mem_cons_of_mem _ hc)
    have hpr' := hpr.call hp h0 c
    have hacks : (s.call p c).acks = s.acks := by
      cases c with
      | startTimer t => exact startTimer_filterMap (fun _ _ => rfl) t
      | stopTimer => exact stopTimer_filterMap fun _ _ => rfl
      | toLowerLayer pkt => exact toLowerLayer_filterMap (fun _ _ _ => rfl) pkt
    have hdata : Flying Good bound (s.call p c).data := by
      cases c with
      | startTimer t =>
        have hsame : (s.startTimer t).data = s.data := startTimer_filterMap (fun _ _ => rfl) t
        exact hsame.symm ▸ h
      | stopTimer =>
        have hsame : s.stopTimer.data = s.data := stopTimer_filterMap fun _ _ => rfl
        exact hsame.symm ▸ h
      | toLowerLayer pkt =>
        obtain ⟨a, hg, hb, hlt⟩ := hout pkt (mem_packets.mpr List.mem_cons_self)
        refine flying_toLowerLayer hp h0 ht hpr ?_ (fun _ _ _ => rfl) h hb hlt hg
        rintro ⟨t, e⟩ he
        cases e <;> first | rfl | cases he
    have hout' : ∀ pkt ∈ packets calls, ∃ a, Good a pkt ∧ bound ≤ a + kWindowSize ∧
        ∀ no pkt, Good no pkt → no < a + kWindowSize := fun pkt hm =>
      hout pkt (mem_packets.mpr (List.mem_cons_of_mem _ (mem_packets.mp hm)))
    obtain ⟨hpr₂, hdata₂, hacks₂⟩ := ih ht' hd' hpr' hdata hout'
    exact ⟨hpr₂, hdata₂, hacks₂.trans hacks⟩

theorem flying_acks (hp : p.Accepted) (h0 : p.outoforderRate = 0) {pkts : List Packet}
    (ht : s.Ticks d) (hpr : s.Prompt) (h : Flying Good bound s.acks)
    (hb : bound ≤ a + kWindowSize) (hlt : ∀ no pkt, Good no pkt → no < a + kWindowSize)
    (hg : ∀ pkt ∈ pkts, Good a pkt) :
    (pkts.foldl (receiverToLowerLayer p) s).Prompt ∧
      Flying Good bound (pkts.foldl (receiverToLowerLayer p) s).acks ∧
      (pkts.foldl (receiverToLowerLayer p) s).data = s.data := by
  induction pkts generalizing s with
  | nil => exact ⟨hpr, h, rfl⟩
  | cons pkt pkts ih =>
    have ht' : (s.receiverToLowerLayer p pkt).Ticks d :=
      ht.toLowerLayer hp (fun _ _ _ => rfl) pkt
    have hpr' : (s.receiverToLowerLayer p pkt).Prompt := hpr.toLowerLayer hp h0 _ pkt
    have hdata : (s.receiverToLowerLayer p pkt).data = s.data :=
      toLowerLayer_filterMap (fun _ _ _ => rfl) pkt
    have hacks : Flying Good bound (s.receiverToLowerLayer p pkt).acks := by
      refine flying_toLowerLayer hp h0 ht hpr ?_ (fun _ _ _ => rfl) h hb hlt
        (hg pkt List.mem_cons_self)
      rintro ⟨t, e⟩ he
      cases e <;> first | rfl | cases he
    obtain ⟨hpr₂, hacks₂, hdata₂⟩ := ih ht' hpr' hacks fun q hq =>
      hg q (List.mem_cons_of_mem _ hq)
    exact ⟨hpr₂, hacks₂, hdata₂.trans hdata⟩

end Lanes

end Simulation

section Messages

def stream (k n : ℕ) : List Byte := (List.range' k n).map fun i => digit (i % 10)

theorem stream_append (k m n : ℕ) : stream k m ++ stream (k + m) n = stream k (m + n) := by
  rw [stream, stream, stream, ← List.map_append, List.range'_append_1]

@[simp] theorem length_stream (k n : ℕ) : (stream k n).length = n := by simp [stream]

theorem stream_succ (k n : ℕ) : stream k (n + 1) = digit (k % 10) :: stream (k + 1) n := by
  rw [stream, List.range'_succ, List.map_cons]
  rfl

theorem fill_eq (k n : ℕ) : fill (k % 10) n = (stream k n, (k + n) % 10) := by
  induction n generalizing k with
  | zero => rfl
  | succ n ih =>
    have hnext : (k % 10 + 1) % 10 = (k + 1) % 10 := Nat.mod_add_mod k 10 1
    rw [fill, hnext, ih, stream_succ, Nat.add_right_comm k 1 n]
    rfl

theorem verify_stream (k n : ℕ) (passed : Bool) :
    verify (k % 10) passed (stream k n) = ((k + n) % 10, passed) := by
  induction n generalizing k with
  | zero => rfl
  | succ n ih =>
    have hnext : (k % 10 + 1) % 10 = (k + 1) % 10 := Nat.mod_add_mod k 10 1
    rw [stream_succ, verify, hnext, beq_self_eq_true, Bool.and_true, ih, Nat.add_right_comm k 1 n]
    rfl

end Messages

/-- The counters agree with the pipe, and the verification has not failed. -/
structure Tallies (s : Simulation) (p : Pipe Byte) : Prop where
  given : p.given = stream 0 s.totCharsSent
  generateCnt : s.generateCnt = s.totCharsSent % 10
  delivered : p.delivered.length = s.totCharsDelivered
  verifyCnt : s.verifyCnt = s.totCharsDelivered % 10
  passed : s.messageVerificationPassed = true

namespace Tallies

variable {s s' : Simulation} {p p' : Pipe Byte}

theorem delivered_le (h : Tallies s p) : s.totCharsDelivered ≤ s.totCharsSent := by
  have hle := p.delivered_isPrefix.length_le
  rwa [h.delivered, h.given, length_stream] at hle

theorem congr (h : Tallies s p) (hs : s.SameParties s') (hg : p'.given = p.given)
    (hd : p'.delivered = p.delivered) : Tallies s' p' where
  given := by rw [hg, h.given, hs.totCharsSent]
  generateCnt := by rw [hs.generateCnt, h.generateCnt, hs.totCharsSent]
  delivered := by rw [hd, h.delivered, hs.totCharsDelivered]
  verifyCnt := by rw [hs.verifyCnt, h.verifyCnt, hs.totCharsDelivered]
  passed := by rw [hs.messageVerificationPassed, h.passed]

theorem generateMsg (h : Tallies s p) (q : Params) (hg : p'.given = p.given ++ (s.generateMsg q).1)
    (hd : p'.delivered = p.delivered) : Tallies (s.generateMsg q).2 p' := by
  generalize hsize : (if ⌊q.random s.draws * 2 * q.msgSize⌋.toNat = 0 then 1
    else ⌊q.random s.draws * 2 * q.msgSize⌋.toNat) = size at *
  have hfill := fill_eq s.totCharsSent size
  rw [← h.generateCnt] at hfill
  have hmsg : (s.generateMsg q).1 = stream s.totCharsSent size := by
    simp only [Simulation.generateMsg, hsize, hfill]
  have hsent : (s.generateMsg q).2.totCharsSent = s.totCharsSent + size := by
    simp only [Simulation.generateMsg, hsize]
  constructor
  · rw [hg, h.given, hmsg, hsent, ← stream_append, Nat.zero_add]
  · rw [hsent]
    simp only [Simulation.generateMsg, hsize, hfill]
  · rw [hd]
    exact h.delivered
  · exact h.verifyCnt
  · exact h.passed

theorem receiverToUpperLayer (h : Tallies s p) {msg : List Byte} (hg : p'.given = p.given)
    (hd : p'.delivered = p.delivered ++ msg) : Tallies (s.receiverToUpperLayer msg) p' := by
  have hpre := p'.delivered_isPrefix
  rw [hd, hg, h.given] at hpre
  have hmsg : msg = stream s.totCharsDelivered msg.length := by
    obtain ⟨rest, hrest⟩ := hpre
    have hlen : s.totCharsSent = s.totCharsDelivered + (msg.length + rest.length) := by
      have := congrArg List.length hrest
      simp only [List.length_append, length_stream, h.delivered] at this
      omega
    rw [hlen, ← stream_append, List.append_assoc] at hrest
    have hright := (List.append_inj hrest (by rw [h.delivered, length_stream])).2
    rw [← stream_append, Nat.zero_add] at hright
    exact (List.append_inj hright (by rw [length_stream])).1
  have hverify := verify_stream s.totCharsDelivered msg.length s.messageVerificationPassed
  rw [← h.verifyCnt, ← hmsg] at hverify
  constructor
  · rw [hg]
    exact h.given
  · exact h.generateCnt
  · rw [hd, List.length_append, h.delivered]
    rfl
  · simp only [Simulation.receiverToUpperLayer, hverify]
  · simp only [Simulation.receiverToUpperLayer, hverify]
    exact h.passed

end Tallies

def Carried (pieces : List (List Byte)) (no : ℕ) (pkt : Packet) : Prop :=
  ∃ q, pieces[no]? = some q ∧ Carries pkt (no % 30) q

def Confirmed (r : Receiver) (R no : ℕ) (pkt : Packet) : Prop := Acks pkt (no % 30) ∧ r.Got R no

theorem Carried.append {pieces qs : List (List Byte)} {no : ℕ} {pkt : Packet}
    (h : Carried pieces no pkt) : Carried (pieces ++ qs) no pkt := by
  obtain ⟨q, hq, hc⟩ := h
  exact ⟨q, by rw [List.getElem?_append_left (List.getElem?_eq_some_iff.mp hq).1, hq], hc⟩

/-- The session is as far as the course says, and so are the packets on their way. -/
structure Session (s : Simulation) (g : Course) : Prop where
  conveys : Conveys g s.sender s.receiver
  prompt : s.Prompt
  data : Flying (Carried g.pipe.pieces) g.high s.data
  acks : Flying (Confirmed s.receiver g.pipe.out) g.top s.acks
  tallies : Tallies s g.pipe

def SimEvent.Detected : SimEvent → Prop
  | .senderFromLowerLayer pkt true => Sender.accepts pkt = false
  | .receiverFromLowerLayer pkt true => Receiver.accepts pkt = false
  | _ => True

instance : (e : SimEvent) → Decidable e.Detected
  | .senderFromLowerLayer pkt true => inferInstanceAs (Decidable (Sender.accepts pkt = false))
  | .receiverFromLowerLayer pkt true => inferInstanceAs (Decidable (Receiver.accepts pkt = false))
  | .senderFromLowerLayer _ false => isTrue trivial
  | .receiverFromLowerLayer _ false => isTrue trivial
  | .senderFromUpperLayer => isTrue trivial
  | .senderTimeout _ => isTrue trivial

def Simulation.Detects (s : Simulation) : Prop := ∀ x ∈ s.core.events.head?, x.2.Detected

instance (s : Simulation) : Decidable s.Detects :=
  inferInstanceAs (Decidable (∀ x ∈ s.core.events.head?, x.2.Detected))

namespace Session

variable {p : Params} {s : Simulation} {g : Course} {d : Option ℚ} {t : ℚ}

theorem senderCalls (hp : p.Accepted) (h0 : p.outoforderRate = 0) (ht : s.Ticks d)
    {sender : Sender} {calls : List Call} (ha : Arms s.core.simTime d calls sender.timer)
    (hc : Conveys g sender s.receiver) (hpr : s.Prompt)
    (hdata : Flying (Carried g.pipe.pieces) g.high s.data)
    (hacks : Flying (Confirmed s.receiver g.pipe.out) g.top s.acks)
    (hout : ∀ pkt ∈ packets calls, ∃ a q, g.base ≤ a ∧ g.pipe.pieces[a]? = some q ∧
      Carries pkt (a % 30) q) (htally : Tallies s g.pipe) :
    Session (s.senderCalls p (sender, calls)) g := by
  have hsame := Simulation.senderCalls_same (p := p) (s := s) sender calls
  have hbegin : Simulation.Ticks { s with sender := sender } d := ht.congr rfl rfl
  have hlen := hc.steady.tracks.holds.le
  have hhigh := hc.high_le
  obtain ⟨hpr', hdata', hacks'⟩ := Simulation.flying_calls hp h0 hbegin ha.delays hpr hdata <| by
    intro pkt hpkt
    obtain ⟨a, q, hB, hq, hcar⟩ := hout pkt hpkt
    refine ⟨a, ⟨q, hq, hcar⟩, by simp only [kWindowSize]; omega, ?_⟩
    rintro no pkt' ⟨q', hq', -⟩
    have := (List.getElem?_eq_some_iff.mp hq').1
    simp only [kWindowSize]
    omega
  constructor
  · rw [hsame.sender, hsame.receiver]
    exact hc
  · exact hpr'
  · exact hdata'
  · rw [hsame.receiver]
    exact hacks'.symm ▸ hacks
  · have htally' : Tallies { s with sender := sender } g.pipe :=
      ⟨htally.given, htally.generateCnt, htally.delivered, htally.verifyCnt, htally.passed⟩
    exact htally'.congr hsame rfl rfl

theorem recur (h : Session s g) (p : Params) : Session (s.recur p) g := by
  have hsame := Simulation.recur_same (s := s) p
  have hdata : (s.recur p).data = s.data := Simulation.recur_filterMap p fun _ => rfl
  have hacks : (s.recur p).acks = s.acks := Simulation.recur_filterMap p fun _ => rfl
  constructor
  · rw [hsame.sender, hsame.receiver]
    exact h.conveys
  · exact h.prompt.recur p
  · rw [hdata]
    exact h.data
  · rw [hsame.receiver, hacks]
    exact h.acks
  · exact h.tallies.congr hsame rfl rfl

theorem message (hp : p.Accepted) (h0 : p.outoforderRate = 0) (h : Session s g)
    (hpend : s.sender.timer.Pending s.core.simTime) (ht : s.Ticks s.sender.timer.front) :
    ∃ s' g', s.handle p .senderFromUpperLayer = some s' ∧ Session s' g' := by
  obtain ⟨sender, out, qs, hs, hm, hsteady⟩ :=
    h.conveys.steady.fromUpperLayer s.core.simTime (p.stack s.handled) (s.generateMsg p).1
  obtain ⟨calls, hcalls, rfl⟩ := exists_calls hs
  have hconv := h.conveys.send hm hsteady (by simp)
  have hgiven : (g.pipe.send qs sender.buffer.contents).given =
      g.pipe.given ++ (s.generateMsg p).1 :=
    Pipe.given_send (by rw [hm.contents, h.conveys.transfers.rest])
  have htally := h.tallies.generateMsg p hgiven Pipe.delivered_send
  have harms := Sender.Calling.fromUpperLayer_arms hpend hcalls
  have hticks : (s.generateMsg p).2.Ticks s.sender.timer.front := ht.congr rfl rfl
  have hsession : Session ((s.generateMsg p).2.senderCalls p (sender, calls))
      (g.send qs sender.buffer.contents g.base none) :=
    senderCalls hp h0 hticks harms hconv h.prompt (h.data.mono fun _ _ hc => hc.append) h.acks
      hm.out htally
  exact ⟨_, _, congrArg (Option.map _) hcalls, hsession.recur p⟩

theorem sends (hp : p.Accepted) (h0 : p.outoforderRate = 0) (ht : s.Ticks d)
    (hconv : Conveys g s.sender s.receiver) (hpr : s.Prompt)
    (hdata : Flying (Carried g.pipe.pieces) g.high s.data) (htally : Tallies s g.pipe)
    {sender : Sender} {calls : List Call} {B : ℕ} {qs : List (List Byte)} {ack : Option ℕ}
    (ha : Arms s.core.simTime d calls sender.timer)
    (hm : s.sender.Moves sender g.base B g.pipe.pieces qs [] ack (packets calls))
    (hs : sender.Steady (ack.toList ++ g.acked) B (g.pipe.pieces ++ qs))
    (hgot : ∀ a ∈ ack, s.receiver.Got g.pipe.out a)
    (hacks : Flying (Confirmed s.receiver g.pipe.out)
      (g.send qs sender.buffer.contents B ack).top s.acks) :
    Session (s.senderCalls p (sender, calls)) (g.send qs sender.buffer.contents B ack) := by
  have hgiven : (g.pipe.send qs sender.buffer.contents).given = g.pipe.given := by
    rw [Pipe.given_send (by rw [hm.contents, hconv.transfers.rest]), List.append_nil]
  exact senderCalls hp h0 ht ha (hconv.send hm hs hgot) hpr
    (hdata.mono fun _ _ hc => hc.append) hacks hm.out
    (htally.congr (.refl s) hgiven Pipe.delivered_send)

theorem timeout (hp : p.Accepted) (h0 : p.outoforderRate = 0) (h : Session s g)
    (hpend : s.sender.timer.Pending s.core.simTime) (hne : s.sender.timer.records ≠ [])
    (ht : Simulation.Ticks { s with senderTimer := none } none) (id : ℕ) :
    ∃ s' g', s.handle p (.senderTimeout id) = some s' ∧ Session s' g' := by
  obtain ⟨sender, out, hs, hm, hsteady⟩ := h.conveys.steady.timeout s.core.simTime hne
  obtain ⟨calls, hcalls, rfl⟩ := exists_calls hs
  have harms := Sender.Calling.timeout_arms hpend none hcalls
  have htally : Tallies { s with senderTimer := none } g.pipe :=
    ⟨h.tallies.given, h.tallies.generateCnt, h.tallies.delivered, h.tallies.verifyCnt,
      h.tallies.passed⟩
  exact ⟨_, _, congrArg (Option.map _) hcalls,
    sends hp h0 ht h.conveys h.prompt h.data htally harms hm (by simpa using hsteady) (by simp)
      h.acks⟩

theorem ack (hp : p.Accepted) (h0 : p.outoforderRate = 0)
    (hconv : Conveys g s.sender s.receiver) (hpr : s.Prompt)
    (hdata : Flying (Carried g.pipe.pieces) g.high s.data) (htally : Tallies s g.pipe)
    (hpend : s.sender.timer.Pending s.core.simTime) (ht : s.Ticks s.sender.timer.front)
    {pkt : Packet} {c : Bool}
    (hfly : Flying (Confirmed s.receiver g.pipe.out) g.top ((pkt, c) :: s.acks))
    (hrej : c = true → Sender.accepts pkt = false) :
    ∃ s' g', s.handle p (.senderFromLowerLayer pkt c) = some s' ∧ Session s' g' := by
  have hsteady := hconv.steady
  have hhandle : ∀ {sender out}, s.sender.fromLowerLayer s.core.simTime (p.stack s.handled) pkt =
      some (sender, out) → ∃ calls, packets calls = out ∧
        Arms s.core.simTime s.sender.timer.front calls sender.timer ∧
        s.handle p (.senderFromLowerLayer pkt c) = some (s.senderCalls p (sender, calls)) := by
    intro sender out hs
    obtain ⟨calls, hcalls, hout⟩ := exists_calls hs
    exact ⟨calls, hout, Sender.Calling.fromLowerLayer_arms hpend hcalls,
      congrArg (Option.map _) hcalls⟩
  cases hfly with
  | corrupted hrest =>
    obtain ⟨calls, hout, harms, hx⟩ := hhandle (Sender.fromLowerLayer_rejected (hrej rfl))
    have hm : s.sender.Moves s.sender g.base g.base g.pipe.pieces [] [] none (packets calls) :=
      hout ▸ .refl hsteady.tracks.holds
    exact ⟨_, _, hx, sends hp h0 ht hconv hpr hdata htally harms hm (by simpa using hsteady)
      (by simp) hrest⟩
  | @packet _ no _ _ hgood hb hrest =>
    obtain ⟨hack, hgot⟩ := hgood
    have hbase := hconv.base_le
    have hlt := (hconv.lt_high hgot).trans_le hconv.high_le
    simp only [kWindowSize] at hb
    obtain ⟨sender, out, B, qs, hs, hm, hsteady'⟩ := hsteady.fromLowerLayer s.core.simTime
      (p.stack s.handled) hack (by omega) hlt
    obtain ⟨calls, rfl, harms, hx⟩ := hhandle hs
    exact ⟨_, _, hx, sends hp h0 ht hconv hpr hdata htally harms hm hsteady' (by simpa using hgot)
      hrest⟩

theorem receives (hp : p.Accepted) (h0 : p.outoforderRate = 0) (ht : s.Ticks d)
    {receiver : Receiver} {pkts : List Packet} {msg : Option (List Byte)} {g' : Course} {no : ℕ}
    (hc : Conveys g' s.sender receiver) (hpr : s.Prompt)
    (hdata : Flying (Carried g'.pipe.pieces) g'.high s.data)
    (hacks : Flying (Confirmed receiver g'.pipe.out) g'.top s.acks)
    (hhigh : g'.high ≤ no + kWindowSize)
    (hnew : ∀ pkt ∈ pkts, Confirmed receiver g'.pipe.out no pkt)
    (htally : Tallies s g.pipe) (hg : g'.pipe.given = g.pipe.given)
    (hd : g'.pipe.delivered = g.pipe.delivered ++ msg.getD []) :
    Session (s.receiverCalls p (receiver, pkts, msg)) g' := by
  have hbegin : Simulation.Ticks { s with receiver := receiver } d := ht.congr rfl rfl
  have hsame := Simulation.foldl_same (f := Simulation.receiverToLowerLayer p)
    (fun _ pkt => Simulation.toLowerLayer_same _ pkt) pkts { s with receiver := receiver }
  obtain ⟨hpr', hacks', hdata'⟩ := Simulation.flying_acks hp h0 (a := no) hbegin hpr hacks
    (hc.top_le.trans hhigh) (fun no' pkt hgood => (hc.lt_high hgood.2).trans_le hhigh) hnew
  have hconv : Conveys g' (pkts.foldl (Simulation.receiverToLowerLayer p)
      { s with receiver := receiver }).sender (pkts.foldl (Simulation.receiverToLowerLayer p)
      { s with receiver := receiver }).receiver := by
    rw [hsame.sender, hsame.receiver]
    exact hc
  have htally' := Tallies.congr (s := { s with receiver := receiver })
    ⟨htally.given, htally.generateCnt, htally.delivered, htally.verifyCnt, htally.passed⟩ hsame
    rfl rfl
  cases msg with
  | none =>
    refine ⟨hconv, hpr', hdata'.symm ▸ hdata, ?_, ?_⟩
    · rw [Simulation.receiverCalls, hsame.receiver]
      exact hacks'
    · exact htally'.congr (.refl _) hg (by simpa using hd)
  | some msg =>
    refine ⟨hconv, hpr', hdata'.symm ▸ hdata, ?_, htally'.receiverToUpperLayer hg hd⟩
    exact hsame.receiver.symm ▸ hacks'

theorem packet (hp : p.Accepted) (h0 : p.outoforderRate = 0)
    (hconv : Conveys g s.sender s.receiver) (hpr : s.Prompt)
    (hacks : Flying (Confirmed s.receiver g.pipe.out) g.top s.acks) (htally : Tallies s g.pipe)
    (ht : s.Ticks d) {pkt : Packet} {c : Bool}
    (hfly : Flying (Carried g.pipe.pieces) g.high ((pkt, c) :: s.data))
    (hrej : c = true → Receiver.accepts pkt = false) :
    ∃ s' g', s.handle p (.receiverFromLowerLayer pkt c) = some s' ∧ Session s' g' := by
  cases hfly with
  | corrupted hrest =>
    have hx : s.receiver.fromLowerLayer (p.stack s.handled) pkt = some (s.receiver, [], none) := by
      rw [Receiver.fromLowerLayer, hrej rfl]
      rfl
    exact ⟨_, g, congrArg (Option.map _) hx, hconv, hpr, hrest, hacks, htally⟩
  | @packet _ no _ _ hgood hb hrest =>
    obtain ⟨q, hq, hcar⟩ := hgood
    obtain ⟨receiver, pkts, msg, k, hk, hx, hconv', hmsg, hgot, hnew⟩ :=
      hconv.receive hq hcar hb (p.stack s.handled)
    have hhigh : max g.high (no + 1) ≤ no + kWindowSize :=
      max_le hb (Nat.add_le_add_left (by decide) no)
    refine ⟨_, _, congrArg (Option.map _) hx, receives hp h0 ht hconv' hpr hrest ?_ hhigh hnew
      htally rfl ?_⟩
    · exact hacks.mono fun a ack hconf => ⟨hconf.1, hgot a hconf.2⟩
    · rw [hmsg]
      exact Pipe.delivered_receive hk

theorem cycle (hp : p.Accepted) (h0 : p.outoforderRate = 0) (hc : s.Clocked) (h : Session s g)
    (hd : s.Detects) : ∃ s' g', s.cycle p = some s' ∧ Session s' g' := by
  cases hev : s.core.events with
  | nil => exact ⟨s, g, Simulation.cycle_of_nil hev, h⟩
  | cons x es =>
    obtain ⟨t, e⟩ := x
    obtain ⟨hpend, hdue⟩ := hc.next hev
    have hle : s.core.simTime ≤ t := hc.ticks.ahead (t, e) (hev ▸ List.mem_cons_self)
    have hpr := h.prompt.advance hev hle
    have hdata := h.data
    have hacks := h.acks
    rw [Simulation.data, hev] at hdata
    rw [Simulation.acks, hev] at hacks
    have htally : Tallies (s.advance ⟨t, es⟩) g.pipe :=
      ⟨h.tallies.given, h.tallies.generateCnt, h.tallies.delivered, h.tallies.verifyCnt,
        h.tallies.passed⟩
    rw [Simulation.cycle_of_cons hev]
    cases hdue with
    | other hne hticks =>
      cases e with
      | senderFromUpperLayer =>
        exact message hp h0 (s := s.advance ⟨t, es⟩) ⟨h.conveys, hpr, hdata, hacks, htally⟩ hpend
          hticks
      | senderFromLowerLayer pkt c =>
        refine ack hp h0 (s := s.advance ⟨t, es⟩) h.conveys hpr hdata htally hpend hticks hacks ?_
        rintro rfl
        exact hd (t, _) (by rw [hev]; rfl)
      | senderTimeout id => exact absurd rfl (hne id)
      | receiverFromLowerLayer pkt c =>
        refine packet hp h0 (s := s.advance ⟨t, es⟩) h.conveys hpr hacks htally hticks hdata ?_
        rintro rfl
        exact hd (t, _) (by rw [hev]; rfl)
    | timeout hid hf hticks =>
      refine timeout hp h0 (s := s.advance ⟨t, es⟩) ⟨h.conveys, hpr, hdata, hacks, htally⟩ hpend ?_
        hticks _
      intro hnil
      rw [VirtualTimer.front, hnil] at hf
      cases hf

/-- Without an event there is no timer, so no packet waits and no data is left. -/
theorem delivered_eq_given (hc : s.Clocked) (h : Session s g) (hev : s.core.events = []) :
    g.pipe.delivered = g.pipe.given := by
  have hsteady := h.conveys.steady
  have hB := hsteady.tracks.holds.base_le
  have hle := h.conveys.transfers.le
  have hrecords : s.sender.timer.records = [] := by
    have harmed := hc.ticks.armed
    cases hf : s.sender.timer.front with
    | none => simpa [VirtualTimer.front] using hf
    | some t =>
      rw [hf] at harmed
      obtain ⟨id, -, hone⟩ := harmed
      rw [hev] at hone
      cases hone
  have hall : g.base = g.pipe.pieces.length := by
    rcases hB.eq_or_lt with he | hlt
    · exact he
    · have hfirst := (hsteady.tracks.waits g.base le_rfl hlt).mp (hsteady.tracks.first hlt)
      have hmem := List.mem_map_of_mem (f := (· % 30)) (mem_pending.mpr ⟨le_rfl, hlt, hfirst⟩)
      rw [← hsteady.tracks.keys.mem_iff, VirtualTimer.keys, hrecords] at hmem
      cases hmem
  have hrest : g.pipe.rest = [] := by
    rw [← h.conveys.transfers.rest]
    by_contra hne
    have := hsteady.full hne
    omega
  have hout : g.pipe.out = g.pipe.pieces.length := by
    have := g.pipe.out_le
    simp only at hle
    omega
  rw [Pipe.delivered, Pipe.given, hrest, hout, List.take_length, List.append_nil]

theorem init (p : Params) : Session (simulation p).init ⟨⟨[], [], 0, le_rfl⟩, 0, [], 0, 0⟩ where
  conveys :=
    { steady := ⟨Station.tracked_init.tracks, Station.tracked_init.full⟩
      transfers := Implements.init.transfers
      bounded := ⟨Nat.zero_le _, Nat.succ_pos _, fun _ => Nat.zero_le _⟩
      seen := Implements.init.transfers.receives
      high_le := le_rfl
      acked_lt := by simp
      base_le := le_rfl
      top_le := le_rfl }
  prompt := by simp [Simulation.Prompt, simulation, EventChain.schedule, Agenda.enter,
    SimEvent.isPacket]
  data := .nil
  acks := .nil
  tallies := ⟨rfl, rfl, rfl, rfl, rfl⟩

/-- No round of a session in which corrupted packets are rejected fails. -/
theorem exists_run (hp : p.Accepted) (h0 : p.outoforderRate = 0) {es : List Unit}
    (hd : (simulation p).Meets (fun s _ => s.Detects) (simulation p).init es) :
    ∃ s, (simulation p).run (simulation p).init es = some s ∧ s.Clocked ∧ ∃ g, Session s g := by
  refine System.exists_run (I := fun s => s.Clocked ∧ ∃ g, Session s g) ?_ hd
    ⟨Simulation.clocked_init p, _, init p⟩
  rintro s _ ⟨hc, g, hs⟩ hdet
  obtain ⟨s', g', hcycle, hs'⟩ := hs.cycle hp h0 hc hdet
  exact ⟨s', hcycle, hc.cycle hp hcycle, g', hs'⟩

end Session

/-- If packets are not out of order and corrupted ones are rejected, then however many are lost no
assertion fails, and everything delivered so far passes the verification. -/
theorem simulation_never_fails {p : Params} (hp : p.Accepted) (h0 : p.outoforderRate = 0)
    {es : List Unit}
    (hd : (simulation p).Meets (fun s _ => s.Detects) (simulation p).init es) :
    ∃ s, (simulation p).run (simulation p).init es = some s ∧
      s.messageVerificationPassed = true ∧ s.totCharsDelivered ≤ s.totCharsSent := by
  obtain ⟨s, hrun, -, g, hs⟩ := Session.exists_run hp h0 hd
  exact ⟨s, hrun, hs.tallies.passed, hs.tallies.delivered_le⟩

theorem simulation_never_fails_lossy :
    ∃ s, (simulation lossy).run (simulation lossy).init (List.replicate 6 ()) = some s ∧
      s.messageVerificationPassed = true ∧ s.totCharsDelivered ≤ s.totCharsSent :=
  simulation_never_fails accepted_lossy rfl (by decide +kernel)

/-- A session that is over is free of errors: every character sent was delivered. -/
theorem simulation_errorFree {p : Params} (hp : p.Accepted) (h0 : p.outoforderRate = 0)
    {es : List Unit} {s : Simulation}
    (hd : (simulation p).Meets (fun s _ => s.Detects) (simulation p).init es)
    (h : (simulation p).run (simulation p).init es = some s) (hev : s.core.events = []) :
    s.errorFree = true := by
  obtain ⟨s', hrun, hc, g, hs⟩ := Session.exists_run hp h0 hd
  obtain rfl : s' = s := Option.some.inj (hrun.symm.trans h)
  have hall := congrArg List.length (hs.delivered_eq_given hc hev)
  rw [hs.tallies.delivered, hs.tallies.given, length_stream] at hall
  rw [Simulation.errorFree, hs.tallies.passed, hall, beq_self_eq_true]
  rfl

/-- Two messages of one character each, with the packets that `lossy` loses and corrupts. -/
theorem simulation_errorFree_lossy :
    ∃ s, (simulation lossy).run (simulation lossy).init (List.replicate 9 ()) = some s ∧
      s.totCharsSent = 2 ∧ s.errorFree = true :=
  have h := (simulation lossy).run_after (simulation lossy).init (List.replicate 9 ())
    (by decide +kernel)
  have hd : (simulation lossy).Meets (fun s _ => s.Detects) (simulation lossy).init
      (List.replicate 9 ()) := by decide +kernel
  ⟨_, h, by decide +kernel, simulation_errorFree accepted_lossy rfl hd h (by decide +kernel)⟩

end DistLab.Rdt
