import DistLab.Rdt.Link

/-! # Reliable transfer

The link implements a pipe. Its pieces are the payloads of the packets made so far, its
rest is the content of the sender's buffer, and the pieces before the receiver's window
have come out. In every run in which corrupted packets are rejected and no packet is too
far behind, what comes out is therefore a prefix of what was put in.
-/

namespace DistLab.Rdt

variable {p : Pipe Byte} {w : Link} {net : List Msg}

namespace Receiver

variable {c : Receiver} {R : ℕ} {pieces qs : List (List Byte)}

theorem Holds.not_got (h : c.Holds R pieces) : ¬ c.Got R R := by
  rintro (hlt | ⟨hlt, hs⟩)
  · exact lt_irrefl R hlt
  · exact lt_irrefl R (h.cell R le_rfl hlt hs).1

theorem Holds.append (h : c.Holds R pieces) : c.Holds R (pieces ++ qs) where
  base_le := h.base_le.trans (by simp)
  base := h.base
  seq := h.seq
  cell a hR ha hs := by
    obtain ⟨hlt, hp⟩ := h.cell a hR ha hs
    exact ⟨hlt, by rw [List.getElem?_append_left (List.getElem?_eq_some_iff.mp hp).1, hp]⟩

end Receiver

/-- The window counts of the two parties and the packets in the channel, for a pipe. -/
structure Transfers (p : Pipe Byte) (s : SenderNode) (r : ReceiverNode) (net : List Msg) :
    Prop where
  sends : s.code.window.Holds s.passed p.pieces
  receives : r.code.Holds r.passed p.pieces
  out : r.passed = p.out
  rest : s.code.buffer.contents = p.rest
  le : s.passed ≤ r.passed
  acked : ∀ b, s.passed ≤ b → b < p.pieces.length → ¬ s.code.window.Waits b →
    r.code.Got r.passed b
  data : ∀ no pkt, Msg.data no pkt ∈ net →
    ∃ q, p.pieces[no]? = some q ∧ Carries pkt (no % 30) q
  acks : ∀ no pkt, Msg.ack no pkt ∈ net → Acks pkt (no % 30) ∧ r.code.Got r.passed no

namespace Transfers

variable {s : SenderNode} {r : ReceiverNode}

theorem mono (h : Transfers p s r net) {net' : List Msg} (hn : net' ⊆ net) :
    Transfers p s r net' :=
  { h with
    data := fun no pkt hm => h.data no pkt (hn hm)
    acks := fun no pkt hm => h.acks no pkt (hn hm) }

theorem sender_le (h : Transfers p s r net) {s' : Sender} {B' : ℕ} {qs : List (List Byte)}
    {msg : List Byte} {acked : Option ℕ} {out : List Packet}
    (hm : s.code.Moves s' s.passed B' p.pieces qs msg acked out)
    (ha : ∀ a ∈ acked, r.code.Got r.passed a) : B' ≤ r.passed ∧
      ∀ b, B' ≤ b → b < (p.pieces ++ qs).length → ¬ s'.window.Waits b →
        r.code.Got r.passed b := by
  have hgot : ∀ b, s.passed ≤ b → b < (p.pieces ++ qs).length →
      (b < B' ∨ ¬ s'.window.Waits b) → r.code.Got r.passed b := by
    intro b hb hlt hn
    obtain ⟨hlt', hb' | hb'⟩ := hm.cleared b hb hlt hn
    · exact ha b hb'
    · exact h.acked b hb hlt' hb'
  refine ⟨not_lt.mp fun hlt => ?_, fun b hb hlt hn => hgot b (hm.le.trans hb) hlt (Or.inr hn)⟩
  exact h.receives.not_got (hgot _ h.le (hlt.trans_le hm.holds.base_le) (Or.inl hlt))

theorem send (h : Transfers p s r net) {s' : Sender} {B' : ℕ} {qs : List (List Byte)}
    {msg : List Byte} {acked : Option ℕ} {out : List Packet} {obs : List Obs}
    (hm : s.code.Moves s' s.passed B' p.pieces qs msg acked out)
    (ha : ∀ a ∈ acked, r.code.Got r.passed a) :
    Transfers (p.send qs s'.buffer.contents) (s.install obs (s', out)).state r
      (net ++ (s.install obs (s', out)).out) := by
  obtain ⟨hB, hacked⟩ := h.sender_le hm ha
  have hle := h.receives.base_le
  have hlen := h.sends.le
  have hlen' := hm.holds.le
  have hpassed : s.passed + rMinus s'.window.baseSeqN s.code.window.baseSeqN kMaxSeqN = B' := by
    have := hm.le
    simp only [rMinus, hm.holds.seq, h.sends.seq, kMaxSeqN]
    omega
  simp only [SenderNode.install, hpassed]
  refine ⟨hm.holds, h.receives.append, h.out, rfl, hB, hacked, fun no pkt hd => ?_,
    fun no pkt hk => ?_⟩
  · rcases List.mem_append.mp hd with hd | hd
    · obtain ⟨q, hq, hc⟩ := h.data no pkt hd
      have hlt := (List.getElem?_eq_some_iff.mp hq).1
      exact ⟨q, (List.getElem?_append_left hlt).trans hq, hc⟩
    · obtain ⟨pkt', hpkt, he⟩ := List.mem_map.mp hd
      obtain ⟨hno, rfl⟩ := Msg.data.inj he
      obtain ⟨a, q, ha, hq, hc⟩ := hm.out pkt' hpkt
      have hlt := (List.getElem?_eq_some_iff.mp hq).1
      obtain rfl : a = no := by
        rw [← hno, hc.seq, toNat_byte (by omega)]
        simp only [rMinus, hm.holds.seq, kMaxSeqN]
        omega
      exact ⟨q, hq, hc⟩
  · rcases List.mem_append.mp hk with hk | hk
    · exact h.acks no pkt hk
    · obtain ⟨_, _, he⟩ := List.mem_map.mp hk
      cases he

theorem receive (h : Transfers p s r net) {c' : Receiver} {R' no : ℕ} {acks : List Packet}
    {msg : Option (List Byte)} (hm : r.code.Moves c' r.passed R' no p.pieces acks msg) :
    ∃ hle, Transfers (p.receive (R' - r.passed) hle) s (r.install no (c', acks, msg)).state
      (net ++ (r.install no (c', acks, msg)).out) := by
  have hle := hm.le
  have hlen := hm.holds.base_le
  have hlen' := h.sends.le
  have hs := h.le
  have hout := h.out
  have hpassed : r.passed + rMinus c'.baseSeqN r.code.baseSeqN kMaxSeqN = R' := by
    simp only [rMinus, hm.holds.seq, h.receives.seq, kMaxSeqN]
    omega
  simp only [ReceiverNode.install, hpassed]
  refine ⟨by omega, h.sends, hm.holds, ?_, h.rest, hs.trans hle, fun b hb hlt hn => ?_,
    fun no' pkt hd => ?_, fun no' pkt hk => ?_⟩
  · simp only [Pipe.receive]
    omega
  · exact hm.got b (h.acked b hb hlt hn)
  · rcases List.mem_append.mp hd with hd | hd
    · exact h.data no' pkt hd
    · obtain ⟨_, _, he⟩ := List.mem_map.mp hd
      cases he
  · rcases List.mem_append.mp hk with hk | hk
    · exact (h.acks no' pkt hk).imp_right (hm.got no')
    · obtain ⟨ack, hack, he⟩ := List.mem_map.mp hk
      obtain ⟨rfl, rfl⟩ := Msg.ack.inj he
      exact hm.acks ack hack

end Transfers

/-- The world implements the pipe. -/
structure Implements (p : Pipe Byte) (w : Link) : Prop where
  transfers : Transfers p (w.node .sender) (w.node .receiver) w.net
  input : given w.trace = p.given
  output : delivered w.trace = p.delivered

namespace Implements

theorem put_sender (h : Implements p w) (hn : net ⊆ w.net) {s' : Sender} {B' : ℕ}
    {qs : List (List Byte)} {msg : List Byte} {acked : Option ℕ} {out : List Packet}
    {obs : List Obs}
    (hm : (w.node .sender).code.Moves s' (w.node .sender).passed B' p.pieces qs msg acked out)
    (ha : ∀ a ∈ acked, (w.node .receiver).code.Got (w.node .receiver).passed a)
    (hg : given (obs ++ w.trace) = given w.trace ++ msg)
    (hd : delivered (obs ++ w.trace) = delivered w.trace) :
    Implements (p.send qs s'.buffer.contents)
      (w.put .sender net ((w.node .sender).install obs (s', out))) where
  transfers := by
    rw [World.put_node_self, World.put_node_of_ne (by decide)]
    exact (h.transfers.mono hn).send hm ha
  input := by
    refine hg.trans ?_
    rw [h.input, Pipe.given_send]
    rw [hm.contents, h.transfers.rest]
  output := hd.trans (h.output.trans Pipe.delivered_send.symm)

theorem put_receiver (h : Implements p w) (hn : net ⊆ w.net) {c' : Receiver} {R' no : ℕ}
    {acks : List Packet} {msg : Option (List Byte)}
    (hm : (w.node .receiver).code.Moves c' (w.node .receiver).passed R' no p.pieces acks msg) :
    ∃ p', Implements p'
      (w.put .receiver net ((w.node .receiver).install no (c', acks, msg))) := by
  obtain ⟨hle, ht⟩ := (h.transfers.mono hn).receive hm
  refine ⟨p.receive _ hle, ?_, ?_, ?_⟩
  · rw [World.put_node_self, World.put_node_of_ne (by decide)]
    exact ht
  · refine Eq.trans ?_ h.input
    cases msg <;> rfl
  · rw [Pipe.delivered_receive, ← h.output, ← h.transfers.out, ← hm.msg]
    cases msg
    · exact (List.append_nil _).symm
    · rfl

theorem put_environment (h : Implements p w) (hn : net ⊆ w.net) (now : ℚ) (stack : Packet) :
    Implements p (w.put .sender net
      ⟨{ w.node .sender with now := now, stack := stack }, [], []⟩) ∧
    Implements p (w.put .receiver net
      ⟨{ w.node .receiver with stack := stack }, [], []⟩) := by
  have ht := h.transfers.mono hn
  refine ⟨⟨?_, h.input, h.output⟩, ⟨?_, h.input, h.output⟩⟩
  · rw [World.put_node_self, World.put_node_of_ne (by decide), World.put_net, List.append_nil]
    exact ⟨ht.sends, ht.receives, ht.out, ht.rest, ht.le, ht.acked, ht.data, ht.acks⟩
  · rw [World.put_node_self, World.put_node_of_ne (by decide), World.put_net, List.append_nil]
    exact ⟨ht.sends, ht.receives, ht.out, ht.rest, ht.le, ht.acked, ht.data, ht.acks⟩

theorem react_sender (h : Implements p w) (hn : net ⊆ w.net) {x : Input Act Msg}
    {r : Reaction SenderNode Msg Obs} (hr : SenderNode.react (w.node .sender) x = some r)
    (hg : Party.sender.Keeps (w.node .sender) x) (hf : rdt.Feeds w .sender x) :
    ∃ p', Implements p' (w.put .sender net r) := by
  have hs := h.transfers.sends
  rcases x with (msg | _ | pkt | ⟨now, stack⟩) | (⟨no, pkt⟩ | ⟨no, pkt⟩)
  · obtain ⟨⟨s', out⟩, hx, rfl⟩ := Option.map_eq_some_iff.mp hr
    obtain ⟨qs, hm⟩ := Sender.fromUpperLayer_moves hs hx
    exact ⟨_, h.put_sender hn hm (by simp) rfl rfl⟩
  · obtain ⟨⟨s', out⟩, hx, rfl⟩ := Option.map_eq_some_iff.mp hr
    exact ⟨_, h.put_sender hn (Sender.timeout_moves hs hx) (by simp) (by simp) rfl⟩
  · have hrej : Sender.accepts pkt = false := hg
    simp only [SenderNode.react, Sender.fromLowerLayer_rejected hrej] at hr
    obtain rfl := Option.some.inj hr
    exact ⟨_, h.put_sender hn (.refl hs) (by simp) (by simp) rfl⟩
  · obtain rfl := Option.some.inj hr
    exact ⟨p, (h.put_environment hn now stack).1⟩
  · cases hr
  · obtain ⟨⟨s', out⟩, hx, rfl⟩ := Option.map_eq_some_iff.mp hr
    obtain ⟨hack, hgot⟩ := h.transfers.acks no pkt hf.1
    obtain ⟨B', qs, hm⟩ := Sender.fromLowerLayer_moves hs hack hg
      (h.transfers.receives.lt_of_got hgot) hx
    exact ⟨_, h.put_sender hn hm (by simpa using hgot) (by simp) rfl⟩

theorem react_receiver (h : Implements p w) (hn : net ⊆ w.net) {x : Input Act Msg}
    {r : Reaction ReceiverNode Msg Obs} (hr : ReceiverNode.react (w.node .receiver) x = some r)
    (hg : Party.receiver.Keeps (w.node .receiver) x) (hf : rdt.Feeds w .receiver x) :
    ∃ p', Implements p' (w.put .receiver net r) := by
  have ht := h.transfers
  rcases x with (msg | _ | pkt | ⟨now, stack⟩) | (⟨no, pkt⟩ | ⟨no, pkt⟩)
  · cases hr
  · cases hr
  · have hrej : Receiver.accepts pkt = false := hg
    simp only [ReceiverNode.react, Receiver.fromLowerLayer, hrej] at hr
    obtain rfl := Option.some.inj hr
    exact h.put_receiver hn (.refl ht.receives (by simp))
  · obtain rfl := Option.some.inj hr
    exact ⟨p, (h.put_environment hn now stack).2⟩
  · obtain ⟨⟨c', acks, msg⟩, hx, rfl⟩ := Option.map_eq_some_iff.mp hr
    obtain ⟨q, hq, hc⟩ := ht.data no pkt hf.1
    have hlen := ht.sends.le
    have hle := ht.le
    obtain ⟨R', hm⟩ := Receiver.fromLowerLayer_moves ht.receives (by omega) hg hq hc hx
    exact h.put_receiver hn hm
  · cases hr

theorem init : Implements ⟨[], [], 0, Nat.le_refl 0⟩ link.init where
  transfers := by
    refine ⟨⟨le_rfl, Nat.zero_le _, rfl, rfl, rfl, ?_, ?_⟩, ⟨le_rfl, rfl, rfl, ?_⟩, rfl, rfl,
      le_rfl, ?_, ?_, ?_⟩
    · simp
    · intro a _ _ hw
      exact nomatch hw
    · intro a _ _ hs
      exact nomatch hs
    · intro b _ hlt
      exact nomatch hlt
    · intro no pkt hm
      exact nomatch hm
    · intro no pkt hm
      exact nomatch hm
  input := rfl
  output := rfl

/-- Along every run that keeps the bounds, the link goes on implementing a pipe. -/
theorem run {es : List (NetEvent Party Act)} {w' : Link} (h : Implements p w)
    (hr : link.run w es = some w') (hg : link.Meets (rdt.Guards Party.Keeps) w es) :
    ∃ p', Implements p' w' := by
  refine Protocol.preserved (I := fun w => ∃ p, Implements p w) ?_ ?_ hr hg ⟨p, h⟩
  · rintro w net ⟨p, h⟩ hn
    exact ⟨p, h.transfers.mono hn, h.input, h.output⟩
  · rintro w (_ | _) x r net ⟨p, h⟩ hx hg hf hn
    · exact h.react_sender hn hx hg hf
    · exact h.react_receiver hn hx hg hf

end Implements

/-- Whatever the channel loses, delays and reorders, what is handed to the upper layer of the
receiver is a prefix of what was given to the sender. -/
theorem delivered_isPrefix_given {es : List (NetEvent Party Act)} {w : Link}
    (h : link.run link.init es = some w)
    (hg : link.Meets (rdt.Guards Party.Keeps) link.init es) :
    delivered w.trace <+: given w.trace := by
  obtain ⟨p, hp⟩ := Implements.init.run h hg
  rw [hp.input, hp.output]
  exact p.delivered_isPrefix

/-- The first of two packets is lost and sent again after the second one has come in. -/
def lostFirst : List (NetEvent Party Act) :=
  [.act .sender (.fromUpperLayer [1, 2]), .act .sender (.environment 1 fun _ => 9),
    .act .sender (.fromUpperLayer [3]), .drop 0, .deliver 0,
    .act .receiver (.corrupted fun _ => 7), .act .sender .timeout, .deliver 1, .deliver 0]

theorem delivered_isPrefix_given_lostFirst : ∃ w, link.run link.init lostFirst = some w ∧
    delivered w.trace = [1, 2, 3] ∧ delivered w.trace <+: given w.trace := by
  have h := link.run_after link.init lostFirst (by decide +kernel)
  exact ⟨_, h, by decide +kernel, delivered_isPrefix_given h (by decide +kernel)⟩

end DistLab.Rdt
