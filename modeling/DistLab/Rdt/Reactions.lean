import DistLab.Rdt.Simulation
import DistLab.Rdt.Soundness
import DistLab.Rdt.Transfer
import DistLab.Rdt.Validation

/-! # Reactions that always succeed

A reaction of either party to a packet that is not too far behind always succeeds. It is stated
for the whole transfer: what the two windows have passed, what has been acknowledged, and how
far the packets that have come in reach at either end.
-/

namespace DistLab.Rdt

theorem mem_packets {calls : List Call} {pkt : Packet} :
    pkt ∈ packets calls ↔ .toLowerLayer pkt ∈ calls := by
  rw [packets, List.mem_filterMap]
  constructor
  · rintro ⟨c, hc, he⟩
    cases c with
    | toLowerLayer q =>
      obtain rfl := Option.some.inj he
      exact hc
    | startTimer t => cases he
    | stopTimer => cases he
  · intro hc
    exact ⟨_, hc, rfl⟩

theorem exists_calls {x : Option (Sender × List Call)} {s' : Sender} {out : List Packet}
    (h : x.map (fun (s, calls) => (s, packets calls)) = some (s', out)) :
    ∃ calls, x = some (s', calls) ∧ packets calls = out := by
  obtain ⟨⟨s, calls⟩, hx, he⟩ := Option.map_eq_some_iff.mp h
  obtain ⟨rfl, hout⟩ := Prod.mk.inj he
  exact ⟨calls, hx, hout⟩

section Windows

open Sender

variable {w : SlidingWindow} {v : VirtualTimer} {acked : List ℕ} {B B' : ℕ}
  {xs ys : List (List Byte)}

theorem Sender.SlidingWindow.Holds.length_unique (h : w.Holds B xs) (h' : w.Holds B ys) :
    xs.length = ys.length := by
  have htop : xs.length % 11 = ys.length % 11 := h.top.symm.trans h'.top
  have hx := h.base_le
  have hx' := h.le
  have hy := h'.base_le
  have hy' := h'.le
  omega

theorem Tracks.of_holds (h : Tracks w v acked B xs) (h' : w.Holds B ys) :
    Tracks w v acked B ys := by
  have hlen := h.holds.length_unique h'
  constructor
  · exact h'
  · rw [← hlen]
    exact h.waits
  · rw [← hlen]
    exact h.first
  · rw [← hlen]
    exact h.acked_lt
  · exact h.limit
  · rw [← hlen]
    exact h.keys

end Windows

namespace Sender

/-- There is one timer for each packet that is not acknowledged, and data is in the buffer only
while the window is full. -/
structure Steady (s : Sender) (acked : List ℕ) (B : ℕ) (pieces : List (List Byte)) : Prop where
  tracks : Tracks s.window s.timer acked B pieces
  full : s.buffer.contents ≠ [] → pieces.length = B + 10

namespace Steady

variable {s : Sender} {acked : List ℕ} {a B : ℕ} {pieces : List (List Byte)} {now : ℚ}
  {pkt ackPkt : Packet}

theorem tracked (h : s.Steady acked B pieces) :
    Station.Tracked ⟨s, decide (s.timer.keys ≠ []), pieces.length, acked⟩ B pieces :=
  ⟨h.tracks, rfl, h.full, decide_eq_true_iff⟩

theorem of_holds {xs ys : List (List Byte)} (h : s.Steady acked B xs)
    (h' : s.window.Holds B ys) : s.Steady acked B ys where
  tracks := h.tracks.of_holds h'
  full hne := (h.tracks.holds.length_unique h').symm.trans (h.full hne)

theorem fromUpperLayer (h : s.Steady acked B pieces) (now : ℚ) (pkt : Packet)
    (msg : List Byte) : ∃ s' out qs, s.fromUpperLayer now pkt msg = some (s', out) ∧
      s.Moves s' B B pieces qs msg none out ∧ s'.Steady acked B (pieces ++ qs) := by
  obtain ⟨st, pieces', hstep, ht⟩ := h.tracked.message now pkt msg
  obtain ⟨⟨s', out⟩, hs, rfl⟩ := Option.map_eq_some_iff.mp hstep
  obtain ⟨qs, hm⟩ := fromUpperLayer_moves h.tracks.holds hs
  have hsteady : s'.Steady acked B pieces' := ⟨ht.tracks, ht.full⟩
  exact ⟨s', out, qs, hs, hm, hsteady.of_holds hm.holds⟩

theorem timeout (h : s.Steady acked B pieces) (now : ℚ) (hne : s.timer.records ≠ []) :
    ∃ s' out, s.timeout now = some (s', out) ∧
      s.Moves s' B B pieces [] [] none out ∧ s'.Steady acked B pieces := by
  have hset : Station.Admits ⟨s, decide (s.timer.keys ≠ []), pieces.length, acked⟩
      (.timeout now) := by
    simpa [Station.Admits, VirtualTimer.keys] using hne
  obtain ⟨st, hstep, ht⟩ := h.tracked.timeout hset
  obtain ⟨⟨s', out⟩, hs, rfl⟩ := Option.map_eq_some_iff.mp hstep
  exact ⟨s', out, hs, timeout_moves h.tracks.holds hs, ht.tracks, ht.full⟩

theorem fromLowerLayer (h : s.Steady acked B pieces) (now : ℚ) (pkt : Packet)
    (hp : Acks ackPkt (a % 30)) (ha : B ≤ a + 20) (hlt : a < pieces.length) :
    ∃ s' out B' qs, s.fromLowerLayer now pkt ackPkt = some (s', out) ∧
      s.Moves s' B B' pieces qs [] (some a) out ∧ s'.Steady (a :: acked) B' (pieces ++ qs) := by
  have hkey : (ackPkt 3).toInt = (a % 30 : ℕ) := by
    rw [hp.seq]
    exact toInt_byte (by omega)
  obtain ⟨moved, w', c, hack, hstill, ht⟩ := h.tracks.ack ha hlt
  have hc := ht.holds.base_le
  have hle := h.tracks.holds.le
  obtain ⟨s', out, pieces', hs, hsteady⟩ : ∃ s' out pieces',
      s.fromLowerLayer now pkt ackPkt = some (s', out) ∧
        s'.Steady (a :: acked) (B + c) pieces' := by
    cases moved with
    | false =>
      obtain rfl := hstill rfl
      exact ⟨⟨w', s.buffer, s.timer.finish (a % 30 : ℕ)⟩, [], pieces,
        fromLowerLayer_of_still hp.accepts hkey hack, ht, h.full⟩
    | true =>
      obtain ⟨w'', v', b, out, qs, hloop, hfilled⟩ := ht.loop now (kWindowSize + 1)
        s.buffer pkt (by simp only [kWindowSize]; omega)
      exact ⟨⟨w'', b, v'⟩, out, pieces ++ qs,
        fromLowerLayer_of_moved hp.accepts hkey hack hloop, hfilled.tracks, hfilled.full⟩
  obtain ⟨B', qs, hm⟩ := fromLowerLayer_moves h.tracks.holds hp ha hlt hs
  have hB : B' ≤ pieces.length := by
    rcases hm.le.eq_or_lt with rfl | hlt'
    · exact h.tracks.holds.base_le
    · have hend := hm.holds.base_le
      have := (hm.cleared (B' - 1) (by omega) (by omega) (Or.inl (by omega))).1
      omega
  obtain rfl : B + c = B' := by
    have hseq : (B + c) % 30 = B' % 30 := hsteady.tracks.holds.seq.symm.trans hm.holds.seq
    have := hm.le
    omega
  exact ⟨s', out, B + c, qs, hs, hm, hsteady.of_holds hm.holds⟩

end Steady

end Sender

namespace Receiver

variable {w w' : Receiver} {R R' a : ℕ} {pieces qs : List (List Byte)} {acks : List Packet}
  {msg : Option (List Byte)}

theorem Moves.append (h : w.Moves w' R R' a pieces acks msg) :
    w.Moves w' R R' a (pieces ++ qs) acks msg where
  le := h.le
  holds := h.holds.append
  msg := by
    have hle := h.le
    have hlen := h.holds.base_le
    rw [h.msg, List.drop_append_of_le_length (by omega),
      List.take_append_of_le_length (by rw [List.length_drop]; omega)]
  got := h.got
  acks := h.acks

theorem headerValid_of_carries {pkt : Packet} {p : List Byte} (h : Carries pkt (a % 30) p) :
    HeaderValid pkt := by
  have hle : p.length ≤ 123 := h.le
  have hseq : (pkt 3).toInt = (a % 30 : ℕ) := by
    rw [h.seq]
    exact toInt_byte (by omega)
  have hsize : (pkt 4).toInt = (p.length : ℕ) := by
    rw [h.size]
    exact toInt_byte (by omega)
  rw [HeaderValid, hseq, hsize]
  simp only [kMaxSeqN, kPayloadSize, kPktSize, kHeaderSize]
  omega

end Receiver

/-- How far a transfer is: what is in the pipe, the packet the sender's window starts at, the
numbers acknowledged, and bounds of the numbers that have come in at the receiver and at the
sender. -/
structure Course where
  pipe : Pipe Byte
  base : ℕ
  acked : List ℕ
  high : ℕ
  top : ℕ

namespace Course

def send (g : Course) (qs : List (List Byte)) (rest : List Byte) (B : ℕ) (ack : Option ℕ) :
    Course where
  pipe := g.pipe.send qs rest
  base := B
  acked := ack.toList ++ g.acked
  high := g.high
  top := ack.elim g.top fun a => max g.top (a + 1)

def receive (g : Course) (k : ℕ) (hk : g.pipe.out + k ≤ g.pipe.pieces.length) (no : ℕ) :
    Course where
  pipe := g.pipe.receive k hk
  base := g.base
  acked := g.acked
  high := max g.high (no + 1)
  top := g.top

end Course

/-- The two parties are as far as the course says. -/
structure Conveys (g : Course) (s : Sender) (r : Receiver) : Prop where
  steady : s.Steady g.acked g.base g.pipe.pieces
  transfers : Transfers g.pipe ⟨s, g.base, 0, fun _ => 0⟩ ⟨r, g.pipe.out, fun _ => 0⟩ []
  bounded : r.Bounded
  seen : r.Holds g.pipe.out (g.pipe.pieces.take g.high)
  high_le : g.high ≤ g.pipe.pieces.length
  acked_lt : ∀ a ∈ g.acked, a < g.top
  base_le : g.base ≤ g.top
  top_le : g.top ≤ g.high

namespace Conveys

variable {g : Course} {s s' : Sender} {r r' : Receiver} {B no : ℕ} {qs : List (List Byte)}
  {msg : List Byte} {ack : Option ℕ} {out : List Packet} {p : List Byte} {pkt stack : Packet}

theorem lt_high (h : Conveys g s r) {a : ℕ} (ha : r.Got g.pipe.out a) : a < g.high := by
  have := h.seen.lt_of_got ha
  rw [List.length_take] at this
  omega

theorem base_le_top (h : Conveys g s r)
    (hm : s.Moves s' g.base B g.pipe.pieces qs msg ack out) : B ≤ (g.send qs [] B ack).top := by
  have hle : g.top ≤ (g.send qs [] B ack).top := by
    cases ack with
    | none => exact le_rfl
    | some a => exact Nat.le_max_left _ _
  rcases hm.le.eq_or_lt with rfl | hlt
  · exact h.base_le.trans hle
  · have hend := hm.holds.base_le
    obtain ⟨hlen, rfl | hw⟩ :=
      hm.cleared (B - 1) (by omega) (by omega) (Or.inl (by omega))
    · have : B - 1 + 1 ≤ max g.top (B - 1 + 1) := le_max_right _ _
      simp only [Course.send, Option.elim_some]
      omega
    · have hmem : B - 1 ∈ g.acked := by
        by_contra hn
        exact hw ((h.steady.tracks.waits (B - 1) (by omega) hlen).mpr hn)
      have := h.acked_lt _ hmem
      omega

theorem send (h : Conveys g s r) (hm : s.Moves s' g.base B g.pipe.pieces qs msg ack out)
    (hs : s'.Steady (ack.toList ++ g.acked) B (g.pipe.pieces ++ qs))
    (ha : ∀ a ∈ ack, r.Got g.pipe.out a) : Conveys (g.send qs s'.buffer.contents B ack) s' r where
  steady := hs
  transfers := by
    have ht := (Transfers.send h.transfers hm ha : Transfers _
      (SenderNode.install _ [] (s', out)).state _ _).mono (List.nil_subset _)
    have hB : g.base + rMinus s'.window.baseSeqN s.window.baseSeqN kMaxSeqN = B := by
      have hbase : (g.base + rMinus s'.window.baseSeqN s.window.baseSeqN kMaxSeqN) % 11 = B % 11 :=
        ht.sends.base.symm.trans hm.holds.base
      have hx := ht.sends.base_le
      have hx' := ht.sends.le
      have hy := hm.holds.base_le
      have hy' := hm.holds.le
      simp only [SenderNode.install, Pipe.send] at hx hx'
      omega
    simp only [SenderNode.install, hB] at ht
    exact ht
  bounded := h.bounded
  seen := by
    simp only [Course.send, Pipe.send, List.take_append_of_le_length h.high_le]
    exact h.seen
  high_le := by
    simp only [Course.send, Pipe.send, List.length_append]
    exact h.high_le.trans (Nat.le_add_right _ _)
  acked_lt := by
    intro a hmem
    cases ack with
    | none => exact h.acked_lt a hmem
    | some b =>
      rcases List.mem_cons.mp hmem with rfl | hmem
      · exact Nat.le_max_right _ _
      · exact lt_max_of_lt_left (h.acked_lt a hmem)
  base_le := h.base_le_top hm
  top_le := by
    cases ack with
    | none => exact h.top_le
    | some a => exact max_le h.top_le (h.lt_high (ha a rfl))

theorem receive (h : Conveys g s r) (hp : g.pipe.pieces[no]? = some p)
    (hc : Carries pkt (no % 30) p) (hno : g.high ≤ no + 10) (stack : Packet) :
    ∃ r' acks m k hk, r.fromLowerLayer stack pkt = some (r', acks, m) ∧
      Conveys (g.receive k hk no) s r' ∧
      m.getD [] = ((g.pipe.pieces.drop g.pipe.out).take k).flatten ∧
      (∀ b, r.Got g.pipe.out b → r'.Got (g.pipe.out + k) b) ∧
      ∀ a ∈ acks, Acks a (no % 30) ∧ r'.Got (g.pipe.out + k) no := by
  obtain ⟨r', acks, m, hr, hb⟩ :=
    h.bounded.exists_fromLowerLayer stack fun _ => Receiver.headerValid_of_carries hc
  have hlt : no < g.pipe.pieces.length := (List.getElem?_eq_some_iff.mp hp).1
  have hle := h.transfers.le
  have hlen := h.steady.tracks.holds.le
  have hhigh := h.seen.base_le
  rw [List.length_take] at hhigh
  simp only at hle
  have hseen : r.Holds g.pipe.out (g.pipe.pieces.take (max g.high (no + 1))) := by
    obtain ⟨rest, hrest⟩ := List.take_prefix_take_left (l := g.pipe.pieces)
      (Nat.le_max_left g.high (no + 1))
    rw [← hrest]
    exact h.seen.append
  have hp' : (g.pipe.pieces.take (max g.high (no + 1)))[no]? = some p := by
    rw [List.getElem?_take_of_lt (lt_max_of_lt_right (Nat.lt_succ_self no)), hp]
  obtain ⟨R', hm⟩ := Receiver.fromLowerLayer_moves hseen
    (by rw [List.length_take]; omega) (by omega) hp' hc hr
  have hm' : r.Moves r' g.pipe.out R' no g.pipe.pieces acks m := by
    rw [← List.take_append_drop (max g.high (no + 1)) g.pipe.pieces]
    exact hm.append
  obtain ⟨hk, ht⟩ := h.transfers.receive hm'
  have hR : g.pipe.out + (R' - g.pipe.out) = R' := Nat.add_sub_cancel' hm.le
  refine ⟨r', acks, m, R' - g.pipe.out, hk, hr, ?_, hm'.msg, ?_, ?_⟩
  · have ht' := ht.mono (List.nil_subset _)
    have hout := ht'.out
    simp only [ReceiverNode.install] at ht' hout
    rw [hout] at ht'
    refine ⟨h.steady, ht', hb, ?_, max_le h.high_le hlt, h.acked_lt, h.base_le,
      h.top_le.trans (Nat.le_max_left _ _)⟩
    simp only [Course.receive, Pipe.receive, hR]
    exact hm.holds
  · rw [hR]
    exact hm.got
  · rw [hR]
    exact hm.acks

end Conveys

end DistLab.Rdt
