import DistLab.Systems.Network
import DistLab.Systems.Pipe
import DistLab.Rdt.Sending
import DistLab.Rdt.Receiving

/-! # The link

The sender and the receiver as a message-passing world. The channel loses, delays and
reorders packets; corrupted ones come from nowhere. Packets are counted from the start
of the run, which the code does not do: the count tells how far a packet is behind the
window it arrives at.
-/

namespace DistLab.Rdt

inductive Party where
  | sender
  | receiver
  deriving DecidableEq

/-- The sender with the number of packets its window has passed, the simulator's clock and what
its stack holds. -/
structure SenderNode where
  code : Sender := {}
  passed : ℕ := 0
  now : ℚ := 0
  stack : Packet := fun _ => 0

structure ReceiverNode where
  code : Receiver := {}
  passed : ℕ := 0
  stack : Packet := fun _ => 0

abbrev Node : Party → Type
  | .sender => SenderNode
  | .receiver => ReceiverNode

/-- Packets in the channel, with the number of the packet they carry or acknowledge. -/
inductive Msg where
  | data (no : ℕ) (pkt : Packet)
  | ack (no : ℕ) (pkt : Packet)

inductive Act where
  | fromUpperLayer (msg : List Byte)
  | timeout
  | corrupted (pkt : Packet)
  | environment (now : ℚ) (stack : Packet)

inductive Obs where
  | given (msg : List Byte)
  | delivered (msg : List Byte)

/-- Install the result of a handler: count the packets the window has passed and number the
packets that are sent by their distance from it. -/
def SenderNode.install (s : SenderNode) (obs : List Obs) :
    Sender × List Packet → Reaction SenderNode Msg Obs
  | (code, pkts) =>
    let passed := s.passed + rMinus code.window.baseSeqN s.code.window.baseSeqN kMaxSeqN
    ⟨{ s with code := code, passed := passed },
      pkts.map fun pkt =>
        .data (passed + rMinus (pkt 3).toNat code.window.baseSeqN kMaxSeqN) pkt, obs⟩

def SenderNode.react (s : SenderNode) : Input Act Msg → Option (Reaction SenderNode Msg Obs)
  | .act (.fromUpperLayer msg) =>
    (s.code.fromUpperLayer s.now s.stack msg).map (s.install [.given msg])
  | .act .timeout => (s.code.timeout s.now).map (s.install [])
  | .act (.corrupted pkt) => (s.code.fromLowerLayer s.now s.stack pkt).map (s.install [])
  | .act (.environment now stack) => some ⟨{ s with now := now, stack := stack }, [], []⟩
  | .recv (.ack _ pkt) => (s.code.fromLowerLayer s.now s.stack pkt).map (s.install [])
  | .recv (.data _ _) => none

def ReceiverNode.install (r : ReceiverNode) (no : ℕ) :
    Receiver × List Packet × Option (List Byte) → Reaction ReceiverNode Msg Obs
  | (code, acks, msg) =>
    ⟨{ r with
        code := code
        passed := r.passed + rMinus code.baseSeqN r.code.baseSeqN kMaxSeqN },
      acks.map (.ack no), msg.toList.map .delivered⟩

def ReceiverNode.react (r : ReceiverNode) :
    Input Act Msg → Option (Reaction ReceiverNode Msg Obs)
  | .recv (.data no pkt) => (r.code.fromLowerLayer r.stack pkt).map (r.install no)
  | .act (.corrupted pkt) => (r.code.fromLowerLayer r.stack pkt).map (r.install 0)
  | .act (.environment _ stack) => some ⟨{ r with stack := stack }, [], []⟩
  | _ => none

def rdt : Protocol Party Node Act Msg Obs where
  init
    | .sender => ({} : SenderNode)
    | .receiver => ({} : ReceiverNode)
  dst
    | .data _ _ => .receiver
    | .ack _ _ => .sender
  react
    | .sender => SenderNode.react
    | .receiver => ReceiverNode.react

abbrev Link := World Node Msg Obs

abbrev link : System Link (NetEvent Party Act) := rdt.system

def given : List Obs → List Byte
  | [] => []
  | .given msg :: trace => given trace ++ msg
  | .delivered _ :: trace => given trace

def delivered : List Obs → List Byte
  | [] => []
  | .given _ :: trace => delivered trace
  | .delivered msg :: trace => delivered trace ++ msg

/-- Corrupted packets are rejected, and no packet comes in that is more than
`kMaxSeqN - kWindowSize` packets behind the window. -/
def Party.Keeps : (i : Party) → Node i → Input Act Msg → Prop
  | .sender, (s : SenderNode), .recv (.ack no _) => s.passed ≤ no + (kMaxSeqN - kWindowSize)
  | .receiver, (r : ReceiverNode), .recv (.data no _) => r.passed ≤ no + (kMaxSeqN - kWindowSize)
  | .sender, _, .act (.corrupted pkt) => Sender.accepts pkt = false
  | .receiver, _, .act (.corrupted pkt) => Receiver.accepts pkt = false
  | _, _, _ => True

instance : (i : Party) → (n : Node i) → (x : Input Act Msg) → Decidable (i.Keeps n x)
  | .sender, (s : SenderNode), .recv (.ack no _) =>
    inferInstanceAs (Decidable (s.passed ≤ no + (kMaxSeqN - kWindowSize)))
  | .receiver, (r : ReceiverNode), .recv (.data no _) =>
    inferInstanceAs (Decidable (r.passed ≤ no + (kMaxSeqN - kWindowSize)))
  | .sender, _, .act (.corrupted pkt) => inferInstanceAs (Decidable (Sender.accepts pkt = false))
  | .receiver, _, .act (.corrupted pkt) =>
    inferInstanceAs (Decidable (Receiver.accepts pkt = false))
  | .sender, _, .recv (.data _ _) => isTrue trivial
  | .receiver, _, .recv (.ack _ _) => isTrue trivial
  | .sender, _, .act (.fromUpperLayer _) => isTrue trivial
  | .sender, _, .act .timeout => isTrue trivial
  | .sender, _, .act (.environment _ _) => isTrue trivial
  | .receiver, _, .act (.fromUpperLayer _) => isTrue trivial
  | .receiver, _, .act .timeout => isTrue trivial
  | .receiver, _, .act (.environment _ _) => isTrue trivial

end DistLab.Rdt
