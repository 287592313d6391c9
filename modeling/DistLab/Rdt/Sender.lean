import DistLab.Rdt.Util

/-! # The sender

Translation of `rdt_sender.cc`. The simulator's clock and the packet a handler finds on
its stack are arguments; what a handler asks of the simulator, in the order it asks for it,
is part of its result. `none` is a failed `ASSERT` or an access outside the window's cells.
-/

namespace DistLab.Rdt

open StringManager

section PktMake

variable {σ : Type} [StringManager σ]

def pktFill (str : σ) (seqN n : ℕ) (pkt : Packet) : Option (σ × Packet) :=
  (copy str (pkt.write 2 [0, BitVec.ofNat 8 seqN, BitVec.ofNat 8 n]) kHeaderSize n).map fun pkt =>
    (pop str n, putShort pkt 0 (makeChecksum pkt 2 (n + kHeaderSize - 2)))

def pktMake (str : σ) (seqN : ℕ) (pkt : Packet) : Option (σ × Packet) :=
  if empty str then none
  else if lastSize str > kPayloadSize then pktFill str seqN kPayloadSize pkt
  else pktFill str seqN (lastSize str) pkt

end PktMake

inductive Call where
  | startTimer (timeout : ℚ)
  | stopTimer
  | toLowerLayer (pkt : Packet)

namespace VirtualTimer

/-- How the timers leave the simulator's timer: set for the record in front, if there is one. -/
def arm (v : VirtualTimer) (now : ℚ) : Call :=
  match v.records with
  | [] => .stopTimer
  | r :: _ => .startTimer (r.2 - now)

/-- `VirtualTimer::end` touches the simulator's timer only when the record in front goes. -/
def endCalls (v : VirtualTimer) (now : ℚ) (key : ℤ) : List Call :=
  match v.records with
  | [] => []
  | r :: _ => if r.1 = key then [(v.finish key).arm now] else []

end VirtualTimer

def Call.packet : Call → Option Packet
  | .toLowerLayer pkt => some pkt
  | _ => none

def packets (calls : List Call) : List Packet := calls.filterMap Call.packet

namespace Sender

structure Cell where
  status : Bool := false
  backup : Packet := fun _ => 0

structure SlidingWindow where
  base : ℕ := 0
  top : ℕ := 0
  baseSeqN : ℕ := 0
  cells : ℕ → Cell := fun _ => {}

namespace SlidingWindow

variable (w : SlidingWindow)

def isEmpty : Bool := w.base == w.top

/-- The next sequence number, or `none` for the source's `-1`. -/
def send : Option (ℕ × SlidingWindow) :=
  if rMinus w.top w.base (kWindowSize + 1) ≥ kWindowSize then none
  else
    some (rAdd w.baseSeqN (rMinus w.top w.base (kWindowSize + 1)) kMaxSeqN,
      { w with
        cells := Function.update w.cells w.top { w.cells w.top with status := true }
        top := rAdd w.top 1 (kWindowSize + 1) })

def slot (seqN : ℕ) : ℕ :=
  rAdd w.base (rMinus seqN w.baseSeqN kMaxSeqN) (kWindowSize + 1)

def backup (pkt : Packet) (seqN : ℕ) : Option SlidingWindow :=
  let i := w.slot seqN
  if (w.cells i).status then
    some { w with cells := Function.update w.cells i { w.cells i with backup := pkt } }
  else none

def getBackup (seqN : ℕ) : Option Packet :=
  let i := w.slot seqN
  if (w.cells i).status then some (w.cells i).backup else none

/-- The loop of `ack`, which passes the cells that are not waiting. -/
def slide : ℕ → ℕ → ℕ → Option (ℕ × ℕ)
  | 0, _, _ => none
  | fuel + 1, i, counter =>
    if !(w.cells i).status && i != w.top then slide fuel (rAdd i 1 (kWindowSize + 1)) (counter + 1)
    else some (i, counter)

/-- `ack` at a cell: whether the base moves, and the window after it. -/
def settle (i : ℕ) : Option (Bool × SlidingWindow) :=
  let w : SlidingWindow :=
    { w with cells := Function.update w.cells i { w.cells i with status := false } }
  if i ≠ w.base then some (false, w)
  else
    (w.slide (kWindowSize + 1) (rAdd i 1 (kWindowSize + 1)) 1).map fun (i, counter) =>
      (true, { w with base := i, baseSeqN := rAdd w.baseSeqN counter kMaxSeqN })

def ack (seqN : ℤ) : Option (Bool × SlidingWindow) :=
  let tmp := rMinusInt seqN w.baseSeqN kMaxSeqN
  if tmp ≥ kWindowSize then some (false, w)
  else
    let i := rAddInt w.base tmp (kWindowSize + 1)
    if i < 0 then none else w.settle i.toNat

theorem ack_natCast {w : SlidingWindow} (h : w.baseSeqN < kMaxSeqN) (seqN : ℕ) :
    w.ack seqN =
      if rMinus seqN w.baseSeqN kMaxSeqN ≥ kWindowSize then some (false, w)
      else w.settle (rAdd w.base (rMinus seqN w.baseSeqN kMaxSeqN) (kWindowSize + 1)) := by
  have hadd : ∀ d : ℕ, rAddInt w.base d ((kWindowSize : ℤ) + 1) =
      (rAdd w.base d (kWindowSize + 1) : ℕ) := fun d => rAddInt_natCast
  have hneg : ∀ k : ℕ, ¬ (k : ℤ) < 0 := fun k => by omega
  simp only [ack, rMinusInt_natCast (h.le.trans (Nat.le_add_left _ seqN)), hadd, ge_iff_le,
    Int.ofNat_le, hneg, if_false, Int.toNat_natCast]

end SlidingWindow

end Sender

structure Sender where
  window : Sender.SlidingWindow := {}
  buffer : CircleQueueBuffer := .init
  timer : VirtualTimer := { maxTimerN := kWindowSize }

namespace Sender

def accepts (ackPkt : Packet) : Bool := ackPkt 2 == 1 && checkChecksum ackPkt kAckSize

namespace Calling

/-- The loop that makes packets of a string and sends them while the window has room. -/
def sendLoop {σ : Type} [StringManager σ] (now : ℚ) : ℕ → SlidingWindow → VirtualTimer → σ →
    Packet → Option (SlidingWindow × VirtualTimer × σ × List Call)
  | 0, _, _, _, _ => none
  | fuel + 1, w, v, str, pkt =>
    if empty str then some (w, v, str, [])
    else match w.send with
      | none => some (w, v, str, [])
      | some (seqN, w) => do
        let (str, pkt) ← pktMake str seqN pkt
        let w ← w.backup pkt seqN
        let v ← v.start now seqN kWaitTime
        let (w, v', str, calls) ← sendLoop now fuel w v str pkt
        return (w, v', str, v.arm now :: .toLowerLayer pkt :: calls)

def fromUpperLayer (now : ℚ) (pkt : Packet) (msg : List Byte) (s : Sender) :
    Option (Sender × List Call) :=
  if !empty s.buffer then
    if s.window.isEmpty then none
    else (s.buffer.push msg).map fun b => ({ s with buffer := b }, [])
  else do
    let data : PlainStringManager := { data := msg }
    let (w, v, data, calls) ← sendLoop now (kWindowSize + 1) s.window s.timer data pkt
    if empty data then return (⟨w, s.buffer, v⟩, calls)
    else
      let b ← s.buffer.push data.lastData
      return (⟨w, b, v⟩, calls)

def fromLowerLayer (now : ℚ) (pkt ackPkt : Packet) (s : Sender) : Option (Sender × List Call) :=
  if !accepts ackPkt then some (s, [])
  else do
    let ackSeqN := (ackPkt 3).toInt
    let v := s.timer.finish ackSeqN
    let ended := s.timer.endCalls now ackSeqN
    let (moved, w) ← s.window.ack ackSeqN
    if !moved then return ({ s with window := w, timer := v }, ended)
    else
      let (w, v, b, calls) ← sendLoop now (kWindowSize + 1) w v s.buffer pkt
      return (⟨w, b, v⟩, ended ++ calls)

/-- `Sender_Timeout`, with `Sender_ReSend` of the timer that ends first; `VirtualTimer::timeout`
sets the timer once more after it. -/
def timeout (now : ℚ) (s : Sender) : Option (Sender × List Call) :=
  match s.timer.records with
  | [] => none
  | (seqN, _) :: rs => do
    let pkt ← s.window.getBackup seqN
    let v ← { s.timer with records := rs }.start now seqN kWaitTime
    return ({ s with timer := v }, [v.arm now, .toLowerLayer pkt, v.arm now])

end Calling

section Packets

/-! The handlers with the packets they pass to the lower layer only. -/

def sendLoop {σ : Type} [StringManager σ] (now : ℚ) (fuel : ℕ) (w : SlidingWindow)
    (v : VirtualTimer) (str : σ) (pkt : Packet) :
    Option (SlidingWindow × VirtualTimer × σ × List Packet) :=
  (Calling.sendLoop now fuel w v str pkt).map fun (w, v, str, calls) => (w, v, str, packets calls)

def fromUpperLayer (now : ℚ) (pkt : Packet) (msg : List Byte) (s : Sender) :
    Option (Sender × List Packet) :=
  (Calling.fromUpperLayer now pkt msg s).map fun (s, calls) => (s, packets calls)

def fromLowerLayer (now : ℚ) (pkt ackPkt : Packet) (s : Sender) : Option (Sender × List Packet) :=
  (Calling.fromLowerLayer now pkt ackPkt s).map fun (s, calls) => (s, packets calls)

def timeout (now : ℚ) (s : Sender) : Option (Sender × List Packet) :=
  (Calling.timeout now s).map fun (s, calls) => (s, packets calls)

end Packets

end Sender

@[simp] theorem packets_nil : packets [] = [] := rfl

@[simp] theorem packets_append (calls calls' : List Call) :
    packets (calls ++ calls') = packets calls ++ packets calls' :=
  List.filterMap_append

@[simp] theorem packets_arm_cons (v : VirtualTimer) (now : ℚ) (calls : List Call) :
    packets (v.arm now :: calls) = packets calls := by
  unfold VirtualTimer.arm
  split <;> rfl

@[simp] theorem packets_toLowerLayer_cons (pkt : Packet) (calls : List Call) :
    packets (.toLowerLayer pkt :: calls) = pkt :: packets calls := rfl

@[simp] theorem packets_endCalls (v : VirtualTimer) (now : ℚ) (key : ℤ) :
    packets (v.endCalls now key) = [] := by
  unfold VirtualTimer.endCalls
  split
  · rfl
  · split_ifs
    · exact packets_arm_cons _ _ _
    · rfl

theorem map_bind_eq {α β γ : Type} {x : Option α} {f : α → Option β} {g : α → Option γ}
    {k : β → γ} (h : ∀ a, (f a).map k = g a) : (x.bind f).map k = x.bind g := by
  cases x with
  | none => rfl
  | some a => exact h a

namespace Sender

open StringManager

variable {now : ℚ} {pkt : Packet}

theorem sendLoop_succ {σ : Type} [StringManager σ] {fuel : ℕ} {w : SlidingWindow}
    {v : VirtualTimer} {str : σ} :
    sendLoop now (fuel + 1) w v str pkt =
      if empty str then some (w, v, str, [])
      else match w.send with
        | none => some (w, v, str, [])
        | some (seqN, w) => do
          let (str, pkt) ← pktMake str seqN pkt
          let w ← w.backup pkt seqN
          let v ← v.start now seqN kWaitTime
          let (w, v, str, out) ← sendLoop now fuel w v str pkt
          return (w, v, str, pkt :: out) := by
  rw [sendLoop, Calling.sendLoop]
  split_ifs
  · rfl
  · cases w.send with
    | none => rfl
    | some r =>
      simp only [Option.bind_eq_bind, sendLoop, Option.bind_map]
      apply map_bind_eq
      intro q
      apply map_bind_eq
      intro w₁
      apply map_bind_eq
      intro v₁
      apply map_bind_eq
      intro u
      simp

theorem fromUpperLayer_eq (msg : List Byte) (s : Sender) : s.fromUpperLayer now pkt msg =
    if !empty s.buffer then
      if s.window.isEmpty then none
      else (s.buffer.push msg).map fun b => ({ s with buffer := b }, [])
    else do
      let data : PlainStringManager := { data := msg }
      let (w, v, data, out) ← sendLoop now (kWindowSize + 1) s.window s.timer data pkt
      if empty data then return (⟨w, s.buffer, v⟩, out)
      else
        let b ← s.buffer.push data.lastData
        return (⟨w, b, v⟩, out) := by
  rw [fromUpperLayer, Calling.fromUpperLayer]
  split_ifs
  · rfl
  · rw [Option.map_map]
    rfl
  · simp only [Option.bind_eq_bind, sendLoop, Option.bind_map]
    apply map_bind_eq
    intro u
    simp only [Function.comp_apply]
    split_ifs
    · rfl
    · exact map_bind_eq fun _ => rfl

theorem fromLowerLayer_eq (ackPkt : Packet) (s : Sender) : s.fromLowerLayer now pkt ackPkt =
    if !accepts ackPkt then some (s, [])
    else do
      let (moved, w) ← s.window.ack (ackPkt 3).toInt
      if !moved then return ({ s with window := w, timer := s.timer.finish (ackPkt 3).toInt }, [])
      else
        let (w, v, b, out) ←
          sendLoop now (kWindowSize + 1) w (s.timer.finish (ackPkt 3).toInt) s.buffer pkt
        return (⟨w, b, v⟩, out) := by
  rw [fromLowerLayer, Calling.fromLowerLayer]
  split_ifs
  · rfl
  · apply map_bind_eq
    intro r
    dsimp only
    split_ifs
    · simp
    · simp only [Option.bind_eq_bind, sendLoop, Option.bind_map]
      apply map_bind_eq
      intro u
      simp

section Acknowledged

variable {s : Sender} {ackPkt : Packet} {key : ℤ} {w : SlidingWindow}

theorem fromLowerLayer_of_still (ha : accepts ackPkt = true) (hk : (ackPkt 3).toInt = key)
    (hw : s.window.ack key = some (false, w)) :
    s.fromLowerLayer now pkt ackPkt = some (⟨w, s.buffer, s.timer.finish key⟩, []) := by
  rw [fromLowerLayer_eq, ha, hk, hw]
  rfl

theorem fromLowerLayer_of_moved {w' : SlidingWindow} {v : VirtualTimer} {b : CircleQueueBuffer}
    {out : List Packet} (ha : accepts ackPkt = true) (hk : (ackPkt 3).toInt = key)
    (hw : s.window.ack key = some (true, w))
    (hloop : sendLoop now (kWindowSize + 1) w (s.timer.finish key) s.buffer pkt =
      some (w', v, b, out)) :
    s.fromLowerLayer now pkt ackPkt = some (⟨w', b, v⟩, out) := by
  simp only [fromLowerLayer_eq, ha, hk, hw, hloop, Option.bind_eq_bind, Option.bind_some]
  rfl

theorem fromLowerLayer_rejected (ha : accepts ackPkt = false) :
    s.fromLowerLayer now pkt ackPkt = some (s, []) := by
  rw [fromLowerLayer_eq, ha]
  rfl

end Acknowledged

theorem timeout_eq (now : ℚ) (s : Sender) : s.timeout now =
    match s.timer.records with
    | [] => none
    | (seqN, _) :: rs => do
      let pkt ← s.window.getBackup seqN
      let v ← { s.timer with records := rs }.start now seqN kWaitTime
      return ({ s with timer := v }, [pkt]) := by
  rw [timeout, Calling.timeout]
  cases s.timer.records with
  | nil => rfl
  | cons r rs =>
    apply map_bind_eq
    intro q
    apply map_bind_eq
    intro v
    simp

end Sender

end DistLab.Rdt
