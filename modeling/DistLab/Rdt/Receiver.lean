import DistLab.Rdt.Util

/-! # The receiver

Translation of `rdt_receiver.cc`. The packet the handler finds on its stack is an
argument; the acknowledgement and the message it passes on are part of its result.
`none` is an index below the cells or a copy outside the packet or a cell.
-/

namespace DistLab.Rdt

namespace Receiver

structure Content where
  data : List Byte := []
  status : Bool := false

end Receiver

structure Receiver where
  cells : ℕ → Receiver.Content := fun _ => {}
  base : ℕ := 0
  baseSeqN : ℕ := 0

namespace Receiver

variable (w : Receiver)

/-- A cell, or `-1` for a packet behind the window and `-2` for another one outside. -/
def seqToIndex (seqN : ℤ) : ℤ :=
  let dSeq := rMinusInt seqN w.baseSeqN kMaxSeqN
  if dSeq ≥ kWindowSize then
    if rMinusInt w.baseSeqN seqN kMaxSeqN ≤ kWindowSize then -1 else -2
  else rAddInt w.base dSeq (kWindowSize + 1)

theorem seqToIndex_natCast {w : Receiver} {seqN : ℕ} (h : w.baseSeqN < kMaxSeqN)
    (hs : seqN < kMaxSeqN) : w.seqToIndex seqN =
      if rMinus seqN w.baseSeqN kMaxSeqN ≥ kWindowSize then
        if rMinus w.baseSeqN seqN kMaxSeqN ≤ kWindowSize then (-1 : ℤ) else -2
      else (rAdd w.base (rMinus seqN w.baseSeqN kMaxSeqN) (kWindowSize + 1) : ℕ) := by
  have hadd : ∀ d : ℕ, rAddInt w.base d ((kWindowSize : ℤ) + 1) =
      (rAdd w.base d (kWindowSize + 1) : ℕ) := fun d => rAddInt_natCast
  simp only [seqToIndex, rMinusInt_natCast (h.le.trans (Nat.le_add_left _ seqN)),
    rMinusInt_natCast (hs.le.trans (Nat.le_add_left _ w.baseSeqN)), hadd, ge_iff_le, Int.ofNat_le]

def put (data : List Byte) (index : ℕ) : Receiver :=
  if (w.cells index).status then w
  else { w with cells := Function.update w.cells index ⟨data, true⟩ }

/-- The first loop of `get_after_base`, which releases the cells that have come in. -/
def release (base : ℕ) : ℕ → (ℕ → Content) → ℕ → ℕ → Option ((ℕ → Content) × ℕ × ℕ)
  | 0, _, _, _ => none
  | fuel + 1, cells, last, counter =>
    if (cells last).status && last != base then
      release base fuel (Function.update cells last { cells last with status := false })
        (rAdd last 1 (kWindowSize + 1)) (counter + 1)
    else some (cells, last, counter)

/-- The second loop of `get_after_base`, which copies the released cells. -/
def gather (cells : ℕ → Content) (last : ℕ) : ℕ → ℕ → Option (List Byte)
  | 0, _ => none
  | fuel + 1, i =>
    if i != last then
      (gather cells last fuel (rAdd i 1 (kWindowSize + 1))).map ((cells i).data ++ ·)
    else some []

def getAfterBase (firstData : List Byte) : Option (List Byte × Receiver) := do
  let first := rAdd w.base 1 (kWindowSize + 1)
  let (cells, last, counter) ← release w.base (kWindowSize + 1) w.cells first 1
  let data ← gather cells last (kWindowSize + 1) first
  return (firstData ++ data, ⟨cells, last, rAdd w.baseSeqN counter kMaxSeqN⟩)

def accepts (pkt : Packet) : Bool :=
  pkt 2 == 0 && checkChecksum pkt (min ((pkt 4).toInt + kHeaderSize) kPktSize).toNat

def ackMake (seqN : ℤ) (ackPkt : Packet) : Packet :=
  let ackPkt := ackPkt.write 2 [1, BitVec.ofInt 8 seqN]
  putShort ackPkt 0 (makeChecksum ackPkt 2 (kAckSize - 2))

def fromLowerLayer (ackPkt pkt : Packet) :
    Option (Receiver × List Packet × Option (List Byte)) :=
  if !accepts pkt then some (w, [], none)
  else
    let seqN := (pkt 3).toInt
    let dataSize := (pkt 4).toInt
    let index := w.seqToIndex seqN
    let data := pkt.read kHeaderSize dataSize.toNat
    if index = -2 then some (w, [], none)
    else if index = -1 then some (w, [ackMake seqN ackPkt], none)
    else if seqN = w.baseSeqN then
      if dataSize < 0 ∨ kPayloadSize < dataSize then none
      else (w.getAfterBase data).map fun (msg, w) => (w, [ackMake seqN ackPkt], some msg)
    else if index < 0 then none
    else if (w.cells index.toNat).status = false ∧ (dataSize < 0 ∨ kPayloadSize < dataSize) then
      none
    else some (w.put data index.toNat, [ackMake seqN ackPkt], none)

end Receiver

end DistLab.Rdt
