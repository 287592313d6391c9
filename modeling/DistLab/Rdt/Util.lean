import DistLab.Systems.Block
import Mathlib.Data.Rat.Defs
import Mathlib.Logic.Function.Basic

/-! # The utilities of the transport layer

Translation of `rdt_util`: the constants, ring arithmetic, the checksum, the two string
managers and the virtual timer. A `char` is eight bits and a `short` sixteen; a packet
is the block of its bytes. `none` is a failed `ASSERT`.
-/

namespace DistLab.Rdt

abbrev kWindowSize : ℕ := 10
abbrev kMaxSeqN : ℕ := 30
abbrev kInitBufferSize : ℕ := 1024 * 16
abbrev kWaitTime : ℚ := 1 / 4
abbrev kHeaderSize : ℕ := 5
abbrev kPktSize : ℕ := 128
abbrev kPayloadSize : ℕ := kPktSize - kHeaderSize
abbrev kAckSize : ℕ := 20

abbrev Byte := BitVec 8

abbrev Packet := Block Byte

/-- `r_minus` on any numbers: the remainder takes the sign of the dividend. -/
def rMinusInt (a b K : ℤ) : ℤ := (a - b + K).tmod K

def rAddInt (a b K : ℤ) : ℤ := (a + b).tmod K

def rMinus (a b K : ℕ) : ℕ := (a + K - b) % K

def rAdd (a b K : ℕ) : ℕ := (a + b) % K

theorem rMinusInt_natCast {a b K : ℕ} (h : b ≤ a + K) :
    rMinusInt a b K = (rMinus a b K : ℕ) := by
  rw [rMinusInt, rMinus, show (a : ℤ) - b + K = ((a + K - b : ℕ) : ℤ) by omega]
  exact Int.ofNat_tmod _ _

theorem rAddInt_natCast {a b K : ℕ} : rAddInt a b K = (rAdd a b K : ℕ) :=
  Int.ofNat_tmod _ _

section Checksum

def short (m : Packet) (off : ℕ) : BitVec 16 := m (off + 1) ++ m off

def putShort (m : Packet) (off : ℕ) (v : BitVec 16) : Packet :=
  m.write off [v.extractLsb' 0 8, v.extractLsb' 8 8]

/-- The sum both checksum functions form over `size` bytes from an offset on. -/
def sum (m : Packet) (off : ℕ) : ℕ → BitVec 16
  | 0 => 0
  | 1 => (m off).signExtend 16 <<< 8
  | size + 2 => short m off + sum m (off + 2) size

def makeChecksum (m : Packet) (off size : ℕ) : BitVec 16 := ~~~sum m off size

def checkChecksum (m : Packet) (size : ℕ) : Bool := ~~~sum m 0 size == 0

end Checksum

class StringManager (σ : Type) where
  empty : σ → Bool
  lastSize : σ → ℕ
  pop : σ → ℕ → σ
  copy : σ → Packet → ℕ → ℕ → Option Packet

structure PlainStringManager where
  data : List Byte
  cursor : ℕ := 0

namespace PlainStringManager

def lastData (s : PlainStringManager) : List Byte := s.data.drop s.cursor

instance : StringManager PlainStringManager where
  empty s := decide (s.cursor ≥ s.data.length)
  lastSize s := s.data.length - s.cursor
  pop s n := { s with cursor := s.cursor + n }
  copy s dst off n := some (dst.write off ((s.data.drop s.cursor).take n))

end PlainStringManager

/-- A ring of `maxBufSize + 1` cells with the data between two of them. The block is memory that
returns what was written, whatever was allocated for it. -/
structure CircleQueueBuffer where
  maxBufSize : ℕ
  allocated : ℕ
  buf : Block Byte
  top : ℕ
  base : ℕ
  pos : 0 < maxBufSize
  top_le : top ≤ maxBufSize
  base_le : base ≤ maxBufSize

namespace CircleQueueBuffer

variable (q : CircleQueueBuffer)

def lastSize : ℕ := rMinus q.top q.base (q.maxBufSize + 1)

theorem lastSize_le : q.lastSize ≤ q.maxBufSize :=
  Nat.lt_succ_iff.mp (Nat.mod_lt _ (Nat.succ_pos _))

def init : CircleQueueBuffer where
  maxBufSize := kInitBufferSize
  allocated := kInitBufferSize + 1
  buf := fun _ => 0
  top := 0
  base := 0
  pos := by decide
  top_le := Nat.zero_le _
  base_le := Nat.zero_le _

def pop (n : ℕ) : CircleQueueBuffer :=
  { q with
    base := rAdd q.base n (q.maxBufSize + 1)
    base_le := Nat.lt_succ_iff.mp (Nat.mod_lt _ (Nat.succ_pos _)) }

def copy (dst : Packet) (off n : ℕ) : Option Packet :=
  if n ≤ q.maxBufSize then
    let baseToEnd := q.maxBufSize + 1 - q.base
    if n > baseToEnd then
      some ((dst.write off (q.buf.read q.base baseToEnd)).write (off + baseToEnd)
        (q.buf.read 0 (n - baseToEnd)))
    else some (dst.write off (q.buf.read q.base n))
  else none

def enlarge : CircleQueueBuffer where
  maxBufSize := q.maxBufSize * 2 + 1
  allocated := q.maxBufSize * 2 + 1
  buf :=
    let newBuf : Block Byte := fun _ => 0
    if q.top < q.base then
      let baseToEnd := q.maxBufSize + 1 - q.base
      (newBuf.write 0 (q.buf.read q.base baseToEnd)).write baseToEnd (q.buf.read 0 q.top)
    else newBuf.write 0 (q.buf.read q.base (q.top - q.base))
  top := q.lastSize
  base := 0
  pos := Nat.succ_pos _
  top_le := by
    have := q.lastSize_le
    omega
  base_le := Nat.zero_le _

/-- The loop of `push`. Doubling as often as there are bytes to push makes room for them. -/
def enlargeFor (size : ℕ) : ℕ → CircleQueueBuffer → Option CircleQueueBuffer
  | 0, _ => none
  | fuel + 1, q =>
    if q.lastSize + size > q.maxBufSize then enlargeFor size fuel q.enlarge else some q

/-- The assertion at the start of the source's `push` holds of every pair of positions. -/
def push (data : List Byte) : Option CircleQueueBuffer :=
  (enlargeFor data.length (data.length + 1) q).map fun q =>
    { q with
      buf := q.buf.ringWrite (q.maxBufSize + 1) q.top data
      top := rAdd q.top data.length (q.maxBufSize + 1)
      top_le := Nat.lt_succ_iff.mp (Nat.mod_lt _ (Nat.succ_pos _)) }

instance : StringManager CircleQueueBuffer where
  empty q := decide (q.top = q.base)
  lastSize := lastSize
  pop := pop
  copy := copy

end CircleQueueBuffer

/-- The timers in the order of the list, each with its key and the time it ends at. -/
structure VirtualTimer where
  maxTimerN : ℕ
  records : List (ℕ × ℚ) := []

namespace VirtualTimer

def insert (key : ℕ) (endTime : ℚ) : List (ℕ × ℚ) → List (ℕ × ℚ)
  | [] => [(key, endTime)]
  | r :: rs => if r.2 < endTime then r :: insert key endTime rs else (key, endTime) :: r :: rs

def start (v : VirtualTimer) (now : ℚ) (key : ℕ) (time : ℚ) : Option VirtualTimer :=
  if v.records.length < v.maxTimerN then
    some { v with records := insert key (now + time) v.records }
  else none

/-- `VirtualTimer::end`: drop the first timer with the key. -/
def finish (v : VirtualTimer) (key : ℤ) : VirtualTimer :=
  { v with records := v.records.eraseP fun r => (r.1 : ℤ) == key }

theorem finish_natCast (v : VirtualTimer) (key : ℕ) :
    v.finish key = { v with records := v.records.eraseP (·.1 == key) } := by
  have hkey : (fun r : ℕ × ℚ => (r.1 : ℤ) == (key : ℤ)) = (·.1 == key) := by
    ext r
    simp [Int.ofNat_inj]
  rw [finish, hkey]

end VirtualTimer

end DistLab.Rdt
