import Mathlib.Algebra.Group.Int.Defs
import DistLab.Rdt.Ring

/-! # The ring buffer in 32-bit arithmetic

`CircleQueueBuffer` with the numbers of the source: sizes and positions are `int`, and a sum
that is too large wraps around. While the ring has at most `2 ^ 30` cells no sum does, and the
buffer is that of the natural numbers. Its accesses stay inside the allocation only until the
first growth: `enlarge` allocates `2 * max_buf_size_ + 1` bytes and makes that number the new
`max_buf_size_`, one byte less than the ring of `max_buf_size_ + 1` cells needs.
-/

namespace DistLab.Rdt.Machine

def rMinus (a b K : Int32) : Int32 := (a - b + K) % K

def rAdd (a b K : Int32) : Int32 := (a + b) % K

/-! `none` is a copy from or to a negative offset or of a negative number of bytes, and an
allocation of a negative size. -/

def read (m : Block Byte) (off n : Int32) : Option (List Byte) :=
  if off < 0 ∨ n < 0 then none else some (m.read off.toNatClampNeg n.toNatClampNeg)

def write (m : Block Byte) (off : Int32) (data : List Byte) : Option (Block Byte) :=
  if off < 0 then none else some (m.write off.toNatClampNeg data)

def slice (data : List Byte) (off n : Int32) : Option (List Byte) :=
  if off < 0 ∨ n < 0 then none
  else some ((data.drop off.toNatClampNeg).take n.toNatClampNeg)

structure CircleQueueBuffer where
  maxBufSize : Int32
  allocated : Int32
  buf : Block Byte
  top : Int32
  base : Int32

namespace CircleQueueBuffer

/-- The constructor; the allocated bytes hold anything. -/
def create (maxBufSize : Int32) (buf : Block Byte) : CircleQueueBuffer where
  maxBufSize := maxBufSize
  allocated := maxBufSize + 1
  buf := buf
  top := 0
  base := 0

variable (q : CircleQueueBuffer)

def empty : Bool := q.top == q.base

def lastSize : Int32 := rMinus q.top q.base (q.maxBufSize + 1)

def pop (n : Int32) : CircleQueueBuffer := { q with base := rAdd q.base n (q.maxBufSize + 1) }

def copy (dst : Packet) (off : ℕ) (n : Int32) : Option Packet :=
  if n ≤ q.maxBufSize then
    let baseToEnd := q.maxBufSize + 1 - q.base
    if n > baseToEnd then do
      let first ← read q.buf q.base baseToEnd
      let second ← read q.buf 0 (n - baseToEnd)
      return (dst.write off first).write (off + first.length) second
    else (read q.buf q.base n).map (dst.write off ·)
  else none

def unroll : Option (Block Byte) :=
  if q.top < q.base then do
    let baseToEnd := q.maxBufSize + 1 - q.base
    let first ← read q.buf q.base baseToEnd
    let newBuf ← write (fun _ => 0) 0 first
    let second ← read q.buf 0 q.top
    write newBuf baseToEnd second
  else do
    let bytes ← read q.buf q.base (q.top - q.base)
    write (fun _ => 0) 0 bytes

def enlarge : Option CircleQueueBuffer :=
  let newMaxSize := q.maxBufSize * 2
  if newMaxSize + 1 < 0 then none
  else q.unroll.map fun newBuf =>
    { maxBufSize := newMaxSize + 1
      allocated := newMaxSize + 1
      buf := newBuf
      top := q.lastSize
      base := 0 }

def enlargeFor (size : Int32) : ℕ → CircleQueueBuffer → Option CircleQueueBuffer
  | 0, _ => none
  | fuel + 1, q =>
    if q.lastSize + size > q.maxBufSize then q.enlarge.bind (enlargeFor size fuel) else some q

def store (data : List Byte) : Option (Block Byte) :=
  let size := Int32.ofNat data.length
  let topToEnd := q.maxBufSize + 1 - q.top
  if size > topToEnd then do
    let first ← slice data 0 topToEnd
    let buf ← write q.buf q.top first
    let second ← slice data topToEnd (size - topToEnd)
    write buf 0 second
  else do
    let bytes ← slice data 0 size
    write q.buf q.top bytes

def push (data : List Byte) : Option CircleQueueBuffer :=
  if rMinus q.top q.base q.maxBufSize < 0 then none
  else do
    let size := Int32.ofNat data.length
    let q ← enlargeFor size (data.length + 1) q
    let buf ← q.store data
    return { q with buf := buf, top := rAdd q.top size (q.maxBufSize + 1) }

def step : RingOp → Option CircleQueueBuffer
  | .push data => q.push data
  | .copy n => (q.copy (fun _ => 0) 0 (.ofNat n)).map fun _ => q
  | .pop n => some (q.pop (.ofNat n))

def Serves : RingOp → Prop
  | .push _ => True
  | .copy n => n ≤ q.lastSize.toInt
  | .pop n => n ≤ q.lastSize.toInt

def Fits : RingOp → Prop
  | .push data => q.lastSize.toInt + data.length ≤ q.maxBufSize.toInt
  | _ => True

/-- The bytes fit without growth or there are at most `2 ^ 29` in all. -/
def Small : RingOp → Prop
  | .push data => q.lastSize.toInt + data.length ≤ q.maxBufSize.toInt ∨
      q.lastSize.toInt + data.length ≤ 2 ^ 29
  | _ => True

instance decidableServes : ∀ op, Decidable (q.Serves op)
  | .push _ => isTrue trivial
  | .copy n => inferInstanceAs (Decidable (n ≤ q.lastSize.toInt))
  | .pop n => inferInstanceAs (Decidable (n ≤ q.lastSize.toInt))

instance decidableFits : ∀ op, Decidable (q.Fits op)
  | .push data =>
    inferInstanceAs (Decidable (q.lastSize.toInt + data.length ≤ q.maxBufSize.toInt))
  | .copy _ => isTrue trivial
  | .pop _ => isTrue trivial

instance decidableSmall : ∀ op, Decidable (q.Small op)
  | .push data => inferInstanceAs (Decidable (q.lastSize.toInt + data.length ≤ _ ∨ _ ≤ _))
  | .copy _ => isTrue trivial
  | .pop _ => isTrue trivial

end CircleQueueBuffer

def ringBuffer (maxBufSize : Int32) (buf : Block Byte) : System CircleQueueBuffer RingOp where
  init := .create maxBufSize buf
  step := CircleQueueBuffer.step

section Words

variable {a b K off n : ℕ} {m : Block Byte} {data : List Byte}

theorem not_ofNat_neg (h : n < 2 ^ 31) : ¬ Int32.ofNat n < 0 := by
  rw [Int32.lt_iff_toInt_lt, Int32.toInt_ofNat_of_lt h, Int32.toInt_zero]
  omega

theorem ofNat_succ (n : ℕ) : Int32.ofNat n + 1 = Int32.ofNat (n + 1) :=
  (Int32.ofNat_add n 1).symm

theorem rMinus_ofNat (h : b ≤ a + K) (hlt : a + K < 2 ^ 31) :
    rMinus (.ofNat a) (.ofNat b) (.ofNat K) = .ofNat (Rdt.rMinus a b K) := by
  have hcast : ((a + K - b : ℕ) : ℤ) = a - b + K := by omega
  have hsum : Int32.ofNat a - Int32.ofNat b + Int32.ofNat K = Int32.ofNat (a + K - b) := by
    simp only [← Int32.ofInt_eq_ofNat]
    rw [hcast, Int32.ofInt_add, Int32.ofInt_sub]
  rw [rMinus, Rdt.rMinus, hsum, Int32.ofNat_mod (by omega) (by omega)]

theorem rAdd_ofNat (h : a + b < 2 ^ 31) (hK : K < 2 ^ 31) :
    rAdd (.ofNat a) (.ofNat b) (.ofNat K) = .ofNat (Rdt.rAdd a b K) := by
  rw [rAdd, Rdt.rAdd, Int32.ofNat_mod h hK, Int32.ofNat_add]

theorem read_ofNat (ho : off < 2 ^ 31) (hn : n < 2 ^ 31) :
    read m (.ofNat off) (.ofNat n) = some (m.read off n) := by
  rw [read, if_neg (not_or.mpr ⟨not_ofNat_neg ho, not_ofNat_neg hn⟩),
    Int32.toNatClampNeg_ofNat_of_lt ho, Int32.toNatClampNeg_ofNat_of_lt hn]

theorem write_ofNat (ho : off < 2 ^ 31) : write m (.ofNat off) data = some (m.write off data) := by
  rw [write, if_neg (not_ofNat_neg ho), Int32.toNatClampNeg_ofNat_of_lt ho]

theorem slice_ofNat (ho : off < 2 ^ 31) (hn : n < 2 ^ 31) :
    slice data (.ofNat off) (.ofNat n) = some ((data.drop off).take n) := by
  rw [slice, if_neg (not_or.mpr ⟨not_ofNat_neg ho, not_ofNat_neg hn⟩),
    Int32.toNatClampNeg_ofNat_of_lt ho, Int32.toNatClampNeg_ofNat_of_lt hn]

end Words

/-- The buffer of natural numbers in the machine's numbers. -/
def encode (r : Rdt.CircleQueueBuffer) : CircleQueueBuffer where
  maxBufSize := .ofNat r.maxBufSize
  allocated := .ofNat r.allocated
  buf := r.buf
  top := .ofNat r.top
  base := .ofNat r.base

section Encode

variable {r r' : Rdt.CircleQueueBuffer} {n size : ℕ} {data : List Byte} {op : RingOp}

theorem lastSize_encode (h : r.maxBufSize < 2 ^ 30) :
    (encode r).lastSize = .ofNat r.lastSize := by
  have htop := r.top_le
  have hbase := r.base_le
  rw [CircleQueueBuffer.lastSize, encode, ofNat_succ, rMinus_ofNat (by omega) (by omega)]
  rfl

theorem pop_encode (h : r.maxBufSize < 2 ^ 30) (hn : n ≤ r.lastSize) :
    (encode r).pop (.ofNat n) = encode (r.pop n) := by
  have hbase := r.base_le
  have hle := r.lastSize_le
  simp only [CircleQueueBuffer.pop, encode, ofNat_succ, Rdt.CircleQueueBuffer.pop]
  rw [rAdd_ofNat (by omega) (by omega)]

theorem toEnd_ofNat {K t : ℕ} (h : t ≤ K) :
    Int32.ofNat K + 1 - Int32.ofNat t = .ofNat (K + 1 - t) := by
  rw [ofNat_succ, Int32.ofNat_sub _ _ (by omega)]

theorem copy_encode (h : r.maxBufSize < 2 ^ 30) (hn : n ≤ r.lastSize) (dst : Packet) (off : ℕ) :
    (encode r).copy dst off (.ofNat n) = r.copy dst off n := by
  have hle := r.lastSize_le
  have hmax : r.maxBufSize < 2 ^ 31 := by omega
  have hbase : r.base < 2 ^ 31 := r.base_le.trans_lt hmax
  have hn' : n < 2 ^ 31 := by omega
  have hend : r.maxBufSize + 1 - r.base < 2 ^ 31 := by omega
  have hzero : (0 : Int32) = .ofNat 0 := rfl
  simp only [CircleQueueBuffer.copy, encode, toEnd_ofNat r.base_le, gt_iff_lt,
    Rdt.CircleQueueBuffer.copy, Int32.ofNat_le_iff_le hn' hmax, Int32.ofNat_lt_iff_lt hend hn']
  split_ifs with hle' hlt
  · rw [← Int32.ofNat_sub _ _ hlt.le, read_ofNat hbase hend, hzero,
      read_ofNat (by decide) (by omega)]
    simp
  · rw [read_ofNat hbase hn']
    rfl
  · rfl

theorem unroll_encode (h : r.maxBufSize < 2 ^ 30) :
    (encode r).unroll = some r.enlarge.buf := by
  have hmax : r.maxBufSize < 2 ^ 31 := by omega
  have htop : r.top < 2 ^ 31 := r.top_le.trans_lt hmax
  have hbase : r.base < 2 ^ 31 := r.base_le.trans_lt hmax
  have hend : r.maxBufSize + 1 - r.base < 2 ^ 31 := by omega
  have h0 : 0 < 2 ^ 31 := by decide
  have hzero : (0 : Int32) = .ofNat 0 := rfl
  simp only [CircleQueueBuffer.unroll, encode, toEnd_ofNat r.base_le, hzero,
    Rdt.CircleQueueBuffer.enlarge, Int32.ofNat_lt_iff_lt htop hbase]
  split_ifs with hlt
  · simp only [read_ofNat hbase hend, read_ofNat h0 htop, write_ofNat h0, write_ofNat hend,
      Option.bind_eq_bind, Option.bind_some]
  · rw [← Int32.ofNat_sub _ _ (Nat.not_lt.mp hlt), read_ofNat hbase (by omega)]
    exact write_ofNat h0

theorem enlarge_encode (h : r.maxBufSize < 2 ^ 30) :
    (encode r).enlarge = some (encode r.enlarge) := by
  have hmax : (encode r).maxBufSize * 2 + 1 = .ofNat (r.maxBufSize * 2 + 1) := by
    rw [← ofNat_succ, Int32.ofNat_mul]
    rfl
  simp only [CircleQueueBuffer.enlarge]
  rw [hmax, if_neg (not_ofNat_neg (by omega)), unroll_encode h, lastSize_encode h]
  rfl

theorem enlargeFor_encode (fuel : ℕ) (h : r.maxBufSize < 2 ^ 30)
    (hs : r.lastSize + size ≤ r.maxBufSize ∨ r.lastSize + size ≤ 2 ^ 29) :
    (encode r).enlargeFor (.ofNat size) fuel = (r.enlargeFor size fuel).map encode ∧
      ∀ r' ∈ r.enlargeFor size fuel, r'.maxBufSize < 2 ^ 30 := by
  induction fuel generalizing r with
  | zero => exact ⟨rfl, fun _ h => by cases h⟩
  | succ fuel ih =>
    have hlt := Int32.ofNat_lt_iff_lt (show r.maxBufSize < 2 ^ 31 by omega)
      (show r.lastSize + size < 2 ^ 31 by omega)
    have hmax : (encode r).maxBufSize = .ofNat r.maxBufSize := rfl
    simp only [CircleQueueBuffer.enlargeFor, Rdt.CircleQueueBuffer.enlargeFor, lastSize_encode h,
      ← Int32.ofNat_add, gt_iff_lt, hmax, hlt]
    split_ifs with hgrow
    · rw [enlarge_encode h, Option.bind_some]
      have hmax : r.enlarge.maxBufSize = r.maxBufSize * 2 + 1 := rfl
      apply ih
      · omega
      · rw [r.lastSize_enlarge]
        omega
    · refine ⟨rfl, fun r' hr' => ?_⟩
      obtain rfl := Option.some.inj hr'
      exact h

theorem store_encode (h : r.maxBufSize < 2 ^ 30) (hd : data.length < 2 ^ 31) :
    (encode r).store data = some (r.buf.ringWrite (r.maxBufSize + 1) r.top data) := by
  have htop : r.top < 2 ^ 31 := r.top_le.trans_lt (by omega)
  have hend : r.maxBufSize + 1 - r.top < 2 ^ 31 := by omega
  have h0 : 0 < 2 ^ 31 := by decide
  have hzero : (0 : Int32) = .ofNat 0 := rfl
  simp only [CircleQueueBuffer.store, encode, toEnd_ofNat r.top_le, hzero, gt_iff_lt,
    Int32.ofNat_lt_iff_lt hend hd, Block.ringWrite]
  split_ifs with hlt
  · have hrest : (data.drop (r.maxBufSize + 1 - r.top)).take
        (data.length - (r.maxBufSize + 1 - r.top)) = data.drop (r.maxBufSize + 1 - r.top) :=
      List.take_of_length_le (by simp)
    rw [← Int32.ofNat_sub _ _ hlt.le]
    simp only [slice_ofNat h0 hend, slice_ofNat hend
      (show data.length - (r.maxBufSize + 1 - r.top) < 2 ^ 31 by omega), write_ofNat htop,
      write_ofNat h0, Option.bind_eq_bind, Option.bind_some, List.drop_zero, hrest]
  · simp only [slice_ofNat h0 hd, write_ofNat htop, Option.bind_eq_bind, Option.bind_some,
      List.drop_zero, List.take_length]

theorem push_encode (h : r.maxBufSize < 2 ^ 30)
    (hs : r.lastSize + data.length ≤ r.maxBufSize ∨ r.lastSize + data.length ≤ 2 ^ 29) :
    (encode r).push data = (r.push data).map encode ∧
      ∀ r' ∈ r.push data, r'.maxBufSize < 2 ^ 30 := by
  have hle := r.lastSize_le
  have htop := r.top_le
  have hbase := r.base_le
  obtain ⟨u, hu, -, -, hfit⟩ := r.exists_enlargeFor data.length data.length (by omega)
  obtain ⟨hloop, hmax⟩ := enlargeFor_encode (data.length + 1) h hs
  have hu' := hmax u hu
  have htop' := u.top_le
  have hassert : ¬ rMinus (encode r).top (encode r).base (encode r).maxBufSize < 0 := by
    rw [encode, rMinus_ofNat (by omega) (by omega)]
    exact not_ofNat_neg ((Nat.mod_lt _ r.pos).trans (by omega))
  constructor
  · simp only [CircleQueueBuffer.push, if_neg hassert, hloop, Rdt.CircleQueueBuffer.push, hu,
      Option.map_some, Option.bind_eq_bind, Option.bind_some,
      store_encode hu' (show data.length < 2 ^ 31 by omega)]
    simp only [encode, ofNat_succ, rAdd_ofNat (show u.top + data.length < 2 ^ 31 by omega)
      (show u.maxBufSize + 1 < 2 ^ 31 by omega)]
    rfl
  · intro r' hr'
    rw [Rdt.CircleQueueBuffer.push, hu] at hr'
    obtain rfl := Option.some.inj hr'
    exact hu'

theorem toInt_lastSize_encode (h : r.maxBufSize < 2 ^ 30) :
    (encode r).lastSize.toInt = r.lastSize := by
  have := r.lastSize_le
  rw [lastSize_encode h, Int32.toInt_ofNat_of_lt (by omega)]

theorem toInt_maxBufSize_encode (h : r.maxBufSize < 2 ^ 30) :
    (encode r).maxBufSize.toInt = r.maxBufSize :=
  Int32.toInt_ofNat_of_lt (by omega)

theorem serves_encode (h : r.maxBufSize < 2 ^ 30) : (encode r).Serves op ↔ r.Serves op := by
  cases op with
  | push data => exact Iff.rfl
  | copy n | pop n =>
    simp only [CircleQueueBuffer.Serves, toInt_lastSize_encode h, Int.ofNat_le,
      Rdt.CircleQueueBuffer.Serves]

theorem fits_encode (h : r.maxBufSize < 2 ^ 30) : (encode r).Fits op ↔ r.Fits op := by
  cases op with
  | push data =>
    simp only [CircleQueueBuffer.Fits, toInt_lastSize_encode h, toInt_maxBufSize_encode h,
      Rdt.CircleQueueBuffer.Fits]
    omega
  | copy n => exact Iff.rfl
  | pop n => exact Iff.rfl

theorem step_encode (h : r.maxBufSize < 2 ^ 30) (hs : (encode r).Serves op)
    (hm : (encode r).Small op) : (encode r).step op = (r.step op).map encode ∧
      ∀ r' ∈ r.step op, r'.maxBufSize < 2 ^ 30 := by
  rw [serves_encode h] at hs
  cases op with
  | push data =>
    simp only [CircleQueueBuffer.Small, toInt_lastSize_encode h, toInt_maxBufSize_encode h] at hm
    exact push_encode h (by omega)
  | copy n =>
    constructor
    · rw [CircleQueueBuffer.step, copy_encode h hs, Rdt.CircleQueueBuffer.step, Option.map_map]
      rfl
    · intro r' hr'
      obtain ⟨-, -, rfl⟩ := Option.map_eq_some_iff.mp hr'
      exact h
  | pop n =>
    constructor
    · rw [CircleQueueBuffer.step, pop_encode h hs]
      rfl
    · intro r' hr'
      obtain rfl := Option.some.inj hr'
      exact h

end Encode

section Runs

variable {cap : Int32} {mem : Block Byte} {ops : List RingOp}

theorem toNat_pos (hc : 0 < cap) : 0 < cap.toNatClampNeg := by
  rw [Int32.lt_iff_toInt_lt, Int32.toInt_zero] at hc
  exact Int.lt_toNat.mpr hc

def natural (cap : Int32) (mem : Block Byte) (hc : 0 < cap) :
    System Rdt.CircleQueueBuffer RingOp :=
  Rdt.ringBuffer cap.toNatClampNeg mem (toNat_pos hc)

theorem init_encode (hc : 0 < cap) :
    (ringBuffer cap mem).init = encode (natural cap mem hc).init := by
  have hcap := Int32.ofNat_toNatClampNeg cap (Int32.le_of_lt hc)
  simp only [ringBuffer, CircleQueueBuffer.create, encode, natural, Rdt.ringBuffer,
    Rdt.CircleQueueBuffer.create, ← ofNat_succ, hcap]
  rfl

theorem natural_small (hc : 0 < cap) (hcap : cap.toInt < 2 ^ 30) :
    (natural cap mem hc).init.maxBufSize < 2 ^ 30 := by
  change cap.toInt.toNat < 2 ^ 30
  omega

/-- The runs of the machine's buffer are those of the buffer of natural numbers. -/
theorem run_encode (hc : 0 < cap) (hcap : cap.toInt < 2 ^ 30)
    (h : (ringBuffer cap mem).Meets (fun q => q.Serves) (ringBuffer cap mem).init ops)
    (hs : (ringBuffer cap mem).Meets (fun q => q.Small) (ringBuffer cap mem).init ops) :
    (ringBuffer cap mem).run (ringBuffer cap mem).init ops =
        ((natural cap mem hc).run (natural cap mem hc).init ops).map encode ∧
      (∀ H : CircleQueueBuffer → RingOp → Prop,
        (ringBuffer cap mem).Meets H (ringBuffer cap mem).init ops ↔
          (natural cap mem hc).Meets (fun r => H (encode r)) (natural cap mem hc).init ops) ∧
      ∀ P : CircleQueueBuffer → Prop,
        (ringBuffer cap mem).Always P (ringBuffer cap mem).init ops ↔
          (natural cap mem hc).Always (fun r => P (encode r)) (natural cap mem hc).init ops := by
  rw [init_encode hc] at h hs ⊢
  exact System.run_map (J := fun r : Rdt.CircleQueueBuffer => r.maxBufSize < 2 ^ 30)
    (fun r op hr hg => step_encode hr hg.1 hg.2) (h.and hs) (natural_small hc hcap)

theorem natural_serves (hc : 0 < cap) (hcap : cap.toInt < 2 ^ 30)
    (h : (ringBuffer cap mem).Meets (fun q => q.Serves) (ringBuffer cap mem).init ops)
    (hs : (ringBuffer cap mem).Meets (fun q => q.Small) (ringBuffer cap mem).init ops) :
    (natural cap mem hc).Meets (fun r => r.Serves) (natural cap mem hc).init ops := by
  obtain ⟨-, hmeets, -⟩ := run_encode hc hcap h hs
  refine System.Meets.of_invariant (I := fun r => r.maxBufSize < 2 ^ 30) ?_ ?_
    (((hmeets _).mp h).and ((hmeets _).mp hs)) (natural_small hc hcap)
  · intro r op r' hr hg hr'
    exact (step_encode hr hg.1 hg.2).2 r' hr'
  · intro r op hr hg
    exact (serves_encode hr).mp hg.1

/-- Up to `2 ^ 30` cells, as long as nothing is copied or popped that is not there, every operation
ends and the buffer is the queue of the bytes pushed and not yet popped. -/
theorem ring_refines_queue (cap : Int32) (mem : Block Byte) (hc : 0 < cap)
    (hcap : cap.toInt < 2 ^ 30) (ops : List RingOp)
    (h : (ringBuffer cap mem).Meets (fun q => q.Serves) (ringBuffer cap mem).init ops)
    (hs : (ringBuffer cap mem).Meets (fun q => q.Small) (ringBuffer cap mem).init ops) :
    ∃ q, (ringBuffer cap mem).run (ringBuffer cap mem).init ops = some q ∧
      q.lastSize.toInt = (RingOp.queue ops).length ∧
      (∀ dst off n, n ≤ (RingOp.queue ops).length →
        q.copy dst off (.ofNat n) = some (dst.write off ((RingOp.queue ops).take n))) ∧
      (q.empty = true ↔ RingOp.queue ops = []) := by
  obtain ⟨hrun, hmeets, -⟩ := run_encode hc hcap h hs
  obtain ⟨r, hr, hcon⟩ := ringBuffer_queue (natural_serves hc hcap h hs)
  have hsmall : r.maxBufSize < 2 ^ 30 := by
    refine System.run_induction (S := natural cap mem hc) (I := fun r => r.maxBufSize < 2 ^ 30)
      ?_ hr (((hmeets _).mp h).and ((hmeets _).mp hs)) (natural_small hc hcap)
    intro u op u' hu hg hu'
    exact (step_encode hu hg.1 hg.2).2 u' hu'
  have hlen : r.lastSize = (RingOp.queue ops).length := by rw [← hcon, r.length_contents]
  refine ⟨encode r, ?_, ?_, fun dst off n hn => ?_, ?_⟩
  · rw [hrun]
    exact congrArg (Option.map encode) hr
  · rw [toInt_lastSize_encode hsmall, hlen]
  · rw [copy_encode hsmall (hlen ▸ hn), r.copy_eq (hlen ▸ hn), hcon]
  · rw [← hcon, ← List.length_eq_zero_iff, r.length_contents, r.lastSize_eq_zero_iff]
    have htop := r.top_le
    have hbase := r.base_le
    rw [CircleQueueBuffer.empty, beq_iff_eq, ← Int32.toInt_inj]
    simp only [encode]
    rw [Int32.toInt_ofNat_of_lt (by omega), Int32.toInt_ofNat_of_lt (by omega), Int.ofNat_inj]

def wrappedAndGrown : List RingOp :=
  [.push [1, 2], .pop 1, .push [3], .copy 2, .push [4, 5, 6, 7, 8, 9, 10, 11], .pop 3]

theorem ring_refines_queue_grown :
    ∃ q, (ringBuffer 2 (fun _ => 0)).run (ringBuffer 2 (fun _ => 0)).init wrappedAndGrown =
        some q ∧
      q.maxBufSize = 11 ∧ q.lastSize.toInt = 7 ∧
      q.copy (fun _ => 0) 0 2 = some (Block.write (fun _ => 0) 0 [5, 6]) := by
  obtain ⟨q, hq, hl, hcopy, -⟩ := ring_refines_queue 2 (fun _ => 0) (by decide) (by decide)
    wrappedAndGrown (by decide +kernel) (by decide +kernel)
  have hmax : ((ringBuffer 2 (fun _ => 0)).run (ringBuffer 2 (fun _ => 0)).init
      wrappedAndGrown).map CircleQueueBuffer.maxBufSize = some 11 := by decide +kernel
  rw [hq] at hmax
  exact ⟨q, hq, Option.some.inj hmax, hl, hcopy _ 0 2 (by decide)⟩

theorem push_large (mem : Block Byte) {data : List Byte} (h : data.length = 1073741823) :
    ∃ q, (CircleQueueBuffer.create 1073741824 mem).push data = some q ∧
      q.maxBufSize = 1073741824 ∧ q.base = 0 ∧ q.top = 1073741823 := by
  have hloop : (CircleQueueBuffer.create 1073741824 mem).enlargeFor (.ofNat 1073741823)
      (1073741823 + 1) = some (.create 1073741824 mem) := by
    rw [CircleQueueBuffer.enlargeFor]
    exact if_neg (show ¬ rMinus 0 0 (1073741824 + 1) + .ofNat 1073741823 > 1073741824 by decide)
  have hstore : (CircleQueueBuffer.create 1073741824 mem).store data =
      some (mem.write 0 (data.take 1073741823)) := by
    rw [CircleQueueBuffer.store, h]
    refine (if_neg (show ¬ Int32.ofNat 1073741823 > 1073741824 + 1 - 0 by decide)).trans ?_
    rfl
  have htop : rAdd 0 (.ofNat 1073741823) (1073741824 + 1) = 1073741823 := by decide
  refine ⟨{ CircleQueueBuffer.create 1073741824 mem with
    buf := mem.write 0 (data.take 1073741823)
    top := rAdd 0 (.ofNat 1073741823) (1073741824 + 1) }, ?_, rfl, rfl, htop⟩
  rw [CircleQueueBuffer.push, h]
  refine (if_neg (show ¬ rMinus 0 0 1073741824 < 0 by decide)).trans ?_
  simp only [hloop, hstore, Option.bind_eq_bind, Option.bind_some]
  rfl

/-- A ring of `2 ^ 30 + 1` cells that is filled but for one byte: the sum in `r_minus` is too
large, and the size of the buffer comes out negative. -/
theorem ring_overflows :
    ∃ q, (ringBuffer 1073741824 (fun _ => 0)).run (ringBuffer 1073741824 (fun _ => 0)).init
        [.push (List.replicate 1073741823 0)] = some q ∧
      q.lastSize.toInt = -1073741823 ∧
      (RingOp.queue [.push (List.replicate 1073741823 0)]).length = 1073741823 := by
  have hlen : (List.replicate 1073741823 (0 : Byte)).length = 1073741823 := List.length_replicate
  generalize List.replicate 1073741823 (0 : Byte) = data at hlen ⊢
  obtain ⟨q, hq, hmax, hbase, htop⟩ := push_large (fun _ => 0) hlen
  refine ⟨q, System.run_cons_eq_some.mpr ⟨q, hq, rfl⟩, ?_, ?_⟩
  · rw [CircleQueueBuffer.lastSize, hmax, hbase, htop]
    decide
  · rw [RingOp.queue, List.flatMap_singleton]
    exact hlen

end Runs

section Bounds

/-- A copy from or to a block: its first byte, the number of bytes and the size of the block. -/
structure Access where
  off : Int32
  n : Int32
  allocated : Int32
  deriving DecidableEq

/-- Every byte is in the block; a negative number of bytes is a huge one. -/
def Access.Inside (a : Access) : Prop :=
  a.n = 0 ∨ 0 < a.n ∧ 0 ≤ a.off ∧ a.off.toInt + a.n.toInt ≤ a.allocated.toInt

instance (a : Access) : Decidable a.Inside :=
  inferInstanceAs (Decidable (_ ∨ _ ∧ _ ∧ _))

namespace CircleQueueBuffer

variable (q : CircleQueueBuffer)

def ringAccesses (t n : Int32) : List Access :=
  let toEnd := q.maxBufSize + 1 - t
  if n > toEnd then [⟨t, toEnd, q.allocated⟩, ⟨0, n - toEnd, q.allocated⟩]
  else [⟨t, n, q.allocated⟩]

def enlargeAccesses : List Access :=
  let newAllocated := q.maxBufSize * 2 + 1
  if newAllocated < 0 then []
  else if q.top < q.base then
    let baseToEnd := q.maxBufSize + 1 - q.base
    [⟨q.base, baseToEnd, q.allocated⟩, ⟨0, baseToEnd, newAllocated⟩, ⟨0, q.top, q.allocated⟩,
      ⟨baseToEnd, q.top, newAllocated⟩]
  else [⟨q.base, q.top - q.base, q.allocated⟩, ⟨0, q.top - q.base, newAllocated⟩]

def pushAccesses (size : Int32) : ℕ → CircleQueueBuffer → List Access
  | 0, _ => []
  | fuel + 1, q =>
    if q.lastSize + size > q.maxBufSize then
      q.enlargeAccesses ++ q.enlarge.elim [] (pushAccesses size fuel)
    else q.ringAccesses q.top size

def accesses : RingOp → List Access
  | .push data =>
    if rMinus q.top q.base q.maxBufSize < 0 then []
    else q.pushAccesses (.ofNat data.length) (data.length + 1)
  | .copy n => if .ofNat n ≤ q.maxBufSize then q.ringAccesses q.base (.ofNat n) else []
  | .pop _ => []

def InBounds (op : RingOp) : Prop := ∀ a ∈ q.accesses op, a.Inside

/-- One byte is allocated for every cell of the ring, and both positions are cells. -/
structure Sized : Prop where
  allocated : q.allocated.toInt = q.maxBufSize.toInt + 1
  base : 0 ≤ q.base ∧ q.base ≤ q.maxBufSize
  top : 0 ≤ q.top ∧ q.top ≤ q.maxBufSize

instance decidableInBounds (op : RingOp) : Decidable (q.InBounds op) :=
  inferInstanceAs (Decidable (∀ a ∈ q.accesses op, a.Inside))

end CircleQueueBuffer

structure Roomy (r : Rdt.CircleQueueBuffer) : Prop where
  small : r.maxBufSize < 2 ^ 30
  allocated : r.allocated = r.maxBufSize + 1

variable {r r' : Rdt.CircleQueueBuffer} {op : RingOp} {off n size t : ℕ}

theorem inside_ofNat (h : off + n ≤ size) (hs : size < 2 ^ 31) :
    Access.Inside ⟨.ofNat off, .ofNat n, .ofNat size⟩ := by
  rcases Nat.eq_zero_or_pos n with rfl | hn
  · exact Or.inl rfl
  · refine Or.inr ?_
    simp only [Int32.lt_iff_toInt_lt, Int32.le_iff_toInt_le, Int32.toInt_zero,
      Int32.toInt_ofNat_of_lt hs, Int32.toInt_ofNat_of_lt (show n < 2 ^ 31 by omega),
      Int32.toInt_ofNat_of_lt (show off < 2 ^ 31 by omega)]
    omega

theorem Roomy.ringAccesses (h : Roomy r) (ht : t ≤ r.maxBufSize) (hn : n ≤ r.maxBufSize) :
    ∀ a ∈ (encode r).ringAccesses (.ofNat t) (.ofNat n), a.Inside := by
  obtain ⟨hsmall, halloc⟩ := h
  have hlt := Int32.ofNat_lt_iff_lt (show r.maxBufSize + 1 - t < 2 ^ 31 by omega)
    (show n < 2 ^ 31 by omega)
  have hzero : (0 : Int32) = .ofNat 0 := rfl
  simp only [CircleQueueBuffer.ringAccesses, encode, toEnd_ofNat ht, gt_iff_lt, hlt, halloc,
    hzero]
  split_ifs with hend
  · rw [← Int32.ofNat_sub _ _ hend.le, List.forall_mem_cons, List.forall_mem_singleton]
    exact ⟨inside_ofNat (by omega) (by omega), inside_ofNat (by omega) (by omega)⟩
  · rw [List.forall_mem_singleton]
    exact inside_ofNat (by omega) (by omega)

theorem Roomy.inBounds (h : Roomy r) (hs : r.Serves op) (hf : r.Fits op) :
    (encode r).InBounds op := by
  have hle := r.lastSize_le
  have hsmall := h.small
  cases op with
  | push data =>
    have hf : r.lastSize + data.length ≤ r.maxBufSize := hf
    have hlt := Int32.ofNat_lt_iff_lt (show r.maxBufSize < 2 ^ 31 by omega)
      (show r.lastSize + data.length < 2 ^ 31 by omega)
    have hmax : (encode r).maxBufSize = .ofNat r.maxBufSize := rfl
    rw [CircleQueueBuffer.InBounds, CircleQueueBuffer.accesses]
    split_ifs
    · simp
    · simp only [CircleQueueBuffer.pushAccesses, lastSize_encode hsmall, ← Int32.ofNat_add,
        gt_iff_lt, hmax, hlt, if_neg (Nat.not_lt.mpr hf)]
      exact h.ringAccesses r.top_le (by omega)
  | copy n =>
    have hs : n ≤ r.lastSize := hs
    rw [CircleQueueBuffer.InBounds, CircleQueueBuffer.accesses]
    split_ifs
    · exact h.ringAccesses r.base_le (by omega)
    · simp
  | pop n =>
    intro a hmem
    cases hmem

theorem Roomy.sized (h : Roomy r) : (encode r).Sized := by
  obtain ⟨hsmall, halloc⟩ := h
  have htop := r.top_le
  have hbase := r.base_le
  constructor
  · simp only [encode, halloc]
    rw [Int32.toInt_ofNat_of_lt (by omega), Int32.toInt_ofNat_of_lt (by omega)]
    rfl
  · simp only [encode, Int32.le_iff_toInt_le, Int32.toInt_zero,
      Int32.toInt_ofNat_of_lt (show r.base < 2 ^ 31 by omega),
      Int32.toInt_ofNat_of_lt (show r.maxBufSize < 2 ^ 31 by omega)]
    omega
  · simp only [encode, Int32.le_iff_toInt_le, Int32.toInt_zero,
      Int32.toInt_ofNat_of_lt (show r.top < 2 ^ 31 by omega),
      Int32.toInt_ofNat_of_lt (show r.maxBufSize < 2 ^ 31 by omega)]
    omega

/-- A step leaves room for every cell exactly when it does not grow the buffer. -/
theorem Roomy.step (h : Roomy r) (hr : r.step op = some r') :
    ((encode r').Sized → (encode r).Fits op) ∧ ((encode r).Fits op → Roomy r') := by
  rw [fits_encode h.small]
  constructor
  · intro hs
    by_contra hf
    have hshort := Rdt.CircleQueueBuffer.allocated_of_not_fits hr hf
    have hsize := hs.allocated
    simp only [encode, hshort] at hsize
    omega
  · intro hf
    obtain ⟨halloc, hmax⟩ := Rdt.CircleQueueBuffer.step_of_fits hr hf
    exact ⟨hmax ▸ h.small, by rw [halloc, hmax, h.allocated]⟩

/-- Up to `2 ^ 30` cells, as long as nothing is copied or popped that is not there, the allocation
has a byte for every cell and every access is inside it, throughout, exactly when no push makes
the buffer grow. -/
theorem ring_bounded_iff (cap : Int32) (mem : Block Byte) (hc : 0 < cap)
    (hcap : cap.toInt < 2 ^ 30) (ops : List RingOp)
    (h : (ringBuffer cap mem).Meets (fun q => q.Serves) (ringBuffer cap mem).init ops)
    (hs : (ringBuffer cap mem).Meets (fun q => q.Small) (ringBuffer cap mem).init ops) :
    ((ringBuffer cap mem).Always (fun q => q.Sized) (ringBuffer cap mem).init ops ∧
      (ringBuffer cap mem).Meets (fun q => q.InBounds) (ringBuffer cap mem).init ops) ↔
    (ringBuffer cap mem).Meets (fun q => q.Fits) (ringBuffer cap mem).init ops := by
  obtain ⟨-, hmeets, halways⟩ := run_encode hc hcap h hs
  have hserves := natural_serves hc hcap h hs
  obtain ⟨q, hq, -⟩ := ringBuffer_run hserves
  have hinit : Roomy (natural cap mem hc).init := ⟨natural_small hc hcap, rfl⟩
  have hsized := System.always_iff_meets_of (S := natural cap mem hc) (I := Roomy)
    (fun _ hr => hr.sized) (fun _ _ _ hr hr' => hr.step hr') hq hinit
  rw [halways, hmeets, hmeets, hsized]
  refine ⟨And.left, fun hf => ⟨hf, ?_⟩⟩
  refine System.Meets.of_invariant (I := Roomy) ?_ ?_ (hserves.and hf) hinit
  · intro r op r' hr hg hr'
    exact (hr.step hr').2 hg.2
  · intro r op hr hg
    exact hr.inBounds hg.1 ((fits_encode hr.small).mp hg.2)

theorem ring_bounded_roomy :
    (ringBuffer 4 (fun _ => 0)).Meets (fun q => q.InBounds) (ringBuffer 4 (fun _ => 0)).init
      [.push [1, 2, 3, 4], .pop 3, .push [5, 6, 7], .copy 4] :=
  ((ring_bounded_iff 4 (fun _ => 0) (by decide) (by decide) _ (by decide +kernel)
    (by decide +kernel)).mpr (by decide +kernel)).2

/-- A buffer of one byte grows and then writes its last cell, which is not allocated. -/
theorem ring_unbounded :
    (ringBuffer 1 (fun _ => 0)).Meets (fun q => q.Serves) (ringBuffer 1 (fun _ => 0)).init
      [.push [1, 2], .pop 2, .push [3, 4]] ∧
    ¬ (ringBuffer 1 (fun _ => 0)).Meets (fun q => q.InBounds) (ringBuffer 1 (fun _ => 0)).init
      [.push [1, 2], .pop 2, .push [3, 4]] ∧
    ∃ q, (ringBuffer 1 (fun _ => 0)).run (ringBuffer 1 (fun _ => 0)).init
        [.push [1, 2], .pop 2] = some q ∧
      q.maxBufSize = 3 ∧ q.allocated = 3 ∧ q.accesses (.push [3, 4]) = [⟨2, 2, 3⟩] :=
  have h := (ringBuffer 1 (fun _ => 0)).run_after (ringBuffer 1 (fun _ => 0)).init
    [.push [1, 2], .pop 2] (by decide +kernel)
  ⟨by decide +kernel, by decide +kernel, _, h, by decide +kernel, by decide +kernel,
    by decide +kernel⟩

end Bounds

end DistLab.Rdt.Machine
