import DistLab.Rdt.Sender
import DistLab.Rdt.Receiver

/-! # Packets and strings

Both string managers stand for the bytes they still hold: a plain string for the part
behind its cursor, the ring buffer for the cells between its positions. A packet made
from a string carries the next bytes of it under its sequence number and passes the
receiver's test, and an acknowledgement passes the sender's.
-/

namespace DistLab.Rdt

open StringManager

/-- A string manager that stands for a list of bytes. -/
class LawfulStringManager (σ : Type) [StringManager σ] where
  view : σ → List Byte
  empty_eq : ∀ s : σ, empty s = (view s).isEmpty
  lastSize_eq : ∀ s : σ, lastSize s = (view s).length
  copy_eq : ∀ (s : σ) (dst : Packet) (off n : ℕ), n ≤ (view s).length →
    copy s dst off n = some (dst.write off ((view s).take n))
  view_pop : ∀ (s : σ) (n : ℕ), n ≤ (view s).length → view (pop s n) = (view s).drop n

export LawfulStringManager (view)

instance : LawfulStringManager PlainStringManager where
  view := PlainStringManager.lastData
  empty_eq s := by
    rw [Bool.eq_iff_iff, List.isEmpty_iff]
    simp [empty, PlainStringManager.lastData]
  lastSize_eq s := by simp [lastSize, PlainStringManager.lastData]
  copy_eq _ _ _ _ _ := rfl
  view_pop s n _ := by simp [pop, PlainStringManager.lastData]

section Ring

variable {a b n K : ℕ}

theorem rMinus_of_lt (ha : a < K) (hb : b < K) :
    rMinus a b K = if b ≤ a then a - b else a + K - b := by
  unfold rMinus
  split_ifs with h
  · rw [show a + K - b = a - b + K by omega, Nat.add_mod_right, Nat.mod_eq_of_lt (by omega)]
  · exact Nat.mod_eq_of_lt (by omega)

theorem rAdd_rMinus (ha : a < K) (hb : b < K) : rAdd b (rMinus a b K) K = a := by
  rw [rMinus_of_lt ha hb]
  split_ifs with h
  · rw [rAdd, Nat.add_sub_of_le h, Nat.mod_eq_of_lt ha]
  · rw [rAdd, show b + (a + K - b) = a + K by omega, Nat.add_mod_right, Nat.mod_eq_of_lt ha]

theorem rMinus_rAdd_left (ha : a < K) (hb : b < K) (hn : n ≤ rMinus a b K) :
    rMinus a (rAdd b n K) K = rMinus a b K - n := by
  have hlt : rMinus a b K < K := Nat.mod_lt _ (by omega)
  have hadd : rAdd b n K = if b + n < K then b + n else b + n - K :=
    Block.ring_index hb (by omega)
  have hlt' : rAdd b n K < K := Nat.mod_lt _ (by omega)
  rw [rMinus_of_lt ha hlt']
  rw [rMinus_of_lt ha hb] at hn ⊢
  split_ifs at * <;> omega

theorem rMinus_rAdd_right (ha : a < K) (hb : b < K) (hn : rMinus a b K + n < K) :
    rMinus (rAdd a n K) b K = rMinus a b K + n := by
  have hadd : rAdd a n K = if a + n < K then a + n else a + n - K :=
    Block.ring_index ha (by omega)
  have hlt' : rAdd a n K < K := Nat.mod_lt _ (by omega)
  rw [rMinus_of_lt hlt' hb]
  rw [rMinus_of_lt ha hb] at hn ⊢
  split_ifs at * <;> omega

end Ring

namespace CircleQueueBuffer

variable (q : CircleQueueBuffer)

def contents : List Byte := q.buf.ring (q.maxBufSize + 1) q.base q.lastSize

theorem top_lt : q.top < q.maxBufSize + 1 := Nat.lt_succ_of_le q.top_le

theorem base_lt : q.base < q.maxBufSize + 1 := Nat.lt_succ_of_le q.base_le

@[simp] theorem length_contents : q.contents.length = q.lastSize := by simp [contents]

theorem lastSize_eq_zero_iff : q.lastSize = 0 ↔ q.top = q.base := by
  have ht := q.top_lt
  have hb := q.base_lt
  rw [lastSize, rMinus_of_lt ht hb]
  split_ifs <;> omega

theorem lastSize_pop {n : ℕ} (h : n ≤ q.lastSize) : (q.pop n).lastSize = q.lastSize - n :=
  rMinus_rAdd_left q.top_lt q.base_lt h

theorem contents_pop {n : ℕ} (h : n ≤ q.lastSize) : (q.pop n).contents = q.contents.drop n := by
  rw [contents, contents, Block.drop_ring h, lastSize_pop q h]
  rfl

theorem copy_eq {dst : Packet} {off n : ℕ} (h : n ≤ q.lastSize) :
    q.copy dst off n = some (dst.write off (q.contents.take n)) := by
  have hle := q.lastSize_le
  have hb := q.base_lt
  rw [contents, Block.take_ring h, copy, if_pos (h.trans hle)]
  simp only
  split_ifs with hn
  · have hw := dst.write_write_append off (q.buf.read q.base (q.maxBufSize + 1 - q.base))
      (q.buf.read 0 (n - (q.maxBufSize + 1 - q.base)))
    rw [Block.length_read] at hw
    rw [Block.ring_of_ge hb (by omega) (by omega), hw]
  · rw [Block.ring_of_le (by omega)]

theorem lastSize_enlarge : q.enlarge.lastSize = q.lastSize := by
  have := q.lastSize_le
  have htop : q.enlarge.top = q.lastSize := rfl
  have hbase : q.enlarge.base = 0 := rfl
  rw [lastSize, rMinus_of_lt q.enlarge.top_lt q.enlarge.base_lt, hbase, htop]
  simp

theorem contents_enlarge : q.enlarge.contents = q.contents := by
  have hle := q.lastSize_le
  have ht := q.top_lt
  have hb := q.base_lt
  have hsize : q.lastSize = if q.base ≤ q.top then q.top - q.base
      else q.top + (q.maxBufSize + 1) - q.base := rMinus_of_lt ht hb
  have hbuf : q.enlarge.buf = Block.write (fun _ => 0) 0 q.contents := by
    simp only [enlarge, contents]
    split_ifs with h
    · have hw := Block.write_write_append (fun _ => (0 : Byte)) 0
        (q.buf.read q.base (q.maxBufSize + 1 - q.base)) (q.buf.read 0 q.top)
      rw [Block.length_read, Nat.zero_add] at hw
      have hn : q.lastSize - (q.maxBufSize + 1 - q.base) = q.top := by
        split_ifs at hsize <;> omega
      rw [Block.ring_of_ge hb (by split_ifs at hsize <;> omega) (by omega), hn, hw]
    · rw [if_pos (Nat.not_lt.mp h)] at hsize
      rw [Block.ring_of_le (by omega), hsize]
  have hmax : q.enlarge.maxBufSize = q.maxBufSize * 2 + 1 := rfl
  rw [contents, lastSize_enlarge, Block.ring_of_le (by rw [hmax]; simp [enlarge]; omega), hbuf]
  conv_lhs => rw [← q.length_contents]
  exact Block.read_write

/-- Enough doublings make room for any number of bytes. -/
theorem exists_enlargeFor (size fuel : ℕ) (h : q.lastSize + size ≤ q.maxBufSize + fuel) :
    ∃ q', enlargeFor size (fuel + 1) q = some q' ∧ q'.contents = q.contents ∧
      q'.lastSize = q.lastSize ∧ q'.lastSize + size ≤ q'.maxBufSize := by
  induction fuel generalizing q with
  | zero => exact ⟨q, by simpa [enlargeFor] using h, rfl, rfl, h⟩
  | succ fuel ih =>
    rw [enlargeFor]
    split_ifs with hs
    · have hmax : q.enlarge.maxBufSize = q.maxBufSize * 2 + 1 := rfl
      obtain ⟨q', hq, hc, hl, hle⟩ := ih q.enlarge (by rw [lastSize_enlarge]; omega)
      exact ⟨q', hq, hc.trans q.contents_enlarge, hl.trans q.lastSize_enlarge, hle⟩
    · exact ⟨q, rfl, rfl, rfl, Nat.not_lt.mp hs⟩

theorem push_spec (data : List Byte) :
    ∃ q', q.push data = some q' ∧ q'.contents = q.contents ++ data := by
  have hle := q.lastSize_le
  obtain ⟨u, hu, hc, hl, hfit⟩ := q.exists_enlargeFor data.length data.length (by omega)
  refine ⟨_, by rw [push, hu]; rfl, ?_⟩
  have htop : (u.base + u.lastSize) % (u.maxBufSize + 1) = u.top := rAdd_rMinus u.top_lt u.base_lt
  have hsize : rMinus (rAdd u.top data.length (u.maxBufSize + 1)) u.base (u.maxBufSize + 1) =
      u.lastSize + data.length := rMinus_rAdd_right u.top_lt u.base_lt (Nat.lt_succ_of_le hfit)
  have hring := u.buf.ring_ringWrite data u.base_lt (Nat.le_succ_of_le hfit)
  rw [htop] at hring
  rw [← hc]
  simp only [contents, lastSize]
  rw [hsize]
  exact hring

instance : LawfulStringManager CircleQueueBuffer where
  view := contents
  empty_eq q := by
    rw [Bool.eq_iff_iff, List.isEmpty_iff, ← List.length_eq_zero_iff, length_contents,
      lastSize_eq_zero_iff]
    simp [empty]
  lastSize_eq q := q.length_contents.symm
  copy_eq q _ _ _ h := q.copy_eq (q.length_contents ▸ h)
  view_pop q _ h := q.contents_pop (q.length_contents ▸ h)

end CircleQueueBuffer

section Checksum

variable {m m' : Packet} {off size : ℕ}

theorem sum_congr (h : ∀ i, off ≤ i → i < off + size → m i = m' i) :
    sum m off size = sum m' off size := by
  induction size using Nat.twoStepInduction generalizing off with
  | zero => rfl
  | one => simp [sum, h off le_rfl (Nat.lt_succ_self _)]
  | more size ih _ =>
    rw [sum, sum, short, short, h off le_rfl (by omega), h (off + 1) (Nat.le_succ _) (by omega),
      ih fun i hi hlt => h i (by omega) (by omega)]

theorem short_putShort (v : BitVec 16) : short (putShort m off v) off = v := by
  have h0 : putShort m off v off = v.extractLsb' 0 8 := Block.write_add _ _ _ 0
  have h1 : putShort m off v (off + 1) = v.extractLsb' 8 8 := Block.write_add _ _ _ 1
  rw [short, h0, h1]
  exact BitVec.extractLsb'_append_extractLsb'

theorem putShort_of_le {v : BitVec 16} {i : ℕ} (h : off + 2 ≤ i) : putShort m off v i = m i :=
  Block.write_of_le h

theorem checkChecksum_putShort :
    checkChecksum (putShort m 0 (makeChecksum m 2 size)) (size + 2) = true := by
  have h : sum (putShort m 0 (makeChecksum m 2 size)) 2 size = sum m 2 size :=
    sum_congr fun i hi _ => putShort_of_le hi
  rw [checkChecksum, sum, short_putShort, h, makeChecksum, beq_iff_eq]
  bv_omega

end Checksum

section Header

variable {k : ℕ}

theorem toNat_byte (h : k < 128) : (BitVec.ofNat 8 k).toNat = k := by
  rw [BitVec.toNat_ofNat, Nat.mod_eq_of_lt (by omega)]

theorem toInt_byte (h : k < 128) : (BitVec.ofNat 8 k).toInt = k := by
  rw [BitVec.toInt_eq_toNat_of_lt, toNat_byte h]
  rw [toNat_byte h]
  omega

end Header

/-- A data packet with a sequence number and a payload. -/
structure Carries (pkt : Packet) (seqN : ℕ) (p : List Byte) : Prop where
  kind : pkt 2 = 0
  seq : pkt 3 = BitVec.ofNat 8 seqN
  size : pkt 4 = BitVec.ofNat 8 p.length
  data : pkt.read kHeaderSize p.length = p
  check : checkChecksum pkt (p.length + kHeaderSize) = true
  le : p.length ≤ kPayloadSize

structure Acks (pkt : Packet) (seqN : ℕ) : Prop where
  kind : pkt 2 = 1
  seq : pkt 3 = BitVec.ofNat 8 seqN
  check : checkChecksum pkt kAckSize = true

def Receiver.checkedLen (pkt : Packet) : ℕ := (min ((pkt 4).toInt + kHeaderSize) kPktSize).toNat

theorem Carries.checkedLen {pkt : Packet} {seqN : ℕ} {p : List Byte} (h : Carries pkt seqN p) :
    Receiver.checkedLen pkt = p.length + kHeaderSize := by
  have hle : p.length ≤ 123 := h.le
  rw [Receiver.checkedLen, h.size, toInt_byte (by omega)]
  simp only [kHeaderSize, kPktSize]
  omega

theorem Carries.accepts {pkt : Packet} {seqN : ℕ} {p : List Byte} (h : Carries pkt seqN p) :
    Receiver.accepts pkt = true := by
  have hlen := h.checkedLen
  rw [Receiver.checkedLen] at hlen
  rw [Receiver.accepts, hlen, h.kind, h.check]
  rfl

theorem Acks.accepts {pkt : Packet} {seqN : ℕ} (h : Acks pkt seqN) :
    Sender.accepts pkt = true := by
  rw [Sender.accepts, h.kind, h.check]
  rfl

theorem ackMake_acks (seqN : ℕ) (pkt : Packet) : Acks (Receiver.ackMake seqN pkt) seqN where
  kind := by
    rw [Receiver.ackMake, putShort_of_le le_rfl]
    exact Block.write_add _ _ _ 0
  seq := by
    rw [Receiver.ackMake, putShort_of_le (by decide)]
    exact Block.write_add _ _ _ 1
  check := checkChecksum_putShort

theorem Receiver.fromLowerLayer_of_carries {w : Receiver} {ackPkt pkt : Packet} {seqN : ℕ}
    {p : List Byte} (h : Carries pkt seqN p) (hs : seqN < 128) : w.fromLowerLayer ackPkt pkt =
      if w.seqToIndex seqN = -2 then some (w, [], none)
      else if w.seqToIndex seqN = -1 then some (w, [ackMake seqN ackPkt], none)
      else if seqN = w.baseSeqN then
        (w.getAfterBase p).map fun (msg, w) => (w, [ackMake seqN ackPkt], some msg)
      else if w.seqToIndex seqN < 0 then none
      else some (w.put p (w.seqToIndex seqN).toNat, [ackMake seqN ackPkt], none) := by
  have hle : p.length ≤ 123 := h.le
  have hlen : ¬ ((p.length : ℤ) < 0 ∨ (kPayloadSize : ℤ) < p.length) := by
    simp only [kPayloadSize, kPktSize, kHeaderSize]
    omega
  simp only [fromLowerLayer, h.accepts, h.seq, h.size, toInt_byte hs,
    toInt_byte (k := p.length) (by omega), Bool.not_true, Bool.false_eq_true, if_false,
    Int.toNat_natCast, h.data, hlen, and_false, Int.ofNat_inj]

section PktMake

def pktLen {σ : Type} [StringManager σ] (str : σ) : ℕ := min kPayloadSize (lastSize str)

variable {σ : Type} [StringManager σ] [LawfulStringManager σ] {str : σ}

theorem pktFill_spec {n : ℕ} (seqN : ℕ) (pkt : Packet) (hn : n ≤ (view str).length)
    (hle : n ≤ kPayloadSize) : ∃ str' pkt', pktFill str seqN n pkt = some (str', pkt') ∧
      str' = pop str n ∧ view str' = (view str).drop n ∧
      Carries pkt' seqN ((view str).take n) := by
  have hlen : ((view str).take n).length = n := List.length_take_of_le hn
  refine ⟨_, _, by rw [pktFill, LawfulStringManager.copy_eq str _ _ _ hn]; rfl, rfl,
    LawfulStringManager.view_pop str n hn, ?_⟩
  refine ⟨?_, ?_, ?_, ?_, ?_, hlen.trans_le hle⟩
  · rw [putShort_of_le (by decide), Block.write_of_lt (by decide)]
    exact Block.write_add _ _ _ 0
  · rw [putShort_of_le (by decide), Block.write_of_lt (by decide)]
    exact Block.write_add _ _ _ 1
  · rw [putShort_of_le (by decide), Block.write_of_lt (by decide), hlen]
    exact Block.write_add _ _ _ 2
  · rw [putShort, Block.read_write_of_le (by simp [kHeaderSize]), Block.read_write]
  · rw [hlen]
    exact checkChecksum_putShort

omit [LawfulStringManager σ] in
theorem pktMake_eq (seqN : ℕ) (pkt : Packet) (h : empty str = false) :
    pktMake str seqN pkt = pktFill str seqN (pktLen str) pkt := by
  rw [pktMake, pktLen, h]
  simp only [Bool.false_eq_true, if_false]
  split_ifs with hs
  · rw [min_eq_left hs.le]
  · rw [min_eq_right (Nat.not_lt.mp hs)]

theorem pktLen_le (str : σ) : pktLen str ≤ (view str).length := by
  rw [pktLen, LawfulStringManager.lastSize_eq]
  exact min_le_right _ _

/-- A packet carries the next bytes of the string it is made from. -/
theorem pktMake_next (str : σ) (seqN : ℕ) (pkt : Packet) (h : empty str = false) :
    ∃ str' pkt', pktMake str seqN pkt = some (str', pkt') ∧ str' = pop str (pktLen str) ∧
      view str' = (view str).drop (pktLen str) ∧
      Carries pkt' seqN ((view str).take (pktLen str)) := by
  obtain ⟨str', pkt', hfill, hpop, hview, hc⟩ :=
    pktFill_spec seqN pkt (pktLen_le str) (min_le_left _ _)
  exact ⟨str', pkt', (pktMake_eq seqN pkt h).trans hfill, hpop, hview, hc⟩

theorem pktMake_spec (str : σ) (seqN : ℕ) (pkt : Packet) (h : view str ≠ []) :
    ∃ str' pkt' p, pktMake str seqN pkt = some (str', pkt') ∧ p ++ view str' = view str ∧
      Carries pkt' seqN p := by
  have hempty : empty str = false := by
    rw [LawfulStringManager.empty_eq]
    exact Bool.eq_false_iff.mpr (mt List.isEmpty_iff.mp h)
  obtain ⟨str', pkt', hmake, -, hview, hc⟩ := pktMake_next str seqN pkt hempty
  exact ⟨str', pkt', _, hmake, by rw [hview, List.take_append_drop], hc⟩

/-- The receiver reads from the packet what the sender put into it, and the sender reads from an
acknowledgement the number that the receiver put into it, whatever the bytes around them. -/
theorem packet_round_trip (str : σ) (seqN : ℕ) (pkt : Packet) (hs : seqN < kMaxSeqN)
    (h : empty str = false) :
    (∃ str' pkt', pktMake str seqN pkt = some (str', pkt') ∧ Receiver.accepts pkt' = true ∧
      (pkt' 3).toInt = seqN ∧ (pkt' 4).toInt = pktLen str ∧
      pkt'.read kHeaderSize (pktLen str) = (view str).take (pktLen str) ∧
      str' = pop str (pktLen str) ∧ view str' = (view str).drop (pktLen str)) ∧
    ∀ ackPkt, Sender.accepts (Receiver.ackMake seqN ackPkt) = true ∧
      (Receiver.ackMake seqN ackPkt 3).toInt = seqN := by
  have hseq : seqN < 128 := hs.trans (by decide)
  constructor
  · obtain ⟨str', pkt', hmake, hpop, hview, hc⟩ := pktMake_next str seqN pkt h
    have hlen : ((view str).take (pktLen str)).length = pktLen str :=
      List.length_take_of_le (pktLen_le str)
    have hle : pktLen str ≤ 123 := min_le_left _ _
    refine ⟨str', pkt', hmake, hc.accepts, ?_, ?_, ?_, hpop, hview⟩
    · rw [hc.seq, toInt_byte hseq]
    · rw [hc.size, hlen, toInt_byte (by omega)]
    · have hdata := hc.data
      rwa [hlen] at hdata
  · intro ackPkt
    have hack := ackMake_acks seqN ackPkt
    exact ⟨hack.accepts, by rw [hack.seq, toInt_byte hseq]⟩

theorem packet_round_trip_three :
    ∃ str' pkt', pktMake (⟨[1, 2, 3], 1⟩ : PlainStringManager) 29 (fun _ => 7) =
        some (str', pkt') ∧
      Receiver.accepts pkt' = true ∧ pkt'.read kHeaderSize 2 = [2, 3] ∧ str'.cursor = 3 := by
  obtain ⟨⟨str', pkt', hmake, ha, -, -, hread, rfl, -⟩, -⟩ :=
    packet_round_trip (⟨[1, 2, 3], 1⟩ : PlainStringManager) 29 (fun _ => 7) (by decide) rfl
  exact ⟨_, pkt', hmake, ha, hread, rfl⟩

end PktMake

end DistLab.Rdt
