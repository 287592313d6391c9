import DistLab.Rdt.Receiving
import DistLab.Systems.Runs

/-! # What the receiver takes from a packet

The receiver tests the type and the checksum of a packet and then uses its sequence number
and its size as they are. Both are signed characters, and the modular helpers return negative
values for negative ones. With a sequence number and a size in range every copy stays inside
the packet and the cells; the test does not see to that.
-/

namespace DistLab.Rdt

inductive Region where
  | packet
  | cell (i : ℤ)
  | message (size : ℤ)

def Region.size : Region → ℤ
  | .packet => kPktSize
  | .cell i => if 0 ≤ i ∧ i ≤ kWindowSize then kPayloadSize else 0
  | .message size => size

structure Copy where
  src : Region
  srcOff : ℤ
  dst : Region
  dstOff : ℤ
  len : ℤ

/-- Neither end of the copy leaves its array; a negative length is a huge one. -/
structure Copy.Inside (c : Copy) : Prop where
  len : 0 ≤ c.len
  src : 0 ≤ c.srcOff ∧ c.srcOff + c.len ≤ c.src.size
  dst : 0 ≤ c.dstOff ∧ c.dstOff + c.len ≤ c.dst.size

namespace Receiver

def putCopies (w : Receiver) (size index : ℤ) : List Copy :=
  if (w.cells index.toNat).status then []
  else [⟨.packet, kHeaderSize, .cell index, 0, size⟩]

def releasedSize (base : ℕ) : ℕ → (ℕ → Content) → ℕ → ℤ
  | 0, _, _ => 0
  | fuel + 1, cells, last =>
    if (cells last).status && last != base then
      (cells last).data.length +
        releasedSize base fuel (Function.update cells last { cells last with status := false })
          (rAdd last 1 (kWindowSize + 1))
    else 0

def gatherCopies (cells : ℕ → Content) (last : ℕ) (size : ℤ) : ℕ → ℕ → ℤ → List Copy
  | 0, _, _ => []
  | fuel + 1, i, off =>
    if i != last then
      ⟨.cell i, 0, .message size, off, (cells i).data.length⟩ ::
        gatherCopies cells last size fuel (rAdd i 1 (kWindowSize + 1))
          (off + (cells i).data.length)
    else []

def getAfterBaseCopies (w : Receiver) (firstSize : ℤ) : List Copy :=
  let first := rAdd w.base 1 (kWindowSize + 1)
  let size := firstSize + releasedSize w.base (kWindowSize + 1) w.cells first
  match release w.base (kWindowSize + 1) w.cells first 1 with
  | none => []
  | some (cells, last, _) =>
    ⟨.packet, kHeaderSize, .message size, 0, firstSize⟩ ::
      gatherCopies cells last size (kWindowSize + 1) first firstSize

/-- The copies that a packet in the window leads to. -/
def copies (w : Receiver) (pkt : Packet) : List Copy :=
  if (pkt 3).toInt = w.baseSeqN then w.getAfterBaseCopies (pkt 4).toInt
  else w.putCopies (pkt 4).toInt (w.seqToIndex (pkt 3).toInt)

/-- The packet is not discarded and its number is not behind the window. -/
def Uses (w : Receiver) (pkt : Packet) : Prop :=
  accepts pkt = true ∧ w.seqToIndex (pkt 3).toInt ≠ -1 ∧ w.seqToIndex (pkt 3).toInt ≠ -2

instance decidableUses (w : Receiver) (pkt : Packet) : Decidable (w.Uses pkt) :=
  inferInstanceAs (Decidable (_ ∧ _ ∧ _))

/-- What the handler relies on when it uses a packet, and that it returns. -/
structure SafeUse (w : Receiver) (pkt : Packet) : Prop where
  seq : 0 ≤ (pkt 3).toInt ∧ (pkt 3).toInt < kMaxSeqN
  size : 0 ≤ (pkt 4).toInt ∧ (pkt 4).toInt ≤ kPayloadSize
  index : 0 ≤ w.seqToIndex (pkt 3).toInt ∧ w.seqToIndex (pkt 3).toInt ≤ kWindowSize
  copies : ∀ c ∈ w.copies pkt, c.Inside
  returns : ∀ ackPkt, (w.fromLowerLayer ackPkt pkt).isSome = true

def HeaderValid (pkt : Packet) : Prop :=
  0 ≤ (pkt 3).toInt ∧ (pkt 3).toInt < kMaxSeqN ∧ 0 ≤ (pkt 4).toInt ∧ (pkt 4).toInt ≤ kPayloadSize

instance decidableHeaderValid (pkt : Packet) : Decidable (HeaderValid pkt) :=
  inferInstanceAs (Decidable (_ ∧ _ ∧ _ ∧ _))

def packets : System Receiver (Packet × Packet) where
  init := {}
  step w e := (w.fromLowerLayer e.1 e.2).map (·.1)

/-- The positions are in range and every cell holds a payload. -/
structure Bounded (w : Receiver) : Prop where
  base : w.base ≤ kWindowSize
  seq : w.baseSeqN < kMaxSeqN
  data : ∀ i, (w.cells i).data.length ≤ kPayloadSize

section Loops

variable {base fuel i counter last counter' : ℕ} {cells cells' : ℕ → Content}

theorem release_data (h : release base fuel cells i counter = some (cells', last, counter'))
    (j : ℕ) : (cells' j).data = (cells j).data := by
  induction fuel generalizing cells i counter with
  | zero => cases h
  | succ fuel ih =>
    rw [release] at h
    split_ifs at h
    · rw [ih h]
      rcases eq_or_ne j i with rfl | hne
      · rw [Function.update_self]
      · rw [Function.update_of_ne hne]
    · obtain ⟨rfl, -, -⟩ := by simpa using h
      rfl

theorem exists_release {R x : ℕ} (hx : R < x) (hx' : x ≤ R + 11) (hf : R + 12 ≤ x + fuel) :
    (release (R % 11) fuel cells (x % 11) counter).isSome = true := by
  induction fuel generalizing cells x counter with
  | zero => omega
  | succ fuel ih =>
    rw [release]
    split_ifs with hc
    · have hnext : rAdd (x % 11) 1 (kWindowSize + 1) = (x + 1) % 11 := Nat.mod_add_mod x 11 1
      simp only [Bool.and_eq_true, bne_iff_ne] at hc
      rw [hnext]
      exact ih (by omega) (by omega) (by omega)
    · rfl

theorem exists_gather (cells : ℕ → Content) {x k : ℕ} (hk : k < fuel) :
    (gather cells ((x + k) % 11) fuel (x % 11)).isSome = true := by
  induction fuel generalizing x k with
  | zero => omega
  | succ fuel ih =>
    rw [gather]
    split_ifs with hne
    · have hnext : rAdd (x % 11) 1 (kWindowSize + 1) = (x + 1) % 11 := Nat.mod_add_mod x 11 1
      have hpos : k ≠ 0 := by
        rintro rfl
        simp at hne
      obtain ⟨k, rfl⟩ := Nat.exists_eq_succ_of_ne_zero hpos
      rw [hnext, Option.isSome_map, show x + (k + 1) = x + 1 + k by omega]
      exact ih (by omega)
    · rfl

theorem releasedSize_nonneg : 0 ≤ releasedSize base fuel cells i := by
  induction fuel generalizing cells i with
  | zero => exact Int.le_refl _
  | succ fuel ih =>
    rw [releasedSize]
    split_ifs
    · exact Int.add_nonneg (Int.natCast_nonneg _) ih
    · exact Int.le_refl _

theorem size_cell (hi : i < kWindowSize + 1) : (Region.cell i).size = kPayloadSize := by
  rw [Region.size, if_pos]
  omega

theorem gatherCopies_inside
    (h : release base fuel cells i counter = some (cells', last, counter'))
    (hi : i < kWindowSize + 1) (hd : ∀ j, (cells' j).data.length ≤ kPayloadSize) (n : ℕ) {off : ℤ}
    (hoff : 0 ≤ off) :
    ∀ c ∈ gatherCopies cells' last (off + releasedSize base fuel cells i) n i off, c.Inside := by
  induction fuel generalizing cells i counter n off with
  | zero => cases h
  | succ fuel ih =>
    intro c hc
    cases n with
    | zero => cases hc
    | succ n =>
      have hdata := release_data h i
      rw [release] at h
      rw [gatherCopies] at hc
      rw [releasedSize] at hc
      split_ifs at h hc with hs hlast
      · rw [← hdata, ← Int.add_assoc] at hc
        rcases List.mem_cons.mp hc with rfl | hc
        · have hle := hd i
          have hcell := size_cell hi
          constructor
          · exact Int.natCast_nonneg _
          · simp only [hcell]
            omega
          · exact ⟨hoff, Int.le_add_of_nonneg_right releasedSize_nonneg⟩
        · exact ih h (Nat.mod_lt _ (Nat.succ_pos _)) n (by omega) c hc
      · cases hc
      · rename_i hlast
        obtain ⟨-, rfl, -⟩ := by simpa using h
        simp at hlast
      · cases hc

end Loops

section Window

variable {w w' : Receiver} {pkt ackPkt : Packet}

theorem Bounded.base_mod (h : w.Bounded) : w.base % 11 = w.base :=
  Nat.mod_eq_of_lt (Nat.lt_succ_of_le h.base)

theorem Bounded.exists_release (h : w.Bounded) :
    ∃ k ≤ 10, ∃ cells, release w.base (kWindowSize + 1) w.cells
      (rAdd w.base 1 (kWindowSize + 1)) 1 = some (cells, (w.base + 1 + k) % 11, 1 + k) := by
  have hsome : (release (w.base % 11) 11 w.cells ((w.base + 1) % 11) 1).isSome = true :=
    Receiver.exists_release (Nat.lt_succ_self _) (by omega) (by omega)
  obtain ⟨⟨cells, last, counter⟩, hrel⟩ := Option.isSome_iff_exists.mp hsome
  obtain ⟨k, hk, rfl, rfl⟩ := release_spec (Nat.lt_succ_self _) (by omega) hrel
  rw [h.base_mod] at hrel
  have := hk.le
  exact ⟨k, by omega, cells, hrel⟩

theorem Bounded.exists_getAfterBase (h : w.Bounded) (data : List Byte) :
    ∃ msg w', w.getAfterBase data = some (msg, w') ∧ w'.Bounded := by
  obtain ⟨k, hk, cells, hrel⟩ := h.exists_release
  obtain ⟨out, hout⟩ := Option.isSome_iff_exists.mp
    (exists_gather cells (x := w.base + 1) (Nat.lt_succ_of_le hk))
  refine ⟨data ++ out, ⟨cells, (w.base + 1 + k) % 11, rAdd w.baseSeqN (1 + k) kMaxSeqN⟩, ?_, ?_⟩
  · have hfirst : rAdd w.base 1 (kWindowSize + 1) = (w.base + 1) % 11 := rfl
    simp only [Receiver.getAfterBase, hrel, Option.bind_eq_bind, Option.bind_some]
    rw [hfirst, hout]
    rfl
  · refine ⟨by simp only [kWindowSize]; omega, Nat.mod_lt _ (by decide), fun j => ?_⟩
    rw [release_data hrel]
    exact h.data j

theorem Bounded.put (h : w.Bounded) {data : List Byte} (hd : data.length ≤ kPayloadSize) (i : ℕ) :
    (w.put data i).Bounded := by
  unfold Receiver.put
  split_ifs
  · exact h
  · refine ⟨h.base, h.seq, fun j => ?_⟩
    rcases eq_or_ne j i with rfl | hne
    · simpa using hd
    · simpa [Function.update_of_ne hne] using h.data j

theorem Bounded.index_le (h : w.Bounded) {seqN : ℤ} (hs : 0 ≤ seqN) (hs' : seqN < kMaxSeqN)
    (h₁ : w.seqToIndex seqN ≠ -1) (h₂ : w.seqToIndex seqN ≠ -2) :
    0 ≤ w.seqToIndex seqN ∧ w.seqToIndex seqN ≤ kWindowSize := by
  lift seqN to ℕ using hs
  rw [seqToIndex_natCast h.seq (Int.ofNat_lt.mp hs')] at h₁ h₂ ⊢
  split_ifs at h₁ h₂ ⊢
  · exact absurd rfl h₁
  · exact absurd rfl h₂
  · exact ⟨Int.natCast_nonneg _,
      Int.ofNat_le.mpr (Nat.lt_succ_iff.mp (Nat.mod_lt _ (Nat.succ_pos _)))⟩

/-- A packet that is discarded or has a valid header is handled, and the window stays bounded. -/
theorem Bounded.exists_fromLowerLayer (h : w.Bounded) (ackPkt : Packet)
    (hv : accepts pkt = true → HeaderValid pkt) :
    ∃ w' acks msg, w.fromLowerLayer ackPkt pkt = some (w', acks, msg) ∧ w'.Bounded := by
  cases ha : accepts pkt with
  | false => exact ⟨w, [], none, by rw [fromLowerLayer, ha]; rfl, h⟩
  | true =>
    obtain ⟨hs, hs', hn, hn'⟩ := hv ha
    simp only [fromLowerLayer, ha, Bool.not_true, Bool.false_eq_true, if_false, Int.not_lt.mpr hn,
      Int.not_lt.mpr hn', and_false, or_false]
    split_ifs with h₂ h₁ hb hneg
    · exact ⟨_, _, _, rfl, h⟩
    · exact ⟨_, _, _, rfl, h⟩
    · obtain ⟨msg, w', hget, hw⟩ :=
        h.exists_getAfterBase (pkt.read kHeaderSize (pkt 4).toInt.toNat)
      rw [hget]
      exact ⟨_, _, _, rfl, hw⟩
    · exact absurd (h.index_le hs hs' h₁ h₂).1 (Int.not_le.mpr hneg)
    · refine ⟨_, _, _, rfl, h.put ?_ _⟩
      rw [Block.length_read]
      omega

theorem bounded_of_run {es : List (Packet × Packet)} (h : packets.run packets.init es = some w)
    (hv : packets.Meets (fun _ e => accepts e.2 = true → HeaderValid e.2) packets.init es) :
    w.Bounded := by
  have hinit : packets.init.Bounded := ⟨Nat.zero_le _, by decide, fun _ => Nat.zero_le _⟩
  refine System.run_induction (I := Bounded) ?_ h hv hinit
  intro w e w' hw hv hs
  obtain ⟨u, acks, msg, hu, hb⟩ := hw.exists_fromLowerLayer e.1 hv
  change (w.fromLowerLayer e.1 e.2).map _ = some w' at hs
  rw [hu] at hs
  exact Option.some.inj hs ▸ hb

theorem Bounded.copies_inside (h : w.Bounded) (hv : HeaderValid pkt)
    (hi : 0 ≤ w.seqToIndex (pkt 3).toInt ∧ w.seqToIndex (pkt 3).toInt ≤ kWindowSize) :
    ∀ c ∈ w.copies pkt, c.Inside := by
  obtain ⟨-, -, hn, hn'⟩ := hv
  have hpkt : (kHeaderSize : ℤ) + (pkt 4).toInt ≤ Region.packet.size := by
    simp only [Region.size, kHeaderSize, kPktSize]
    simp only [kPayloadSize, kPktSize, kHeaderSize] at hn'
    omega
  unfold copies
  split_ifs
  · obtain ⟨k, hk, cells, hrel⟩ := h.exists_release
    have hd : ∀ j, (cells j).data.length ≤ kPayloadSize := fun j => by
      rw [release_data hrel]
      exact h.data j
    simp only [getAfterBaseCopies, hrel, List.forall_mem_cons]
    constructor
    · refine ⟨hn, ⟨Int.natCast_nonneg _, hpkt⟩, Int.le_refl _, ?_⟩
      simp only [Region.size, Int.zero_add]
      exact Int.le_add_of_nonneg_right releasedSize_nonneg
    · exact gatherCopies_inside hrel (Nat.mod_lt _ (Nat.succ_pos _)) hd _ hn
  · unfold putCopies
    split_ifs
    · simp
    · rw [List.forall_mem_singleton]
      refine ⟨hn, ⟨Int.natCast_nonneg _, hpkt⟩, Int.le_refl _, ?_⟩
      simp only [Region.size, if_pos hi, Int.zero_add]
      exact hn'

end Window

/-- After any packets whose headers are valid where they pass the test, the use that the handler
makes of another packet is safe exactly when the header of that one is valid as well. -/
theorem safe_use_iff {w : Receiver} {pkt : Packet} {es : List (Packet × Packet)}
    (h : packets.run packets.init es = some w)
    (hv : packets.Meets (fun _ e => accepts e.2 = true → HeaderValid e.2) packets.init es)
    (hu : w.Uses pkt) : w.SafeUse pkt ↔ HeaderValid pkt := by
  have hb := bounded_of_run h hv
  constructor
  · intro hs
    exact ⟨hs.seq.1, hs.seq.2, hs.size.1, hs.size.2⟩
  · intro hp
    obtain ⟨ha, hu1, hu2⟩ := hu
    have hidx := hb.index_le hp.1 hp.2.1 hu1 hu2
    refine ⟨⟨hp.1, hp.2.1⟩, ⟨hp.2.2.1, hp.2.2.2⟩, hidx, hb.copies_inside hp hidx, fun ackPkt => ?_⟩
    obtain ⟨w', acks, msg, hx, -⟩ := hb.exists_fromLowerLayer ackPkt fun _ => hp
    rw [hx]
    rfl

def bytes (bs : List Byte) : Packet := Block.write (fun _ => 0) 0 bs

/-- Packet 1 is kept, and packet 0 is handed on with it. -/
theorem safe_use_kept :
    ∃ w, packets.run packets.init [(bytes [], bytes [254, 247, 0, 1, 1, 7])] = some w ∧
      w.Uses (bytes [254, 246, 0, 0, 1, 9]) ∧ w.SafeUse (bytes [254, 246, 0, 0, 1, 9]) :=
  have h := packets.run_after packets.init [(bytes [], bytes [254, 247, 0, 1, 1, 7])]
    (by decide +kernel)
  have hu : (packets.after _ _ _).Uses (bytes [254, 246, 0, 0, 1, 9]) := by decide +kernel
  ⟨_, h, hu, (safe_use_iff h (by decide +kernel) hu).mpr (by decide +kernel)⟩

/-- Packets that pass the test of a new receiver: one of size -3 and one of size 127, with the
sequence number of the base, and one with sequence number -33, which has index -3. -/
theorem unsafe_use :
    (Uses {} (bytes [255, 255, 0, 0, 253]) ∧ (bytes [255, 255, 0, 0, 253] 4).toInt = -3 ∧
      ¬ SafeUse {} (bytes [255, 255, 0, 0, 253])) ∧
    (Uses {} (bytes [128, 255, 0, 0, 127]) ∧ (bytes [128, 255, 0, 0, 127] 4).toInt = 127 ∧
      ¬ SafeUse {} (bytes [128, 255, 0, 0, 127])) ∧
    Uses {} (bytes [255, 32, 0, 223, 0]) ∧ seqToIndex {} (bytes [255, 32, 0, 223, 0] 3).toInt = -3 ∧
      ¬ SafeUse {} (bytes [255, 32, 0, 223, 0]) := by
  refine ⟨⟨by decide +kernel, by decide +kernel, fun h => ?_⟩,
    ⟨by decide +kernel, by decide +kernel, fun h => ?_⟩, by decide +kernel, by decide +kernel,
    fun h => ?_⟩
  · exact absurd h.size (by decide +kernel)
  · exact absurd h.size (by decide +kernel)
  · exact absurd h.index (by decide +kernel)

end Receiver

end DistLab.Rdt
