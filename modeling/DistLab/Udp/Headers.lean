import DistLab.Udp.Checksum
import DistLab.Udp.Fragments

/-! # The headers a receiver checks

A receiver adds up the words of a header in network order. The order does not matter for
the check, but it does for the value to store: the code complements a sum of host words
and swaps its bytes once more, so that the IPv4 header is accepted only when the two bytes
are equal. The UDP header announces the length of the payload without its own.
-/

namespace DistLab.Udp

variable {bs : List Byte} {v n off len : ℕ} {more : Bool}

def beWords (bs : List Byte) : List ℕ := wordsOf 256 1 bs

/-- The check of a receiver: the one's complement sum of the words is `0xFFFF`. -/
def Verifies (bs : List Byte) : Prop := onesSum 0xFFFF (beWords bs) = 0xFFFF

instance decidableVerifies (bs : List Byte) : Decidable (Verifies bs) :=
  inferInstanceAs (Decidable (_ = _))

/-- Swapping the bytes of a word multiplies it by 256, modulo 65535. -/
theorem leWords_modEq (bs : List Byte) : (leWords bs).sum ≡ 256 * (beWords bs).sum [MOD 65535] := by
  unfold leWords beWords Nat.ModEq
  fun_induction wordsOf 256 1 bs with
  | case1 => rfl
  | case2 b =>
    simp only [wordsOf, List.sum_singleton]
    omega
  | case3 b c rest ih =>
    simp only [wordsOf, List.sum_cons]
    omega

theorem verifies_iff : Verifies bs ↔ 65535 ∣ (beWords bs).sum ∧ (beWords bs).sum ≠ 0 :=
  onesSum_eq_top_iff (by decide) (wordsOf_le (by decide))

@[simp] theorem beWords_be16 (v : ℕ) (bs : List Byte) :
    beWords (be16 v ++ bs) = v % 65536 :: beWords bs := by
  simp only [be16, List.cons_append, List.nil_append, beWords, wordsOf, UInt8.toNat_ofNat']
  congr 1
  omega

section Ipv4

theorem beWords_ipv4Fields (more : Bool) (hoff : off < 65536) (hlen : len < 65536)
    (hv : v < 65536) :
    (beWords (ipv4Fields off more len v)).sum =
      35204 + (len + off / 8 + if more then 8192 else 0) + v := by
  have hfrag : fragmentOffset off more = _ := fragmentOffset_eq hoff
  have hfields : ipv4Fields off more len v = be16 0x4500 ++ (be16 len ++ (be16 111 ++
      (be16 (fragmentOffset off more) ++ (be16 0x4011 ++ (be16 v ++ (be16 0x0101 ++
      (be16 0x0101 ++ (be16 0x0101 ++ (be16 0x0101 ++ []))))))))) := rfl
  rw [hfields]
  simp only [beWords_be16, List.sum_cons, hfrag]
  simp only [beWords, wordsOf, List.sum_nil]
  split <;> omega

/-- The receiver accepts the IPv4 header if and only if the sum of its words is a multiple of 257,
which is when its two bytes, in whatever order they are stored, are equal. -/
theorem ipv4_checksum_iff (hoff : off < 65536) (hlen : len < 65536) :
    Verifies (fillIpv4Hdr off more len) ↔
      (len + off / 8 + if more then 8192 else 0) % 257 = 5 := by
  have hsum := beWords_ipv4Fields more hoff hlen (v := 0) (by decide)
  have hrep := checksum_rep (ipv4Fields off more len 0)
  have hmod := hrep.modEq.trans (leWords_modEq _)
  have hle := hrep.le
  have hnot : not16 (checksum (ipv4Fields off more len 0)) =
      65535 - checksum (ipv4Fields off more len 0) := by
    rw [not16, Nat.mod_eq_of_lt (by omega)]
  rw [verifies_iff, fillIpv4Hdr, hnot, beWords_ipv4Fields more hoff hlen (by omega)]
  unfold Nat.ModEq at hmod
  rw [hsum] at hmod
  omega

theorem ipv4_checksum_iff_262 : Verifies (fillIpv4Hdr 0 false 262) :=
  (ipv4_checksum_iff (by decide) (by decide)).mpr (by decide)

/-- The header of a datagram with a payload of two bytes. -/
theorem ipv4_checksum_rejected : ¬ Verifies (fillIpv4Hdr 0 false 30) := by
  decide

end Ipv4

section Udp

variable {headroom data : List Byte}

/-- What the UDP checksum covers besides the datagram: the addresses, the protocol, the length. -/
def pseudoHdr (udpLen : ℕ) : List Byte :=
  be32 0x01010101 ++ be32 0x01010101 ++ [0, 17] ++ be16 udpLen

structure UdpValid (hdr data : List Byte) : Prop where
  length : field hdr 4 = data.length + 8
  checksum : field hdr 6 = 0 ∨ Verifies (pseudoHdr (field hdr 4) ++ hdr ++ data)

theorem udpHdr_length (h : data.length < 65536) : field (udpHdr headroom data) 4 = data.length :=
  field_be16 h

theorem stored_modEq {a b : ℕ} (ha : a ≤ 0xFFFF) (hb : b ≤ 0xFFFF)
    (h : ¬ (a = 0xFFFF ∧ b = 0)) :
    not16 (fold16 ((2 ^ 32 - 1 - a + b) % 2 ^ 32) % 65536) ≠ 0 ∧
    not16 (fold16 ((2 ^ 32 - 1 - a + b) % 2 ^ 32) % 65536) + b ≡ a + 1 [MOD 65535] := by
  -- the complement of the header sum has its upper half set, unless the addition carries out of it
  rcases Nat.lt_or_ge a b with hlt | hge
  · have hfold : fold16 ((2 ^ 32 - 1 - a + b) % 2 ^ 32) = b - a - 1 := by
      unfold fold16
      omega
    rw [hfold]
    unfold not16 Nat.ModEq
    omega
  · have hfold : fold16 ((2 ^ 32 - 1 - a + b) % 2 ^ 32) % 65536 = 65534 - (a - b) := by
      unfold fold16
      omega
    rw [hfold]
    unfold not16 Nat.ModEq
    omega

theorem beWords_udpFields (bs : List Byte) (hn : n < 65536) (hv : v < 65536) :
    (beWords (udpFields n v ++ bs)).sum = 160 + n + v + (beWords bs).sum := by
  simp only [udpFields, List.append_assoc, beWords_be16, List.sum_cons]
  omega

theorem beWords_pseudoHdr (hn : n < 65536) :
    (beWords (pseudoHdr n ++ bs)).sum = 1045 + n + (beWords bs).sum := by
  have hfields : pseudoHdr n ++ bs = be16 0x0101 ++ (be16 0x0101 ++ (be16 0x0101 ++
      (be16 0x0101 ++ (be16 17 ++ (be16 n ++ bs))))) := rfl
  rw [hfields]
  simp only [beWords_be16, List.sum_cons]
  omega

theorem passed_rep (headroom data : List Byte) :
    OnesRep 0xFFFF (fold16 ((checksum headroom + checksum data) % 2 ^ 32))
      ((leWords headroom).sum + (leWords data).sum) := by
  have hhead := checksum_rep headroom
  have hdata := checksum_rep data
  have hle := hhead.le
  have hle' := hdata.le
  rw [Nat.mod_eq_of_lt (by omega), fold16_add hle hle']
  exact hhead.add hdata

theorem udpFields_modEq (hn : n < 65536) :
    (leWords (udpFields n 0)).sum ≡ 256 * (160 + n) [MOD 65535] := by
  have hsum := beWords_udpFields [] hn (v := 0) (by decide)
  have hmod := leWords_modEq (udpFields n 0)
  rw [List.append_nil] at hsum
  rwa [hsum] at hmod

theorem stored_zero_iff (headroom : List Byte) (h : data.length < 65536) :
    (checksum (udpFields data.length 0) = 0xFFFF ∧
      fold16 ((checksum headroom + checksum data) % 2 ^ 32) = 0) ↔
    data.length = 65375 ∧ ∀ b ∈ headroom ++ data, b = 0 := by
  have hzero : ∀ bs, (leWords bs).sum = 0 ↔ ∀ b ∈ bs, b = 0 := fun bs =>
    wordsOf_sum_eq_zero (by decide) (by decide)
  have hhdr : checksum (udpFields data.length 0) = 0xFFFF ↔ data.length = 65375 := by
    have hport : 80 ∈ udpFields data.length 0 := List.mem_cons_of_mem _ List.mem_cons_self
    have hne : (leWords (udpFields data.length 0)).sum ≠ 0 := fun hsum =>
      absurd ((hzero _).mp hsum 80 hport) (by decide)
    have hmod := udpFields_modEq h
    rw [(checksum_rep _).eq_top_iff (by decide)]
    unfold Nat.ModEq at hmod
    omega
  rw [hhdr, (passed_rep headroom data).zero_iff, Nat.add_eq_zero_iff, hzero, hzero,
    List.forall_mem_append]

/-- The receiver accepts the UDP checksum, over the length that the header announces, for few
payloads, and which ones depends on what the headroom of the mbuf holds. -/
theorem udp_checksum_iff (headroom : List Byte) (h : data.length < 65536) :
    (field (udpHdr headroom data) 6 = 0 ∨
      Verifies (pseudoHdr data.length ++ udpHdr headroom data ++ data)) ↔
    (data.length = 65375 ∧ ∀ b ∈ headroom ++ data, b = 0) ∨
      42166 + 258 * data.length ≡
        256 * (beWords headroom).sum + 255 * (beWords data).sum [MOD 65535] := by
  have hpass := passed_rep headroom data
  have hfields := checksum_rep (udpFields data.length 0)
  rw [← stored_zero_iff headroom h, udpHdr, fillUdpHdr, Nat.mod_eq_of_lt (b := 65536)
    (Nat.lt_succ_of_le hpass.le)]
  generalize hb : fold16 ((checksum headroom + checksum data) % 2 ^ 32) = b at *
  generalize ha : checksum (udpFields data.length 0) = a at *
  by_cases hex : a = 0xFFFF ∧ b = 0
  · obtain ⟨rfl, rfl⟩ := hex
    exact iff_of_true (Or.inl rfl) (Or.inl ⟨rfl, rfl⟩)
  · obtain ⟨hne, hstored⟩ := stored_modEq hfields.le hpass.le hex
    generalize hF : not16 (fold16 ((2 ^ 32 - 1 - a + b) % 2 ^ 32) % 65536) = F at *
    have hF : F < 65536 := by
      rw [← hF, not16]
      omega
    have hfield : field (udpFields data.length F) 6 = F := field_be16 hF
    have ha := hfields.modEq.trans (udpFields_modEq h)
    have hb := hpass.modEq.trans ((leWords_modEq headroom).add (leWords_modEq data))
    rw [hfield, or_iff_right hne, or_iff_right hex, verifies_iff, List.append_assoc,
      beWords_pseudoHdr h, beWords_udpFields _ h hF]
    unfold Nat.ModEq at *
    omega

/-- No datagram gets a valid UDP header: the length field leaves out the header. -/
theorem udp_header_invalid (headroom : List Byte) (h : data.length ≤ 65507) :
    ¬ UdpValid (udpHdr headroom data) data := by
  intro hvalid
  have hlen := hvalid.length
  rw [udpHdr_length (by omega)] at hlen
  omega

theorem udp_header_invalid_hi : ¬ UdpValid (udpHdr (List.replicate 8 0) [104, 105]) [104, 105] :=
  udp_header_invalid _ (by decide)

/-- The header of a payload of two bytes: neither the length nor the checksum is right, whichever
length the pseudo header has. -/
theorem udp_header_rejected :
    field (udpHdr (List.replicate 8 0) [104, 105]) 4 = 2 ∧
    field (udpHdr (List.replicate 8 0) [104, 105]) 6 ≠ 0 ∧
    (∀ n ∈ [2, 10], ¬ Verifies (pseudoHdr n ++ udpHdr (List.replicate 8 0) [104, 105] ++
      [104, 105])) ∧
    ¬ UdpValid (udpHdr (List.replicate 8 0) [104, 105]) [104, 105] := by
  refine ⟨by decide, by decide, by decide, fun h => absurd h.length (by decide)⟩

end Udp

end DistLab.Udp
