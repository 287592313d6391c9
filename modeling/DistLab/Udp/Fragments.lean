import DistLab.Systems.Pieces
import DistLab.Udp.Packet

/-! # Fragments of a datagram

What a receiver does with the packets of `udp_send`: it reads the place of a fragment
from its header and puts the fragments together once they are complete. A datagram with
its UDP header arrives when one packet holds it. A longer one is cut at an offset into
the data that should be one into the datagram, and the eight bytes between are lost.
-/

namespace DistLab.Udp

/-- A fragment: the bytes of the datagram it carries, and the flag for more fragments. -/
structure Fragment where
  piece : Piece Byte
  more : Bool
deriving DecidableEq

def field (hdr : List Byte) (i : ℕ) : ℕ := 256 * (hdr.getD i 0).toNat + (hdr.getD (i + 1) 0).toNat

def fragment (p : Packet) : Fragment :=
  let ip := p.drop 14
  { piece :=
      ⟨8 * (field ip 6 % 8192), (ip.take (field ip 2)).drop (4 * ((ip.getD 0 0).toNat % 16))⟩
    more := field ip 6 / 8192 % 2 = 1 }

/-- The fragments tile the datagram, and the one without the flag ends it. -/
structure Whole (fs : List Fragment) (xs : List Byte) : Prop where
  tiles : Tiles (fs.map (·.piece)) xs
  last : ∃ f, fs.filter (!·.more) = [f] ∧ f.piece.stop = xs.length
  stop_le : ∀ f ∈ fs, f.piece.stop ≤ xs.length

/-- The datagram that the fragments make up, if they are complete and do not overlap. -/
def reassemble (fs : List Fragment) : Option (List Byte) :=
  match fs.filter (!·.more) with
  | [f] =>
    if (fs.map (·.piece)).Pairwise Piece.Apart ∧
        (∀ k < f.piece.stop, ∃ p ∈ fs.map (·.piece), p.Covers k) ∧
        ∀ f' ∈ fs, f'.piece.stop ≤ f.piece.stop then
      some ((fs.map (·.piece)).foldl (fun file p => p.write 0 file) [])
    else none
  | _ => none

section Reassembly

variable {fs : List Fragment} {xs : List Byte} {ds : List (List Byte)} {off : ℕ}

/-- A receiver accepts the fragments of a datagram and nothing else. -/
theorem reassemble_eq_some_iff : reassemble fs = some xs ↔ Whole fs xs := by
  unfold reassemble
  constructor
  · intro h
    split at h
    case h_1 f hf =>
      split_ifs at h with hc
      obtain ⟨hapart, hcover, hstop⟩ := hc
      have hstop' : ∀ p ∈ fs.map (·.piece), p.data ≠ [] → p.stop ≤ f.piece.stop := by
        simp only [List.mem_map]
        rintro p ⟨f', hf', rfl⟩ -
        exact hstop f' hf'
      have ht := Tiles.of_writes (0 : Byte) hapart hcover hstop'
      rw [Option.some.inj h] at ht
      have hlen := ht.length_eq 0 hcover hstop'
      exact ⟨ht, ⟨f, hf, hlen.symm⟩, hlen ▸ hstop⟩
    case h_2 => exact absurd h (by simp)
  · rintro ⟨ht, ⟨f, hf, hlen⟩, hstop⟩
    simp only [hf, hlen]
    rw [if_pos ⟨ht.apart, ht.cover, hstop⟩, ht.writes_eq]

def mark (off : ℕ) : List (List Byte) → List Fragment
  | [] => []
  | d :: ds => ⟨⟨off, d⟩, !ds.isEmpty⟩ :: mark (off + d.length) ds

theorem mark_piece : (mark off ds).map (·.piece) = Piece.lay off ds := by
  induction ds generalizing off with
  | nil => rfl
  | cons d ds ih => simp [mark, Piece.lay, ih]

theorem mark_last (off : ℕ) (h : ds ≠ []) : ∃ f, (mark off ds).filter (!·.more) = [f] ∧
    f.piece.stop = off + ds.flatten.length := by
  induction ds generalizing off with
  | nil => exact absurd rfl h
  | cons d ds ih =>
    by_cases hds : ds = []
    · exact ⟨⟨⟨off, d⟩, false⟩, by simp [mark, hds], by simp [Piece.stop, hds]⟩
    · obtain ⟨f, hf, hstop⟩ := ih (off + d.length) hds
      refine ⟨f, by simpa [mark, hds] using hf, ?_⟩
      rw [hstop, List.flatten_cons, List.length_append]
      omega

theorem mark_stop_le {f : Fragment} (h : f ∈ mark off ds) :
    f.piece.stop ≤ off + ds.flatten.length := by
  induction ds generalizing off with
  | nil => simp [mark] at h
  | cons d ds ih =>
    rw [List.flatten_cons, List.length_append]
    rcases List.mem_cons.mp h with rfl | h
    · simp only [Piece.stop]
      omega
    · have := ih h
      omega

theorem reassemble_mark (h : ds ≠ []) : reassemble (mark 0 ds) = some ds.flatten := by
  obtain ⟨f, hf, hstop⟩ := mark_last 0 h
  rw [reassemble_eq_some_iff]
  constructor
  · rw [mark_piece]
    exact Piece.tiles_lay
  · exact ⟨f, hf, by omega⟩
  · intro f' hf'
    have := mark_stop_le hf'
    omega

end Reassembly

section Headers

variable {off len v : ℕ} {more : Bool} {d : List Byte}

theorem field_be16 (h : v < 65536) :
    256 * (UInt8.ofNat (v / 256)).toNat + (UInt8.ofNat v).toNat = v := by
  simp only [UInt8.toNat_ofNat']
  omega

theorem fragmentOffset_eq (h : off < 65536) :
    fragmentOffset off more = off / 8 + if more then 8192 else 0 := by
  have hlt : off / 8 < 2 ^ 13 := by omega
  have hmod : off / 8 % 65536 = off / 8 := by omega
  unfold fragmentOffset
  rw [hmod]
  split
  · rw [Nat.or_comm, show 0x2000 = 2 ^ 13 * 1 from rfl, ← Nat.two_pow_add_eq_or_of_lt hlt 1]
    omega
  · rfl

theorem fragment_fillHdr (hlen : d.length = len) (hlt : len + 20 < 65536) (hoff : off < 65536)
    (hdvd : 8 ∣ off) : fragment (fillHdr off more len ++ d) = ⟨⟨off, d⟩, more⟩ := by
  have hdrop : (fillHdr off more len ++ d).drop 14 = fillIpv4Hdr off more (len + 20) ++ d := rfl
  have hfrag : field (fillIpv4Hdr off more (len + 20) ++ d) 6 =
      off / 8 + if more then 8192 else 0 := by
    rw [← fragmentOffset_eq hoff]
    apply field_be16
    rw [fragmentOffset_eq hoff]
    split <;> omega
  have htotal : field (fillIpv4Hdr off more (len + 20) ++ d) 2 = len + 20 := field_be16 hlt
  have hihl : (fillIpv4Hdr off more (len + 20) ++ d).getD 0 0 = 0x45 := rfl
  have htake : (fillIpv4Hdr off more (len + 20) ++ d).take (len + 20) =
      fillIpv4Hdr off more (len + 20) ++ d := by
    apply List.take_of_length_le
    rw [List.length_append, length_fillIpv4Hdr]
    omega
  unfold fragment
  simp only [hdrop, hfrag, htotal, hihl, htake]
  congr 2
  · split <;> omega
  · cases more <;> simp <;> omega

end Headers

section Datagrams

variable {headroom data : List Byte} {off : ℕ}

theorem sendRest_of_le (h : data.length ≤ off) : sendRest data off = [] := by
  rw [sendRest, if_neg (by omega)]

theorem sendRest_fragments (off : ℕ) (hdata : data.length ≤ 65507) (hdvd : 8 ∣ off) :
    ∃ ds, (sendRest data off).map fragment = mark off ds ∧ ds.flatten = data.drop off ∧
      (ds = [] ↔ data.length ≤ off) := by
  fun_induction sendRest data off with
  | case1 off hlt ipDataLen ih =>
    have hlen : ((data.drop off).take ipDataLen).length = ipDataLen := by
      simp only [List.length_take, List.length_drop]
      omega
    have hmtu : ipDataLen ≤ 1496 := Nat.min_le_right _ _
    rw [List.map_cons, fragment_fillHdr hlen (by omega) (by omega) hdvd]
    by_cases hmore : data.length - off > mtu
    · have hfull : ipDataLen = mtu := by omega
      obtain ⟨ds, hds, hflat, hnil⟩ := ih (by rw [hfull]; exact Nat.dvd_add hdvd (by decide))
      have hne : ds.isEmpty = false := by
        rw [List.isEmpty_eq_false_iff, Ne, hnil]
        omega
      refine ⟨(data.drop off).take ipDataLen :: ds, ?_, ?_, ?_⟩
      · rw [mark, hds, hlen, hne, decide_eq_true hmore]
        rfl
      · rw [List.flatten_cons, hflat, ← List.drop_drop, List.take_append_drop]
      · simp [hlt]
    · have hlast : data.length ≤ off + ipDataLen := by omega
      refine ⟨[(data.drop off).take ipDataLen], ?_, ?_, ?_⟩
      · rw [sendRest_of_le hlast, decide_eq_false hmore]
        rfl
      · rw [List.flatten_singleton, List.take_of_length_le]
        rw [List.length_drop]
        omega
      · simp [hlt]
  | case2 off hge =>
    have hle : data.length ≤ off := by omega
    exact ⟨[], rfl, (List.drop_eq_nil_of_le hle).symm, by simp [hle]⟩

theorem udpSend_fragments : (udpSend headroom data).map fragment =
    ⟨⟨0, udpHdr headroom data ++ data.take (min (data.length + 8) mtu - 8)⟩,
      data.length + 8 > mtu⟩ :: (sendRest data (min (data.length + 8) mtu)).map fragment := by
  have hmtu : min (data.length + 8) mtu ≤ 1496 := Nat.min_le_right _ _
  have hlen : (udpHdr headroom data ++ data.take (min (data.length + 8) mtu - 8)).length =
      min (data.length + 8) mtu := by
    rw [List.length_append, length_udpHdr, List.length_take, mtu]
    omega
  rw [udpSend, List.map_cons, List.append_assoc,
    fragment_fillHdr hlen (by omega) (by omega) (Nat.dvd_zero 8)]

theorem reassemble_short (h : data.length ≤ 1488) :
    reassemble ((udpSend headroom data).map fragment) = some (udpHdr headroom data ++ data) := by
  have hmin : min (data.length + 8) mtu = data.length + 8 := Nat.min_eq_left (by rw [mtu]; omega)
  have hmore : ¬ data.length + 8 > mtu := by rw [mtu]; omega
  rw [udpSend_fragments, hmin, sendRest_of_le (Nat.le_add_right _ _), decide_eq_false hmore,
    Nat.add_sub_cancel, List.take_length]
  exact (reassemble_mark (List.cons_ne_nil _ [])).trans (by rw [List.flatten_singleton])

theorem udpSend_long (h : 1488 < data.length) : (udpSend headroom data).map fragment =
    ⟨⟨0, udpHdr headroom data ++ data.take 1488⟩, true⟩ :: (sendRest data 1496).map fragment := by
  have hmin : min (data.length + 8) mtu = 1496 := Nat.min_eq_right (by rw [mtu]; omega)
  have hmore : data.length + 8 > mtu := by rw [mtu]; omega
  rw [udpSend_fragments, hmin, decide_eq_true hmore]

/-- The flag announces more fragments, but the loop finds its offset at the end of the data. -/
theorem reassemble_gap (h : 1488 < data.length) (h' : data.length ≤ 1496) :
    reassemble ((udpSend headroom data).map fragment) = none := by
  rw [udpSend_long h, sendRest_of_le h']
  rfl

/-- Eight bytes of the data are in no packet. -/
theorem reassemble_long (h : 1496 < data.length) (hdata : data.length ≤ 65507) :
    reassemble ((udpSend headroom data).map fragment) =
      some (udpHdr headroom data ++ data.take 1488 ++ data.drop 1496) := by
  obtain ⟨ds, hds, hflat, hnil⟩ := sendRest_fragments 1496 hdata (by decide)
  have hne : ds.isEmpty = false := by
    rw [List.isEmpty_eq_false_iff, Ne, hnil]
    omega
  have hlen : 0 + (udpHdr headroom data ++ data.take 1488).length = 1496 := by
    rw [List.length_append, length_udpHdr, List.length_take]
    omega
  have hmark : (udpSend headroom data).map fragment =
      mark 0 ((udpHdr headroom data ++ data.take 1488) :: ds) := by
    rw [udpSend_long (by omega), hds, mark, hlen, hne]
    rfl
  rw [hmark, reassemble_mark (List.cons_ne_nil _ _), List.flatten_cons, hflat]

/-- The datagram arrives, as the UDP header and the data, if and only if one packet holds it. -/
theorem datagram_whole_iff (headroom : List Byte) (hdata : data.length ≤ 65507) :
    reassemble ((udpSend headroom data).map fragment) = some (udpHdr headroom data ++ data) ↔
      data.length ≤ 1488 := by
  constructor
  · intro h
    by_contra hlong
    rcases Nat.lt_or_ge 1496 data.length with hlt | hle
    · rw [reassemble_long hlt hdata] at h
      have hlen := congrArg List.length (Option.some.inj h)
      simp only [List.length_append, List.length_take, List.length_drop] at hlen
      omega
    · rw [reassemble_gap (by omega) hle] at h
      exact absurd h (by simp)
  · exact reassemble_short

theorem datagram_whole_hi : reassemble
    ((udpSend (List.replicate 8 0) [104, 105]).map fragment) =
      some (udpHdr (List.replicate 8 0) [104, 105] ++ [104, 105]) :=
  (datagram_whole_iff (List.replicate 8 0) (by decide)).mpr (by decide)

/-- One byte more than a packet holds is never complete, and one more than the MTU loses eight. -/
theorem datagram_broken :
    reassemble ((udpSend (List.replicate 8 0) (List.replicate 1489 104)).map fragment) = none ∧
    reassemble ((udpSend (List.replicate 8 0) (List.replicate 1497 104)).map fragment) =
      some (udpHdr (List.replicate 8 0) (List.replicate 1497 104) ++ List.replicate 1489 104) := by
  constructor
  · apply reassemble_gap
    · rw [List.length_replicate]
      decide
    · rw [List.length_replicate]
      decide
  · rw [reassemble_long (by rw [List.length_replicate]; decide)
      (by rw [List.length_replicate]; decide), List.append_assoc]
    simp only [List.take_replicate, List.drop_replicate, List.replicate_append_replicate]
    rfl

end Datagrams

end DistLab.Udp
