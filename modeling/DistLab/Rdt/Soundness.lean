import Mathlib.Data.List.Nodup
import DistLab.Systems.Runs
import DistLab.Rdt.Sending

/-! # Soundness of the sender

The sender under any sequence of messages, packets and timer expiries in which an
acknowledgement names a packet that was sent and is not far behind. The timers are those
of the packets that are not acknowledged, data waits in the buffer only while the window
is full, and the window starts at a packet that waits. No assertion of the sender fails.
-/

namespace DistLab.Rdt

open StringManager Sender

namespace VirtualTimer

variable {v : VirtualTimer} {now time : ℚ} {key : ℕ}

def keys (v : VirtualTimer) : List ℕ := v.records.map Prod.fst

/-- Whether the simulator's timer is set after `VirtualTimer::end`, which only looks at it when
the first record goes. -/
def setAfterEnd (v : VirtualTimer) (key : ℤ) (timerSet : Bool) : Bool :=
  match v.records with
  | [] => timerSet
  | r :: rs => if r.1 = key then !rs.isEmpty else timerSet

theorem insert_perm (key : ℕ) (endTime : ℚ) (rs : List (ℕ × ℚ)) :
    ((insert key endTime rs).map Prod.fst).Perm (key :: rs.map Prod.fst) := by
  induction rs with
  | nil => exact .refl _
  | cons r rs ih =>
    rw [insert]
    split
    · exact (ih.cons _).trans (.swap _ _ _)
    · exact .refl _

theorem exists_start (now : ℚ) (key : ℕ) (time : ℚ) (h : v.keys.length < v.maxTimerN) :
    ∃ v', v.start now key time = some v' ∧ v'.keys.Perm (key :: v.keys) ∧
      v'.maxTimerN = v.maxTimerN := by
  rw [keys, List.length_map] at h
  exact ⟨_, if_pos h, insert_perm _ _ _, rfl⟩

@[simp] theorem keys_finish : (v.finish key).keys = v.keys.erase key := by
  rw [finish_natCast, keys, keys, List.erase_eq_eraseP', List.eraseP_map]
  rfl

theorem setAfterEnd_iff (key : ℕ) {timerSet : Bool} (h : timerSet = true ↔ v.keys ≠ []) :
    v.setAfterEnd key timerSet = true ↔ (v.finish key).keys ≠ [] := by
  rw [keys_finish]
  unfold setAfterEnd
  unfold keys at h ⊢
  cases hr : v.records with
  | nil => simpa [hr] using h
  | cons r rs =>
    by_cases hk : r.1 = key
    · simp [hk]
    · simp [hr, hk, h, Int.ofNat_inj]

end VirtualTimer

def pending (acked : List ℕ) (B T : ℕ) : List ℕ := (List.range' B (T - B)).filter (· ∉ acked)

section Pending

variable {acked : List ℕ} {a b c B T : ℕ}

theorem mem_pending : a ∈ pending acked B T ↔ B ≤ a ∧ a < T ∧ a ∉ acked := by
  simp only [pending, List.mem_filter, List.mem_range'_1, decide_eq_true_eq, and_assoc]
  constructor
  · rintro ⟨hB, hT, ha⟩
    exact ⟨hB, by omega, ha⟩
  · rintro ⟨hB, hT, ha⟩
    exact ⟨hB, by omega, ha⟩

theorem length_pending_le : (pending acked B T).length ≤ T - B := by
  simpa [pending] using List.length_filter_le (· ∉ acked) (List.range' B (T - B))

theorem pending_succ (hB : B ≤ T) (h : T ∉ acked) :
    pending acked B (T + 1) = pending acked B T ++ [T] := by
  have hlen : T + 1 - B = T - B + 1 := by omega
  have hlast : B + (T - B) = T := by omega
  simp [pending, hlen, List.range'_1_concat, hlast, h]

theorem nodup_pending (h : T ≤ B + 10) : ((pending acked B T).map (· % 30)).Nodup := by
  apply List.Nodup.map_on
  · intro a ha b hb hab
    obtain ⟨hB, hT, -⟩ := mem_pending.mp ha
    obtain ⟨hB', hT', -⟩ := mem_pending.mp hb
    omega
  · exact (List.nodup_range' ..).filter _

theorem pending_cons (h : T ≤ B + 10) (ha : B ≤ a + 20) (hlt : a < T) :
    (pending (a :: acked) B T).map (· % 30) =
      ((pending acked B T).map (· % 30)).erase (a % 30) := by
  rw [(nodup_pending h).erase_eq_filter, List.filter_map, pending, pending, List.filter_filter]
  congr 1
  apply List.filter_congr
  intro b hb
  have hmem := List.mem_range'_1.mp hb
  have hne : b % 30 = a % 30 ↔ b = a := by omega
  rw [Bool.eq_iff_iff]
  simp [hne]

theorem pending_move (hc : B + c ≤ T) (h : ∀ b, B ≤ b → b < B + c → b ∈ acked) :
    pending acked (B + c) T = pending acked B T := by
  have hsplit : List.range' B (T - B) = List.range' B c ++ List.range' (B + c) (T - (B + c)) := by
    rw [List.range'_append_1]
    congr 1
    omega
  have hnil : (List.range' B c).filter (· ∉ acked) = [] := by
    rw [List.filter_eq_nil_iff]
    intro b hb
    have hmem := List.mem_range'_1.mp hb
    simpa using h b hmem.1 hmem.2
  rw [pending, pending, hsplit, List.filter_append, hnil, List.nil_append]

end Pending

/-- The window and the timers of a sender that has made packets of the pieces and received the
acknowledgements. -/
structure Tracks (w : SlidingWindow) (v : VirtualTimer) (acked : List ℕ) (B : ℕ)
    (pieces : List (List Byte)) : Prop where
  holds : w.Holds B pieces
  waits : ∀ a, B ≤ a → a < pieces.length → (w.Waits a ↔ a ∉ acked)
  first : B < pieces.length → w.Waits B
  acked_lt : ∀ a ∈ acked, a < pieces.length
  limit : v.maxTimerN = kWindowSize
  keys : v.keys.Perm ((pending acked B pieces.length).map (· % 30))

structure Filled {σ : Type} [StringManager σ] [LawfulStringManager σ] (v : VirtualTimer)
    (acked : List ℕ) (B : ℕ) (pieces qs : List (List Byte)) (w' : SlidingWindow)
    (v' : VirtualTimer) (str' : σ) (out : List Packet) : Prop where
  tracks : Tracks w' v' acked B (pieces ++ qs)
  length : out.length = qs.length
  full : view str' ≠ [] → (pieces ++ qs).length = B + 10
  keys : v'.keys ≠ [] ↔ v.keys ≠ [] ∨ out ≠ []

namespace Tracks

variable {w w₁ : SlidingWindow} {v : VirtualTimer} {acked : List ℕ} {a B : ℕ}
  {pieces : List (List Byte)} {p : List Byte} {pkt : Packet}

theorem length_keys_le (h : Tracks w v acked B pieces) : v.keys.length ≤ pieces.length - B := by
  rw [h.keys.length_eq, List.length_map]
  exact length_pending_le

theorem send (h : Tracks w v acked B pieces) (now : ℚ) {seqN : ℕ}
    (hs : w.send = some (seqN, w₁)) (hc : Carries pkt seqN p) :
    ∃ w₂ v₂, w₁.backup pkt seqN = some w₂ ∧ v.start now seqN kWaitTime = some v₂ ∧
      Tracks w₂ v₂ acked B (pieces ++ [p]) ∧ v₂.keys ≠ [] := by
  have hle := h.holds.base_le
  have hfew := h.length_keys_le
  obtain ⟨hlt, -, -⟩ := h.holds.send hs
  obtain ⟨w₂, hb⟩ := h.holds.exists_backup hs pkt
  obtain ⟨rfl, hh, hw, hold⟩ := h.holds.extend hs hb hc
  obtain ⟨v₂, hv, hkeys, hlimit⟩ := v.exists_start now (pieces.length % 30) kWaitTime
    (by rw [h.limit]; simp only [kWindowSize]; omega)
  have hnew : pieces.length ∉ acked := fun hm => absurd (h.acked_lt _ hm) (lt_irrefl _)
  have hlen : (pieces ++ [p]).length = pieces.length + 1 := by simp
  refine ⟨w₂, v₂, hb, hv, ⟨hh, fun b hB hb => ?_, fun _ => ?_, fun b hb => ?_,
    hlimit.trans h.limit, ?_⟩, ?_⟩
  · rw [hlen] at hb
    rcases Nat.lt_succ_iff_lt_or_eq.mp hb with hb | rfl
    · rw [hold b hB hb, h.waits b hB hb]
    · exact iff_of_true hw hnew
  · rcases hle.eq_or_lt with rfl | hlt
    · exact hw
    · exact (hold B le_rfl hlt).mpr (h.first hlt)
  · rw [hlen]
    exact Nat.lt_succ_of_lt (h.acked_lt b hb)
  · rw [hlen, pending_succ hle hnew, List.map_append]
    exact (hkeys.trans (h.keys.cons _)).trans (List.perm_append_singleton _ _).symm
  · intro hnil
    rw [hnil] at hkeys
    exact absurd hkeys.length_eq (by simp)

/-- The sending loop never fails and ends with the data or with a full window. -/
theorem loop {σ : Type} [StringManager σ] [LawfulStringManager σ]
    (h : Tracks w v acked B pieces) (now : ℚ) (fuel : ℕ) (str : σ) (pkt : Packet)
    (hf : B + 10 < pieces.length + fuel) :
    ∃ w' v' str' out qs, sendLoop now fuel w v str pkt = some (w', v', str', out) ∧
      Filled v acked B pieces qs w' v' str' out := by
  have hle := h.holds.le
  induction fuel generalizing w v str pkt pieces with
  | zero => omega
  | succ fuel ih =>
    have hstop : (view str ≠ [] → pieces.length = B + 10) →
        Filled v acked B pieces [] w v str [] := by
      intro hfull
      exact ⟨by simpa using h, rfl, by simpa using hfull, by simp⟩
    rw [sendLoop_succ]
    split_ifs with he
    · rw [LawfulStringManager.empty_eq, List.isEmpty_iff] at he
      exact ⟨w, v, str, [], [], rfl, hstop fun hne => absurd he hne⟩
    · rw [LawfulStringManager.empty_eq, List.isEmpty_iff] at he
      cases hsend : w.send with
      | none => exact ⟨w, v, str, [], [], rfl, hstop fun _ => h.holds.send_eq_none hsend⟩
      | some r =>
        obtain ⟨seqN, w₁⟩ := r
        obtain ⟨str₁, pkt₁, p, hmake, -, hc⟩ := pktMake_spec str seqN pkt he
        obtain ⟨w₂, v₂, hb, hv, ht, hne⟩ := h.send now hsend hc
        obtain ⟨w', v', str', out, qs, hloop, hfilled⟩ := ih ht str₁ pkt₁
          (by simp only [List.length_append, List.length_singleton]; omega) ht.holds.le
        refine ⟨w', v', str', pkt₁ :: out, p :: qs, ?_, ?_⟩
        · simp only [hmake, hb, hv, hloop, Option.bind_eq_bind, Option.bind_some]
          rfl
        · constructor
          · simpa using hfilled.tracks
          · simp [hfilled.length]
          · simpa using hfilled.full
          · simp [hfilled.keys, hne]

theorem ack (h : Tracks w v acked B pieces) (ha : B ≤ a + 20) (hlt : a < pieces.length) :
    ∃ moved w' c, w.ack (a % 30 : ℕ) = some (moved, w') ∧ (moved = false → c = 0) ∧
      Tracks w' (v.finish (a % 30 : ℕ)) (a :: acked) (B + c) pieces := by
  obtain ⟨moved, w', c, hack, hw⟩ := h.holds.exists_ack ha hlt
  refine ⟨moved, w', c, hack, hw.still, hw.holds, fun b hB hb => ?_, hw.first h.first, ?_,
    h.limit, ?_⟩
  · rw [hw.waits b hB hb, h.waits b (by omega) hb, List.mem_cons, not_or, and_comm]
  · rintro b (- | ⟨-, hb⟩)
    · exact hlt
    · exact h.acked_lt b ‹_›
  · rw [pending_move hw.holds.base_le, pending_cons h.holds.le ha hlt, VirtualTimer.keys_finish]
    · exact h.keys.erase _
    · intro b hB hb
      rw [List.mem_cons, or_iff_not_imp_right, ← h.waits b hB (by have := hw.holds.base_le; omega)]
      exact hw.passed b hB hb

end Tracks

/-- The sender with the simulator's timer, the number of packets it has made and the numbers of
those that an acknowledgement has come in for. -/
structure Station where
  code : Sender := {}
  timerSet : Bool := false
  sent : ℕ := 0
  acked : List ℕ := []

inductive SenderEvent where
  | message (now : ℚ) (stack : Packet) (msg : List Byte)
  | packet (now : ℚ) (stack : Packet) (no : ℕ) (pkt : Packet)
  | timeout (now : ℚ)

namespace Station

def count (s : Station) : ℕ := rMinus s.code.window.top s.code.window.base (kWindowSize + 1)

def base (s : Station) : ℕ := s.sent - s.count

/-- Every timer that is started, one for each new packet, sets the simulator's timer. -/
def step (s : Station) : SenderEvent → Option Station
  | .message now stack msg =>
    (s.code.fromUpperLayer now stack msg).map fun (code, out) =>
      { s with
        code := code
        timerSet := s.timerSet || !out.isEmpty
        sent := s.sent + out.length }
  | .packet now stack no pkt =>
    (s.code.fromLowerLayer now stack pkt).map fun (code, out) =>
      if accepts pkt then
        { code := code
          timerSet := s.code.timer.setAfterEnd (pkt 3).toInt s.timerSet || !out.isEmpty
          sent := s.sent + out.length
          acked := no :: s.acked }
      else { s with code := code }
  | .timeout now =>
    (s.code.timeout now).map fun (code, _) =>
      { s with code := code, timerSet := !code.timer.records.isEmpty }

/-- An acknowledgement names a packet that was sent and is not more than
`kMaxSeqN - kWindowSize` packets behind the base. The timer expires only when it is set. -/
def Admits (s : Station) : SenderEvent → Prop
  | .message .. => True
  | .packet _ _ no pkt => accepts pkt = true →
      pkt 3 = BitVec.ofNat 8 (no % kMaxSeqN) ∧ no < s.sent ∧ s.base ≤ no + (kMaxSeqN - kWindowSize)
  | .timeout _ => s.timerSet = true

instance (s : Station) : (e : SenderEvent) → Decidable (s.Admits e)
  | .message .. => isTrue trivial
  | .packet _ _ _ pkt => inferInstanceAs (Decidable (accepts pkt = true → _))
  | .timeout _ => inferInstanceAs (Decidable (s.timerSet = true))

def unacked (s : Station) : List ℕ := pending s.acked s.base s.sent

/-- The cells agree with the acknowledgements, there is exactly one timer for each packet that is
not acknowledged, data is in the buffer only while the window is full, and the first packet of
the window is not acknowledged. -/
structure Sound (s : Station) : Prop where
  count_le : s.count ≤ s.sent
  seq : s.code.window.baseSeqN = s.base % kMaxSeqN
  status : ∀ j < s.count,
    (s.code.window.cells (rAdd s.code.window.base j (kWindowSize + 1))).status = true ↔
      s.base + j ∉ s.acked
  timers : s.code.timer.keys.Perm (s.unacked.map (· % kMaxSeqN))
  single : s.code.timer.keys.Nodup
  full : empty s.code.buffer = false → s.count = kWindowSize
  first : s.code.window.isEmpty = false → s.base ∉ s.acked

structure Tracked (s : Station) (B : ℕ) (pieces : List (List Byte)) : Prop where
  tracks : Tracks s.code.window s.code.timer s.acked B pieces
  sent : pieces.length = s.sent
  full : s.code.buffer.contents ≠ [] → pieces.length = B + 10
  timerSet : s.timerSet = true ↔ s.code.timer.keys ≠ []

end Station

def station : System Station SenderEvent where
  init := {}
  step := Station.step

namespace Station

variable {s : Station} {B : ℕ} {pieces : List (List Byte)}

theorem Tracked.count_eq (h : s.Tracked B pieces) : s.count = pieces.length - B := by
  have hle := h.tracks.holds.base_le
  have hle' := h.tracks.holds.le
  simp only [count, rMinus, h.tracks.holds.base, h.tracks.holds.top, kWindowSize]
  omega

theorem Tracked.base_eq (h : s.Tracked B pieces) : s.base = B := by
  have hle := h.tracks.holds.base_le
  rw [base, h.count_eq, ← h.sent]
  omega

theorem buffer_empty_iff (b : CircleQueueBuffer) : empty b = true ↔ b.contents = [] := by
  rw [LawfulStringManager.empty_eq, List.isEmpty_iff]
  rfl

theorem Tracked.sound (h : s.Tracked B pieces) : s.Sound := by
  have hle := h.tracks.holds.base_le
  have hle' := h.tracks.holds.le
  have hcount := h.count_eq
  have hbase := h.base_eq
  have hsent := h.sent
  constructor
  · omega
  · rw [hbase]
    exact h.tracks.holds.seq
  · intro j hj
    have hcell : rAdd s.code.window.base j (kWindowSize + 1) = (B + j) % 11 := by
      rw [h.tracks.holds.base]
      exact Nat.mod_add_mod B 11 j
    rw [hcell, hbase]
    exact h.tracks.waits (B + j) (by omega) (by omega)
  · rw [unacked, hbase, ← hsent]
    exact h.tracks.keys
  · exact h.tracks.keys.nodup_iff.mpr (nodup_pending hle')
  · intro he
    have := h.full (mt (buffer_empty_iff _).mpr (by simp [he]))
    simp only [kWindowSize]
    omega
  · intro he
    have hne : B ≠ pieces.length := by
      rintro rfl
      simp [SlidingWindow.isEmpty, h.tracks.holds.base, h.tracks.holds.top] at he
    rw [hbase, ← h.tracks.waits B le_rfl (by omega)]
    exact h.tracks.first (by omega)

theorem Tracked.of_filled {σ : Type} [StringManager σ] [LawfulStringManager σ]
    {v v' : VirtualTimer} {w' : SlidingWindow} {str' : σ} {b : CircleQueueBuffer}
    {acked : List ℕ} {qs : List (List Byte)} {out : List Packet} {timerSet : Bool}
    (h : Filled v acked B pieces qs w' v' str' out) (hb : b.contents = view str')
    (hset : timerSet = true ↔ v.keys ≠ []) :
    Tracked ⟨⟨w', b, v'⟩, timerSet || !out.isEmpty, pieces.length + out.length, acked⟩ B
      (pieces ++ qs) where
  tracks := h.tracks
  sent := by rw [List.length_append, h.length]
  full hne := h.full (hb ▸ hne)
  timerSet := by simp [hset, h.keys]

theorem Tracked.message (h : s.Tracked B pieces) (now : ℚ) (stack : Packet) (msg : List Byte) :
    ∃ s' pieces', s.step (.message now stack msg) = some s' ∧ s'.Tracked B pieces' := by
  have hle := h.tracks.holds.base_le
  by_cases he : empty s.code.buffer = true
  · obtain ⟨w', v', data, out, qs, hloop, hfilled⟩ := h.tracks.loop now (kWindowSize + 1)
      ({ data := msg } : PlainStringManager) stack (by simp only [kWindowSize]; omega)
    have hnil := (buffer_empty_iff _).mp he
    by_cases hd : empty data = true
    · have hview : view data = [] := by
        rwa [LawfulStringManager.empty_eq, List.isEmpty_iff] at hd
      refine ⟨_, _, ?_, .of_filled hfilled (hnil.trans hview.symm) h.timerSet⟩
      simp [step, fromUpperLayer_eq, he, hloop, hd, h.sent]
    · obtain ⟨b, hb, hc⟩ := s.code.buffer.push_spec data.lastData
      rw [hnil, List.nil_append] at hc
      refine ⟨_, _, ?_, .of_filled hfilled hc h.timerSet⟩
      simp [step, fromUpperLayer_eq, he, hloop, hd, hb, h.sent]
  · have hfull := h.full (mt (buffer_empty_iff _).mpr he)
    have hw : s.code.window.isEmpty = false := by
      simp only [SlidingWindow.isEmpty, h.tracks.holds.base, h.tracks.holds.top, hfull,
        beq_eq_false_iff_ne]
      omega
    obtain ⟨b, hb, -⟩ := s.code.buffer.push_spec msg
    exact ⟨{ s with code := { s.code with buffer := b } }, pieces,
      by simp [step, fromUpperLayer_eq, he, hw, hb], h.tracks, h.sent, fun _ => hfull, h.timerSet⟩

theorem Tracked.packet (h : s.Tracked B pieces) {now : ℚ} {stack : Packet} {no : ℕ} {pkt : Packet}
    (hg : s.Admits (.packet now stack no pkt)) : ∃ s' B' pieces',
      s.step (.packet now stack no pkt) = some s' ∧ s'.Tracked B' pieces' := by
  by_cases hacc : accepts pkt = true
  · obtain ⟨hseq, hlt, hnear⟩ := hg hacc
    rw [h.base_eq] at hnear
    rw [← h.sent] at hlt
    have hkey : (pkt 3).toInt = (no % 30 : ℕ) := by
      rw [hseq]
      exact toInt_byte (by simp only [kMaxSeqN]; omega)
    obtain ⟨moved, w', c, hack, hstill, ht⟩ := h.tracks.ack hnear hlt
    have hset := VirtualTimer.setAfterEnd_iff (no % 30) h.timerSet
    cases moved with
    | false =>
      obtain rfl := hstill rfl
      refine ⟨⟨⟨w', s.code.buffer, s.code.timer.finish (no % 30 : ℕ)⟩,
        s.code.timer.setAfterEnd (no % 30 : ℕ) s.timerSet, s.sent, no :: s.acked⟩, B, pieces,
        ?_, ht, h.sent, h.full, hset⟩
      simp only [step, fromLowerLayer_of_still hacc hkey hack, Option.map_some, if_pos hacc, hkey,
        List.isEmpty_nil, Bool.not_true, Bool.or_false, List.length_nil, Nat.add_zero]
    | true =>
      have hle := ht.holds.base_le
      obtain ⟨w'', v', b, out, qs, hloop, hfilled⟩ := ht.loop now (kWindowSize + 1)
        s.code.buffer stack (by simp only [kWindowSize]; omega)
      refine ⟨_, _, _, ?_, .of_filled hfilled rfl hset⟩
      simp only [step, fromLowerLayer_of_moved hacc hkey hack hloop, Option.map_some, if_pos hacc,
        hkey, h.sent]
  · exact ⟨s, B, pieces, by simp [step, fromLowerLayer_rejected, hacc], h⟩

theorem Tracked.timeout (h : s.Tracked B pieces) {now : ℚ} (hg : s.Admits (.timeout now)) :
    ∃ s', s.step (.timeout now) = some s' ∧ s'.Tracked B pieces := by
  have hle' := h.tracks.holds.le
  have hne := h.timerSet.mp hg
  have hfew := h.tracks.length_keys_le
  cases hr : s.code.timer.records with
  | nil => exact absurd (by simp [VirtualTimer.keys, hr]) hne
  | cons r rs =>
    have hkeys : s.code.timer.keys = r.1 :: rs.map Prod.fst := by simp [VirtualTimer.keys, hr]
    -- the timer is that of a packet that waits in its cell
    obtain ⟨a, ha, hseq⟩ := List.mem_map.mp
      (h.tracks.keys.mem_iff.mp (hkeys ▸ List.mem_cons_self : r.1 ∈ s.code.timer.keys))
    obtain ⟨hB, hT, hacked⟩ := mem_pending.mp ha
    have hwaits := (h.tracks.waits a hB hT).mpr hacked
    have hslot := h.tracks.holds.slot hB (by omega)
    have hbackup : s.code.window.getBackup r.1 =
        some (s.code.window.cells (a % 11)).backup := by
      rw [SlidingWindow.getBackup, ← hseq, hslot]
      exact if_pos hwaits
    obtain ⟨v, hv, hperm, hlimit⟩ := VirtualTimer.exists_start
      (v := { s.code.timer with records := rs }) now r.1 kWaitTime (by
        rw [hkeys, List.length_cons] at hfew
        change (rs.map Prod.fst).length < s.code.timer.maxTimerN
        rw [h.tracks.limit]
        simp only [kWindowSize]
        omega)
    have hperm' : v.keys.Perm s.code.timer.keys := by
      rw [hkeys]
      exact hperm
    refine ⟨{ s with
        code := { s.code with timer := v }
        timerSet := !v.records.isEmpty }, ?_, ?_⟩
    · simp only [step, timeout_eq, hr, hbackup, Option.bind_eq_bind, Option.bind_some, hv]
      rfl
    constructor
    · exact ⟨h.tracks.holds, h.tracks.waits, h.tracks.first, h.tracks.acked_lt,
        hlimit.trans h.tracks.limit, hperm'.trans h.tracks.keys⟩
    · exact h.sent
    · exact h.full
    · simp [VirtualTimer.keys]

theorem tracked_init : Tracked {} 0 [] where
  tracks :=
    { holds := ⟨le_rfl, by simp, rfl, rfl, rfl, by simp, by simp [SlidingWindow.Waits]⟩
      waits := by simp
      first := by simp
      acked_lt := by simp
      limit := rfl
      keys := .refl _ }
  sent := rfl
  full h := absurd ((buffer_empty_iff _).mp rfl) h
  timerSet := by simp [VirtualTimer.keys]

theorem Tracked.step {e : SenderEvent} (h : s.Tracked B pieces) (hg : s.Admits e) :
    ∃ s', s.step e = some s' ∧ ∃ B' pieces', s'.Tracked B' pieces' := by
  cases e with
  | message now stack msg =>
    obtain ⟨s', pieces', hs, h'⟩ := h.message now stack msg
    exact ⟨s', hs, B, pieces', h'⟩
  | packet now stack no pkt =>
    obtain ⟨s', B', pieces', hs, h'⟩ := h.packet hg
    exact ⟨s', hs, B', pieces', h'⟩
  | timeout now =>
    obtain ⟨s', hs, h'⟩ := h.timeout hg
    exact ⟨s', hs, B, pieces, h'⟩

end Station

/-- In every admitted run no assertion fails, and the sender is sound after every handler. -/
theorem sender_sound {es : List SenderEvent} (hg : station.Meets Station.Admits station.init es) :
    ∃ s, station.run station.init es = some s ∧ s.Sound := by
  obtain ⟨s, hs, B, pieces, h⟩ := System.exists_run
    (I := fun s : Station => ∃ B pieces, s.Tracked B pieces)
    (fun s e ⟨B, pieces, h⟩ hg => h.step hg) hg ⟨0, [], Station.tracked_init⟩
  exact ⟨s, hs, h.sound⟩

def resent : List SenderEvent :=
  [.message 0 (fun _ => 0) [104, 105], .message 0 (fun _ => 0) [33],
    .packet (1 / 8) (fun _ => 0) 1 (Receiver.ackMake 1 fun _ => 0), .timeout (1 / 4),
    .packet (3 / 8) (fun _ => 0) 0 (Receiver.ackMake 0 fun _ => 0),
    .packet (1 / 2) (fun _ => 0) 0 (Receiver.ackMake 0 fun _ => 0)]

theorem sender_sound_resent : ∃ s, station.run station.init resent = some s ∧ s.Sound :=
  sender_sound (by decide +kernel)

end DistLab.Rdt
