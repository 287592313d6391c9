import DistLab.Rdt.Sending
import DistLab.Systems.Runs

/-! # Acknowledgements of packets that are not in the window

The window is asked for sequence numbers, is given backups and is told acknowledgements, in
any order and with any number. A number that no packet in the window has finds a cell that
does not wait, or none, and nothing happens. There is one exception: in an empty window the
next number to be sent is the number at the base, and its acknowledgement moves the window
once around the ring.
-/

namespace DistLab.Rdt.Sender

inductive WindowOp where
  | send
  | backup (pkt : Packet) (seqN : ℕ)
  | ack (seqN : ℕ)

namespace SlidingWindow

def step (w : SlidingWindow) : WindowOp → Option SlidingWindow
  | .send => some ((w.send.map Prod.snd).getD w)
  | .backup pkt seqN => w.backup pkt seqN
  | .ack seqN => (w.ack seqN).map Prod.snd

/-- The numbers that `send` has returned for the packets between base and top. -/
def InWindow (w : SlidingWindow) (seqN : ℕ) : Prop :=
  ∃ k < rMinus w.top w.base (kWindowSize + 1), seqN = rAdd w.baseSeqN k kMaxSeqN

instance decidableInWindow (w : SlidingWindow) (seqN : ℕ) : Decidable (w.InWindow seqN) :=
  inferInstanceAs (Decidable (∃ k < _, _))

/-- The window reaches from packet `B` up to packet `T`, and no other cell waits. -/
structure Spans (w : SlidingWindow) (B T : ℕ) : Prop where
  le : B ≤ T
  top_le : T ≤ B + 10
  base : w.base = B % 11
  top : w.top = T % 11
  seq : w.baseSeqN < kMaxSeqN
  idle : ∀ a, T ≤ a → a < B + 11 → ¬ w.Waits a

end SlidingWindow

def windows : System SlidingWindow WindowOp where
  init := {}
  step := SlidingWindow.step

namespace SlidingWindow

variable {w w' : SlidingWindow} {B T a seqN : ℕ}

theorem Spans.size (h : w.Spans B T) : rMinus w.top w.base (kWindowSize + 1) = T - B := by
  have hle := h.le
  have htop := h.top_le
  simp only [rMinus, h.base, h.top, kWindowSize]
  omega

theorem Spans.send (h : w.Spans B T) : ∃ T', ((w.send.map Prod.snd).getD w).Spans B T' := by
  have hle := h.le
  have htop := h.top_le
  rw [SlidingWindow.send, h.size]
  split_ifs with hfull
  · exact ⟨T, h⟩
  · simp only [kWindowSize] at hfull
    refine ⟨T + 1, by omega, by omega, h.base, ?_, h.seq, fun b hb hlt => ?_⟩
    · simp only [Option.map_some, Option.getD_some, h.top]
      exact Nat.mod_add_mod T 11 1
    · have hne : b % 11 ≠ T % 11 := by omega
      simpa [Waits, h.top, Function.update_of_ne hne] using h.idle b (by omega) hlt

theorem Spans.backup (h : w.Spans B T) {pkt : Packet} (hb : w.backup pkt seqN = some w') :
    w'.Spans B T := by
  obtain rfl := backup_eq hb
  refine ⟨h.le, h.top_le, h.base, h.top, h.seq, fun b hT hlt => ?_⟩
  have hi := h.idle b hT hlt
  rcases eq_or_ne (b % 11) (w.slot seqN) with he | hne
  · simpa [Waits, he] using hi
  · simpa [Waits, Function.update_of_ne hne] using hi

theorem Spans.confirm (h : w.Spans B T) : (w.confirm a).Spans B T := by
  refine ⟨h.le, h.top_le, h.base, h.top, h.seq, fun b hT hlt => ?_⟩
  have hi := h.idle b hT hlt
  rcases eq_or_ne (b % 11) (a % 11) with he | hne
  · simp [SlidingWindow.confirm, Waits, he]
  · simpa [SlidingWindow.confirm, Waits, Function.update_of_ne hne] using hi

theorem confirm_of_not_waits (h : ¬ w.Waits a) : w.confirm a = w := by
  have hcell : { w.cells (a % 11) with status := false } = w.cells (a % 11) := by
    rw [← (Bool.eq_false_iff.mpr h : (w.cells (a % 11)).status = false)]
  rw [SlidingWindow.confirm, hcell, Function.update_eq_self]

theorem Spans.ack_eq (h : w.Spans B T) {d : ℕ} (hd : rMinus seqN w.baseSeqN kMaxSeqN = d) :
    w.ack seqN =
      if d ≥ kWindowSize then some (false, w)
      else if d ≠ 0 then some (false, w.confirm (B + d))
      else ((w.confirm B).slide (kWindowSize + 1) ((B + 1) % 11) 1).map fun (i, counter) =>
        (true, { w.confirm B with base := i, baseSeqN := rAdd w.baseSeqN counter kMaxSeqN }) := by
  have hslot : rAdd w.base d (kWindowSize + 1) = (B + d) % 11 := by
    rw [h.base]
    exact Nat.mod_add_mod B 11 d
  have hnext : rAdd (B % 11) 1 (kWindowSize + 1) = (B + 1) % 11 := Nat.mod_add_mod B 11 1
  rw [ack_natCast h.seq, hd, hslot]
  simp only [settle]
  split_ifs with hfull hne hz hz
  · rfl
  · rfl
  · rw [not_not.mp hz, Nat.add_zero, h.base] at hne
    exact absurd rfl hne
  · simp only [kWindowSize, h.base] at hfull hne
    omega
  · rw [not_not.mp hz, Nat.add_zero, hnext]
    rfl

/-- The acknowledgement of the number at the base moves the window over the packets that do not
wait, all around the ring when it is empty. -/
theorem Spans.slide (h : w.Spans B T) : ∃ k counter,
    (w.confirm B).slide (kWindowSize + 1) ((B + 1) % 11) 1 = some ((B + 1 + k) % 11, counter) ∧
    Spans { w.confirm B with
      base := (B + 1 + k) % 11
      baseSeqN := rAdd w.baseSeqN counter kMaxSeqN } (B + 1 + k) (max T (B + 1 + k)) := by
  have hle := h.le
  have htop := h.top_le
  have hc := h.confirm (a := B)
  have hB : ¬ (w.confirm B).Waits B := by simp [SlidingWindow.confirm, Waits]
  -- in an empty window the loop meets the top again after a whole turn
  obtain ⟨T', hT, hT', hmod⟩ : ∃ T', B + 1 ≤ T' ∧ T' ≤ B + 11 ∧
      (T' = T ∨ T = B ∧ T' = B + 11) := by
    rcases hle.eq_or_lt with rfl | hlt
    · exact ⟨B + 11, by omega, by omega, Or.inr ⟨rfl, rfl⟩⟩
    · exact ⟨T, by omega, by omega, Or.inl rfl⟩
  have htop' : (w.confirm B).top = T' % 11 := by
    rw [hc.top]
    omega
  obtain ⟨k, hk, hslide, hall, hstop⟩ := slide_spec (w := w.confirm B) 11 (B + 1) 1 htop' hT
    (by omega) (by omega)
  have hend : T' = max T (B + 1 + k) ∨ T' = T ∧ B + 1 + k ≤ T := by
    rcases hmod with rfl | ⟨rfl, rfl⟩
    · exact Or.inr ⟨rfl, hk⟩
    · rcases hk.eq_or_lt with hk | hk
      · omega
      · exact absurd (hstop hk) (hc.idle _ (by omega) hk)
  refine ⟨k, 1 + k, hslide, le_max_right _ _, by omega, rfl, ?_, Nat.mod_lt _ (by decide), ?_⟩
  · change (w.confirm B).top = _
    rw [htop']
    congr 1
    omega
  · intro b hb hlt
    change ¬ (w.confirm B).Waits b
    rcases lt_or_ge b (B + 11) with hb' | hb'
    · exact hc.idle b (by omega) hb'
    · have hwaits : (w.confirm B).Waits b ↔ (w.confirm B).Waits (b - 11) := by
        rw [Waits, Waits, show (b - 11) % 11 = b % 11 by omega]
      rw [hwaits]
      rcases (show B ≤ b - 11 by omega).eq_or_lt with he | hB'
      · rwa [← he]
      · exact hall _ hB' (by omega)

theorem Spans.step (h : w.Spans B T) {op : WindowOp} (hs : w.step op = some w') :
    ∃ B' T', w'.Spans B' T' := by
  cases op with
  | send =>
    obtain ⟨T', hT⟩ := h.send
    exact ⟨B, T', Option.some.inj hs ▸ hT⟩
  | backup pkt seqN => exact ⟨B, T, h.backup hs⟩
  | ack seqN =>
    obtain ⟨r, hr, rfl⟩ := Option.map_eq_some_iff.mp hs
    rw [h.ack_eq rfl] at hr
    split_ifs at hr
    · exact ⟨B, T, Option.some.inj hr ▸ h⟩
    · exact ⟨B, T, Option.some.inj hr ▸ h.confirm⟩
    · obtain ⟨k, counter, hslide, hspans⟩ := h.slide
      rw [hslide] at hr
      obtain rfl := Option.some.inj hr
      exact ⟨_, _, hspans⟩

theorem spans_of_run {ops : List WindowOp} (h : windows.run windows.init ops = some w) :
    ∃ B T, w.Spans B T := by
  refine System.invariant (I := fun w => ∃ B T, w.Spans B T)
    (fun _ _ _ ⟨_, _, hw⟩ hs => hw.step hs) h ⟨0, 0, ?_⟩
  exact ⟨le_rfl, by omega, rfl, rfl, by decide, fun a _ _ => by simp [Waits, windows]⟩

end SlidingWindow

/-- In every state of the window, the acknowledgement of a number that no packet in the window has
changes nothing, except for the number at the base of an empty window. -/
theorem ack_ignored_iff {w : SlidingWindow} {ops : List WindowOp} {seqN : ℕ}
    (h : windows.run windows.init ops = some w) (hs : seqN < kMaxSeqN) (hn : ¬ w.InWindow seqN) :
    w.ack seqN = some (false, w) ↔ ¬ (w.base = w.top ∧ seqN = w.baseSeqN) := by
  obtain ⟨B, T, hw⟩ := SlidingWindow.spans_of_run h
  have hle := hw.le
  have htop := hw.top_le
  have hadd : rAdd w.baseSeqN (rMinus seqN w.baseSeqN kMaxSeqN) kMaxSeqN = seqN :=
    rAdd_rMinus hs hw.seq
  have hout : T - B ≤ rMinus seqN w.baseSeqN kMaxSeqN := by
    by_contra hlt
    exact hn ⟨_, by rw [hw.size]; omega, hadd.symm⟩
  have hzero : rMinus seqN w.baseSeqN kMaxSeqN = 0 ↔ seqN = w.baseSeqN := by
    have hseq := hw.seq
    rw [rMinus_of_lt hs hw.seq]
    split_ifs <;> omega
  rw [hw.ack_eq rfl]
  split_ifs with hfull hd
  · refine iff_of_true rfl fun hb => ?_
    rw [hzero.mpr hb.2] at hfull
    exact absurd hfull (by decide)
  · rw [ne_eq, hzero] at hd
    rw [SlidingWindow.confirm_of_not_waits (hw.idle _ (by omega) ?_)]
    · exact iff_of_true rfl fun hb => hd hb.2
    · simp only [kWindowSize] at hfull
      omega
  · have hd := not_not.mp hd
    obtain ⟨k, counter, hslide, -⟩ := hw.slide
    have hempty : w.base = w.top := by
      rw [hw.base, hw.top]
      omega
    rw [hslide]
    simp [hempty, hzero.mp hd]

/-- A packet is sent and acknowledged, and acknowledged again. -/
theorem ack_ignored_after_one :
    ∃ w, windows.run windows.init [.send, .backup (fun _ => 0) 0, .ack 0] = some w ∧
      w.ack 0 = some (false, w) :=
  have h := windows.run_after windows.init [.send, .backup (fun _ => 0) 0, .ack 0] (by decide)
  ⟨_, h, (ack_ignored_iff h (by decide) (by decide)).mpr (by decide)⟩

/-- A packet is sent and acknowledged, and then the number after it, which was never sent. -/
theorem ack_not_ignored :
    ∃ w, windows.run windows.init [.send, .backup (fun _ => 0) 0, .ack 0] = some w ∧
      ¬ w.InWindow 1 ∧ w.baseSeqN = 1 ∧
      (w.ack 1).map (fun r => (r.1, r.2.baseSeqN)) = some (true, 12) :=
  have h := windows.run_after windows.init [.send, .backup (fun _ => 0) 0, .ack 0] (by decide)
  ⟨_, h, by decide, by decide, by decide⟩

end DistLab.Rdt.Sender
