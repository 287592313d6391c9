import DistLab.Rdt.Packet

/-! # The sender's window

Packets are numbered in the order they are made. Packet `a` has the sequence number
`a % 30` and waits in the cell `a % 11` of a window that starts at packet `B`. As at most
ten packets are in the window, neither the cells nor the sequence numbers of two of them
coincide, and an acknowledgement of a packet that is not far behind finds its cell.
-/

namespace DistLab.Rdt

open StringManager

namespace Sender

def SlidingWindow.Waits (w : SlidingWindow) (a : ℕ) : Prop := (w.cells (a % 11)).status = true

/-- The window holds the packets from `B` on of the pieces sent so far. -/
structure SlidingWindow.Holds (w : SlidingWindow) (B : ℕ) (pieces : List (List Byte)) : Prop where
  base_le : B ≤ pieces.length
  le : pieces.length ≤ B + 10
  base : w.base = B % 11
  top : w.top = pieces.length % 11
  seq : w.baseSeqN = B % 30
  backup : ∀ a p, B ≤ a → pieces[a]? = some p → Carries (w.cells (a % 11)).backup (a % 30) p
  idle : ∀ a, pieces.length ≤ a → a < B + 11 → ¬ w.Waits a

namespace SlidingWindow

variable {w w' : SlidingWindow} {B a : ℕ} {pieces : List (List Byte)} {p : List Byte}
  {pkt : Packet}

theorem Holds.slot (h : w.Holds B pieces) (hB : B ≤ a) (ha : a < B + 10) :
    w.slot (a % 30) = a % 11 := by
  simp only [SlidingWindow.slot, rAdd, rMinus, h.base, h.seq, kWindowSize, kMaxSeqN]
  omega

theorem Holds.send (h : w.Holds B pieces) {seqN : ℕ} (hs : w.send = some (seqN, w')) :
    pieces.length < B + 10 ∧ seqN = pieces.length % 30 ∧
      w' = { w with
        cells := Function.update w.cells (pieces.length % 11)
          { w.cells (pieces.length % 11) with status := true }
        top := (pieces.length + 1) % 11 } := by
  have hle := h.base_le
  have hle' := h.le
  have hdiff : rMinus w.top w.base (kWindowSize + 1) = pieces.length - B := by
    simp only [rMinus, h.base, h.top, kWindowSize]
    omega
  rw [SlidingWindow.send, hdiff] at hs
  split_ifs at hs with hfull
  obtain ⟨rfl, rfl⟩ := Prod.mk.inj (Option.some.inj hs)
  simp only [h.seq, h.top, rAdd, kWindowSize, kMaxSeqN] at hfull ⊢
  refine ⟨by omega, by omega, ?_⟩
  congr 1
  omega

theorem backup_eq {seqN : ℕ} (hb : w.backup pkt seqN = some w') : w' = { w with
    cells := Function.update w.cells (w.slot seqN)
      { w.cells (w.slot seqN) with backup := pkt } } := by
  simp only [SlidingWindow.backup, Option.ite_none_right_eq_some, Option.some.injEq] at hb
  exact hb.2.symm

theorem Holds.send_eq_none (h : w.Holds B pieces) (hs : w.send = none) :
    pieces.length = B + 10 := by
  have hle := h.base_le
  have hle' := h.le
  have hfull : rMinus w.top w.base (kWindowSize + 1) ≥ kWindowSize := by
    by_contra hn
    rw [SlidingWindow.send, if_neg hn] at hs
    cases hs
  simp only [rMinus, h.base, h.top, kWindowSize] at hfull
  omega

theorem Holds.exists_backup (h : w.Holds B pieces) {seqN : ℕ} {w₁ : SlidingWindow}
    (hs : w.send = some (seqN, w₁)) (pkt : Packet) : ∃ w₂, w₁.backup pkt seqN = some w₂ := by
  obtain ⟨hlt, rfl, rfl⟩ := h.send hs
  have hslot := h.slot h.base_le hlt
  simp only [SlidingWindow.slot] at hslot
  refine ⟨_, if_pos ?_⟩
  simp only [SlidingWindow.slot]
  rw [hslot, Function.update_self]

theorem Holds.extend (h : w.Holds B pieces) {seqN : ℕ} {w₁ : SlidingWindow}
    (hs : w.send = some (seqN, w₁)) (hb : w₁.backup pkt seqN = some w')
    (hc : Carries pkt seqN p) : seqN = pieces.length % 30 ∧ w'.Holds B (pieces ++ [p]) ∧
      w'.Waits pieces.length ∧
      ∀ b, B ≤ b → b < pieces.length → (w'.Waits b ↔ w.Waits b) := by
  obtain ⟨hlt, rfl, rfl⟩ := h.send hs
  have hle := h.base_le
  have hslot := h.slot hle hlt
  have hw := backup_eq hb
  simp only [SlidingWindow.slot] at hw hslot
  rw [hslot] at hw
  simp only [Function.update_self, Function.update_idem] at hw
  subst hw
  have hold : ∀ b, B ≤ b → b < B + 11 → b ≠ pieces.length → b % 11 ≠ pieces.length % 11 := by
    omega
  refine ⟨rfl, ⟨?_, ?_, h.base, ?_, h.seq, ?_, ?_⟩, by simp [Waits], ?_⟩
  · simp only [List.length_append, List.length_singleton]
    omega
  · simp only [List.length_append, List.length_singleton]
    omega
  · simp
  · intro a q hB hq
    rcases lt_or_ge a pieces.length with ha | ha
    · rw [List.getElem?_append_left ha] at hq
      simp only [Function.update_of_ne (hold a hB (by omega) ha.ne)]
      exact h.backup a q hB hq
    · rw [List.getElem?_append_right ha] at hq
      obtain ⟨h0, rfl⟩ := List.getElem?_eq_some_iff.mp hq
      obtain rfl : a = pieces.length := by
        simp only [List.length_singleton] at h0
        omega
      simpa using hc
  · intro b hb hlt
    simp only [List.length_append, List.length_singleton] at hb
    simpa [Waits, Function.update_of_ne (hold b (by omega) hlt (by omega))] using
      h.idle b (by omega) hlt
  · intro b hB hlt
    simp [Waits, Function.update_of_ne (hold b hB (by omega) hlt.ne)]

/-- The loop of `ack` passes packets that no longer wait, up to one that does or to the top. -/
theorem slide_spec {T : ℕ} (fuel x counter : ℕ) (ht : w.top = T % 11) (hx : x ≤ T)
    (hT : T ≤ x + 10) (hf : T < x + fuel) : ∃ k, x + k ≤ T ∧
      w.slide fuel (x % 11) counter = some ((x + k) % 11, counter + k) ∧
      (∀ b, x ≤ b → b < x + k → ¬ w.Waits b) ∧ (x + k < T → w.Waits (x + k)) := by
  induction fuel generalizing x counter with
  | zero => omega
  | succ fuel ih =>
    rw [slide]
    split_ifs with hc
    · simp only [Bool.and_eq_true, Bool.not_eq_true', bne_iff_ne, ht] at hc
      have hnext : rAdd (x % 11) 1 (kWindowSize + 1) = (x + 1) % 11 := Nat.mod_add_mod x 11 1
      have hne : x ≠ T := fun he => hc.2 (he ▸ rfl)
      obtain ⟨k, hk, hslide, hall, hstop⟩ :=
        ih (x + 1) (counter + 1) (by omega) (by omega) (by omega)
      have hadd : x + (k + 1) = x + 1 + k := by omega
      refine ⟨k + 1, by omega, ?_, fun b hb hlt => ?_, by rwa [hadd]⟩
      · rw [hnext, hslide, hadd, Nat.add_assoc counter, Nat.add_comm 1]
      · rcases hb.eq_or_lt with rfl | hb
        · simp [Waits, hc.1]
        · exact hall b hb (by omega)
    · refine ⟨0, hx, rfl, fun b hb hlt => by omega, fun hlt => ?_⟩
      have hne : x % 11 ≠ w.top := by
        rw [ht]
        omega
      simpa [Waits, hne] using hc

theorem Holds.seq_lt (h : w.Holds B pieces) : w.baseSeqN < kMaxSeqN := by
  rw [h.seq]
  exact Nat.mod_lt _ (by decide)

def confirm (w : SlidingWindow) (a : ℕ) : SlidingWindow :=
  { w with cells := Function.update w.cells (a % 11) { w.cells (a % 11) with status := false } }

theorem Holds.ack_eq (h : w.Holds B pieces) (hB : B ≤ a) (ha : a < B + 10) :
    w.ack (a % 30 : ℕ) =
      if a ≠ B then some (false, w.confirm a)
      else ((w.confirm a).slide (kWindowSize + 1) ((a + 1) % 11) 1).map fun (i, counter) =>
        (true, { w.confirm a with base := i, baseSeqN := rAdd w.baseSeqN counter kMaxSeqN }) := by
  have htmp : rMinus (a % 30) w.baseSeqN kMaxSeqN = a - B := by
    simp only [rMinus, h.seq, kMaxSeqN]
    omega
  have hslot : rAdd w.base (a - B) (kWindowSize + 1) = a % 11 := by
    simp only [rAdd, h.base, kWindowSize]
    omega
  have hnext : rAdd (a % 11) 1 (kWindowSize + 1) = (a + 1) % 11 := Nat.mod_add_mod a 11 1
  have hne : a % 11 ≠ w.base ↔ a ≠ B := by
    rw [h.base]
    omega
  have hfull : ¬ a - B ≥ kWindowSize := by
    simp only [kWindowSize]
    omega
  rw [ack_natCast h.seq_lt, htmp, if_neg hfull, hslot]
  simp only [settle, hnext, hne]
  rfl

theorem Holds.confirm (h : w.Holds B pieces) : (w.confirm a).Holds B pieces := by
  refine ⟨h.base_le, h.le, h.base, h.top, h.seq, fun b p hB hp => ?_, fun b hb hlt => ?_⟩
  · have hc := h.backup b p hB hp
    rcases eq_or_ne (b % 11) (a % 11) with he | hne
    · simpa [SlidingWindow.confirm, he] using hc
    · simpa [SlidingWindow.confirm, Function.update_of_ne hne] using hc
  · have hi := h.idle b hb hlt
    rcases eq_or_ne (b % 11) (a % 11) with he | hne
    · simp [SlidingWindow.confirm, Waits, he]
    · simpa [SlidingWindow.confirm, Waits, Function.update_of_ne hne] using hi

theorem waits_confirm {b : ℕ} (hB : B ≤ a) (ha : a < B + 10) (hb : B ≤ b) (hb' : b < B + 10) :
    (w.confirm a).Waits b ↔ w.Waits b ∧ b ≠ a := by
  rcases eq_or_ne b a with rfl | hne
  · simp [SlidingWindow.confirm, Waits]
  · have hmod : b % 11 ≠ a % 11 := by omega
    simp [SlidingWindow.confirm, Waits, Function.update_of_ne hmod, hne]

theorem Holds.move (h : w.Holds B pieces) {c : ℕ} (hc : B + c ≤ pieces.length)
    (hall : ∀ b, B ≤ b → b < B + c → ¬ w.Waits b) :
    Holds { w with base := (B + c) % 11, baseSeqN := rAdd w.baseSeqN c kMaxSeqN } (B + c)
      pieces := by
  have hle := h.le
  refine ⟨hc, by omega, rfl, h.top, ?_, fun b p hb hp => h.backup b p (by omega) hp,
    fun b hb hlt => ?_⟩
  · simp only [rAdd, h.seq, kMaxSeqN]
    omega
  · rcases lt_or_ge b (B + 11) with hb' | hb'
    · exact h.idle b hb hb'
    · have := hall (b - 11) (by omega) (by omega)
      rwa [Waits, show (b - 11) % 11 = b % 11 by omega] at this

/-- What an acknowledgement of packet `a` does: the window passes `c` packets, none of which waits
any more, and the others wait as before. -/
structure Acked (w w' : SlidingWindow) (moved : Bool) (a B c : ℕ) (pieces : List (List Byte)) :
    Prop where
  holds : w'.Holds (B + c) pieces
  waits : ∀ b, B + c ≤ b → b < pieces.length → (w'.Waits b ↔ w.Waits b ∧ b ≠ a)
  passed : ∀ b, B ≤ b → b < B + c → w.Waits b → b = a
  first : (B < pieces.length → w.Waits B) → B + c < pieces.length → w'.Waits (B + c)
  still : moved = false → c = 0

theorem Holds.exists_ack (h : w.Holds B pieces) (ha : B ≤ a + 20) (hlt : a < pieces.length) :
    ∃ moved w' c, w.ack (a % 30 : ℕ) = some (moved, w') ∧ w.Acked w' moved a B c pieces := by
  have hle := h.base_le
  have hle' := h.le
  rcases lt_or_ge a B with hB | hB
  · have htmp : rMinus (a % 30) w.baseSeqN kMaxSeqN ≥ kWindowSize := by
      simp only [rMinus, h.seq, kWindowSize, kMaxSeqN]
      omega
    refine ⟨false, w, 0, by rw [ack_natCast h.seq_lt, if_pos htmp], h, fun b hb _ => ?_,
      fun b hb hb' => by omega, id, fun _ => rfl⟩
    exact (and_iff_left (by omega)).symm
  · have hconf : ∀ b, B ≤ b → b < pieces.length →
        ((w.confirm a).Waits b ↔ w.Waits b ∧ b ≠ a) :=
      fun b hb hb' => waits_confirm hB (by omega) hb (by omega)
    rw [h.ack_eq hB (by omega)]
    split_ifs with hne
    · refine ⟨false, _, 0, rfl, h.confirm, hconf, fun b hb hb' => by omega, fun hw hB' => ?_,
        fun _ => rfl⟩
      exact (hconf B le_rfl hB').mpr ⟨hw hB', hne.symm⟩
    · obtain rfl : a = B := not_not.mp hne
      obtain ⟨k, hk, hslide, hall, hstop⟩ := slide_spec (kWindowSize + 1) (a + 1) 1 h.confirm.top
        (by omega) (by omega) (by simp only [kWindowSize]; omega)
      rw [Nat.add_assoc] at hk hslide hstop
      have hpassed : ∀ b, a ≤ b → b < a + (1 + k) → ¬ (w.confirm a).Waits b := by
        intro b hb hb'
        rcases hb.eq_or_lt with rfl | hb
        · simp [SlidingWindow.confirm, Waits]
        · exact hall b hb (by omega)
      refine ⟨true, _, 1 + k, by rw [hslide]; rfl, h.confirm.move hk hpassed,
        fun b hb hb' => hconf b (by omega) hb', fun b hb hb' hw => ?_, fun _ => hstop, by simp⟩
      by_contra hba
      exact hpassed b hb hb' ((hconf b hb (by omega)).mpr ⟨hw, hba⟩)

theorem Holds.ack (h : w.Holds B pieces) {moved : Bool} (ha : B ≤ a + 20)
    (hlt : a < pieces.length) (hs : w.ack (a % 30 : ℕ) = some (moved, w')) :
    ∃ c, w'.Holds (B + c) pieces ∧ ∀ b, B ≤ b → b < pieces.length →
      (b < B + c ∨ ¬ w'.Waits b) → b = a ∨ ¬ w.Waits b := by
  obtain ⟨_, _, c, hs', hack⟩ := h.exists_ack ha hlt
  obtain ⟨rfl, rfl⟩ := Prod.mk.inj (Option.some.inj (hs.symm.trans hs'))
  refine ⟨c, hack.holds, fun b hb hb' hn => ?_⟩
  by_cases hw : w.Waits b
  · left
    by_contra hba
    rcases lt_or_ge b (B + c) with hbc | hbc
    · exact hba (hack.passed b hb hbc hw)
    · exact hn.resolve_left (by omega) ((hack.waits b hbc hb').mpr ⟨hw, hba⟩)
  · exact Or.inr hw

theorem Holds.getBackup (h : w.Holds B pieces) {seqN : ℕ} (hg : w.getBackup seqN = some pkt) :
    ∃ a p, B ≤ a ∧ pieces[a]? = some p ∧ Carries pkt (a % 30) p := by
  simp only [SlidingWindow.getBackup, Option.ite_none_right_eq_some, Option.some.injEq] at hg
  obtain ⟨hs, rfl⟩ := hg
  have hlt : w.slot seqN < 11 := Nat.mod_lt _ (by decide)
  obtain ⟨a, hB, ha, he⟩ : ∃ a, B ≤ a ∧ a < B + 11 ∧ a % 11 = w.slot seqN :=
    ⟨B + (w.slot seqN + 11 - B % 11) % 11, by omega, by omega, by omega⟩
  have hlen : a < pieces.length := by
    refine not_le.mp fun hle => h.idle a hle ha ?_
    rwa [Waits, he]
  have hp := List.getElem?_eq_getElem hlen
  exact ⟨a, _, hB, hp, he ▸ h.backup a _ hB hp⟩

end SlidingWindow

structure Sent {σ : Type} [StringManager σ] [LawfulStringManager σ] (B : ℕ) (w w' : SlidingWindow)
    (str str' : σ) (pieces qs : List (List Byte)) (out : List Packet) : Prop where
  holds : w'.Holds B (pieces ++ qs)
  view_eq : qs.flatten ++ view str' = view str
  old : ∀ b, B ≤ b → b < pieces.length → (w'.Waits b ↔ w.Waits b)
  new : ∀ b, pieces.length ≤ b → b < pieces.length + qs.length → w'.Waits b
  out : ∀ pkt ∈ out, ∃ a p, B ≤ a ∧ (pieces ++ qs)[a]? = some p ∧ Carries pkt (a % 30) p

section Loop

variable {σ : Type} [StringManager σ] [LawfulStringManager σ] {now : ℚ} {fuel B : ℕ}
  {w w' w'' : SlidingWindow} {v v' : VirtualTimer} {str str' str'' : σ} {pkt : Packet}
  {out : List Packet} {pieces qs : List (List Byte)} {p : List Byte}

theorem Sent.nil (h : w.Holds B pieces) : Sent B w w str str pieces [] [] where
  holds := by simpa using h
  view_eq := rfl
  old _ _ _ := Iff.rfl
  new b hb hlt := by simp at hlt; omega
  out := by simp

theorem Sent.cons (hB : B ≤ pieces.length) (hw : w'.Waits pieces.length)
    (hold : ∀ b, B ≤ b → b < pieces.length → (w'.Waits b ↔ w.Waits b))
    (hp : p ++ view str' = view str) (hc : Carries pkt (pieces.length % 30) p)
    (h : Sent B w' w'' str' str'' (pieces ++ [p]) qs out) :
    Sent B w w'' str str'' pieces (p :: qs) (pkt :: out) where
  holds := by simpa using h.holds
  view_eq := by rw [List.flatten_cons, List.append_assoc, h.view_eq, hp]
  old b hb hlt := (h.old b hb (by simp; omega)).trans (hold b hb hlt)
  new b hb hlt := by
    rcases hb.eq_or_lt with rfl | hb
    · exact (h.old _ hB (by simp)).mpr hw
    · refine h.new b (by simpa using Nat.succ_le_of_lt hb) ?_
      simp only [List.length_append, List.length_cons, List.length_nil] at hlt ⊢
      omega
  out := by
    rintro q (- | ⟨-, hq⟩)
    · exact ⟨_, p, hB, by simp, hc⟩
    · simpa using h.out q ‹_›

/-- What the sending loop makes of a string: further pieces, and packets that carry them. -/
theorem sendLoop_spec (h : w.Holds B pieces)
    (hs : sendLoop now fuel w v str pkt = some (w', v', str', out)) :
    ∃ qs, Sent B w w' str str' pieces qs out := by
  induction fuel generalizing w v str pkt pieces out with
  | zero => simp [sendLoop, Calling.sendLoop] at hs
  | succ fuel ih =>
    rw [sendLoop_succ] at hs
    split_ifs at hs with he
    · obtain ⟨rfl, rfl, rfl, rfl⟩ := by simpa using hs
      exact ⟨[], .nil h⟩
    · have hne : view str ≠ [] := by
        rwa [LawfulStringManager.empty_eq, List.isEmpty_iff] at he
      cases hsend : w.send with
      | none =>
        rw [hsend] at hs
        obtain ⟨rfl, rfl, rfl, rfl⟩ := by simpa using hs
        exact ⟨[], .nil h⟩
      | some r =>
        obtain ⟨seqN, w₁⟩ := r
        obtain ⟨str₁, pkt₁, p, hmake, hp, hc⟩ := pktMake_spec str seqN pkt hne
        simp only [hsend, hmake, Option.bind_eq_bind, Option.bind_some] at hs
        obtain ⟨w₂, hb, hs⟩ := Option.bind_eq_some_iff.mp hs
        obtain ⟨v₂, -, hs⟩ := Option.bind_eq_some_iff.mp hs
        obtain ⟨⟨w₃, v₃, str₃, out₃⟩, hloop, hs⟩ := Option.bind_eq_some_iff.mp hs
        obtain ⟨rfl, rfl, rfl, rfl⟩ := by simpa using hs
        obtain ⟨rfl, hh, hw, hold⟩ := h.extend hsend hb hc
        obtain ⟨qs, hq⟩ := ih hh hloop
        exact ⟨p :: qs, hq.cons h.base_le hw hold hp hc⟩

end Loop

end Sender

/-- One reaction of the sender: the window moves from `B` to `B'`, further pieces are cut from
the buffer and the message, and what was passed or does not wait any more was acknowledged now
or did not wait before. -/
structure Sender.Moves (s s' : Sender) (B B' : ℕ) (pieces qs : List (List Byte))
    (msg : List Byte) (acked : Option ℕ) (out : List Packet) : Prop where
  le : B ≤ B'
  holds : s'.window.Holds B' (pieces ++ qs)
  contents : qs.flatten ++ s'.buffer.contents = s.buffer.contents ++ msg
  cleared : ∀ b, B ≤ b → b < (pieces ++ qs).length → (b < B' ∨ ¬ s'.window.Waits b) →
    b < pieces.length ∧ (acked = some b ∨ ¬ s.window.Waits b)
  out : ∀ pkt ∈ out, ∃ a p, B' ≤ a ∧ (pieces ++ qs)[a]? = some p ∧ Carries pkt (a % 30) p

namespace Sender

variable {s s' : Sender} {B a : ℕ} {pieces : List (List Byte)} {msg : List Byte} {now : ℚ}
  {pkt ackPkt : Packet} {out : List Packet}

theorem Moves.of_window_eq (h : s.window.Holds B pieces) (hw : s'.window = s.window)
    (hb : s'.buffer.contents = s.buffer.contents ++ msg)
    (hout : ∀ pkt ∈ out, ∃ a p, B ≤ a ∧ pieces[a]? = some p ∧ Carries pkt (a % 30) p) :
    s.Moves s' B B pieces [] msg none out where
  le := le_rfl
  holds := by simpa [hw] using h
  contents := by simpa using hb
  cleared b hB hlt hn := by
    rw [hw] at hn
    exact ⟨by simpa using hlt, Or.inr (hn.resolve_left (by omega))⟩
  out := by simpa using hout

theorem Moves.refl (h : s.window.Holds B pieces) : s.Moves s B B pieces [] [] none [] :=
  .of_window_eq h rfl (by simp) (by simp)

theorem fromUpperLayer_moves (h : s.window.Holds B pieces)
    (hs : s.fromUpperLayer now pkt msg = some (s', out)) :
    ∃ qs, s.Moves s' B B pieces qs msg none out := by
  rw [fromUpperLayer_eq] at hs
  split_ifs at hs with he hw
  · obtain ⟨b, hb, hs⟩ := Option.map_eq_some_iff.mp hs
    obtain ⟨rfl, rfl⟩ := Prod.mk.inj hs
    obtain ⟨b', hb', hc⟩ := s.buffer.push_spec msg
    obtain rfl : b = b' := Option.some.inj (hb.symm.trans hb')
    exact ⟨[], .of_window_eq h rfl hc (by simp)⟩
  · have hempty : s.buffer.contents = [] := by
      have := LawfulStringManager.empty_eq s.buffer
      rw [Bool.not_eq_true, Bool.not_eq_false'] at he
      rw [he] at this
      exact List.isEmpty_iff.mp this.symm
    obtain ⟨⟨w, v, data, out'⟩, hloop, hs⟩ := Option.bind_eq_some_iff.mp hs
    obtain ⟨qs, hq⟩ := sendLoop_spec h hloop
    have hmoves : ∀ b : CircleQueueBuffer, b.contents = view data →
        s.Moves ⟨w, b, v⟩ B B pieces qs msg none out' := by
      intro b hb
      refine ⟨le_rfl, hq.holds, ?_, fun b hB hlt hn => ?_, hq.out⟩
      · rw [hb, hq.view_eq, hempty]
        rfl
      · have hn := hn.resolve_left (by omega)
        rcases lt_or_ge b pieces.length with hlt' | hge
        · exact ⟨hlt', Or.inr (mt (hq.old b hB hlt').mpr hn)⟩
        · exact (hn (hq.new b hge (by simpa using hlt))).elim
    simp only at hs
    split_ifs at hs with hd
    · obtain ⟨rfl, rfl⟩ := by simpa using hs
      refine ⟨qs, hmoves _ ?_⟩
      rw [LawfulStringManager.empty_eq, List.isEmpty_iff] at hd
      rw [hempty, hd]
    · obtain ⟨b, hb, hs⟩ := Option.bind_eq_some_iff.mp hs
      obtain ⟨rfl, rfl⟩ := by simpa using hs
      obtain ⟨b', hb', hc⟩ := s.buffer.push_spec data.lastData
      obtain rfl : b = b' := Option.some.inj (hb.symm.trans hb')
      refine ⟨qs, hmoves _ ?_⟩
      rw [hc, hempty]
      rfl

theorem fromLowerLayer_moves (h : s.window.Holds B pieces) (hp : Acks ackPkt (a % 30))
    (ha : B ≤ a + 20) (hlt : a < pieces.length)
    (hs : s.fromLowerLayer now pkt ackPkt = some (s', out)) :
    ∃ B' qs, s.Moves s' B B' pieces qs [] (some a) out := by
  rw [fromLowerLayer_eq, hp.accepts, hp.seq, toInt_byte (k := a % 30) (by omega)] at hs
  simp only [Bool.not_true, Bool.false_eq_true, if_false, Option.bind_eq_bind] at hs
  obtain ⟨⟨moved, w⟩, hack, hs⟩ := Option.bind_eq_some_iff.mp hs
  obtain ⟨c, hw, hclear⟩ := h.ack ha hlt hack
  have hclear' : ∀ b, B ≤ b → b < pieces.length → (b < B + c ∨ ¬ w.Waits b) →
      b < pieces.length ∧ (some a = some b ∨ ¬ s.window.Waits b) := by
    intro b hB hb hn
    refine ⟨hb, (hclear b hB hb hn).imp_left fun he => by rw [he]⟩
  split_ifs at hs with hm
  · obtain ⟨rfl, rfl⟩ := by simpa using hs
    exact ⟨B + c, [], Nat.le_add_right _ _, by simpa using hw, by simp, by simpa using hclear',
      by simp⟩
  · obtain ⟨⟨w', v, b, out'⟩, hloop, hs⟩ := Option.bind_eq_some_iff.mp hs
    obtain ⟨rfl, rfl⟩ := by simpa using hs
    obtain ⟨qs, hq⟩ := sendLoop_spec hw hloop
    refine ⟨B + c, qs, Nat.le_add_right _ _, hq.holds, ?_, fun b hB hb hn => ?_, hq.out⟩
    · rw [List.append_nil]
      exact hq.view_eq
    · have hle := hw.base_le
      rcases lt_or_ge b pieces.length with hb' | hb'
      · refine hclear' b hB hb' ?_
        rcases lt_or_ge b (B + c) with hc | hc
        · exact Or.inl hc
        · exact Or.inr (mt (hq.old b hc hb').mpr (hn.resolve_left (by omega)))
      · exact (hn.resolve_left (by omega) (hq.new b hb' (by simpa using hb))).elim

theorem timeout_moves (h : s.window.Holds B pieces) (hs : s.timeout now = some (s', out)) :
    s.Moves s' B B pieces [] [] none out := by
  rw [timeout_eq] at hs
  split at hs
  · simp at hs
  · obtain ⟨q, hq, hs⟩ := Option.bind_eq_some_iff.mp hs
    obtain ⟨v, -, hs⟩ := Option.bind_eq_some_iff.mp hs
    obtain ⟨rfl, rfl⟩ := by simpa using hs
    refine .of_window_eq h rfl (by simp) ?_
    rintro pkt (- | ⟨-, ⟨⟩⟩)
    exact h.getBackup hq

end Sender

end DistLab.Rdt
