import DistLab.Rdt.Packet

/-! # The receiver's window

The receiver has handed on the packets before `R` and keeps later ones in the cells of
its window. A packet that is not far behind is recognised by its sequence number: it is
acknowledged again, kept, or handed on with the packets that follow it.
-/

namespace DistLab.Rdt.Receiver

/-- The window holds packets behind `R` of the pieces sent so far. -/
structure Holds (w : Receiver) (R : ℕ) (pieces : List (List Byte)) : Prop where
  base_le : R ≤ pieces.length
  base : w.base = R % 11
  seq : w.baseSeqN = R % 30
  cell : ∀ a, R ≤ a → a < R + 11 → (w.cells (a % 11)).status = true →
    R < a ∧ pieces[a]? = some (w.cells (a % 11)).data

def Got (w : Receiver) (R a : ℕ) : Prop := a < R ∨ a < R + 11 ∧ (w.cells (a % 11)).status = true

variable {w w' : Receiver} {R a x k fuel last counter counter' base : ℕ}
  {pieces : List (List Byte)} {p data : List Byte} {cells cells' : ℕ → Content}

theorem Holds.lt_of_got (h : w.Holds R pieces) (hg : w.Got R a) : a < pieces.length := by
  have hle := h.base_le
  rcases hg with hg | ⟨hlt, hs⟩
  · omega
  · rcases lt_or_ge a R with ha | ha
    · omega
    · exact (List.getElem?_eq_some_iff.mp (h.cell a ha hlt hs).2).1

section Loops

/-- The first loop of `get_after_base` releases consecutive packets. -/
structure Released (R x k : ℕ) (cells cells' : ℕ → Content) : Prop where
  le : x + k ≤ R + 11
  status : ∀ b, x ≤ b → b < x + k → (cells (b % 11)).status = true
  released : ∀ b, x ≤ b → b < x + k → (cells' (b % 11)).status = false
  data : ∀ i, (cells' i).data = (cells i).data
  kept : ∀ b, x + k ≤ b → b < x + 11 → cells' (b % 11) = cells (b % 11)
  stop : x + k = R + 11 ∨ (cells ((x + k) % 11)).status = false

theorem release_spec (hx : R < x) (hx' : x ≤ R + 11)
    (h : release (R % 11) fuel cells (x % 11) counter = some (cells', last, counter')) :
    ∃ k, Released R x k cells cells' ∧ last = (x + k) % 11 ∧ counter' = counter + k := by
  induction fuel generalizing x cells counter with
  | zero => simp [release] at h
  | succ fuel ih =>
    rw [release] at h
    split_ifs at h with hc
    · simp only [Bool.and_eq_true, bne_iff_ne] at hc
      have hnext : rAdd (x % 11) 1 (kWindowSize + 1) = (x + 1) % 11 := Nat.mod_add_mod x 11 1
      rw [hnext] at h
      have hne : x ≠ R + 11 := fun he => hc.2 (by omega)
      obtain ⟨k, hk, rfl, rfl⟩ := ih (by omega) (by omega) h
      have hle := hk.le
      have hmod : ∀ b, x < b → b < x + 11 → b % 11 ≠ x % 11 := by omega
      have hself : (cells' (x % 11)).status = false := by
        have := hk.kept (x + 11) (by omega) (by omega)
        rw [show (x + 11) % 11 = x % 11 by omega] at this
        simp [this]
      refine ⟨k + 1, ⟨by omega, fun b hb hlt => ?_, fun b hb hlt => ?_, fun i => ?_,
        fun b hb hlt => ?_, ?_⟩, by congr 1; omega, by omega⟩
      · rcases hb.eq_or_lt with rfl | hb
        · exact hc.1
        · simpa [Function.update_of_ne (hmod b hb (by omega))] using hk.status b hb (by omega)
      · rcases hb.eq_or_lt with rfl | hb
        · exact hself
        · exact hk.released b hb (by omega)
      · rw [hk.data i]
        rcases eq_or_ne i (x % 11) with rfl | hi
        · simp
        · rw [Function.update_of_ne hi]
      · rw [hk.kept b (by omega) (by omega), Function.update_of_ne (hmod b (by omega) hlt)]
      · rcases hk.stop with hs | hs
        · exact Or.inl (by omega)
        · refine Or.inr ?_
          rw [show x + (k + 1) = x + 1 + k by omega]
          rwa [Function.update_of_ne (hmod _ (by omega) (by omega))] at hs
    · simp only [Option.some.injEq, Prod.mk.injEq] at h
      obtain ⟨rfl, rfl, rfl⟩ := h
      refine ⟨0, ⟨hx', fun b hb hlt => by omega, fun b hb hlt => by omega, fun _ => rfl,
        fun _ _ _ => rfl, ?_⟩, rfl, rfl⟩
      rcases Bool.eq_false_or_eq_true (cells (x % 11)).status with hs | hs
      · simp only [hs, Bool.true_and, bne_iff_ne, ne_eq, not_not] at hc
        exact Or.inl (by omega)
      · exact Or.inr hs

theorem gather_spec (hk : k ≤ 10)
    (hp : ∀ b, x ≤ b → b < x + k → pieces[b]? = some (cells (b % 11)).data)
    (h : gather cells ((x + k) % 11) fuel (x % 11) = some data) :
    data = ((pieces.drop x).take k).flatten := by
  induction fuel generalizing x k data with
  | zero => simp [gather] at h
  | succ fuel ih =>
    rw [gather] at h
    cases k with
    | zero => simpa using h.symm
    | succ k =>
      have hne : (x % 11 != (x + (k + 1)) % 11) = true := bne_iff_ne.mpr (by omega)
      have hnext : rAdd (x % 11) 1 (kWindowSize + 1) = (x + 1) % 11 := Nat.mod_add_mod x 11 1
      rw [if_pos hne, hnext, show x + (k + 1) = x + 1 + k by omega] at h
      obtain ⟨rest, hrest, rfl⟩ := Option.map_eq_some_iff.mp h
      rw [ih (by omega) (fun b hb hlt => hp b (by omega) (by omega)) hrest]
      obtain ⟨hlt, hget⟩ := List.getElem?_eq_some_iff.mp (hp x le_rfl (by omega))
      rw [List.drop_eq_getElem_cons hlt, hget, List.take_succ_cons, List.flatten_cons]

end Loops

/-- One reaction of the receiver to packet `a`: it hands on the pieces from `R` to `R'`. -/
structure Moves (w w' : Receiver) (R R' a : ℕ) (pieces : List (List Byte)) (acks : List Packet)
    (msg : Option (List Byte)) : Prop where
  le : R ≤ R'
  holds : w'.Holds R' pieces
  msg : msg.getD [] = ((pieces.drop R).take (R' - R)).flatten
  got : ∀ b, w.Got R b → w'.Got R' b
  acks : ∀ ack ∈ acks, Acks ack (a % 30) ∧ w'.Got R' a

theorem Moves.refl (h : w.Holds R pieces) {acks : List Packet}
    (hacks : ∀ ack ∈ acks, Acks ack (a % 30) ∧ w.Got R a) : w.Moves w R R a pieces acks none where
  le := le_rfl
  holds := h
  msg := by simp
  got _ hg := hg
  acks := hacks

theorem Holds.seqToIndex_of_lt (h : w.Holds R pieces) (ha : a < R) (hR : R ≤ a + 20) :
    w.seqToIndex (a % 30 : ℕ) = -1 ∨ w.seqToIndex (a % 30 : ℕ) = -2 := by
  have hseq := h.seq
  have hd : rMinus (a % 30) w.baseSeqN kMaxSeqN ≥ kWindowSize := by
    simp only [rMinus, h.seq, kWindowSize, kMaxSeqN]
    omega
  rw [seqToIndex_natCast (by simp only [kMaxSeqN]; omega) (by simp only [kMaxSeqN]; omega),
    if_pos hd]
  split_ifs
  · exact Or.inl rfl
  · exact Or.inr rfl

theorem Holds.seqToIndex_of_ge (h : w.Holds R pieces) (hR : R ≤ a) (ha : a < R + 10) :
    w.seqToIndex (a % 30 : ℕ) = (a % 11 : ℕ) := by
  have hseq := h.seq
  have hd : rMinus (a % 30) w.baseSeqN kMaxSeqN = a - R := by
    simp only [rMinus, h.seq, kMaxSeqN]
    omega
  have hfull : ¬ a - R ≥ kWindowSize := by
    simp only [kWindowSize]
    omega
  rw [seqToIndex_natCast (by simp only [kMaxSeqN]; omega) (by simp only [kMaxSeqN]; omega), hd,
    if_neg hfull, rAdd, h.base]
  congr 1
  simp only [kWindowSize]
  omega

theorem Holds.got_put (h : w.Holds R pieces) (hR : R < a) (ha : a < R + 10)
    (hp : pieces[a]? = some p) : (w.put p (a % 11)).Holds R pieces ∧
      (w.put p (a % 11)).Got R a ∧ ∀ b, w.Got R b → (w.put p (a % 11)).Got R b := by
  unfold put
  split_ifs with hs
  · exact ⟨h, Or.inr ⟨by omega, hs⟩, fun _ hg => hg⟩
  · refine ⟨⟨h.base_le, h.base, h.seq, fun b hb hlt hst => ?_⟩, Or.inr ⟨by omega, by simp⟩,
      fun b hg => ?_⟩
    · rcases eq_or_ne b a with rfl | hne
      · exact ⟨hR, by simpa using hp⟩
      · have hmod : b % 11 ≠ a % 11 := by omega
        simp only [Function.update_of_ne hmod] at hst ⊢
        exact h.cell b hb hlt hst
    · refine hg.imp_right fun ⟨hlt, hst⟩ => ⟨hlt, ?_⟩
      rcases eq_or_ne (b % 11) (a % 11) with he | hne
      · simp [he]
      · simpa [Function.update_of_ne hne] using hst

/-- The base packet is handed on with the packets kept behind it. -/
theorem Holds.getAfterBase (h : w.Holds R pieces) (hlen : pieces.length ≤ R + 10)
    (hp : pieces[R]? = some p) {msg : List Byte} (hx : w.getAfterBase p = some (msg, w')) :
    ∃ R' > R, w'.Holds R' pieces ∧ msg = ((pieces.drop R).take (R' - R)).flatten ∧
      ∀ b, w.Got R b → w'.Got R' b := by
  have hfirst : rAdd w.base 1 (kWindowSize + 1) = (R + 1) % 11 := by
    rw [h.base]
    exact Nat.mod_add_mod R 11 1
  rw [Receiver.getAfterBase, hfirst] at hx
  obtain ⟨⟨cells, last, counter⟩, hrel, hx⟩ := Option.bind_eq_some_iff.mp hx
  obtain ⟨data, hgather, hx⟩ := Option.bind_eq_some_iff.mp hx
  obtain ⟨rfl, rfl⟩ := by simpa using hx
  rw [h.base] at hrel
  obtain ⟨k, hk, rfl, rfl⟩ := release_spec (Nat.lt_succ_self R) (by omega) hrel
  obtain ⟨hlt, hget⟩ := List.getElem?_eq_some_iff.mp hp
  have hle := hk.le
  have hpiece : ∀ b, R + 1 ≤ b → b < R + 1 + k → pieces[b]? = some (cells (b % 11)).data := by
    intro b hb hb'
    rw [hk.data]
    exact (h.cell b (by omega) (by omega) (hk.status b hb hb')).2
  have hend : R + 1 + k ≤ pieces.length := by
    rcases Nat.eq_zero_or_pos k with rfl | hpos
    · exact hlt
    · have := (List.getElem?_eq_some_iff.mp (hpiece (R + k) (by omega) (by omega))).1
      omega
  have hstop : (w.cells ((R + 1 + k) % 11)).status = false :=
    hk.stop.resolve_left (by omega)
  refine ⟨R + 1 + k, by omega, ⟨hend, rfl, ?_, fun b hb hb' hs => ?_⟩, ?_, fun b hg => ?_⟩
  · simp only [rAdd, h.seq, kMaxSeqN]
    omega
  · simp only at hs ⊢
    rcases lt_or_ge b (R + 12) with hb'' | hb''
    · rw [hk.kept b hb (by omega)] at hs ⊢
      rcases hb.eq_or_lt with rfl | hb
      · simp [hstop] at hs
      · rcases eq_or_ne b (R + 11) with rfl | hne
        · rw [show (R + 11) % 11 = R % 11 by omega] at hs
          exact absurd (h.cell R le_rfl (by omega) hs).1 (lt_irrefl R)
        · exact ⟨hb, (h.cell b (by omega) (by omega) hs).2⟩
    · have := hk.released (b - 11) (by omega) (by omega)
      rw [show (b - 11) % 11 = b % 11 by omega, hs] at this
      exact absurd this (by decide)
  · rw [gather_spec (by omega) hpiece hgather, show R + 1 + k - R = k + 1 by omega,
      List.drop_eq_getElem_cons hlt, hget, List.take_succ_cons, List.flatten_cons]
  · rcases lt_or_ge b (R + 1 + k) with hb | hb
    · exact Or.inl hb
    · rcases hg with hg | ⟨hg, hs⟩
      · omega
      · exact Or.inr ⟨by omega, (congrArg Content.status (hk.kept b hb (by omega))).trans hs⟩

theorem fromLowerLayer_moves {ackPkt pkt : Packet} {acks : List Packet} {msg : Option (List Byte)}
    (h : w.Holds R pieces) (hlen : pieces.length ≤ R + 10) (hR : R ≤ a + 20)
    (hp : pieces[a]? = some p) (hc : Carries pkt (a % 30) p)
    (hx : w.fromLowerLayer ackPkt pkt = some (w', acks, msg)) :
    ∃ R', w.Moves w' R R' a pieces acks msg := by
  have hle : p.length ≤ 123 := hc.le
  have hlt : a < pieces.length := (List.getElem?_eq_some_iff.mp hp).1
  rw [fromLowerLayer_of_carries hc (by omega)] at hx
  have hacks : ∀ (w' : Receiver) R', w'.Got R' a → ∀ ack ∈ [ackMake (a % 30 : ℕ) ackPkt],
      Acks ack (a % 30) ∧ w'.Got R' a := by
    rintro w' R' hg ack (- | ⟨-, ⟨⟩⟩)
    exact ⟨ackMake_acks _ _, hg⟩
  rcases lt_or_ge a R with ha | ha
  · rcases h.seqToIndex_of_lt ha hR with hi | hi
    · rw [hi] at hx
      obtain ⟨rfl, rfl, rfl⟩ := by simpa using hx
      exact ⟨R, .refl h (hacks w R (Or.inl ha))⟩
    · rw [hi] at hx
      obtain ⟨rfl, rfl, rfl⟩ := by simpa using hx
      exact ⟨R, .refl h (by simp)⟩
  · rw [h.seqToIndex_of_ge ha (by omega), if_neg (by omega), if_neg (by omega),
      if_neg (show ¬ ((a % 11 : ℕ) : ℤ) < 0 by omega), Int.toNat_natCast, h.seq] at hx
    split_ifs at hx with hbase
    · obtain rfl : a = R := by omega
      obtain ⟨⟨msg', w₁⟩, hget, hx⟩ := Option.map_eq_some_iff.mp hx
      obtain ⟨rfl, rfl, rfl⟩ := by simpa using hx
      obtain ⟨R', hlt', hh, rfl, hgot⟩ := h.getAfterBase hlen hp hget
      exact ⟨R', hlt'.le, hh, by simp, hgot, hacks _ _ (Or.inl hlt')⟩
    · obtain ⟨rfl, rfl, rfl⟩ := by simpa using hx
      have hne : a ≠ R := fun he => hbase (by rw [he])
      obtain ⟨hh, hg, hgot⟩ := h.got_put (by omega) (by omega) hp
      exact ⟨R, le_rfl, hh, by simp, hgot, hacks _ _ hg⟩

end DistLab.Rdt.Receiver
