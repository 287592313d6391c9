import DistLab.Raft.StateMachine

/-! # Committed entries stay

In the runs that keep the log machine safe and overwrite no request before it is
encoded, what a server has committed is in the log of every leader of its term or a
later one, at that moment and from then on, and it never leaves the log of the server
itself, whatever requests it accepts and however often it restarts.
-/

namespace DistLab.Raft

variable {n : ℕ} {C : Type*} [Inhabited C] {w w' : Cluster n C} {i j : Fin n}

namespace Adopting

theorem isPrefix_office (h : Adopting w) (hl : (w.node i).status = .leader) {v : Fin n}
    {L : List (LogEntry C)} (ha : Obs.adopted v (w.node i).currentTerm L ∈ w.trace) :
    L <+: (w.node i).log := by
  have hwon := (h.acting.elected.office i).won hl
  rcases h.source v _ L ha with hw | ⟨d, hd, hT, rfl⟩
  · obtain rfl := h.acting.elected.winner_unique hw hwon
    obtain ⟨T, hT, hnew⟩ := h.newest v
    have hle := (hnew.2 _ _ trivial (Or.inr (h.office v hl))).1
    exact (hnew.2 _ L trivial (Or.inr ha)).2 (le_antisymm hle hT)
  · obtain rfl : d.server = i :=
      h.acting.elected.winner_unique (hT ▸ h.acting.won d hd) hwon
    have hb : d.boots = (w.node d.server).boots := by
      refine le_antisymm (h.acting.boots_le d hd) (not_lt.mp fun hlt => ?_)
      exact absurd hT ((h.acting.past d hd hlt).office hl).ne
    exact (((h.matched.own d hd).2 hb).2 hT).isPrefix

theorem isPrefix_of_chosen_lt (h : Adopting w) {T T' : ℕ} {v : Fin n} {L Q : List (LogEntry C)}
    (hQ : Chosen LogEntry.termIdx (Adopted w.trace) T Q) (hlt : T < T')
    (ha : Adopted w.trace v T' L) : Q <+: L := by
  rcases ha with ⟨rfl, -⟩ | ha
  · omega
  · obtain ⟨L₀, hb, hgrow⟩ := h.derived v T' L ha
    exact (h.chronicle.isPrefix_base hQ hlt hb).trans hgrow.isPrefix

/-- What is committed up to the term of a server in office is in its log. -/
theorem isPrefix_leader (h : Adopting w) (hl : (w.node i).status = .leader) {B : ℕ}
    {P : List (LogEntry C)} (hP : Committed w.trace B P) (hB : B ≤ (w.node i).currentTerm) :
    P <+: (w.node i).log := by
  have : Nonempty (Fin n) := ⟨i⟩
  rcases hP with hP | ⟨T, hT, Q, hQ, hp⟩
  · exact hP.trans (h.matched.logs i).rooted
  · rcases (hT.trans hB).lt_or_eq with hlt | rfl
    · exact hp.trans (h.isPrefix_of_chosen_lt hQ hlt (Or.inr (h.office i hl)))
    · obtain ⟨v, L, -, ha, hQL, -⟩ := Chronicle.exists_ack hQ
      rcases ha with ⟨h0, -⟩ | ha
      · exact (hQ.pos h0).elim
      · exact hp.trans (hQL.trans (h.isPrefix_office hl ha))

end Adopting

section Later

variable {es fs : List (NetEvent (Fin n) (Act C))}

theorem isPrefix_leader_of_run (h : (cluster n C).run (cluster n C).init es = some w)
    (h' : (cluster n C).run w fs = some w')
    (hg : (cluster n C).Meets ((raft n C).Guards Server.KeepsSafe) (cluster n C).init (es ++ fs))
    (hl : (w'.node i).status = .leader)
    (ht : (w.node j).currentTerm ≤ (w'.node i).currentTerm) :
    (w.node j).log.take ((w.node j).commitIndex + 1) <+: (w'.node i).log := by
  obtain ⟨hges, hgfs⟩ := (System.meets_append h).mp hg
  have hw := Committing.init.run h hges
  have hw' := hw.run h' hgfs
  obtain ⟨-, B, L, ha, hc⟩ := hw.commits j
  have hB : B ≤ (w'.node i).currentTerm := (hw.adopted_le ha).trans ht
  exact hw'.adopting.isPrefix_leader hl (hc.mono (Protocol.trace_subset h') le_rfl) hB

theorem isPrefix_of_run (h : (cluster n C).run (cluster n C).init es = some w)
    (h' : (cluster n C).run w fs = some w')
    (hg : (cluster n C).Meets ((raft n C).Guards Server.KeepsSafe)
      (cluster n C).init (es ++ fs)) :
    (w.node j).log.take ((w.node j).commitIndex + 1) <+: (w'.node j).log := by
  obtain ⟨hges, hgfs⟩ := (System.meets_append h).mp hg
  have hw := Committing.init.run h hges
  have hw' := hw.run h' hgfs
  have hsub := Protocol.trace_subset h'
  obtain ⟨-, B, L, ha, hc⟩ := hw.commits j
  obtain ⟨T₁, -, hnew₁⟩ := hw.adopting.newest j
  obtain ⟨T₂, -, hnew₂⟩ := hw'.adopting.newest j
  obtain ⟨hT, hlog⟩ := hnew₂.2 T₁ _ trivial (hnew₁.1.mono hsub)
  rcases hc.mono hsub le_rfl with hc | ⟨T, hTB, Q, hQ, hp⟩
  · exact hc.trans (hw'.adopting.matched.logs j).rooted
  · have hle : T ≤ T₁ := hTB.trans (hnew₁.2 B L trivial ha).1
    rcases hT.lt_or_eq with hlt | heq
    · exact hp.trans (hw'.adopting.isPrefix_of_chosen_lt hQ (hle.trans_lt hlt) hnew₂.1)
    · exact (List.take_prefix _ _).trans (hlog heq)

end Later

section Memory

variable {A : Growth} {s s' : Memory n C} {es fs : List (MemoryEvent n C)}

theorem exists_safe_run (h : (memory A n C).run (memory A n C).init es = some s)
    (h' : (memory A n C).run s fs = some s')
    (hg : (memory A n C).Meets
      (Memory.Guards fun s i x => Server.KeepsSafe i (s.world.node i) x ∧ s.Spares i x)
      (memory A n C).init (es ++ fs)) :
    ∃ es' fs' w w', (cluster n C).run (cluster n C).init es' = some w ∧
      (cluster n C).run w fs' = some w' ∧
      (cluster n C).Meets ((raft n C).Guards Server.KeepsSafe) (cluster n C).init (es' ++ fs') ∧
      w.node = s.world.node ∧ w'.node = s'.world.node := by
  obtain ⟨hges, hgfs⟩ := (System.meets_append h).mp hg
  have hsound := Memory.Sound.init.run h (hges.mono fun _ _ => Memory.Guards.mono fun _ _ h => h.2)
  obtain ⟨es', w, hw, hmeets, hcov⟩ := Memory.Sound.init.exists_run h hges Memory.covers_init
  obtain ⟨fs', w', hw', hmeets', hcov'⟩ := hsound.exists_run h' hgfs hcov
  exact ⟨es', fs', w, w', hw, hw', (System.meets_append hw).mpr ⟨hmeets, hmeets'⟩, hcov.node,
    hcov'.node⟩

/-- What a server has committed is in the log of every leader of its term or a later one, from
then on. -/
theorem leader_completeness (h : (memory A n C).run (memory A n C).init es = some s)
    (h' : (memory A n C).run s fs = some s')
    (hg : (memory A n C).Meets
      (Memory.Guards fun s i x => Server.KeepsSafe i (s.world.node i) x ∧ s.Spares i x)
      (memory A n C).init (es ++ fs))
    (hl : (s'.world.node i).status = .leader)
    (ht : (s.world.node j).currentTerm ≤ (s'.world.node i).currentTerm) :
    (s.world.node j).log.take ((s.world.node j).commitIndex + 1) <+: (s'.world.node i).log := by
  obtain ⟨es', fs', w, w', hw, hw', hmeets, hnode, hnode'⟩ := exists_safe_run h h' hg
  rw [← hnode] at ht ⊢
  rw [← hnode'] at hl ht ⊢
  exact isPrefix_leader_of_run hw hw' hmeets hl ht

end Memory

def settled : List (MemoryEvent 3 ℕ) :=
  [.net (.act 0 .electionTimeout), .net (.deliver 0), .net (.deliver 1),
    .net (.act 0 .becomeLeader), .net (.act 0 (.start 10)), .net (.act 0 .heartbeat), .encode 0,
    .encode 0, .net (.deliver 1), .net (.deliver 2)]

/-- The follower that has the committed command wins the next term. -/
def succession : List (MemoryEvent 3 ℕ) :=
  [.net (.act 1 .electionTimeout), .net (.deliver 3), .net (.deliver 3),
    .net (.act 1 .becomeLeader)]

theorem leader_completeness_succession :
    ∃ s s', (memory .doubling 3 ℕ).run (memory .doubling 3 ℕ).init settled = some s ∧
      (memory .doubling 3 ℕ).run s succession = some s' ∧
      (s'.world.node 1).status = .leader ∧
      (s.world.node 0).log.take ((s.world.node 0).commitIndex + 1) = [sentinel, ⟨10, 1⟩] ∧
      (s.world.node 0).log.take ((s.world.node 0).commitIndex + 1) <+:
        (s'.world.node 1).log := by
  have h := (memory .doubling 3 ℕ).run_after (memory .doubling 3 ℕ).init settled
    (by decide +kernel)
  have h' := (memory .doubling 3 ℕ).run_after ((memory .doubling 3 ℕ).after
    (memory .doubling 3 ℕ).init settled (by decide +kernel)) succession (by decide +kernel)
  exact ⟨_, _, h, h', by decide +kernel, by decide +kernel,
    leader_completeness h h' (by decide +kernel) (by decide +kernel) (by decide +kernel)⟩

section Memory

variable {A : Growth} {s s' : Memory n C} {es fs : List (MemoryEvent n C)}

/-- What a server has committed stays in its log. -/
theorem committed_kept (h : (memory A n C).run (memory A n C).init es = some s)
    (h' : (memory A n C).run s fs = some s')
    (hg : (memory A n C).Meets
      (Memory.Guards fun s i x => Server.KeepsSafe i (s.world.node i) x ∧ s.Spares i x)
      (memory A n C).init (es ++ fs)) :
    (s.world.node j).log.take ((s.world.node j).commitIndex + 1) <+: (s'.world.node j).log := by
  obtain ⟨es', fs', w, w', hw, hw', hmeets, hnode, hnode'⟩ := exists_safe_run h h' hg
  rw [← hnode, ← hnode']
  exact isPrefix_of_run hw hw' hmeets

end Memory

theorem committed_kept_restart :
    ∃ s s', (memory .doubling 3 ℕ).run (memory .doubling 3 ℕ).init settled = some s ∧
      (memory .doubling 3 ℕ).run s [.net (.act 0 .restart)] = some s' ∧
      (s'.world.node 0).boots = 1 ∧
      (s.world.node 0).log.take ((s.world.node 0).commitIndex + 1) = [sentinel, ⟨10, 1⟩] ∧
      (s.world.node 0).log.take ((s.world.node 0).commitIndex + 1) <+:
        (s'.world.node 0).log := by
  have h := (memory .doubling 3 ℕ).run_after (memory .doubling 3 ℕ).init settled
    (by decide +kernel)
  have h' := (memory .doubling 3 ℕ).run_after ((memory .doubling 3 ℕ).after
    (memory .doubling 3 ℕ).init settled (by decide +kernel)) [.net (.act 0 .restart)]
    (by decide +kernel)
  exact ⟨_, _, h, h', by decide +kernel, by decide +kernel,
    committed_kept h h' (by decide +kernel)⟩

end DistLab.Raft
