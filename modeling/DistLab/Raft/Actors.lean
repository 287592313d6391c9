import DistLab.Raft.Leadership
import DistLab.Raft.LogMatching

/-! # One actor for each term

When office is only taken and used in the term of the election, the servers that act
as leaders are winners of their terms, and a server that has restarted is never
elected again in a term it acted in before. The election code of the cluster is then
a history in which each term has one actor, so its logs match.
-/

namespace DistLab.Raft

variable {n : ℕ} {C : Type*}

/-- The server has left the term behind: it is not in office in it and cannot take office in it. -/
structure Server.Past (T : ℕ) (rf : Server n C) : Prop where
  term_le : T ≤ rf.currentTerm
  office : rf.status = .leader → T < rf.currentTerm
  asks : ∀ t ∈ rf.routine.asks, T < t

namespace Server

variable {me : Fin n} {rf : Server n C} {T : ℕ} {r : Outcome n C}

theorem OfficeStep.past (h : OfficeStep me rf r) (hp : rf.Past T) : r.state.Past T := by
  cases h with
  | steady h =>
    refine ⟨hp.term_le.trans h.term_le, fun hl => ?_, fun t ht => hp.asks t (h.asks t ht)⟩
    obtain ⟨hl, ht⟩ := h.office hl
    exact ht ▸ hp.office hl
  | campaign ht ha =>
    have hlt : T < rf.currentTerm + 1 := Nat.lt_succ_of_le hp.term_le
    exact ⟨ht ▸ hlt.le, fun _ => ht ▸ hlt, by simpa [ha] using hlt⟩
  | win hq ht ha =>
    have hlt : T < rf.currentTerm := hp.asks _ hq
    exact ⟨ht ▸ hlt.le, fun _ => ht ▸ hlt, by simp [ha, Routine.asks]⟩

variable [Inhabited C] {x : Input (Act C) (Msg n C)}

theorem Reacts.past_of_boots (h : Reacts me rf x r) (hv : rf.VoteSaved)
    (hb : r.state.boots ≠ rf.boots) (hT : T ≤ rf.currentTerm) : r.state.Past T := by
  have hle := hT.trans (h.voteStep hv).term_le
  cases h with
  | brokenBroadcast | crash | crashRaised | crashNominee =>
    exact ⟨hle, by simp, by simp [Routine.asks]⟩
  | accept _ _ _ _ _ ha =>
    obtain ⟨ci, la, bs, rfl⟩ := acceptEntries_frame ha
    simp [splice] at hb
  | pass | resume | campaign | win | broadcast | start | emit | matched | commit | depose |
    countVote => exact (hb rfl).elim
  | refuseVote | grantVote | refuseEntries => simp at hb

theorem Reacts.acts_in_office (h : Reacts me rf x r) (hg : rf.KeepsOffice x) {d : Deed n C}
    (hd : d ∈ deeds r.obs) : rf.status = .leader := by
  cases h with
  | start hs => exact hs
  | broadcast | brokenBroadcast => exact hg.2 rfl
  | _ => simp [deeds, Obs.deed] at hd

end Server

variable [Inhabited C]

/-- The actors of all terms are winners, each in one incarnation that is over or still in its
term. -/
structure Acting (w : Cluster n C) : Prop where
  elected : Elected w
  won : ∀ d ∈ deeds w.trace, Obs.won d.server d.term ∈ w.trace
  term_le : ∀ d ∈ deeds w.trace, d.term ≤ (w.node d.server).currentTerm
  boots_le : ∀ d ∈ deeds w.trace, d.boots ≤ (w.node d.server).boots
  past : ∀ d ∈ deeds w.trace, d.boots < (w.node d.server).boots → (w.node d.server).Past d.term
  unique : UniqueActors w.trace

namespace Acting

variable {w w' : Cluster n C} {i : Fin n} {x : Input (Act C) (Msg n C)} {r : Outcome n C}
  {net : List (Msg n C)} {es : List (NetEvent (Fin n) (Act C))}

theorem init : Acting (cluster n C).init := by
  refine ⟨.init, ?_, ?_, ?_, ?_, ?_⟩ <;> simp [Protocol.system, UniqueActors]

theorem lose (h : Acting w) (hn : net ⊆ w.net) : Acting { w with net := net } :=
  ⟨h.elected.lose hn, h.won, h.term_le, h.boots_le, h.past, h.unique⟩

/-- The actor of a new deed is in office, so no other server and no earlier incarnation of it has
acted in the term. -/
theorem unique_move (h : Acting w) (hr : (w.node i).Reacts i x r)
    (hg : (w.node i).KeepsOffice x) : UniqueActors (r.obs ++ w.trace) := by
  have hnew : ∀ d ∈ deeds w.trace, ∀ d' ∈ deeds r.obs, d.term = d'.term →
      d.server = d'.server ∧ d.boots = d'.boots := by
    intro d hd d' hd' hT
    obtain ⟨hT', hs', hb', -⟩ := hr.moves.deeds d' hd'
    have hoff := hr.acts_in_office hg hd'
    have hwon := (h.elected.office i).won hoff
    rw [← hT', ← hT] at hwon
    obtain rfl : d.server = i := h.elected.winner_unique (h.won d hd) hwon
    refine ⟨hs'.symm, hb' ▸ le_antisymm (h.boots_le d hd) (not_lt.mp fun hlt => ?_)⟩
    have := (h.past d hd hlt).office hoff
    omega
  intro d hd d' hd' hT
  rw [deeds_append, List.mem_append] at hd hd'
  rcases hd with hd | hd <;> rcases hd' with hd' | hd'
  · obtain ⟨-, hs, hb, -⟩ := hr.moves.deeds d hd
    obtain ⟨-, hs', hb', -⟩ := hr.moves.deeds d' hd'
    exact ⟨hs.trans hs'.symm, hb.trans hb'.symm⟩
  · obtain ⟨hs, hb⟩ := hnew d' hd' d hd hT.symm
    exact ⟨hs.symm, hb.symm⟩
  · exact hnew d hd d' hd' hT
  · exact h.unique d hd d' hd' hT

theorem put (h : Acting w) (hr : (raft n C).react i (w.node i) x = some r)
    (hg : (w.node i).KeepsOffice x) (hf : (raft n C).Feeds w i x) (hn : net ⊆ w.net) :
    Acting (w.put i net r) := by
  have hx := Server.react_reacts hr
  have hv := h.elected.votes.saved i
  have hsub : w.trace ⊆ r.obs ++ w.trace := List.subset_append_right _ _
  have hmine : ∀ d ∈ deeds (r.obs ++ w.trace), d ∈ deeds w.trace ∧ d.server ≠ i ∨
      d.server = i ∧ d.term ≤ (w.node i).currentTerm ∧ d.boots ≤ (w.node i).boots ∧
      (d.boots < (w.node i).boots → (w.node i).Past d.term) := by
    intro d hd
    rw [deeds_append, List.mem_append] at hd
    rcases hd with hd | hd
    · obtain ⟨hT, hs, hb, -⟩ := hx.moves.deeds d hd
      exact Or.inr ⟨hs, hT.le, hb.le, fun hlt => absurd hlt (by omega)⟩
    · rcases eq_or_ne d.server i with rfl | hne
      · exact Or.inr ⟨rfl, h.term_le d hd, h.boots_le d hd, h.past d hd⟩
      · exact Or.inl ⟨hd, hne⟩
  constructor
  case elected => exact h.elected.react hr hg.1 hf hn
  case won =>
    intro d hd
    rw [World.put_trace, deeds_append, List.mem_append] at hd
    rcases hd with hd | hd
    · obtain ⟨hT, hs, -⟩ := hx.moves.deeds d hd
      rw [hT, hs]
      exact hsub ((h.elected.office i).won (hx.acts_in_office hg hd))
    · exact hsub (h.won d hd)
  case term_le =>
    intro d hd
    rcases hmine d hd with ⟨hd, hne⟩ | ⟨rfl, hT, -⟩
    · rw [World.put_node_of_ne hne]
      exact h.term_le d hd
    · rw [World.put_node_self]
      exact hT.trans (hx.voteStep hv).term_le
  case boots_le =>
    intro d hd
    rcases hmine d hd with ⟨hd, hne⟩ | ⟨rfl, hT, hb, -⟩
    · rw [World.put_node_of_ne hne]
      exact h.boots_le d hd
    · rw [World.put_node_self]
      cases hx.moves.log <;> omega
  case past =>
    intro d hd
    rcases hmine d hd with ⟨hd, hne⟩ | ⟨rfl, hT, hb, hp⟩
    · rw [World.put_node_of_ne hne]
      exact h.past d hd
    · rw [World.put_node_self]
      intro hlt
      rcases eq_or_ne r.state.boots (w.node d.server).boots with hb' | hb'
      · exact (hx.officeStep hv hg.1).past (hp (hb' ▸ hlt))
      · exact hx.past_of_boots hv hb' hT
  case unique => exact h.unique_move hx hg

theorem run (hi : Acting w) (h : (cluster n C).run w es = some w')
    (hg : (cluster n C).Meets ((raft n C).Guards fun _ => Server.KeepsOffice) w es) : Acting w' :=
  Protocol.preserved (fun _ _ hi hn => hi.lose hn)
    (fun _ _ _ _ _ hi hr hg hf hn => hi.put hr hg hf hn) h hg hi

theorem matched (h : (cluster n C).run (cluster n C).init es = some w)
    (hg : (cluster n C).Meets ((raft n C).Guards fun _ => Server.KeepsOffice)
      (cluster n C).init es) : Matched w :=
  Replicates.matched (run_replicates h) (init.run h hg).unique

end Acting

end DistLab.Raft
