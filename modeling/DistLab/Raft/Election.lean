import DistLab.Systems.Quorum
import DistLab.Raft.Reactions

/-! # Votes

The vote of a server is durable: at every unlock the term and the vote in memory
are those in its `Persister`. A server therefore never moves back to an earlier
term, never votes for two candidates in one term, and two candidates of one term
cannot both be granted the votes of a majority.
-/

namespace DistLab.Raft

variable {n : ℕ} {C : Type*} [Inhabited C]

def Server.VoteSaved (rf : Server n C) : Prop :=
  rf.stored.currentTerm = rf.currentTerm ∧ rf.stored.votedFor = rf.votedFor

/-- What a reaction may do to the term and the vote: a grant is the vote kept in memory, and a vote
is only replaced in a later term. -/
structure VoteStep (me : Fin n) (rf : Server n C) (r : Outcome n C) : Prop where
  saved : r.state.VoteSaved
  term_le : rf.currentTerm ≤ r.state.currentTerm
  kept : r.state.currentTerm = rf.currentTerm → rf.votedFor ≠ none →
    r.state.votedFor = rf.votedFor
  granted : ∀ v c T L, Obs.granted v c T L ∈ r.obs →
    v = me ∧ T = r.state.currentTerm ∧ r.state.votedFor = some c

namespace VoteStep

variable {me : Fin n} {rf rf' : Server n C} {r : Outcome n C}

theorem of_same (hs : rf.VoteSaved) (ht : r.state.currentTerm = rf.currentTerm)
    (hv : r.state.votedFor = rf.votedFor) (hp : r.state.stored = rf.stored)
    (hg : ∀ v c T L, Obs.granted v c T L ∉ r.obs) : VoteStep me rf r where
  saved := ⟨by rw [hp, ht, hs.1], by rw [hp, hv, hs.2]⟩
  term_le := ht.ge
  kept _ _ := hv
  granted v c T L h := (hg v c T L h).elim

theorem of_saved (hp : r.state.persister = some r.state.saved)
    (ht : rf.currentTerm < r.state.currentTerm)
    (hg : ∀ v c T L, Obs.granted v c T L ∈ r.obs →
      v = me ∧ T = r.state.currentTerm ∧ r.state.votedFor = some c) : VoteStep me rf r where
  saved := by constructor <;> simp [Server.stored, hp, Server.saved]
  term_le := ht.le
  kept h := absurd h ht.ne'
  granted := hg

theorem of_crash (h : VoteStep me rf rf'.quiet) : VoteStep me rf rf'.crash where
  saved := by constructor <;> simp
  term_le := h.term_le.trans (by simpa using h.saved.1.ge)
  kept ht hv := by
    simp only [Server.crash_state, Server.restart_currentTerm, Server.restart_votedFor] at ht ⊢
    exact h.saved.2.trans (h.kept (h.saved.1.symm.trans ht) hv)
  granted v c T L hg := by simp at hg

theorem trans {rf₀ : Server n C} (h₁ : VoteStep me rf₀ rf.quiet) (h₂ : VoteStep me rf r) :
    VoteStep me rf₀ r where
  saved := h₂.saved
  term_le := h₁.term_le.trans h₂.term_le
  kept ht hv := by
    have h₁₂ : rf.currentTerm = rf₀.currentTerm :=
      le_antisymm (ht ▸ h₂.term_le) h₁.term_le
    have hk := h₁.kept h₁₂ hv
    exact (h₂.kept (ht.trans h₁₂.symm) (by rw [show rf.votedFor = _ from hk]; exact hv)).trans hk
  granted := h₂.granted

theorem quiet_of_same (hs : rf.VoteSaved) (ht : rf'.currentTerm = rf.currentTerm)
    (hv : rf'.votedFor = rf.votedFor) (hp : rf'.persister = rf.persister) :
    VoteStep me rf rf'.quiet :=
  of_same hs ht hv (by simp [Server.quiet, Server.stored, hp]) (by simp [Server.quiet])

end VoteStep

namespace Server

open VoteStep

variable {me : Fin n} {rf rf' : Server n C}

theorem updateTerm_voteStep (hs : rf.VoteSaved) (t : ℕ) :
    VoteStep me rf (rf.updateTerm t).1.quiet := by
  rcases le_or_gt t rf.currentTerm with h | h
  · rw [updateTerm_of_le h]
    exact quiet_of_same hs rfl rfl rfl
  · rw [updateTerm_eq]
    exact of_saved (by simp [quiet, saved, h, h.le]) (by simpa [quiet] using h) (by simp [quiet])

theorem acceptEntries_voteStep {args : AppendEntriesArgs n C} {prev : ℕ} {u : Server n C}
    (h : rf.acceptEntries args prev = .ok u) : VoteStep me rf u.quiet := by
  obtain ⟨ci, la, bs, rfl⟩ := acceptEntries_frame h
  exact ⟨⟨rfl, rfl⟩, le_rfl, fun _ _ => rfl, by simp⟩

theorem Reacts.voteStep {x : Input (Act C) (Msg n C)} {r : Outcome n C} (hs : rf.VoteSaved)
    (h : Reacts me rf x r) : VoteStep me rf r := by
  have hu : ∀ t, VoteStep me rf (rf.updateTerm t).1.quiet := updateTerm_voteStep hs
  cases h with
  | pass | resume | matched | commit => exact quiet_of_same hs rfl rfl rfl
  | campaign =>
    refine of_saved rfl (Nat.lt_succ_self _) fun v c T L hg => ?_
    simp only [List.mem_cons, Obs.granted.injEq, reduceCtorEq, List.not_mem_nil, or_false] at hg
    obtain ⟨rfl, rfl, rfl, -⟩ := hg
    exact ⟨rfl, rfl, rfl⟩
  | win | broadcast | emit => exact of_same hs rfl rfl rfl (by simp)
  | brokenBroadcast =>
    exact of_same hs (by simp [hs.1]) (by simp [hs.2]) (by simp) (by simp)
  | start => exact ⟨⟨rfl, rfl⟩, le_rfl, fun _ _ => rfl, by simp⟩
  | crash hp hv =>
    obtain ⟨ht, hv, -⟩ := Saved.ext_iff.mp hv
    exact of_crash (quiet_of_same hs ht hv hp)
  | crashRaised => exact of_crash (hu _)
  | crashNominee => exact of_crash (of_saved rfl (Nat.lt_succ_self _) (by simp))
  | depose h => exact of_saved rfl h (by simp)
  | refuseVote => exact ⟨(hu _).saved, (hu _).term_le, (hu _).kept, by simp⟩
  | @grantVote p args reply ht hv =>
    refine ⟨⟨rfl, rfl⟩, by simp, fun he hne => ?_, fun v c T L h => ?_⟩
    · simp only [persist_currentTerm, updateTerm_currentTerm] at he
      exact ((hv (by omega)).resolve_left hne).symm
    · simp only [List.mem_singleton, Obs.granted.injEq] at h
      obtain ⟨rfl, rfl, rfl, -⟩ := h
      exact ⟨rfl, by simp [ht], rfl⟩
  | countVote => exact of_same hs rfl rfl rfl (by simp)
  | refuseEntries => exact ⟨(hu _).saved, (hu _).term_le, (hu _).kept, by simp⟩
  | accept _ _ _ _ _ ha =>
    have h := (hu _).trans (acceptEntries_voteStep ha)
    exact ⟨h.saved, h.term_le, h.kept, by simp⟩

end Server

/-- Every grant in the history is backed by the state of the voter: its term has reached the term
of the grant and while it is still there its vote is the one granted. -/
structure VotesKept (w : Cluster n C) : Prop where
  saved : ∀ i, (w.node i).VoteSaved
  backed : ∀ v c T L, Obs.granted v c T L ∈ w.trace →
    T ≤ (w.node v).currentTerm ∧ (T = (w.node v).currentTerm → (w.node v).votedFor = some c)
  unique : ∀ v c c' T L L', Obs.granted v c T L ∈ w.trace → Obs.granted v c' T L' ∈ w.trace →
    c = c'

variable {w w' : Cluster n C} {es : List (NetEvent (Fin n) (Act C))}

theorem VotesKept.init : VotesKept (cluster n C).init where
  saved _ := ⟨rfl, rfl⟩
  backed := by simp [Protocol.system]
  unique := by simp [Protocol.system]

theorem VotesKept.put {i : Fin n} {r : Outcome n C} {net : List (Msg n C)} (h : VotesKept w)
    (hv : VoteStep i (w.node i) r) : VotesKept (w.put i net r) := by
  have hback : ∀ v c T L, Obs.granted v c T L ∈ (w.put i net r).trace →
      T ≤ ((w.put i net r).node v).currentTerm ∧
        (T = ((w.put i net r).node v).currentTerm →
          ((w.put i net r).node v).votedFor = some c) := by
    intro v c T L hg
    rcases List.mem_append.mp hg with hg | hg
    · obtain ⟨rfl, rfl, hc⟩ := hv.granted v c T L hg
      rw [World.put_node_self]
      exact ⟨le_rfl, fun _ => hc⟩
    · obtain ⟨hle, hc⟩ := h.backed v c T L hg
      rcases eq_or_ne v i with rfl | hne
      · rw [World.put_node_self]
        refine ⟨hle.trans hv.term_le, fun he => ?_⟩
        have ht : T = (w.node v).currentTerm := le_antisymm hle (he ▸ hv.term_le)
        rw [hv.kept (he ▸ ht) (by simp [hc ht]), hc ht]
      · rw [World.put_node_of_ne hne]
        exact ⟨hle, hc⟩
  refine ⟨World.forall_put hv.saved fun j _ => h.saved j, hback, ?_⟩
  intro v c c' T L L' hg hg'
  rcases List.mem_append.mp hg with hn | ho <;> rcases List.mem_append.mp hg' with hn' | ho'
  · obtain ⟨rfl, rfl, hc⟩ := hv.granted _ _ _ _ hn
    obtain ⟨-, -, hc'⟩ := hv.granted _ _ _ _ hn'
    exact Option.some.inj (hc.symm.trans hc')
  · obtain ⟨rfl, rfl, hc⟩ := hv.granted _ _ _ _ hn
    have := (hback _ _ _ _ hg').2 (by rw [World.put_node_self])
    rw [World.put_node_self, hc] at this
    exact Option.some.inj this
  · obtain ⟨rfl, rfl, hc⟩ := hv.granted _ _ _ _ hn'
    have := (hback _ _ _ _ hg).2 (by rw [World.put_node_self])
    rw [World.put_node_self, hc] at this
    exact (Option.some.inj this).symm
  · exact h.unique v c c' T L L' ho ho'

theorem VotesKept.lose {net : List (Msg n C)} (h : VotesKept w) :
    VotesKept { w with net := net } := ⟨h.saved, h.backed, h.unique⟩

theorem VotesKept.run (hi : VotesKept w) (h : (cluster n C).run w es = some w') : VotesKept w' :=
  Protocol.invariant (fun _ _ hi _ => hi.lose)
    (fun _ i _ _ _ hi hr _ _ => hi.put ((Server.react_reacts hr).voteStep (hi.saved i))) h hi

theorem VotesKept.term_le (hi : VotesKept w) (h : (cluster n C).run w es = some w') (i : Fin n) :
    (w.node i).currentTerm ≤ (w'.node i).currentTerm := by
  refine (Protocol.invariant (I := fun v : Cluster n C => VotesKept v ∧
    (w.node i).currentTerm ≤ (v.node i).currentTerm) ?_ ?_ h ⟨hi, le_rfl⟩).2
  · exact fun v net hv _ => ⟨hv.1.lose, hv.2⟩
  · intro v j x r net hv hr _ _
    have hs := (Server.react_reacts hr).voteStep (hv.1.saved j)
    refine ⟨hv.1.put hs, ?_⟩
    rcases eq_or_ne i j with rfl | hne
    · rw [World.put_node_self]
      exact hv.2.trans hs.term_le
    · rw [World.put_node_of_ne hne]
      exact hv.2

def voters (trace : List (Obs n C)) (c : Fin n) (T : ℕ) : Finset (Fin n) :=
  (trace.filterMap fun
    | .granted v c' T' _ => if c' = c ∧ T' = T then some v else none
    | _ => none).toFinset

omit [Inhabited C] in
theorem mem_voters {trace : List (Obs n C)} {c v : Fin n} {T : ℕ} :
    v ∈ voters trace c T ↔ ∃ L, Obs.granted v c T L ∈ trace := by
  simp only [voters, List.mem_toFinset, List.mem_filterMap]
  constructor
  · rintro ⟨o, ho, hv⟩
    cases o <;> simp only [Option.ite_none_right_eq_some, Option.some.injEq, reduceCtorEq] at hv
    obtain ⟨⟨rfl, rfl⟩, rfl⟩ := hv
    exact ⟨_, ho⟩
  · rintro ⟨L, hL⟩
    exact ⟨_, hL, by simp⟩

/-- Two candidates granted the votes of majorities in one term are the same. -/
theorem VotesKept.majority_unique (hi : VotesKept w) {c c' : Fin n} {T : ℕ}
    (hc : Majority (voters w.trace c T)) (hc' : Majority (voters w.trace c' T)) : c = c' := by
  obtain ⟨v, hv, hv'⟩ := hc.exists_mem_both hc'.half
  obtain ⟨L, hL⟩ := mem_voters.mp hv
  obtain ⟨L', hL'⟩ := mem_voters.mp hv'
  exact hi.unique v c c' T L L' hL hL'

/-- In every run no server votes for two candidates in one term, no term of a server decreases,
and at most one candidate of a term is granted the votes of a majority. -/
theorem vote_uniqueness (h : (cluster n C).run (cluster n C).init es = some w) :
    (∀ v c c' T L L', Obs.granted v c T L ∈ w.trace → Obs.granted v c' T L' ∈ w.trace → c = c') ∧
    (∀ fs w', (cluster n C).run w fs = some w' →
      ∀ i, (w.node i).currentTerm ≤ (w'.node i).currentTerm) ∧
    ∀ T c c', Majority (voters w.trace c T) → Majority (voters w.trace c' T) → c = c' := by
  have hi := VotesKept.init.run h
  exact ⟨hi.unique, fun fs w' hr i => hi.term_le hr i, fun T c c' => hi.majority_unique⟩

def restartedVoter : List (NetEvent (Fin 3) (Act ℕ)) :=
  [.act 0 .electionTimeout, .deliver 0, .deliver 1, .act 1 .restart]

theorem vote_uniqueness_restartedVoter :
    ∃ w, (cluster 3 ℕ).run (cluster 3 ℕ).init restartedVoter = some w ∧
      Majority (voters w.trace 0 1) ∧ ∀ c, Majority (voters w.trace c 1) → c = 0 :=
  have h := (cluster 3 ℕ).run_after (cluster 3 ℕ).init restartedVoter (by decide)
  ⟨_, h, by decide, fun c hc => (vote_uniqueness h).2.2 1 c 0 hc (by decide)⟩

end DistLab.Raft
