import DistLab.Systems.Consensus
import DistLab.Raft.Leadership

/-! # The logs behind the ballots

A candidate stands on the log it has when it opens its candidacy. Its requests
carry the index and the term of the last entry of that log, and a voter grants only
when the log is at least as up to date as its own.
-/

namespace DistLab.Raft

variable {n : ℕ} {C : Type*}

def RequestVoteArgs.StandsOn (args : RequestVoteArgs n) (L : List (LogEntry C)) : Prop :=
  args.lastLogIndex + 1 = L.length ∧ args.lastLogTerm = lastTerm LogEntry.termIdx L

namespace Server

variable {me : Fin n} {rf : Server n C}

theorem upToDate_of_logNewer {args : RequestVoteArgs n} {L : List (LogEntry C)}
    (h : rf.logNewer args = .ok true) (hL : args.StandsOn L) :
    UpToDate LogEntry.termIdx L rf.log := by
  obtain ⟨hlen, hterm⟩ := hL
  unfold logNewer at h
  split at h
  · cases h
  · rename_i e he
    have hlast : lastTerm LogEntry.termIdx rf.log = e.termIdx := by simp [lastTerm, he]
    unfold UpToDate
    rw [hlast, ← hterm]
    split_ifs at h with hlt heq
    · exact Or.inl hlt
    · exact Or.inr ⟨heq.symm, by simpa [hlen] using h⟩
    · simp at h

variable [Inhabited C] {x : Input (Act C) (Msg n C)} {r : Outcome n C}

theorem Reacts.granted (h : Reacts me rf x r) {v c : Fin n} {T : ℕ} {L : List (LogEntry C)}
    (hg : Obs.granted v c T L ∈ r.obs) : v = me ∧ L = rf.log ∧
      (c = me ∧ T = rf.currentTerm + 1 ∨ ∃ p args, x = .recv (.requestVote p args) ∧
        c = args.candidateId ∧ T = args.term ∧ rf.logNewer args = .ok true) := by
  cases h with
  | campaign =>
    simp only [List.mem_cons, Obs.granted.injEq, reduceCtorEq, List.not_mem_nil, or_false] at hg
    obtain ⟨rfl, rfl, rfl, rfl⟩ := hg
    exact ⟨rfl, rfl, Or.inl ⟨rfl, rfl⟩⟩
  | @grantVote p args reply ht hv hn =>
    simp only [List.mem_singleton, Obs.granted.injEq] at hg
    obtain ⟨rfl, rfl, rfl, rfl⟩ := hg
    have hnew : rf.logNewer args = .ok true := by
      unfold logNewer at hn ⊢
      rw [updateTerm_log] at hn
      split at hn
      · cases hn
      · exact hn
    exact ⟨rfl, rfl, Or.inr ⟨p, args, rfl, rfl, rfl, hnew⟩⟩
  | _ => simp at hg

theorem Reacts.requestVote_out (h : Reacts me rf x r) {p : Fin n} {args : RequestVoteArgs n}
    (hp : Msg.requestVote p args ∈ r.out) : p ≠ me ∧ args.candidateId = me ∧
      Obs.granted me me args.term rf.log ∈ r.obs ∧ args.StandsOn rf.log := by
  cases h with
  | campaign he =>
    obtain ⟨q, hq, heq⟩ := List.mem_map.mp hp
    obtain ⟨rfl, rfl⟩ := Msg.requestVote.inj heq
    have hne : rf.log ≠ [] := by
      rintro hnil
      simp [hnil] at he
    refine ⟨mem_peers.mp hq, rfl, by simp, ?_, by simp [lastTerm, he]⟩
    have := List.length_pos_of_ne_nil hne
    dsimp only
    omega
  | _ => simp at hp

theorem Reacts.won (h : Reacts me rf x r) {i : Fin n} {T : ℕ} (hw : Obs.won i T ∈ r.obs) :
    i = me ∧ (∃ args, rf.routine = .elected args ∧ args.term = T) ∧ x = .act .becomeLeader ∧
      r.state.routine.asks = none := by
  cases h with
  | win h =>
    simp only [List.mem_cons, Obs.won.injEq, reduceCtorEq, List.not_mem_nil, or_false] at hw
    obtain ⟨rfl, rfl⟩ := hw
    exact ⟨rfl, ⟨_, h, rfl⟩, rfl, rfl⟩
  | _ => simp at hw

end Server

/-- The ballots of a cluster and the logs they rest on. -/
structure Ballots (w : Cluster n C) : Prop where
  requests : ∀ p args, Msg.requestVote p args ∈ w.net → p ≠ args.candidateId ∧
    ∃ L, Obs.granted args.candidateId args.candidateId args.term L ∈ w.trace ∧ args.StandsOn L
  upToDate : ∀ v c T L, Obs.granted v c T L ∈ w.trace →
    ∃ L', Obs.granted c c T L' ∈ w.trace ∧ UpToDate LogEntry.termIdx L' L
  self : ∀ c T L L', Obs.granted c c T L ∈ w.trace → Obs.granted c c T L' ∈ w.trace → L = L'
  fresh : ∀ i, ∀ t ∈ (w.node i).routine.asks, t ≠ 0 ∧ Obs.won i t ∉ w.trace

namespace Ballots

variable {w : Cluster n C} {i : Fin n} {x : Input (Act C) (Msg n C)} {r : Outcome n C}
  {net : List (Msg n C)}

theorem lose (h : Ballots w) (hn : net ⊆ w.net) : Ballots { w with net := net } :=
  ⟨fun p args hp => h.requests p args (hn hp), h.upToDate, h.self, h.fresh⟩

theorem fresh_new (h : Ballots w) (hc : VotesCounted w)
    (ho : (w.node i).OfficeStep i r) : ∀ t ∈ r.state.routine.asks, t ≠ 0 ∧
      Obs.won i t ∉ w.trace := by
  intro t ht
  cases ho with
  | steady hs => exact h.fresh i t (hs.asks t ht)
  | campaign _ ha =>
    obtain rfl : (w.node i).currentTerm + 1 = t := by simpa [ha] using ht
    refine ⟨Nat.succ_ne_zero _, fun hw => ?_⟩
    have := hc.won_le hw
    omega
  | win _ _ ha => simp [ha, Routine.asks] at ht

variable [Inhabited C]

theorem init : Ballots (cluster n C).init where
  requests := by simp [Protocol.system]
  upToDate := by simp [Protocol.system]
  self := by simp [Protocol.system]
  fresh i t ht := nomatch ht

theorem upToDate_new (h : Ballots w) (hr : (w.node i).Reacts i x r)
    (hf : (raft n C).Feeds w i x) {v c : Fin n} {T : ℕ} {L : List (LogEntry C)}
    (hg : Obs.granted v c T L ∈ r.obs) :
    ∃ L', Obs.granted c c T L' ∈ r.obs ++ w.trace ∧ UpToDate LogEntry.termIdx L' L := by
  obtain ⟨rfl, rfl, ⟨rfl, rfl⟩ | ⟨p, args, rfl, rfl, rfl, hn⟩⟩ := hr.granted hg
  · exact ⟨_, List.mem_append_left _ hg, Or.inr ⟨rfl, le_rfl⟩⟩
  · obtain ⟨-, L', hL', hs⟩ := h.requests p args hf.1
    exact ⟨L', List.mem_append_right _ hL', Server.upToDate_of_logNewer hn hs⟩

theorem self_new (h : Ballots w) (hv : VotesKept w) (hr : (w.node i).Reacts i x r)
    (hf : (raft n C).Feeds w i x) {c : Fin n} {T : ℕ} {L : List (LogEntry C)}
    (hg : Obs.granted c c T L ∈ r.obs) :
    L = (w.node i).log ∧ ∀ L', Obs.granted c c T L' ∉ w.trace := by
  obtain ⟨rfl, rfl, ⟨-, rfl⟩ | ⟨p, args, rfl, hc, rfl, -⟩⟩ := hr.granted hg
  · refine ⟨rfl, fun L' hL' => ?_⟩
    have := (hv.backed _ _ _ _ hL').1
    omega
  · obtain ⟨hne, -⟩ := h.requests p args hf.1
    exact (hne (hf.2.trans hc)).elim

theorem put (h : Ballots w) (hv : VotesKept w) (hc : VotesCounted w)
    (ho : (w.node i).OfficeStep i r) (hr : (w.node i).Reacts i x r)
    (hf : (raft n C).Feeds w i x) (hn : net ⊆ w.net) : Ballots (w.put i net r) := by
  have hsub : w.trace ⊆ r.obs ++ w.trace := List.subset_append_right _ _
  constructor
  case requests =>
    intro p args hp
    rcases World.mem_put_net hn hp with hp | hp
    · obtain ⟨hne, L, hL, hs⟩ := h.requests p args hp
      exact ⟨hne, L, hsub hL, hs⟩
    · obtain ⟨hne, rfl, hg, hs⟩ := hr.requestVote_out hp
      exact ⟨hne, _, List.mem_append_left _ hg, hs⟩
  case upToDate =>
    intro v c T L hg
    rcases List.mem_append.mp hg with hg | hg
    · exact h.upToDate_new hr hf hg
    · obtain ⟨L', hL', hup⟩ := h.upToDate v c T L hg
      exact ⟨L', hsub hL', hup⟩
  case self =>
    intro c T L L' hg hg'
    rcases List.mem_append.mp hg with hg | hg <;> rcases List.mem_append.mp hg' with hg' | hg'
    · exact (h.self_new hv hr hf hg).1.trans (h.self_new hv hr hf hg').1.symm
    · exact ((h.self_new hv hr hf hg).2 L' hg').elim
    · exact ((h.self_new hv hr hf hg').2 L hg).elim
    · exact h.self c T L L' hg hg'
  case fresh =>
    intro j t ht
    have hold : t ≠ 0 ∧ Obs.won j t ∉ w.trace := by
      rcases eq_or_ne j i with rfl | hne
      · rw [World.put_node_self] at ht
        exact h.fresh_new hc ho t ht
      · rw [World.put_node_of_ne hne] at ht
        exact h.fresh j t ht
    refine ⟨hold.1, fun hw => ?_⟩
    rcases List.mem_append.mp hw with hw | hw
    · obtain ⟨rfl, -, -, hnone⟩ := hr.won hw
      rw [World.put_node_self, hnone] at ht
      cases ht
    · exact hold.2 hw

end Ballots

end DistLab.Raft
