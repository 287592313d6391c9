import DistLab.Qos.Dropper

/-! # Isolation of flows

The calls on the RED state of a flow are those of a queue that sees the packets of the
flow only, except for one thing: the state is told of an empty queue only in the periods
that a packet of the flow opens. Two runs with the same packets of a flow make the same
calls for it if and only if it opens the same periods in both.
-/

namespace DistLab.Qos

variable {f : Flow} {ps qs : List Packet} {opens opens' : ℕ → Prop}

/-- The first packet of the period is one of the flow. The time before all packets is `0`, so a
period at this time is not opened. -/
def Opens (f : Flow) (ps : List Packet) (t : ℕ) : Prop :=
  t ≠ 0 ∧ ∃ p ∈ ps.find? (·.time = t), p.flowId = f

instance decidableOpens (f : Flow) (ps : List Packet) : DecidablePred (Opens f ps) := fun _ =>
  inferInstanceAs (Decidable (_ ∧ _))

/-- The time of the last packet of a flow and the length of its queue after it. -/
structure FlowQueue where
  last : Option ℕ
  len : ℕ

def flowQueue (opens : ℕ → Prop) [DecidablePred opens] : Transducer FlowQueue Packet RedCall where
  init := ⟨none, 0⟩
  step q p :=
    let len := if q.last = some p.time then q.len else 0
    let marks := if q.last ≠ some p.time ∧ opens p.time then [.markQueueEmpty p.time] else []
    (⟨some p.time, if p.ret ≠ 0 then len else len + 1⟩,
      marks ++ [.enqueue (p.flowId, p.color) len p.time])

/-- The state of the dropper and the queue of a flow, with the packets to come. -/
structure Tracks (f : Flow) (opens : ℕ → Prop) (d : Dropper) (q : FlowQueue) (ps : List Packet) :
    Prop where
  sorted : ps.Pairwise (·.time ≤ ·.time)
  lastTime_le : ∀ p ∈ ps, d.lastTime ≤ p.time
  last_le : ∀ t ∈ q.last, t ≤ d.lastTime
  current : q.last = some d.lastTime → d.queueLen f = q.len
  fresh : q.last ≠ some d.lastTime → d.queueLen f = 0 ∧ ¬ opens d.lastTime
  opens_iff : ∀ t, d.lastTime < t → (opens t ↔ Opens f ps t)

theorem opens_cons_of_ne {p : Packet} {t : ℕ} (h : p.time ≠ t) :
    Opens f (p :: ps) t ↔ Opens f ps t := by
  simp [Opens, h]

theorem opens_cons_self {p : Packet} (h : p.time ≠ 0) :
    Opens f (p :: ps) p.time ↔ p.flowId = f := by
  simp [Opens, h]

theorem tracks_init (h : ps.Pairwise (·.time ≤ ·.time)) [DecidablePred opens]
    (ho : ∀ t, opens t ↔ Opens f ps t) :
    Tracks f opens dropper.init (flowQueue opens).init ps where
  sorted := h
  lastTime_le p _ := Nat.zero_le _
  last_le t ht := by cases ht
  current h := by cases h
  fresh _ := ⟨rfl, fun h => ((ho 0).mp h).1 rfl⟩
  opens_iff t _ := ho t

namespace Tracks

variable {d : Dropper} {q : FlowQueue} {p : Packet}

theorem opens_tail (h : Tracks f opens d q (p :: ps)) (t : ℕ) (ht : p.time < t) :
    opens t ↔ Opens f ps t := by
  have hle := h.lastTime_le p List.mem_cons_self
  rw [h.opens_iff t (hle.trans_lt ht), opens_cons_of_ne ht.ne]

theorem next (h : Tracks f opens d q (p :: ps)) {d' : Dropper} {q' : FlowQueue}
    (ht : d'.lastTime = p.time) (hlast : ∀ t ∈ q'.last, t ≤ p.time)
    (hcurrent : q'.last = some p.time → d'.queueLen f = q'.len)
    (hfresh : q'.last ≠ some p.time → d'.queueLen f = 0 ∧ ¬ opens p.time) :
    Tracks f opens d' q' ps where
  sorted := (List.pairwise_cons.mp h.sorted).2
  lastTime_le := ht ▸ (List.pairwise_cons.mp h.sorted).1
  last_le := ht ▸ hlast
  current := ht ▸ hcurrent
  fresh := ht ▸ hfresh
  opens_iff := ht ▸ h.opens_tail

theorem opens_next (h : Tracks f opens d q (p :: ps)) (ht : p.time ≠ d.lastTime) :
    q.last ≠ some p.time ∧ (opens p.time ↔ p.flowId = f) := by
  have hlt : d.lastTime < p.time :=
    lt_of_le_of_ne (h.lastTime_le p List.mem_cons_self) (Ne.symm ht)
  constructor
  · intro hq
    exact absurd (h.last_le _ hq) (not_le.mpr hlt)
  · rw [h.opens_iff _ hlt, opens_cons_self (Nat.ne_zero_of_lt hlt)]

theorem own [DecidablePred opens] (h : Tracks f opens d q (p :: ps)) (hp : p.flowId = f) :
    (dropper.step d p).2.filterMap (fun c => if c.1 = f then some c.2 else none) =
        ((flowQueue opens).step q p).2 ∧
      Tracks f opens (dropper.step d p).1 ((flowQueue opens).step q p).1 ps := by
  subst hp
  by_cases ht : p.time = d.lastTime
  · have hlen : d.queueLen p.flowId = if q.last = some p.time then q.len else 0 := by
      split
      case isTrue hq => exact h.current (ht ▸ hq)
      case isFalse hq => exact (h.fresh (ht ▸ hq)).1
    have hmarks : ¬ (q.last ≠ some p.time ∧ opens p.time) := by
      rintro ⟨hq, ho⟩
      exact (h.fresh (ht ▸ hq)).2 (ht ▸ ho)
    rw [step_of_eq ht, hlen]
    constructor
    · simp [flowQueue, hmarks]
    · apply h.next
      · rw [answered_lastTime, ht]
      · simp [flowQueue]
      · intro _
        rw [answered_queueLen_self, hlen]
        rfl
      · simp [flowQueue]
  · obtain ⟨hq, ho⟩ := h.opens_next ht
    have ho : opens p.time := ho.mpr rfl
    rw [step_of_ne ht]
    constructor
    · simp [flowQueue, hq, ho]
    · apply h.next
      · rw [answered_lastTime]
      · simp [flowQueue]
      · intro _
        rw [answered_queueLen_self]
        simp [flowQueue, hq]
      · simp [flowQueue]

theorem other (h : Tracks f opens d q (p :: ps)) (hp : p.flowId ≠ f) :
    (dropper.step d p).2.filterMap (fun c => if c.1 = f then some c.2 else none) = [] ∧
      Tracks f opens (dropper.step d p).1 q ps := by
  by_cases ht : p.time = d.lastTime
  · rw [step_of_eq ht]
    constructor
    · simp [hp]
    · apply h.next
      · rw [answered_lastTime, ht]
      · exact ht ▸ h.last_le
      · rw [answered_queueLen_of_ne hp]
        exact ht ▸ h.current
      · rw [answered_queueLen_of_ne hp]
        exact ht ▸ h.fresh
  · obtain ⟨hq, ho⟩ := h.opens_next ht
    rw [step_of_ne ht]
    constructor
    · simp [hp]
    · apply h.next
      · rw [answered_lastTime]
      · intro t htq
        exact (h.last_le t htq).trans (h.lastTime_le p List.mem_cons_self)
      · exact fun hq' => absurd hq' hq
      · intro _
        rw [answered_queueLen_of_ne hp]
        exact ⟨rfl, fun ho' => hp (ho.mp ho')⟩

end Tracks

/-- The calls for a flow depend on its packets and the periods it opens only. -/
theorem redCalls_eq (h : ps.Pairwise (·.time ≤ ·.time)) :
    redCalls f ps = (flowQueue (Opens f ps)).outputs (flowQueue (Opens f ps)).init
      (ps.filter (·.flowId = f)) := by
  have hfollows : dropper.Follows (flowQueue (Opens f ps)) (Option.guard (·.flowId = f))
      (fun c => if c.1 = f then some c.2 else none) (Tracks f (Opens f ps)) := by
    constructor
    · intro d q p ps' k hR hk
      obtain ⟨rfl, hp⟩ := Option.guard_eq_some_iff.mp hk
      exact hR.own (by simpa using hp)
    · intro d q p ps' hR hk
      exact hR.other (by simpa using hk)
  have hout := hfollows.outputs (tracks_init h fun _ => Iff.rfl)
  rw [List.filterMap_eq_filter] at hout
  exact hout

section Compare

variable [DecidablePred opens] [DecidablePred opens'] {q : FlowQueue} {p : Packet}

theorem step_append_eq_iff {cs cs' : List RedCall} :
    ((flowQueue opens).step q p).2 ++ cs = ((flowQueue opens').step q p).2 ++ cs' ↔
      (q.last ≠ some p.time → (opens p.time ↔ opens' p.time)) ∧ cs = cs' := by
  simp only [flowQueue]
  by_cases hq : q.last = some p.time
  · simp [hq]
  · by_cases ho : opens p.time
    · by_cases ho' : opens' p.time
      · simp [hq, ho, ho']
      · simp [hq, ho, ho']
    · by_cases ho' : opens' p.time
      · simp [hq, ho, ho']
      · simp [hq, ho, ho']

/-- Two queues with the same packets make the same calls if and only if they open the same of the
periods that the packets are in. -/
theorem outputs_eq_iff (hs : ps.Pairwise (·.time ≤ ·.time))
    (hq : ∀ p ∈ ps, ∀ t ∈ q.last, t ≤ p.time) :
    (flowQueue opens).outputs q ps = (flowQueue opens').outputs q ps ↔
      ∀ p ∈ ps, q.last ≠ some p.time → (opens p.time ↔ opens' p.time) := by
  induction ps generalizing q with
  | nil => simp [Transducer.outputs]
  | cons p ps ih =>
    rw [List.pairwise_cons] at hs
    have hrest := ih (q := ((flowQueue opens).step q p).1) hs.2 fun p' hp' t ht =>
      Option.some.inj ht ▸ hs.1 p' hp'
    simp only [Transducer.outputs]
    rw [step_append_eq_iff, List.forall_mem_cons]
    refine and_congr_right fun hhead => hrest.trans ?_
    refine forall₂_congr fun p' hp' => ?_
    constructor
    · intro h hne
      by_cases he : p.time = p'.time
      · exact he ▸ hhead (he ▸ hne)
      · exact h fun h' => he (Option.some.inj h')
    · intro h hne
      apply h
      intro hlast
      have hle := hq p List.mem_cons_self _ hlast
      exact hne (congrArg some (le_antisymm (hs.1 p' hp') hle))

end Compare

theorem exists_of_opens {t : ℕ} (h : Opens f ps t) :
    ∃ p ∈ ps.filter (·.flowId = f), p.time = t := by
  obtain ⟨-, p, hp, hf⟩ := h
  have ht : p.time = t := by simpa using List.find?_some hp
  exact ⟨p, List.mem_filter.mpr ⟨List.mem_of_find?_eq_some hp, by simpa using hf⟩, ht⟩

/-- A flow is isolated from the others if and only if they do not change which periods it opens. -/
theorem flow_isolated_iff (hps : ps.Pairwise (·.time ≤ ·.time))
    (hqs : qs.Pairwise (·.time ≤ ·.time))
    (hf : ps.filter (·.flowId = f) = qs.filter (·.flowId = f)) :
    redCalls f ps = redCalls f qs ↔ ∀ t, Opens f ps t ↔ Opens f qs t := by
  rw [redCalls_eq hps, redCalls_eq hqs, ← hf]
  have hown := hps.filter (·.flowId = f)
  refine (outputs_eq_iff (q := ⟨none, 0⟩) hown (by simp)).trans ?_
  constructor
  · intro h t
    constructor
    · intro ho
      obtain ⟨p, hp, rfl⟩ := exists_of_opens ho
      exact (h p hp (by simp)).mp ho
    · intro ho
      obtain ⟨p, hp, rfl⟩ := exists_of_opens ho
      exact (h p (hf ▸ hp) (by simp)).mpr ho
  · exact fun h p _ _ => h p.time

def alone : List Packet := traffic 0 [[], [(0, .green, 0)]]

def accompanied : List Packet := traffic 0 [[(1, .red, 0)], [(0, .green, 0), (1, .red, 1)]]

def preceded : List Packet := traffic 0 [[], [(1, .green, 0), (0, .green, 0)]]

theorem flow_isolated_accompanied : redCalls 0 alone = redCalls 0 accompanied := by
  apply (flow_isolated_iff (traffic_pairwise _ _) (traffic_pairwise _ _) (by decide)).mpr
  intro t
  by_cases ht : t = 1000000
  · subst ht
    decide
  · by_cases ht' : t = 0
    · subst ht'
      decide
    · simp [Opens, traffic, Ne.symm ht, Ne.symm ht']

/-- The RED state of the flow is not told that its queue is empty, as a packet of another flow has
opened the period. -/
theorem flow_not_isolated :
    alone.Pairwise (·.time ≤ ·.time) ∧ preceded.Pairwise (·.time ≤ ·.time) ∧
    alone.filter (·.flowId = 0) = preceded.filter (·.flowId = 0) ∧
    redCalls 0 alone = [.markQueueEmpty 1000000, .enqueue (0, .green) 0 1000000] ∧
    redCalls 0 preceded = [.enqueue (0, .green) 0 1000000] := by
  decide

end DistLab.Qos
