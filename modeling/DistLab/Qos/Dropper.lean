import DistLab.Systems.Transducer
import Mathlib.Logic.Function.Basic
import Mathlib.Data.Nat.Basic
import Mathlib.Order.Basic

/-! # The dropper

A packet is offered to the RED state of its flow with the length of the flow's simulated
queue. A packet whose time is not that of the packet before it opens a period: all queues
are cleared, but only the RED state of its own flow is told that its queue is empty. What
the RED library answers is part of the input.
-/

namespace DistLab.Qos

abbrev Flow := Fin 4

inductive Color where
  | green
  | yellow
  | red
deriving DecidableEq, Repr

/-- A packet that arrives, with what `rte_red_enqueue` returns for it. -/
structure Packet where
  flowId : Flow
  color : Color
  time : ℕ
  ret : ℤ
deriving DecidableEq, Repr

/-- A call of the library on the RED state of a flow; a configuration is given by its place in
`app_red_config`. -/
inductive RedCall where
  | markQueueEmpty (time : ℕ)
  | enqueue (config : Flow × Color) (q : ℕ) (time : ℕ)
deriving DecidableEq, Repr

structure Dropper where
  queueLen : Flow → ℕ
  lastTime : ℕ

def qosDropperInit : Dropper := ⟨fun _ => 0, 0⟩

def Dropper.answered (d : Dropper) (p : Packet) : Dropper :=
  if p.ret ≠ 0 then d
  else { d with queueLen := Function.update d.queueLen p.flowId (d.queueLen p.flowId + 1) }

/-- The state after a packet, the calls made for it, and whether it is dropped. -/
def qosDropperRun (d : Dropper) (p : Packet) : Dropper × List (Flow × RedCall) × ℕ :=
  let (d, marks) :=
    if p.time ≠ d.lastTime then
      (⟨fun _ => 0, p.time⟩, [(p.flowId, RedCall.markQueueEmpty p.time)])
    else (d, [])
  let enqueue := RedCall.enqueue (p.flowId, p.color) (d.queueLen p.flowId) p.time
  (d.answered p, marks ++ [(p.flowId, enqueue)], if p.ret ≠ 0 then 1 else 0)

def dropper : Transducer Dropper Packet (Flow × RedCall) where
  init := qosDropperInit
  step d p := ((qosDropperRun d p).1, (qosDropperRun d p).2.1)

def redCalls (f : Flow) (ps : List Packet) : List RedCall :=
  (dropper.outputs dropper.init ps).filterMap fun c => if c.1 = f then some c.2 else none

/-- The bursts of the main loop: the packets of a period have one time. -/
def traffic (time : ℕ) : List (List (Flow × Color × ℤ)) → List Packet
  | [] => []
  | burst :: bursts =>
    burst.map (fun x => ⟨x.1, x.2.1, time, x.2.2⟩) ++ traffic (time + 1000000) bursts

theorem le_time_of_mem_traffic {p : Packet} {time : ℕ} {bursts : List (List (Flow × Color × ℤ))}
    (h : p ∈ traffic time bursts) : time ≤ p.time := by
  induction bursts generalizing time with
  | nil => cases h
  | cons burst bursts ih =>
    rcases List.mem_append.mp h with h | h
    · obtain ⟨x, -, rfl⟩ := List.mem_map.mp h
      exact le_rfl
    · have := ih h
      omega

theorem traffic_pairwise (time : ℕ) (bursts : List (List (Flow × Color × ℤ))) :
    (traffic time bursts).Pairwise (·.time ≤ ·.time) := by
  induction bursts generalizing time with
  | nil => exact .nil
  | cons burst bursts ih =>
    rw [traffic, List.pairwise_append]
    refine ⟨?_, ih (time + 1000000), ?_⟩
    · rw [List.pairwise_map]
      exact List.pairwise_of_forall fun _ _ => le_rfl
    · intro p hp q hq
      obtain ⟨x, -, rfl⟩ := List.mem_map.mp hp
      have := le_time_of_mem_traffic hq
      simp only
      omega

section Steps

variable {d : Dropper} {p : Packet} {f : Flow}

@[simp] theorem answered_lastTime : (d.answered p).lastTime = d.lastTime := by
  unfold Dropper.answered
  split <;> rfl

theorem answered_queueLen_self :
    (d.answered p).queueLen p.flowId = if p.ret ≠ 0 then d.queueLen p.flowId
      else d.queueLen p.flowId + 1 := by
  unfold Dropper.answered
  split <;> simp

theorem answered_queueLen_of_ne (h : p.flowId ≠ f) : (d.answered p).queueLen f = d.queueLen f := by
  unfold Dropper.answered
  split
  · rfl
  · simp [Function.update_of_ne (Ne.symm h)]

theorem step_of_ne (h : p.time ≠ d.lastTime) : dropper.step d p =
    ((Dropper.mk (fun _ => 0) p.time).answered p, [(p.flowId, .markQueueEmpty p.time),
      (p.flowId, .enqueue (p.flowId, p.color) 0 p.time)]) := by
  simp [dropper, qosDropperRun, h]

theorem step_of_eq (h : p.time = d.lastTime) : dropper.step d p =
    (d.answered p, [(p.flowId, .enqueue (p.flowId, p.color) (d.queueLen p.flowId) p.time)]) := by
  simp [dropper, qosDropperRun, h]

end Steps

end DistLab.Qos
