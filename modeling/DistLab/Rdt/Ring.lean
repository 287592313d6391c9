import Mathlib.Algebra.GroupWithZero.Nat
import DistLab.Rdt.Packet
import DistLab.Systems.Runs

/-! # The life of a ring buffer

A ring buffer is created with some capacity, then pushed to, copied from and popped in any
order. What it holds is the queue of the bytes pushed and not yet popped, through every
wrap-around and every growth. Once it has grown, its allocation is a byte short of the ring.
-/

namespace DistLab.Rdt

inductive RingOp where
  | push (data : List Byte)
  | copy (n : ℕ)
  | pop (n : ℕ)

namespace RingOp

def pushed : RingOp → List Byte
  | .push data => data
  | .copy _ => []
  | .pop _ => []

def popped : RingOp → ℕ
  | .push _ => 0
  | .copy _ => 0
  | .pop n => n

/-- The queue of the bytes pushed and not yet popped. -/
def queue (ops : List RingOp) : List Byte :=
  (ops.flatMap pushed).drop (ops.map popped).sum

end RingOp

namespace CircleQueueBuffer

def create (maxBufSize : ℕ) (buf : Block Byte) (h : 0 < maxBufSize) : CircleQueueBuffer where
  maxBufSize := maxBufSize
  allocated := maxBufSize + 1
  buf := buf
  top := 0
  base := 0
  pos := h
  top_le := Nat.zero_le _
  base_le := Nat.zero_le _

variable (q : CircleQueueBuffer)

def step : RingOp → Option CircleQueueBuffer
  | .push data => q.push data
  | .copy n => (q.copy (fun _ => 0) 0 n).map fun _ => q
  | .pop n => some (q.pop n)

def Serves : RingOp → Prop
  | .push _ => True
  | .copy n => n ≤ q.lastSize
  | .pop n => n ≤ q.lastSize

def Fits : RingOp → Prop
  | .push data => q.lastSize + data.length ≤ q.maxBufSize
  | _ => True

instance decidableFits : ∀ op, Decidable (q.Fits op)
  | .push data => inferInstanceAs (Decidable (q.lastSize + data.length ≤ q.maxBufSize))
  | .copy _ => isTrue trivial
  | .pop _ => isTrue trivial

end CircleQueueBuffer

def ringBuffer (maxBufSize : ℕ) (buf : Block Byte) (h : 0 < maxBufSize) :
    System CircleQueueBuffer RingOp where
  init := .create maxBufSize buf h
  step := CircleQueueBuffer.step

section Queue

variable {q q' : CircleQueueBuffer} {op : RingOp} {cap : ℕ} {mem : Block Byte} {hc : 0 < cap}
  {ops : List RingOp}

theorem CircleQueueBuffer.exists_step (h : q.Serves op) :
    ∃ q', q.step op = some q' ∧ op.popped ≤ q.contents.length ∧
      q'.contents = q.contents.drop op.popped ++ op.pushed := by
  cases op with
  | push data =>
    obtain ⟨q', hq, hc⟩ := q.push_spec data
    exact ⟨q', hq, Nat.zero_le _, hc⟩
  | copy n =>
    refine ⟨q, ?_, Nat.zero_le _, by simp [RingOp.pushed, RingOp.popped]⟩
    rw [step, q.copy_eq h, Option.map_some]
  | pop n =>
    refine ⟨q.pop n, rfl, q.length_contents.symm ▸ h, ?_⟩
    rw [q.contents_pop h, RingOp.pushed, List.append_nil, RingOp.popped]

theorem ringBuffer_run (h : (ringBuffer cap mem hc).Meets (fun q => q.Serves) q ops) :
    ∃ q', (ringBuffer cap mem hc).run q ops = some q' ∧
      q'.contents = (q.contents ++ ops.flatMap RingOp.pushed).drop (ops.map RingOp.popped).sum := by
  induction ops generalizing q with
  | nil => exact ⟨q, rfl, by simp⟩
  | cons op ops ih =>
    obtain ⟨u, hu, hle, hcu⟩ := CircleQueueBuffer.exists_step h.1
    obtain ⟨q', hq, hq'⟩ := ih (h.2 u hu)
    refine ⟨q', System.run_cons_eq_some.mpr ⟨u, hu, hq⟩, ?_⟩
    rw [hq', hcu, List.flatMap_cons, List.map_cons, List.sum_cons, ← List.drop_drop,
      List.drop_append_of_le_length hle, List.append_assoc]

theorem ringBuffer_queue
    (h : (ringBuffer cap mem hc).Meets (fun q => q.Serves) (ringBuffer cap mem hc).init ops) :
    ∃ q, (ringBuffer cap mem hc).run (ringBuffer cap mem hc).init ops = some q ∧
      q.contents = RingOp.queue ops := by
  obtain ⟨q, hq, hcon⟩ := ringBuffer_run h
  have hinit : (ringBuffer cap mem hc).init.contents = [] := by
    rw [← List.length_eq_zero_iff, CircleQueueBuffer.length_contents,
      CircleQueueBuffer.lastSize_eq_zero_iff]
    rfl
  rw [hinit, List.nil_append] at hcon
  exact ⟨q, hq, hcon⟩

end Queue

section Allocation

variable {q q' : CircleQueueBuffer} {op : RingOp} {size fuel : ℕ}

namespace CircleQueueBuffer

/-- Once a buffer has grown it is a byte short. -/
theorem allocated_of_enlargeFor (h : enlargeFor size fuel q = some q')
    (ha : q.allocated = q.maxBufSize) : q'.allocated = q'.maxBufSize := by
  induction fuel generalizing q with
  | zero => cases h
  | succ fuel ih =>
    rw [enlargeFor] at h
    split_ifs at h
    · exact ih h rfl
    · exact Option.some.inj h ▸ ha

theorem allocated_of_not_fits (h : q.step op = some q') (hf : ¬ q.Fits op) :
    q'.allocated = q'.maxBufSize := by
  cases op with
  | push data =>
    obtain ⟨u, hu, rfl⟩ := Option.map_eq_some_iff.mp h
    rw [enlargeFor, if_pos (Nat.not_le.mp hf)] at hu
    have hshort : u.allocated = u.maxBufSize := allocated_of_enlargeFor hu rfl
    exact hshort
  | copy n => exact absurd trivial hf
  | pop n => exact absurd trivial hf

theorem step_of_fits (h : q.step op = some q') (hf : q.Fits op) :
    q'.allocated = q.allocated ∧ q'.maxBufSize = q.maxBufSize := by
  cases op with
  | push data =>
    obtain ⟨u, hu, rfl⟩ := Option.map_eq_some_iff.mp h
    rw [enlargeFor, if_neg (Nat.not_lt.mpr hf)] at hu
    obtain rfl := Option.some.inj hu
    exact ⟨rfl, rfl⟩
  | copy n =>
    obtain ⟨-, -, rfl⟩ := Option.map_eq_some_iff.mp h
    exact ⟨rfl, rfl⟩
  | pop n =>
    obtain rfl := Option.some.inj h
    exact ⟨rfl, rfl⟩

end CircleQueueBuffer

end Allocation

end DistLab.Rdt
