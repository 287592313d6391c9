import DistLab.MapReduce.Common
import DistLab.Systems.Queue
import Mathlib.Data.List.Perm.Basic

/-! # The scheduler

One call of `schedule` hands the tasks of a phase to workers. It waits for workers that
register and for the results of the calls it has started, and queues a task again when
its call fails. At every moment each task is in one place: queued, in a call, or done.
-/

namespace DistLab.MapReduce

structure DoTaskResult where
  ok : Bool
  taskIdx : ℕ
  worker : Str

inductive Received where
  | worker (address : Str)
  | result (result : DoTaskResult)

structure Schedule where
  ntasks : ℕ
  doneMap : List ℕ
  doneN : ℕ
  taskQu : HeadQueue ℕ
  idleWorkers : HeadQueue Str

/-- What happens until the scheduler waits again: the call it starts, if any, and whether it
returns. -/
structure Outcome where
  sched : Schedule
  launched : Option (ℕ × Str)
  returned : Bool

namespace Schedule

def start (ntasks : ℕ) : Schedule where
  ntasks := ntasks
  doneMap := []
  doneN := 0
  taskQu := .ofList (List.range ntasks)
  idleWorkers := .ofList []

variable (s : Schedule)

/-- Go on with a worker; the empty address means that there is none. -/
def assign (worker : Str) : Outcome :=
  if worker = [] then ⟨s, none, false⟩
  else match s.taskQu.pop with
    | some (taskIdx, taskQu) => ⟨{ s with taskQu }, some (taskIdx, worker), false⟩
    | none => ⟨{ s with idleWorkers := s.idleWorkers.push worker }, none, false⟩

def markDone (taskIdx : ℕ) : Schedule :=
  { s with doneN := s.doneN + 1, doneMap := taskIdx :: s.doneMap }

def requeue (taskIdx : ℕ) : Schedule := { s with taskQu := s.taskQu.push taskIdx }

def receive : Received → Outcome
  | .worker address => s.assign address
  | .result ⟨true, taskIdx, worker⟩ =>
    if taskIdx ∈ s.doneMap then s.assign worker
    else if (s.markDone taskIdx).doneN = s.ntasks then ⟨s.markDone taskIdx, none, true⟩
    else (s.markDone taskIdx).assign worker
  | .result ⟨false, taskIdx, _⟩ =>
    match s.idleWorkers.pop with
    | some (worker, idleWorkers) => { s.requeue taskIdx with idleWorkers }.assign worker
    | none => ⟨s.requeue taskIdx, none, false⟩

/-- Each task is queued, in an outstanding call or done, and in one place only. -/
structure Conserved (out : List ℕ) : Prop where
  doneN_eq : s.doneN = s.doneMap.length
  perm : (s.taskQu.pending ++ out ++ s.doneMap).Perm (List.range s.ntasks)

variable {s} {out out' : List ℕ} {t : ℕ} {w : Str}

theorem conserved_start (n : ℕ) : (start n).Conserved [] :=
  ⟨rfl, by simp [start]⟩

theorem Conserved.congr (h : s.Conserved out) (hout : out'.Perm out) : s.Conserved out' :=
  ⟨h.doneN_eq, ((hout.append_left _).append_right _).trans h.perm⟩

theorem Conserved.nodup (h : s.Conserved out) :
    (s.taskQu.pending ++ out ++ s.doneMap).Nodup :=
  h.perm.nodup_iff.mpr List.nodup_range

theorem Conserved.lt (h : s.Conserved out) (ht : t ∈ out) : t < s.ntasks :=
  List.mem_range.mp (h.perm.mem_iff.mp (by simp [ht]))

theorem Conserved.notMem (h : s.Conserved out) (ht : t ∈ out) : t ∉ s.doneMap := by
  have hd := List.disjoint_of_nodup_append h.nodup
  exact hd (List.mem_append_right _ ht)

theorem Conserved.complete (h : s.Conserved out) (hn : s.doneN = s.ntasks) :
    s.taskQu.pending = [] ∧ out = [] ∧ ∀ t < s.ntasks, t ∈ s.doneMap := by
  have hlen := h.perm.length_eq
  simp only [List.length_append, List.length_range, ← h.doneN_eq, hn] at hlen
  obtain ⟨hq, hout⟩ : s.taskQu.pending = [] ∧ out = [] := by
    constructor <;> rw [← List.length_eq_zero_iff] <;> omega
  refine ⟨hq, hout, fun t ht => ?_⟩
  have hmem := h.perm.mem_iff.mpr (List.mem_range.mpr ht)
  simpa [hq, hout] using hmem

theorem Conserved.markDone (h : s.Conserved (t :: out)) : (s.markDone t).Conserved out where
  doneN_eq := by simp [Schedule.markDone, h.doneN_eq]
  perm := by
    refine List.Perm.trans ?_ h.perm
    simp only [Schedule.markDone, List.append_assoc, List.cons_append]
    exact List.Perm.append_left _ List.perm_middle

theorem Conserved.requeue (h : s.Conserved (t :: out)) : (s.requeue t).Conserved out := by
  refine ⟨h.doneN_eq, List.Perm.trans ?_ h.perm⟩
  simp [Schedule.requeue]

/-- What the outcome of an event keeps, given the calls outstanding besides the one it may
start and the tasks done. -/
structure Keeps (s : Schedule) (out done : List ℕ) (o : Outcome) : Prop where
  conserved : o.sched.Conserved (o.launched.toList.map Prod.fst ++ out)
  ntasks : o.sched.ntasks = s.ntasks
  doneMap : o.sched.doneMap = done
  returned : o.returned = true → o.sched.doneN = o.sched.ntasks

theorem Conserved.assign (h : s.Conserved out) (w : Str) :
    s.Keeps out s.doneMap (s.assign w) := by
  unfold Schedule.assign
  split_ifs
  · exact ⟨by simpa using h, rfl, rfl, by simp⟩
  · cases hp : s.taskQu.pop with
    | none => exact ⟨⟨h.doneN_eq, by simpa using h.perm⟩, rfl, rfl, by simp⟩
    | some r =>
      have hperm := h.perm
      rw [HeadQueue.pending_of_pop hp] at hperm
      refine ⟨⟨h.doneN_eq, (List.Perm.append_right _ ?_).trans hperm⟩, rfl, rfl, by simp⟩
      simp

theorem Conserved.receive_true (h : s.Conserved (t :: out)) :
    s.Keeps out (t :: s.doneMap) (s.receive (.result ⟨true, t, w⟩)) := by
  simp only [receive, if_neg (h.notMem List.mem_cons_self)]
  split_ifs with hn
  · exact ⟨by simpa using h.markDone, rfl, rfl, fun _ => hn⟩
  · exact ⟨(h.markDone.assign w).conserved, (h.markDone.assign w).ntasks,
      (h.markDone.assign w).doneMap, (h.markDone.assign w).returned⟩

theorem Conserved.receive_false (h : s.Conserved (t :: out)) :
    s.Keeps out s.doneMap (s.receive (.result ⟨false, t, w⟩)) := by
  simp only [receive]
  cases s.idleWorkers.pop with
  | none => exact ⟨by simpa using h.requeue, rfl, rfl, by simp⟩
  | some r =>
    have hidle : ({ s.requeue t with idleWorkers := r.2 } : Schedule).Conserved out :=
      ⟨h.requeue.doneN_eq, h.requeue.perm⟩
    exact ⟨(hidle.assign r.1).conserved, (hidle.assign r.1).ntasks, (hidle.assign r.1).doneMap,
      (hidle.assign r.1).returned⟩

end Schedule

end DistLab.MapReduce
