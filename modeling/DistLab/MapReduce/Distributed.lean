import DistLab.MapReduce.Schedule
import DistLab.MapReduce.Sequential
import DistLab.Systems.Runs

/-! # Distributed runs

The master runs the scheduler for the map phase, then for the reduce phase, and merges.
Between its steps the calls it has started work on the shared files, one read or write at
a time; a call may fail at any point, having done some of its work. When both phases have
returned, the files are those of a sequential run.
-/

namespace DistLab.MapReduce

inductive JobPhase where
  | mapPhase
  | reducePhase
deriving DecidableEq

structure DoTaskArgs where
  jobName : Str
  file : Str
  phase : JobPhase
  taskNumber : ℕ
  numOtherPhase : ℕ

/-- An outstanding call, with what is left of the work of its worker. -/
structure Call where
  arg : DoTaskArgs
  worker : Str
  prog : Prog Str Byte Unit

/-- How far the master has come. -/
inductive Stage where
  | schedule (phase : JobPhase)
  | merge
deriving DecidableEq

structure Master where
  stage : Stage
  sched : Schedule
  calls : List Call
  files : Files Str Byte

inductive Event where
  | register (worker : Str)
  | work (call : ℕ)
  | result (call : ℕ) (ok : Bool)

namespace Job

variable (J : Codec) (sorters : Str → Sorter) (j : Job)

def doTask (worker : Str) (arg : DoTaskArgs) : Prog Str Byte Unit :=
  match arg.phase with
  | .mapPhase => doMap J j.path arg.jobName arg.taskNumber arg.file arg.numOtherPhase j.mapF
  | .reducePhase =>
    doReduce J (sorters worker) arg.jobName arg.taskNumber
      (mergeName arg.jobName arg.taskNumber) arg.numOtherPhase j.reduceF

def ntasks : JobPhase → ℕ
  | .mapPhase => j.files.length
  | .reducePhase => j.nReduce

def nOther : JobPhase → ℕ
  | .mapPhase => j.nReduce
  | .reducePhase => j.files.length

def inputFile (taskIdx : ℕ) : Str := j.files.getD taskIdx []

def taskArgs (phase : JobPhase) (taskIdx : ℕ) : DoTaskArgs where
  jobName := j.jobName
  file := if phase = .mapPhase then j.inputFile taskIdx else []
  phase := phase
  taskNumber := taskIdx
  numOtherPhase := j.nOther phase

def launch (phase : JobPhase) (task : ℕ × Str) : Call where
  arg := j.taskArgs phase task.1
  worker := task.2
  prog := j.doTask J sorters task.2 (j.taskArgs phase task.1)

/-- Start the call that the scheduler asks for, or go on to the next stage. -/
def advance (m : Master) (phase : JobPhase) (o : Outcome) : Master :=
  if o.returned then
    match phase with
    | .mapPhase =>
      { m with stage := .schedule .reducePhase, sched := .start (j.ntasks .reducePhase) }
    | .reducePhase => { m with stage := .merge, sched := o.sched }
  else { m with
    sched := o.sched
    calls := m.calls ++ o.launched.toList.map (j.launch J sorters phase) }

def masterStep (m : Master) : Event → Option Master
  | .register worker =>
    match m.stage with
    | .schedule phase => some (j.advance J sorters m phase (m.sched.receive (.worker worker)))
    | .merge => none
  | .work k => do
    let c ← m.calls[k]?
    let (prog, files) ← c.prog.step m.files
    some { m with calls := m.calls.set k { c with prog }, files }
  | .result k ok => do
    let c ← m.calls[k]?
    -- only a call that has done its work succeeds; results of an earlier phase are not received
    if m.stage = .schedule c.arg.phase ∧ (ok = true → c.prog.isDone = true) then
      some (j.advance J sorters { m with calls := m.calls.eraseIdx k } c.arg.phase
        (m.sched.receive (.result ⟨ok, c.arg.taskNumber, c.worker⟩)))
    else none

def distributed (fs : Files Str Byte) : System Master Event where
  init :=
    { stage := .schedule .mapPhase
      sched := .start (j.ntasks .mapPhase)
      calls := []
      files := fs }
  step := j.masterStep J sorters

variable {J sorters j} {fs fs' : Files Str Byte} {phase : JobPhase} {T : Tasks Str Byte}
  {m m' : Master} {e : Event} {o : Outcome}

variable (J j) in
def mapTasks (fs : Files Str Byte) : Tasks Str Byte where
  start := fs
  count := j.files.length
  owns t := {n | t < j.files.length ∧ ∃ r < j.nReduce, n = reduceName j.jobName t r}
  ok t := (fs (j.path (j.inputFile t))).isSome
  out t := Write.applyAll (mapWrites J j.jobName t j.nReduce
    (j.mapF (j.inputFile t) ((fs (j.path (j.inputFile t))).getD []))) fs
  lt_count h := h.1
  disjoint := by
    rintro t t' n ⟨-, r, -, rfl⟩ ⟨-, r', -, h⟩
    exact (reduceName_inj h).1

theorem inputFile_mem {t : ℕ} (ht : t < j.files.length) : j.inputFile t ∈ j.files := by
  rw [inputFile, List.getD_eq_getElem?_getD, List.getElem?_eq_getElem ht, Option.getD_some]
  exact List.getElem_mem ht

theorem plan_doMap {t : ℕ} {f : Str} :
    (doMap J j.path j.jobName t f j.nReduce j.mapF).plan fs = match fs (j.path f) with
      | none => (none, [])
      | some content => (some (), mapWrites J j.jobName t j.nReduce (j.mapF f content)) := by
  rw [doMap_eq j.nReduce_pos, Prog.plan_bind, Prog.plan_openFile]
  cases fs (j.path f) with
  | none => rfl
  | some content => simp [Prog.plan_writes]

/-- Every call of a map task leads to the same files, if no task writes its input. -/
theorem leads_doMap (hin : ∀ f ∈ j.files, ∀ t < j.files.length, ∀ r < j.nReduce,
    j.path f ≠ reduceName j.jobName t r) {t : ℕ} (ht : t < j.files.length) :
    (j.mapTasks J fs).Leads t (doMap J j.path j.jobName t (j.inputFile t) j.nReduce j.mapF)
      fs' := by
  have hreads : (doMap J j.path j.jobName t (j.inputFile t) j.nReduce j.mapF).ReadsIn fs
      (j.mapTasks J fs).shared := by
    rw [doMap_eq j.nReduce_pos]
    refine Prog.readsIn_bind (Prog.readsIn_openFile ?_) fun _ => Prog.readsIn_writes
    rintro t' ⟨ht', r, hr, h⟩
    exact hin _ (inputFile_mem ht) t' ht' r hr h
  have hplan : (doMap J j.path j.jobName t (j.inputFile t) j.nReduce j.mapF).plan fs = _ :=
    plan_doMap
  cases hf : fs (j.path (j.inputFile t)) with
  | none =>
    rw [hf] at hplan
    exact .of_fail hreads (by simp [mapTasks, hf]) hplan
  | some content =>
    rw [hf] at hplan
    refine .of_writes hreads (by simp [mapTasks, hf]) hplan
      (fun w hw => ⟨ht, name_of_mem_mapWrites j.nReduce_pos hw⟩) fun n hn => ?_
    obtain ⟨-, r, hr, rfl⟩ := hn
    simp only [mapTasks, hf, Option.getD_some]
    rw [mapWrites_share hr, mapWrites_share hr]

end Job

end DistLab.MapReduce
