import DistLab.MapReduce.Common
import DistLab.Systems.Files

/-! # Map tasks

A map task reads its input file, calls the map function and spreads the pairs over one
intermediate file for each reduce task, chosen by a hash of the key. What a map task
leaves in its files depends on the pairs only, not on what was there before.
-/

namespace DistLab.MapReduce

/-- The 32-bit FNV-1a hash of a string, without its sign bit. -/
def ihash (s : Str) : ℕ :=
  let sum := s.foldl (fun h b => (h ^^^ BitVec.ofNat 32 b) * 16777619#32) 2166136261#32
  (sum &&& 0x7fffffff#32).toNat

section

variable (J : Codec) (path : Str → Str) (jobName : Str) (mapTask : ℕ) (inFile : Str) (nReduce : ℕ)
  (mapF : Str → Str → List KeyValue)

/-- The input is the file that the system finds under its name. -/
def doMap : Prog Str Byte Unit := do
  let content ← Prog.openFile (path inFile)
  let kvs := mapF inFile content
  forM (List.range nReduce) fun i => Prog.create (reduceName jobName mapTask i)
  forM kvs fun kv =>
    -- the division by zero
    if nReduce = 0 then .fail
    else Prog.append (reduceName jobName mapTask (ihash kv.key % nReduce)) (J.encode kv)

def share (reduceTask : ℕ) (kvs : List KeyValue) : List KeyValue :=
  kvs.filter fun kv => ihash kv.key % nReduce = reduceTask

def mapWrites (kvs : List KeyValue) : List (Write Str Byte) :=
  (List.range nReduce).map (fun i => .create (reduceName jobName mapTask i)) ++
    kvs.map fun kv =>
      .append (reduceName jobName mapTask (ihash kv.key % nReduce)) (J.encode kv)

end

variable {J : Codec} {path : Str → Str} {jobName : Str} {mapTask : ℕ} {inFile : Str} {nReduce : ℕ}
  {mapF : Str → Str → List KeyValue} {kvs : List KeyValue} {fs fs' : Files Str Byte} {n : Str}
  {r : ℕ}

theorem share_ne_nil :
    share nReduce r kvs ≠ [] ↔ ∃ kv ∈ kvs, ihash kv.key % nReduce = r := by
  simp [share, List.filter_eq_nil_iff]

theorem doMap_eq (h : 0 < nReduce) : doMap J path jobName mapTask inFile nReduce mapF =
    Prog.openFile (path inFile) >>= fun content =>
      Prog.writes (mapWrites J jobName mapTask nReduce (mapF inFile content)) := by
  unfold doMap mapWrites
  congr 1
  funext content
  simp only [if_neg h.ne']
  exact (congrArg₂ (fun p q : Prog Str Byte Unit => p >>= fun _ => q)
    (Prog.forM_writes _ _) (Prog.forM_writes _ _)).trans Prog.writes_append

theorem run_doMap (h : 0 < nReduce) : (doMap J path jobName mapTask inFile nReduce mapF).run fs =
    (fs (path inFile)).map fun content =>
      ((), Write.applyAll (mapWrites J jobName mapTask nReduce (mapF inFile content)) fs) := by
  rw [doMap_eq h, Prog.run_bind, Prog.run_openFile]
  cases fs (path inFile) with
  | none => rfl
  | some content => exact Prog.run_writes

theorem name_of_mem_mapWrites (h : 0 < nReduce) {w : Write Str Byte}
    (hw : w ∈ mapWrites J jobName mapTask nReduce kvs) :
    ∃ r < nReduce, w.name = reduceName jobName mapTask r := by
  rcases List.mem_append.mp hw with hw | hw
  · obtain ⟨i, hi, rfl⟩ := List.mem_map.mp hw
    exact ⟨i, List.mem_range.mp hi, rfl⟩
  · obtain ⟨kv, -, rfl⟩ := List.mem_map.mp hw
    exact ⟨_, Nat.mod_lt _ h, rfl⟩

theorem mapWrites_other (h : 0 < nReduce)
    (hn : ∀ r < nReduce, n ≠ reduceName jobName mapTask r) :
    Write.applyAll (mapWrites J jobName mapTask nReduce kvs) fs n = fs n := by
  refine Write.applyAll_of_forall_ne fun w hw => ?_
  obtain ⟨r, hr, he⟩ := name_of_mem_mapWrites h hw
  exact he ▸ hn r hr

theorem mapWrites_share (hr : r < nReduce) :
    Write.applyAll (mapWrites J jobName mapTask nReduce kvs) fs (reduceName jobName mapTask r) =
      some ((share nReduce r kvs).flatMap J.encode) := by
  have hcreate := Write.applyAll_create fs
    ((List.range nReduce).map (reduceName jobName mapTask))
    (List.mem_map_of_mem (List.mem_range.mpr hr))
  have happend := Write.applyAll_appends
    (kvs.map fun kv => (reduceName jobName mapTask (ihash kv.key % nReduce), J.encode kv)) hcreate
  simp only [List.map_map, List.filter_map, List.flatMap_map, List.nil_append] at happend
  refine (congrFun Write.applyAll_append _).trans (happend.trans ?_)
  have hshare : kvs.filter ((fun a : Str × Str => decide (a.1 = reduceName jobName mapTask r)) ∘
      fun kv => (reduceName jobName mapTask (ihash kv.key % nReduce), J.encode kv)) =
      share nReduce r kvs := by
    refine List.filter_congr fun kv _ => ?_
    have hinj : reduceName jobName mapTask (ihash kv.key % nReduce) =
        reduceName jobName mapTask r ↔ ihash kv.key % nReduce = r :=
      ⟨fun he => (reduceName_inj he).2, fun he => he ▸ rfl⟩
    simp [hinj]
  rw [hshare]

end DistLab.MapReduce
