import DistLab.MapReduce.Map
import DistLab.Systems.Grouping

/-! # Reduce tasks

A reduce task reads its intermediate files, sorts the pairs by key and calls the reduce
function once for each key. It leaves its output file alone when there are no pairs. A
reduce function that does not look at the order of the values hides how pairs are sorted.
-/

namespace DistLab.MapReduce

section

variable (J : Codec) (sorter : Sorter) (jobName : Str) (reduceTask : ℕ) (outFile : Str)
  (nMap : ℕ) (reduceF : Str → List Str → Str)

/-- The loop over the sorted pairs, with the last group after it. -/
def reduceLoop (curKey : Str) (values : List Str) : List KeyValue → Prog Str Byte Unit
  | [] => Prog.append outFile (J.encode ⟨curKey, reduceF curKey values⟩)
  | kv :: kvs =>
    if curKey = kv.key then reduceLoop curKey (values ++ [kv.value]) kvs
    else do
      Prog.append outFile (J.encode ⟨curKey, reduceF curKey values⟩)
      reduceLoop kv.key [kv.value] kvs

def doReduce : Prog Str Byte Unit := do
  let kvs ← Prog.foldFiles (fun kvs data => kvs ++ J.decode data) []
    ((List.range nMap).map fun i => reduceName jobName i reduceTask)
  match sorter.sort kvs with
  | [] => pure ()
  | kv :: kvs => do
    Prog.create outFile
    reduceLoop J outFile reduceF kv.key [] (kv :: kvs)

def reduced (kvs : List KeyValue) : List KeyValue :=
  match sorter.sort kvs with
  | [] => []
  | kv :: kvs =>
    (groups KeyValue.key KeyValue.value kv.key [] (kv :: kvs)).map fun g => ⟨g.1, reduceF g.1 g.2⟩

def reduceWrites (kvs : List KeyValue) : List (Write Str Byte) :=
  match kvs with
  | [] => []
  | _ => .create outFile :: (reduced sorter reduceF kvs).map fun kv => .append outFile (J.encode kv)

end

variable {J : Codec} {sorter sorter' : Sorter} {jobName : Str} {reduceTask : ℕ} {outFile : Str}
  {nMap : ℕ} {reduceF : Str → List Str → Str} {kvs : List KeyValue} {fs fs' : Files Str Byte}

theorem reduceLoop_eq (curKey : Str) (values : List Str) :
    reduceLoop J outFile reduceF curKey values kvs =
      Prog.writes ((groups KeyValue.key KeyValue.value curKey values kvs).map fun g =>
        .append outFile (J.encode ⟨g.1, reduceF g.1 g.2⟩)) := by
  induction kvs generalizing curKey values with
  | nil => rfl
  | cons kv kvs ih =>
    unfold reduceLoop groups
    split_ifs with h
    · exact ih curKey _
    · rw [ih kv.key]
      rfl

theorem sort_eq_nil : sorter.sort kvs = [] ↔ kvs = [] := by
  constructor
  · intro h
    exact (h ▸ sorter.perm kvs).symm.eq_nil
  · rintro rfl
    exact (sorter.perm []).eq_nil

@[simp] theorem reduced_nil : reduced sorter reduceF [] = [] := by
  simp [reduced, sort_eq_nil.mpr rfl]

theorem doReduce_eq : doReduce J sorter jobName reduceTask outFile nMap reduceF =
    Prog.foldFiles (fun kvs data => kvs ++ J.decode data) []
      ((List.range nMap).map fun i => reduceName jobName i reduceTask) >>= fun kvs =>
        Prog.writes (reduceWrites J sorter outFile reduceF kvs) := by
  unfold doReduce
  congr 1
  funext kvs
  cases hs : sorter.sort kvs with
  | nil =>
    rw [sort_eq_nil.mp hs]
    rfl
  | cons a l =>
    have hne : kvs ≠ [] := fun h => by simp [sort_eq_nil.mpr h] at hs
    obtain ⟨b, l', rfl⟩ := List.exists_cons_of_ne_nil hne
    simp only [reduceLoop_eq, reduceWrites, reduced, hs, List.map_map]
    rfl

variable (sorter reduceF kvs) in
theorem reduced_eq : ∃ keys : List Str, keys.Pairwise (· < ·) ∧
    (∀ k, k ∈ keys ↔ ∃ kv ∈ kvs, kv.key = k) ∧
    reduced sorter reduceF kvs = keys.map fun k =>
      ⟨k, reduceF k (valuesOf KeyValue.key KeyValue.value k (sorter.sort kvs))⟩ := by
  have hmem : ∀ kv, kv ∈ sorter.sort kvs ↔ kv ∈ kvs := fun kv => (sorter.perm kvs).mem_iff
  unfold reduced
  cases hs : sorter.sort kvs with
  | nil => exact ⟨[], .nil, by simp [sort_eq_nil.mp hs], rfl⟩
  | cons a l =>
    have hsorted : (a :: l).Pairwise fun a b => a.key ≤ b.key :=
      hs ▸ (sorter.sorted kvs).imp not_lt.mp
    obtain ⟨keys, hlt, hkeys, heq⟩ := groups_head KeyValue.value hsorted
    refine ⟨keys, hlt, fun k => ?_, ?_⟩
    · simp only [hkeys k, ← hs, hmem]
    · simp only [heq, List.map_map]
      rfl

theorem reduced_congr (hF : ∀ k vs vs', vs.Perm vs' → reduceF k vs = reduceF k vs') :
    reduced sorter reduceF kvs = reduced sorter' reduceF kvs := by
  obtain ⟨keys, hlt, hmem, heq⟩ := reduced_eq sorter reduceF kvs
  obtain ⟨keys', hlt', hmem', heq'⟩ := reduced_eq sorter' reduceF kvs
  obtain rfl : keys = keys' := hlt.eq_of_mem_iff hlt' fun {k} => by rw [hmem, hmem']
  rw [heq, heq']
  refine List.map_congr_left fun k _ => ?_
  rw [hF k _ _ (valuesOf_perm ((sorter.perm kvs).trans (sorter'.perm kvs).symm))]

theorem exists_mem_reduced {k : Str} :
    (∃ kv ∈ reduced sorter reduceF kvs, kv.key = k) ↔ ∃ kv ∈ kvs, kv.key = k := by
  obtain ⟨keys, -, hmem, heq⟩ := reduced_eq sorter reduceF kvs
  rw [← hmem, heq]
  simp

theorem value_of_mem_reduced {kv : KeyValue} (h : kv ∈ reduced sorter reduceF kvs) :
    kv.value =
      reduceF kv.key (valuesOf KeyValue.key KeyValue.value kv.key (sorter.sort kvs)) := by
  obtain ⟨keys, -, -, heq⟩ := reduced_eq sorter reduceF kvs
  rw [heq] at h
  obtain ⟨k, -, rfl⟩ := List.mem_map.mp h
  rfl

theorem name_of_mem_reduceWrites {w : Write Str Byte}
    (hw : w ∈ reduceWrites J sorter outFile reduceF kvs) : w.name = outFile := by
  cases kvs with
  | nil => simp [reduceWrites] at hw
  | cons kv kvs =>
    rcases List.mem_cons.mp hw with rfl | hw
    · rfl
    · obtain ⟨kv, -, rfl⟩ := List.mem_map.mp hw
      rfl

theorem reduceWrites_out (h : kvs ≠ []) :
    Write.applyAll (reduceWrites J sorter outFile reduceF kvs) fs outFile =
      some ((reduced sorter reduceF kvs).flatMap J.encode) := by
  obtain ⟨kv, kvs, rfl⟩ := List.exists_cons_of_ne_nil h
  exact Write.applyAll_create_appends _ _

end DistLab.MapReduce
