import DistLab.MapReduce.Reduce
import DistLab.Systems.Tasks
import Mathlib.Data.List.AList

/-! # Sequential runs

A job runs its map tasks in turn, then its reduce tasks, and merges their outputs. The
merged file has one line for each key that the map function emits, in increasing order,
with the reduce function applied to all the values of the key.
-/

namespace DistLab.MapReduce

/-- A job, with at least one reduce task. The system may find one file under several names. -/
structure Job where
  jobName : Str
  files : List Str
  path : Str → Str := id
  nReduce : ℕ
  mapF : Str → Str → List KeyValue
  reduceF : Str → List Str → Str
  nReduce_pos : 0 < nReduce

namespace Job

variable (J : Codec) (sorter : Sorter) (j : Job)

def mapTask (x : Str × ℕ) : Prog Str Byte Unit :=
  doMap J j.path j.jobName x.2 x.1 j.nReduce j.mapF

def reduceTask (r : ℕ) : Prog Str Byte Unit :=
  doReduce J sorter j.jobName r (mergeName j.jobName r) j.files.length j.reduceF

def mapPhase : Prog Str Byte Unit := forM j.files.zipIdx (j.mapTask J)

def reducePhase : Prog Str Byte Unit := forM (List.range j.nReduce) (j.reduceTask J sorter)

def line (k v : Str) : Str := k ++ str ": " ++ v ++ str "\n"

def upsert (kvs : AList fun _ : Str => Str) (new : List KeyValue) : AList fun _ : Str => Str :=
  new.foldl (fun kvs kv => kvs.insert kv.key kv.value) kvs

def merge : Prog Str Byte Unit := do
  let kvs ← Prog.foldFiles (fun kvs data => upsert kvs (J.decode data)) ∅
    ((List.range j.nReduce).map (mergeName j.jobName))
  let keys := kvs.keys.insertionSort (· ≤ ·)
  Prog.create (outputName j.jobName)
  forM keys fun k => Prog.append (outputName j.jobName) (line k ((kvs.lookup k).getD []))

def phases : Prog Str Byte Unit := do
  j.mapPhase J
  j.reducePhase J sorter

def sequential : Prog Str Byte Unit := do
  j.phases J sorter
  j.merge J

/-- What the map function emits in each of the tasks, on the content that the task reads. -/
def emits : List (Str × ℕ) → Files Str Byte → List (List KeyValue)
  | [], _ => []
  | x :: xs, fs =>
    let kvs := j.mapF x.1 ((fs (j.path x.1)).getD [])
    kvs :: emits xs (Write.applyAll (mapWrites J j.jobName x.2 j.nReduce kvs) fs)

def emitted (fs : Files Str Byte) : List KeyValue := (j.emits J j.files.zipIdx fs).flatten

variable {J sorter j} {fs fs' : Files Str Byte} {xs : List (Str × ℕ)} {n : Str} {r : ℕ}

theorem emits_eq
    (h : ∀ x ∈ xs, ∀ y ∈ xs, ∀ r < j.nReduce, j.path x.1 ≠ reduceName j.jobName y.2 r) :
    j.emits J xs fs = xs.map fun x => j.mapF x.1 ((fs (j.path x.1)).getD []) := by
  induction xs generalizing fs with
  | nil => rfl
  | cons x xs ih =>
    rw [emits, ih fun y hy z hz => h y (List.mem_cons_of_mem _ hy) z (List.mem_cons_of_mem _ hz),
      List.map_cons]
    congr 1
    refine List.map_congr_left fun y hy => ?_
    rw [mapWrites_other j.nReduce_pos (h y (List.mem_cons_of_mem _ hy) x List.mem_cons_self)]

theorem run_mapTasks (hx : (xs.map Prod.snd).Nodup)
    (h : (forM xs (j.mapTask J)).run fs = some ((), fs')) :
    (∀ r < j.nReduce, xs.map (fun x => fs' (reduceName j.jobName x.2 r)) =
      (j.emits J xs fs).map fun kvs => some ((share j.nReduce r kvs).flatMap J.encode)) ∧
    ∀ n, (∀ x ∈ xs, ∀ r < j.nReduce, n ≠ reduceName j.jobName x.2 r) → fs' n = fs n := by
  induction xs generalizing fs with
  | nil =>
    obtain rfl : fs = fs' := (Prod.mk.inj (Option.some.inj h)).2
    exact ⟨fun _ _ => rfl, fun _ _ => rfl⟩
  | cons x xs ih =>
    rw [List.map_cons, List.nodup_cons] at hx
    rw [List.forM_cons, Prog.run_seq_eq_some] at h
    obtain ⟨gs, hread, hrun⟩ := h
    rw [mapTask, run_doMap j.nReduce_pos] at hread
    obtain ⟨content, hc, he⟩ := Option.map_eq_some_iff.mp hread
    obtain rfl := (Prod.mk.inj he).2
    obtain ⟨hshare, hother⟩ := ih hx.2 hrun
    constructor
    · intro r hr
      have hhead : fs' (reduceName j.jobName x.2 r) =
          some ((share j.nReduce r (j.mapF x.1 content)).flatMap J.encode) := by
        rw [hother, mapWrites_share hr]
        intro y hy r' _ hn
        exact hx.1 ((reduceName_inj hn).1 ▸ List.mem_map_of_mem hy)
      simp only [List.map_cons, emits, hc, Option.getD_some, hhead, ← hshare r hr]
    · intro n hn
      rw [List.forall_mem_cons] at hn
      rw [hother n hn.2, mapWrites_other j.nReduce_pos hn.1]

section Reducing

variable (J j) in
def pairs (fs : Files Str Byte) (r : ℕ) : Option (List KeyValue) :=
  (((List.range j.files.length).map fun i => reduceName j.jobName i r).mapM fs).map
    (·.flatMap J.decode)

variable (J sorter j) in
def reduceTasks (fs : Files Str Byte) : Tasks Str Byte where
  start := fs
  count := j.nReduce
  owns r := {n | r < j.nReduce ∧ n = mergeName j.jobName r ∧ j.pairs J fs r ≠ some []}
  ok r := (j.pairs J fs r).isSome
  out r _ := some ((reduced sorter j.reduceF ((j.pairs J fs r).getD [])).flatMap J.encode)
  lt_count h := h.1
  disjoint h h' := mergeName_inj (h.2.1.symm.trans h'.2.1)

theorem plan_reduceTask : (j.reduceTask J sorter r).plan fs = match j.pairs J fs r with
    | none => (none, [])
    | some kvs => (some (), reduceWrites J sorter (mergeName j.jobName r) j.reduceF kvs) := by
  rw [reduceTask, doReduce_eq, Prog.plan_bind, Prog.plan_foldFiles, pairs]
  cases ((List.range j.files.length).map fun i => reduceName j.jobName i r).mapM fs with
  | none => rfl
  | some cs => simp [Prog.plan_writes, List.foldl_append_eq_append, List.flatMap_def]

theorem leads_reduceTask {sorter' : Sorter} (hr : r < j.nReduce)
    (hF : ∀ kvs, reduced sorter' j.reduceF kvs = reduced sorter j.reduceF kvs) :
    (j.reduceTasks J sorter fs).Leads r (j.reduceTask J sorter' r) fs' := by
  have hreads : (j.reduceTask J sorter' r).ReadsIn fs (j.reduceTasks J sorter fs).shared := by
    rw [reduceTask, doReduce_eq]
    refine Prog.readsIn_bind (Prog.readsIn_foldFiles fun n hn t ht => ?_)
      fun _ => Prog.readsIn_writes
    obtain ⟨i, -, rfl⟩ := List.mem_map.mp hn
    exact reduceName_ne_mergeName ht.2.1
  have hplan : (j.reduceTask J sorter' r).plan fs = _ := plan_reduceTask
  cases hp : j.pairs J fs r with
  | none =>
    rw [hp] at hplan
    exact .of_fail hreads (by simp [reduceTasks, hp]) hplan
  | some kvs =>
    rw [hp] at hplan
    refine .of_writes hreads (by simp [reduceTasks, hp]) hplan (fun w hw => ?_) fun n hn => ?_
    · refine ⟨hr, name_of_mem_reduceWrites hw, ?_⟩
      rw [hp]
      rintro ⟨⟩
      simp [reduceWrites] at hw
    · obtain ⟨-, rfl, hne⟩ := hn
      rw [reduceWrites_out fun h => hne (h ▸ hp), hF]
      simp [reduceTasks, hp]

theorem run_reducePhase (h : (j.reducePhase J sorter).run fs = some ((), fs')) :
    (j.reduceTasks J sorter fs).Holds {r | r < j.nReduce} fs' := by
  have hholds := Tasks.Holds.run_forM (T := j.reduceTasks J sorter fs) id
    (fun r hr gs => leads_reduceTask (List.mem_range.mp hr) fun _ => rfl) .start h
  simpa using hholds

end Reducing

theorem map_snd_zipIdx : j.files.zipIdx.map Prod.snd = List.range j.files.length := by
  simp [List.range_eq_range']

theorem share_flatten {kvss : List (List KeyValue)} :
    (kvss.map (share j.nReduce r)).flatten = share j.nReduce r kvss.flatten :=
  List.filter_flatten.symm

variable (J j) in
/-- What a reduce task reads of its share of the emitted pairs. -/
def received (fs : Files Str Byte) (r : ℕ) : List KeyValue :=
  (j.emits J j.files.zipIdx fs).flatMap fun kvs =>
    J.decode ((share j.nReduce r kvs).flatMap J.encode)

theorem received_eq (hJ : J.Exact) :
    j.received J fs r = share j.nReduce r (j.emitted J fs) := by
  simp only [received, hJ _]
  rw [List.flatMap_def, share_flatten, emitted]

theorem received_eq_nil : j.received J fs r = [] ↔ share j.nReduce r (j.emitted J fs) = [] := by
  have hnil : ∀ kvs : List KeyValue, J.decode (kvs.flatMap J.encode) = [] ↔ kvs = [] := by
    intro kvs
    rw [← List.length_eq_zero_iff, J.length_decode, List.length_eq_zero_iff]
  simp only [received, emitted, ← share_flatten, List.flatMap_eq_nil_iff, List.flatten_eq_nil_iff,
    List.forall_mem_map, hnil]

theorem pairs_mapPhase (h : (j.mapPhase J).run fs = some ((), fs')) (hr : r < j.nReduce) :
    j.pairs J fs' r = some (j.received J fs r) := by
  have hnodup : (j.files.zipIdx.map Prod.snd).Nodup := map_snd_zipIdx ▸ List.nodup_range
  have hshare := (run_mapTasks hnodup h).1 r hr
  have hread : ((List.range j.files.length).map fun i => reduceName j.jobName i r).mapM fs' =
      some ((j.emits J j.files.zipIdx fs).map fun kvs =>
        (share j.nReduce r kvs).flatMap J.encode) := by
    rw [mapM_eq_some, ← map_snd_zipIdx, List.map_map, List.map_map, List.map_map]
    exact hshare
  rw [pairs, hread, Option.map_some, List.flatMap_map]
  rfl

theorem mapPhase_mergeName (h : (j.mapPhase J).run fs = some ((), fs')) :
    fs' (mergeName j.jobName r) = fs (mergeName j.jobName r) := by
  have hnodup : (j.files.zipIdx.map Prod.snd).Nodup := map_snd_zipIdx ▸ List.nodup_range
  exact (run_mapTasks hnodup h).2 _ fun x _ _ _ he => reduceName_ne_mergeName he.symm

section Merging

variable {f : Str → Str} {kvs : AList fun _ : Str => Str} {new : List KeyValue} {k : Str}

theorem mem_upsert : k ∈ upsert kvs new ↔ k ∈ kvs ∨ ∃ kv ∈ new, kv.key = k := by
  induction new generalizing kvs with
  | nil => simp [upsert]
  | cons kv new ih =>
    refine ih.trans ?_
    rw [AList.mem_insert, List.exists_mem_cons_iff, eq_comm]
    tauto

theorem lookup_upsert (hkvs : ∀ k v, kvs.lookup k = some v → v = f k)
    (hnew : ∀ kv ∈ new, kv.value = f kv.key) {v : Str} (h : (upsert kvs new).lookup k = some v) :
    v = f k := by
  induction new generalizing kvs with
  | nil => exact hkvs k v h
  | cons kv new ih =>
    rw [List.forall_mem_cons] at hnew
    refine ih (fun k' v' h' => ?_) hnew.2 h
    by_cases hk : k' = kv.key
    · subst hk
      rw [AList.lookup_insert] at h'
      exact (Option.some.inj h').symm.trans hnew.1
    · rw [AList.lookup_insert_ne hk] at h'
      exact hkvs k' v' h'

variable (j) in
def mergeWrites (kvs : AList fun _ : Str => Str) : List (Write Str Byte) :=
  .create (outputName j.jobName) :: (kvs.keys.insertionSort (· ≤ ·)).map fun k =>
    .append (outputName j.jobName) (line k ((kvs.lookup k).getD []))

theorem merge_eq : j.merge J =
    Prog.foldFiles (fun kvs data => upsert kvs (J.decode data)) ∅
      ((List.range j.nReduce).map (mergeName j.jobName)) >>= fun kvs =>
        Prog.writes (j.mergeWrites kvs) := by
  unfold merge mergeWrites
  congr 1
  funext kvs
  exact congrArg (Prog.write _) (Prog.forM_writes _ _)

theorem run_merge (hJ : J.Exact) (hf : ∀ kv ∈ new, kv.value = f kv.key)
    {outs : List (List KeyValue)} (houts : outs.flatten = new)
    (hread : (List.range j.nReduce).map (fun r => fs (mergeName j.jobName r)) =
      outs.map fun kvs => some (kvs.flatMap J.encode))
    (h : (j.merge J).run fs = some ((), fs')) :
    ∃ keys : List Str, keys.Pairwise (· < ·) ∧ (∀ k, k ∈ keys ↔ ∃ kv ∈ new, kv.key = k) ∧
      fs' (outputName j.jobName) = some (keys.flatMap fun k => line k (f k)) := by
  have hm : ((List.range j.nReduce).map (mergeName j.jobName)).mapM fs =
      some (outs.map (·.flatMap J.encode)) := by
    rw [mapM_eq_some, List.map_map, List.map_map]
    exact hread
  have hfold : (outs.map (·.flatMap J.encode)).foldl
      (fun kvs data => upsert kvs (J.decode data)) ∅ = upsert ∅ new := by
    simp only [List.foldl_map, hJ _, ← houts, upsert, List.foldl_flatten]
  rw [merge_eq, Prog.run_bind, Prog.run_foldFiles, hm, Option.map_some, Option.bind_some, hfold,
    Prog.run_writes] at h
  obtain rfl := (Prod.mk.inj (Option.some.inj h)).2
  have hmem : ∀ k, k ∈ (upsert ∅ new).keys.insertionSort (· ≤ ·) ↔ ∃ kv ∈ new, kv.key = k := by
    intro k
    rw [List.mem_insertionSort, ← AList.mem_keys, mem_upsert]
    simp
  refine ⟨(upsert ∅ new).keys.insertionSort (· ≤ ·), ?_, hmem, ?_⟩
  · have hnodup := (List.perm_insertionSort (· ≤ ·) (upsert ∅ new).keys).nodup_iff.mpr
      (upsert ∅ new).keys_nodup
    exact ((List.pairwise_insertionSort _ _).sortedLE.sortedLT_of_nodup hnodup).pairwise
  · refine (Write.applyAll_create_appends _ _).trans (congrArg some ?_)
    refine List.flatMap_congr fun k hk => ?_
    rw [List.mem_insertionSort, ← AList.mem_keys, ← AList.lookup_isSome] at hk
    obtain ⟨v, hv⟩ := Option.isSome_iff_exists.mp hk
    rw [hv, Option.getD_some, lookup_upsert (by simp) hf hv]

theorem exists_of_run_merge {u : Unit} (h : (j.merge J).run fs = some (u, fs'))
    (hr : r < j.nReduce) : fs (mergeName j.jobName r) ≠ none := by
  intro hn
  rw [merge_eq, Prog.run_bind, Prog.run_foldFiles] at h
  obtain ⟨r', hread, -⟩ := Option.bind_eq_some_iff.mp h
  obtain ⟨cs, hcs, -⟩ := Option.map_eq_some_iff.mp hread
  rw [mapM_eq_some, List.map_map] at hcs
  have hmem : (none : Option Str) ∈ cs.map some :=
    hcs ▸ List.mem_map.mpr ⟨r, List.mem_range.mpr hr, hn⟩
  simp at hmem

theorem run_merge_isSome : ((j.merge J).run fs).isSome = true ↔
    ∀ r < j.nReduce, (fs (mergeName j.jobName r)).isSome = true := by
  constructor
  · intro h r hr
    rw [← Option.ne_none_iff_isSome]
    obtain ⟨⟨u, gs⟩, hrun⟩ := Option.isSome_iff_exists.mp h
    exact exists_of_run_merge hrun hr
  · intro h
    have hread : ((List.range j.nReduce).map (mergeName j.jobName)).mapM fs =
        some ((List.range j.nReduce).map fun r => (fs (mergeName j.jobName r)).getD []) := by
      rw [mapM_eq_some, List.map_map, List.map_map]
      refine List.map_congr_left fun r hr => ?_
      obtain ⟨data, hd⟩ := Option.isSome_iff_exists.mp (h r (List.mem_range.mp hr))
      simp [hd]
    rw [merge_eq, Prog.run_bind, Prog.run_foldFiles, hread, Option.map_some, Option.bind_some,
      Prog.run_writes, Option.isSome_some]

end Merging

/-- After the two phases a reduce output holds the reduction of its pairs, or what it held before
when there are none. -/
theorem phases_output {fs₁ fs₂ : Files Str Byte} (hmap : (j.mapPhase J).run fs = some ((), fs₁))
    (hreduce : (j.reducePhase J sorter).run fs₁ = some ((), fs₂)) (hr : r < j.nReduce) :
    fs₂ (mergeName j.jobName r) =
      if j.received J fs r = [] then fs (mergeName j.jobName r)
      else some ((reduced sorter j.reduceF (j.received J fs r)).flatMap J.encode) := by
  have hholds := run_reducePhase hreduce
  have hpairs := pairs_mapPhase hmap hr
  split_ifs with hnil
  · have hshared : mergeName j.jobName r ∈ (j.reduceTasks J sorter fs₁).shared := by
      rintro t ⟨-, hn, hne⟩
      obtain rfl := mergeName_inj hn
      exact hne (hnil ▸ hpairs)
    exact (hholds.shared _ hshared).trans (mapPhase_mergeName hmap)
  · have howns : mergeName j.jobName r ∈ (j.reduceTasks J sorter fs₁).owns r := by
      refine ⟨hr, rfl, fun he => hnil ?_⟩
      exact Option.some.inj (hpairs.symm.trans he)
    rw [hholds.out r hr _ howns]
    simp [reduceTasks, hpairs]

theorem reduce_outputs (hJ : J.Exact) (hfs : ∀ r < j.nReduce, fs (mergeName j.jobName r) = none)
    {fs₁ fs₂ : Files Str Byte} (hmap : (j.mapPhase J).run fs = some ((), fs₁))
    (hreduce : (j.reducePhase J sorter).run fs₁ = some ((), fs₂))
    (hmerge : (j.merge J).run fs₂ = some ((), fs')) (hr : r < j.nReduce) :
    fs₂ (mergeName j.jobName r) =
      some ((reduced sorter j.reduceF (share j.nReduce r (j.emitted J fs))).flatMap J.encode) := by
  have hout := phases_output hmap hreduce hr
  rw [hfs r hr, received_eq hJ] at hout
  split_ifs at hout
  · exact absurd hout (exists_of_run_merge hmerge hr)
  · exact hout

section Partition

variable (sorter j) (kvs : List KeyValue)

def outputs : List (List KeyValue) :=
  (List.range j.nReduce).map fun r => reduced sorter j.reduceF (share j.nReduce r kvs)

def valuesFor (k : Str) : List Str :=
  valuesOf KeyValue.key KeyValue.value k (sorter.sort (share j.nReduce (ihash k % j.nReduce) kvs))

variable {sorter j kvs} {k : Str}

theorem valuesFor_perm :
    (j.valuesFor sorter kvs k).Perm ((kvs.filter (·.key = k)).map (·.value)) := by
  refine (valuesOf_perm (sorter.perm _)).trans ?_
  rw [share, valuesOf_filter, valuesOf]
  · congr!
  · rintro kv - rfl
    simp

theorem mem_outputs {kv : KeyValue} : kv ∈ (j.outputs sorter kvs).flatten ↔
    ∃ r < j.nReduce, kv ∈ reduced sorter j.reduceF (share j.nReduce r kvs) := by
  simp [outputs, List.mem_flatten, List.mem_range]

theorem value_of_mem_outputs {kv : KeyValue} (h : kv ∈ (j.outputs sorter kvs).flatten) :
    kv.value = j.reduceF kv.key (j.valuesFor sorter kvs kv.key) := by
  obtain ⟨r, -, h⟩ := mem_outputs.mp h
  obtain ⟨e, he, hkey⟩ := exists_mem_reduced.mp ⟨kv, h, rfl⟩
  obtain rfl : ihash e.key % j.nReduce = r := by simpa using (List.mem_filter.mp he).2
  rw [hkey] at h
  exact value_of_mem_reduced h

theorem exists_mem_outputs :
    (∃ kv ∈ (j.outputs sorter kvs).flatten, kv.key = k) ↔ ∃ kv ∈ kvs, kv.key = k := by
  constructor
  · rintro ⟨kv, h, hk⟩
    obtain ⟨r, -, h⟩ := mem_outputs.mp h
    obtain ⟨e, he, hkey⟩ := exists_mem_reduced.mp ⟨kv, h, hk⟩
    exact ⟨e, (List.mem_filter.mp he).1, hkey⟩
  · rintro ⟨e, he, rfl⟩
    have hshare : e ∈ share j.nReduce (ihash e.key % j.nReduce) kvs :=
      List.mem_filter.mpr ⟨he, by simp⟩
    obtain ⟨kv, h, hkey⟩ : ∃ kv ∈ reduced sorter j.reduceF
        (share j.nReduce (ihash e.key % j.nReduce) kvs), kv.key = e.key :=
      exists_mem_reduced.mpr ⟨e, hshare, rfl⟩
    exact ⟨kv, mem_outputs.mpr ⟨_, Nat.mod_lt _ j.nReduce_pos, h⟩, hkey⟩

end Partition

/-- The merged file of a sequential run in a directory without reduce outputs, with the values of a
key in the order in which its reduce task finds them. -/
theorem sequential_lines (hJ : J.Exact) (hfs : ∀ r < j.nReduce, fs (mergeName j.jobName r) = none)
    (h : (j.sequential J sorter).run fs = some ((), fs')) :
    ∃ keys : List Str, keys.Pairwise (· < ·) ∧
      (∀ k, k ∈ keys ↔ ∃ kv ∈ j.emitted J fs, kv.key = k) ∧
      fs' (outputName j.jobName) = some (keys.flatMap fun k =>
        line k (j.reduceF k (j.valuesFor sorter (j.emitted J fs) k))) := by
  obtain ⟨fs₂, hphases, hmerge⟩ := Prog.run_seq_eq_some.mp h
  obtain ⟨fs₁, hmap, hreduce⟩ := Prog.run_seq_eq_some.mp hphases
  have hread : (List.range j.nReduce).map (fun r => fs₂ (mergeName j.jobName r)) =
      (j.outputs sorter (j.emitted J fs)).map fun kvs => some (kvs.flatMap J.encode) := by
    rw [outputs, List.map_map]
    refine List.map_congr_left fun r hr => ?_
    exact reduce_outputs hJ hfs hmap hreduce hmerge (List.mem_range.mp hr)
  obtain ⟨keys, hlt, hkeys, hout⟩ :=
    run_merge hJ (f := fun k => j.reduceF k (j.valuesFor sorter (j.emitted J fs) k))
      (fun kv hkv => value_of_mem_outputs hkv) rfl hread hmerge
  refine ⟨keys, hlt, fun k => ?_, hout⟩
  rw [hkeys, exists_mem_outputs]

/-- A sequential run that ends without a fatal exit, in a directory without reduce outputs,
leaves one line for each emitted key, with the reduction of all its values. -/
theorem sequential_output (hJ : J.Exact)
    (hfs : ∀ r < j.nReduce, fs (mergeName j.jobName r) = none)
    (h : (j.sequential J sorter).run fs = some ((), fs')) :
    ∃ (keys : List Str) (vs : Str → List Str), keys.Pairwise (· < ·) ∧
      (∀ k, k ∈ keys ↔ ∃ kv ∈ j.emitted J fs, kv.key = k) ∧
      (∀ k, (vs k).Perm (((j.emitted J fs).filter (·.key = k)).map (·.value))) ∧
      fs' (outputName j.jobName) = some (keys.flatMap fun k => line k (j.reduceF k (vs k))) := by
  obtain ⟨keys, hlt, hkeys, hout⟩ := sequential_lines hJ hfs h
  exact ⟨keys, j.valuesFor sorter (j.emitted J fs), hlt, hkeys, fun k => valuesFor_perm, hout⟩

/-- A job that counts the letters of one file with two reduce tasks. -/
def letterCount : Job where
  jobName := str "j"
  files := [str "f"]
  nReduce := 2
  mapF _ content := content.map fun b => ⟨[b], str "1"⟩
  reduceF _ values := itoa values.length
  nReduce_pos := by decide

def letters : Files Str Byte := fun n => if n = str "f" then some (str "xyx") else none

theorem letterCount_isSome :
    ((letterCount.sequential escaped insertion).run letters).isSome = true := by
  decide +kernel

theorem sequential_output_letterCount : ∃ fs' : Files Str Byte,
    fs' (outputName letterCount.jobName) = some (str "x: 2\ny: 1\n") ∧
    ∃ (keys : List Str) (vs : Str → List Str), keys.Pairwise (· < ·) ∧
      (∀ k, k ∈ keys ↔ ∃ kv ∈ letterCount.emitted escaped letters, kv.key = k) ∧
      (∀ k, (vs k).Perm
        (((letterCount.emitted escaped letters).filter (·.key = k)).map (·.value))) ∧
      fs' (outputName letterCount.jobName) =
        some (keys.flatMap fun k => line k (letterCount.reduceF k (vs k))) := by
  refine ⟨(((letterCount.sequential escaped insertion).run letters).get letterCount_isSome).2,
    by decide +kernel, ?_⟩
  exact sequential_output escaped_exact (by decide +kernel) (Option.some_get letterCount_isSome).symm

/-- After the two phases every reduce output is the one of this run, and `merge` succeeds, exactly
when every reduce task has a key or finds an empty output file in the directory. -/
theorem outputs_present_iff (h : (j.phases J sorter).run fs = some ((), fs')) :
    ((∀ r < j.nReduce, fs' (mergeName j.jobName r) =
        some ((reduced sorter j.reduceF (j.received J fs r)).flatMap J.encode)) ∧
      ((j.merge J).run fs').isSome = true) ↔
    ∀ r < j.nReduce, (∃ kv ∈ j.emitted J fs, ihash kv.key % j.nReduce = r) ∨
      fs (mergeName j.jobName r) = some [] := by
  obtain ⟨fs₁, hmap, hreduce⟩ := Prog.run_seq_eq_some.mp h
  have hout : ∀ r < j.nReduce, (fs' (mergeName j.jobName r) =
      some ((reduced sorter j.reduceF (j.received J fs r)).flatMap J.encode) ↔
      (∃ kv ∈ j.emitted J fs, ihash kv.key % j.nReduce = r) ∨
        fs (mergeName j.jobName r) = some []) := by
    intro r hr
    rw [phases_output hmap hreduce hr, ← share_ne_nil, ne_eq, ← received_eq_nil (J := J)]
    by_cases hnil : j.received J fs r = []
    · simp [hnil]
    · simp [hnil]
  have hmerge : (∀ r < j.nReduce, fs' (mergeName j.jobName r) =
      some ((reduced sorter j.reduceF (j.received J fs r)).flatMap J.encode)) →
      ((j.merge J).run fs').isSome = true := by
    intro hall
    exact run_merge_isSome.mpr fun r hr => by rw [hall r hr, Option.isSome_some]
  rw [and_iff_left_of_imp hmerge]
  exact forall₂_congr hout

theorem letterCount_phases_isSome :
    ((letterCount.phases escaped insertion).run letters).isSome = true := by
  decide +kernel

theorem outputs_present_letterCount : ∃ fs' : Files Str Byte,
    (letterCount.phases escaped insertion).run letters = some ((), fs') ∧
    ((letterCount.merge escaped).run fs').isSome = true := by
  have h := (Option.some_get letterCount_phases_isSome).symm
  exact ⟨_, h, ((outputs_present_iff h).mpr (by decide +kernel)).2⟩

/-- One letter only, and an output of an earlier run of the reduce task that gets no key. -/
def oneLetter (stale : Option Str) : Files Str Byte := fun n =>
  if n = str "f" then some (str "x")
  else if n = mergeName (str "j") 0 then stale else none

theorem merge_fatal_oneLetter :
    (∃ fs' : Files Str Byte,
      (letterCount.phases escaped insertion).run (oneLetter none) = some ((), fs') ∧
      fs' (mergeName (str "j") 0) = none ∧ ((letterCount.merge escaped).run fs').isSome = false) ∧
    ∃ fs' : Files Str Byte,
      (letterCount.phases escaped insertion).run (oneLetter (some (str "old"))) = some ((), fs') ∧
      share 2 0 (letterCount.emitted escaped (oneLetter (some (str "old")))) = [] ∧
      fs' (mergeName (str "j") 0) = some (str "old") := by
  have h : ((letterCount.phases escaped insertion).run (oneLetter none)).isSome = true := by
    decide +kernel
  have h' : ((letterCount.phases escaped insertion).run
    (oneLetter (some (str "old")))).isSome = true := by decide +kernel
  refine ⟨⟨_, (Option.some_get h).symm, ?_⟩, _, (Option.some_get h').symm, ?_⟩
  · decide +kernel
  · decide +kernel

end Job

end DistLab.MapReduce
