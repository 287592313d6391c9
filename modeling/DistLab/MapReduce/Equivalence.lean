import DistLab.MapReduce.Distributed

/-! # Distributed runs refine sequential ones

During a phase the files of finished tasks hold their outputs and every outstanding call
leads to the output of its task. A phase ends without outstanding calls, so the next one
starts from the files of a sequential run. Map tasks must not write the input files.
-/

namespace DistLab.MapReduce.Job

variable {J : Codec} {sorters : Str → Sorter} {sorter : Sorter} {j : Job} {fs fs' : Files Str Byte}
  {phase : JobPhase} {T : Tasks Str Byte} {m m' : Master} {e : Event} {o : Outcome}

/-- The state of the master during a phase. -/
structure Busy (phase : JobPhase) (T : Tasks Str Byte) (m : Master) : Prop where
  stage : m.stage = .schedule phase
  count : m.sched.ntasks = T.count
  conserved : m.sched.Conserved (m.calls.map (·.arg.taskNumber))
  phase : ∀ c ∈ m.calls, c.arg.phase = phase
  holds : T.Holds {t | t ∈ m.sched.doneMap} m.files
  leads : ∀ c ∈ m.calls, T.Leads c.arg.taskNumber c.prog m.files

structure Over (T : Tasks Str Byte) (m : Master) : Prop where
  calls : m.calls = []
  holds : T.Holds {t | t < T.count} m.files

variable (J sorters j) in
/-- Every call that the master may start in the phase leads to the output of its task. -/
def Ready (phase : JobPhase) (T : Tasks Str Byte) : Prop :=
  ∀ t < T.count, ∀ w fs, T.Leads t (j.doTask J sorters w (j.taskArgs phase t)) fs

theorem Busy.nodup (h : Busy phase T m) : (m.calls.map (·.arg.taskNumber)).Nodup :=
  (List.nodup_append.mp (List.nodup_append.mp h.conserved.nodup).1).2.1

theorem Busy.work (h : Busy phase T m) {k : ℕ} {c : Call} {prog : Prog Str Byte Unit}
    (hc : m.calls[k]? = some c) (hstep : c.prog.step m.files = some (prog, fs')) :
    Busy phase T { m with calls := m.calls.set k { c with prog }, files := fs' } := by
  have hmem : c ∈ m.calls := List.mem_of_getElem? hc
  have hk : (m.calls.map (·.arg.taskNumber))[k]? = some c.arg.taskNumber := by simp [hc]
  have hmap : (m.calls.set k { c with prog }).map (·.arg.taskNumber) =
      m.calls.map (·.arg.taskNumber) := by
    obtain ⟨hlt, hget⟩ := List.getElem?_eq_some_iff.mp hk
    rw [List.map_set, ← hget, List.set_getElem_self]
  obtain ⟨hleads, hother⟩ := (h.leads c hmem).step h.holds.shared hstep
  refine ⟨h.stage, h.count, hmap ▸ h.conserved, fun d hd => ?_,
    h.holds.work (h.conserved.notMem (List.mem_map_of_mem hmem)) hother, fun d hd => ?_⟩
  · rcases List.mem_or_eq_of_mem_set hd with hd | rfl
    · exact h.phase d hd
    · exact h.phase c hmem
  · obtain ⟨i, hi⟩ := List.mem_iff_getElem?.mp hd
    rcases eq_or_ne k i with rfl | hne
    · rw [List.getElem?_set_self' , hc] at hi
      obtain rfl := Option.some.inj hi
      exact hleads
    · rw [List.getElem?_set_ne hne] at hi
      refine (h.leads d (List.mem_of_getElem? hi)).congr fun n hn => hother n fun hn' => hne ?_
      have hd' : (m.calls.map (·.arg.taskNumber))[i]? = some d.arg.taskNumber := by simp [hi]
      refine (List.getElem?_inj (List.getElem?_eq_some_iff.mp hk).1 h.nodup).mp ?_
      rw [hk, hd', T.disjoint hn hn']

theorem busy_advance (hready : j.Ready J sorters phase T) {done : List ℕ}
    (hstage : m.stage = .schedule phase) (hcount : m.sched.ntasks = T.count)
    (hkeeps : m.sched.Keeps (m.calls.map (·.arg.taskNumber)) done o)
    (hphase : ∀ c ∈ m.calls, c.arg.phase = phase)
    (hholds : T.Holds {t | t ∈ done} m.files)
    (hleads : ∀ c ∈ m.calls, T.Leads c.arg.taskNumber c.prog m.files) :
    Busy phase T (j.advance J sorters m phase o) ∨ o.returned = true ∧ Over T m := by
  cases hret : o.returned with
  | true =>
    refine Or.inr ⟨rfl, ?_⟩
    obtain ⟨-, hout, hall⟩ := hkeeps.conserved.complete (hkeeps.returned hret)
    rw [hkeeps.ntasks, hcount, hkeeps.doneMap] at hall
    refine ⟨List.map_eq_nil_iff.mp (List.append_eq_nil_iff.mp hout).2, hholds.shared, ?_, ?_⟩
    · exact fun t ht => hholds.ok t (hall t ht)
    · exact fun t ht => hholds.out t (hall t ht)
  | false =>
    refine Or.inl ?_
    have htasks : ∀ t ∈ o.launched, t.1 < T.count := by
      intro t ht
      rw [← hcount, ← hkeeps.ntasks]
      refine hkeeps.conserved.lt (List.mem_append_left _ (List.mem_map_of_mem ?_))
      exact Option.mem_toList.mpr ht
    simp only [Job.advance, hret, Bool.false_eq_true, if_false]
    refine ⟨hstage, hkeeps.ntasks.trans hcount, ?_, ?_, hkeeps.doneMap ▸ hholds, ?_⟩
    · refine hkeeps.conserved.congr ?_
      rw [List.map_append, List.map_map]
      exact List.perm_append_comm
    · simp only [List.mem_append, List.mem_map, Option.mem_toList]
      rintro c (hc | ⟨t, -, rfl⟩)
      · exact hphase c hc
      · rfl
    · simp only [List.mem_append, List.mem_map, Option.mem_toList]
      rintro c (hc | ⟨t, ht, rfl⟩)
      · exact hleads c hc
      · exact hready t.1 (htasks t ht) t.2 m.files

theorem Busy.result (hready : j.Ready J sorters phase T) (h : Busy phase T m) {k : ℕ} {c : Call}
    (hc : m.calls[k]? = some c) {ok : Bool} (hok : ok = true → c.prog.isDone = true) :
    Busy phase T (j.advance J sorters { m with calls := m.calls.eraseIdx k } phase
      (m.sched.receive (.result ⟨ok, c.arg.taskNumber, c.worker⟩))) ∨
    (m.sched.receive (.result ⟨ok, c.arg.taskNumber, c.worker⟩)).returned = true ∧
      Over T { m with calls := m.calls.eraseIdx k } := by
  obtain ⟨hlt, hget⟩ := List.getElem?_eq_some_iff.mp hc
  have hsub : ∀ d ∈ m.calls.eraseIdx k, d ∈ m.calls := fun d hd => List.mem_of_mem_eraseIdx hd
  have hperm : (c.arg.taskNumber :: (m.calls.eraseIdx k).map (·.arg.taskNumber)).Perm
      (m.calls.map (·.arg.taskNumber)) := by
    have := (List.getElem_cons_eraseIdx_perm hlt).map (·.arg.taskNumber)
    rwa [hget] at this
  have hconserved := h.conserved.congr hperm
  cases ok with
  | false =>
    exact busy_advance hready h.stage h.count hconserved.receive_false
      (fun d hd => h.phase d (hsub d hd)) h.holds fun d hd => h.leads d (hsub d hd)
  | true =>
    have hleads := h.leads c (List.mem_of_getElem? hc)
    obtain ⟨⟨⟩, hp⟩ : ∃ u, c.prog = .pure u := by
      cases hp : c.prog <;> simp_all [Prog.isDone]
    rw [hp] at hleads
    have hholds : T.Holds {t | t ∈ c.arg.taskNumber :: m.sched.doneMap} m.files := by
      have hset : {t | t ∈ c.arg.taskNumber :: m.sched.doneMap} =
          insert c.arg.taskNumber {t | t ∈ m.sched.doneMap} := by
        ext t
        simp
      rw [hset]
      exact h.holds.insert hleads.pure.1 (fun _ _ => rfl) hleads.pure.2
    exact busy_advance hready h.stage h.count hconserved.receive_true
      (fun d hd => h.phase d (hsub d hd)) hholds fun d hd => h.leads d (hsub d hd)

theorem Busy.step (hready : j.Ready J sorters phase T) (h : Busy phase T m)
    (hs : j.masterStep J sorters m e = some m') :
    Busy phase T m' ∨
      ∃ m₀ o, m' = j.advance J sorters m₀ phase o ∧ o.returned = true ∧ Over T m₀ := by
  cases e with
  | register w =>
    simp only [masterStep, h.stage, Option.some.injEq] at hs
    subst hs
    refine (busy_advance hready h.stage h.count (h.conserved.assign w) h.phase h.holds
      h.leads).imp_right fun ho => ⟨m, _, rfl, ho⟩
  | work k =>
    simp only [masterStep, Option.bind_eq_bind, Option.bind_eq_some_iff] at hs
    obtain ⟨c, hc, ⟨prog, fs'⟩, hstep, hs⟩ := hs
    obtain rfl := Option.some.inj hs
    exact Or.inl (h.work hc hstep)
  | result k ok =>
    simp only [masterStep, Option.bind_eq_bind, Option.bind_eq_some_iff] at hs
    obtain ⟨c, hc, hs⟩ := hs
    split_ifs at hs with hif
    obtain rfl := Option.some.inj hs
    rw [h.phase c (List.mem_of_getElem? hc)]
    exact (h.result hready hc hif.2).imp_right fun ho => ⟨_, _, rfl, ho⟩

section Runs

variable (hin : ∀ f ∈ j.files, ∀ t < j.files.length, ∀ r < j.nReduce,
    j.path f ≠ reduceName j.jobName t r)
  (hF : ∀ k vs vs', vs.Perm vs' → j.reduceF k vs = j.reduceF k vs')

include hin in
theorem ready_map : j.Ready J sorters .mapPhase (j.mapTasks J fs) :=
  fun _ ht _ _ => leads_doMap hin ht

include hF in
theorem ready_reduce : j.Ready J sorters .reducePhase (j.reduceTasks J sorter fs) :=
  fun _ ht _ _ => leads_reduceTask ht fun _ => reduced_congr hF

variable (J sorter j fs) in
def Reached (m : Master) : Prop :=
  Busy .mapPhase (j.mapTasks J fs) m ∨
  ∃ fs₁, (j.mapTasks J fs).Holds {t | t < j.files.length} fs₁ ∧
    (Busy .reducePhase (j.reduceTasks J sorter fs₁) m ∨
      m.stage = .merge ∧ Over (j.reduceTasks J sorter fs₁) m)

theorem busy_start (phase : JobPhase) (hcount : T.count = j.ntasks phase) (hfiles : fs = T.start) :
    Busy phase T ⟨.schedule phase, .start (j.ntasks phase), [], fs⟩ where
  stage := rfl
  count := hcount.symm
  conserved := Schedule.conserved_start _
  phase := by simp
  holds := by
    subst hfiles
    simpa [Schedule.start] using Tasks.Holds.start
  leads := by simp

include hin hF in
theorem Reached.step (h : j.Reached J sorter fs m) (hs : j.masterStep J sorters m e = some m') :
    j.Reached J sorter fs m' := by
  rcases h with h | ⟨fs₁, hmap, h | ⟨hstage, hover⟩⟩
  · rcases h.step (ready_map hin) hs with h | ⟨m₀, o, rfl, hret, hover⟩
    · exact Or.inl h
    · refine Or.inr ⟨m₀.files, hover.holds, Or.inl ?_⟩
      simp only [Job.advance, hret, if_true, hover.calls]
      exact busy_start _ rfl rfl
  · rcases h.step (ready_reduce hF) hs with h | ⟨m₀, o, rfl, hret, hover⟩
    · exact Or.inr ⟨fs₁, hmap, Or.inl h⟩
    · refine Or.inr ⟨fs₁, hmap, Or.inr ?_⟩
      simp only [Job.advance, hret, if_true]
      exact ⟨trivial, hover.calls, hover.holds⟩
  · cases e <;> simp [masterStep, hstage, hover.calls] at hs

include hin in
/-- The map phase of a sequential run ends in the files that the map tasks determine. -/
theorem mapPhase_eq (h : (j.mapTasks J fs).Holds {t | t < j.files.length} fs') :
    (j.mapPhase J).run fs = some ((), fs') := by
  have hleads : ∀ x ∈ j.files.zipIdx, ∀ gs, (j.mapTasks J fs).Leads x.2 (j.mapTask J x) gs := by
    intro x hx gs
    have hget := List.mem_zipIdx_iff_getElem?.mp hx
    have hfile : j.inputFile x.2 = x.1 := by simp [inputFile, hget]
    rw [mapTask, ← hfile]
    exact leads_doMap hin (List.getElem?_eq_some_iff.mp hget).1
  have hidx : {t | t ∈ j.files.zipIdx.map Prod.snd} = {t | t < j.files.length} := by
    ext t
    simp
  have hok : ∀ x ∈ j.files.zipIdx, (j.mapTasks J fs).ok x.2 := fun x hx =>
    h.ok _ (hidx ▸ List.mem_map_of_mem hx)
  obtain ⟨gs, hrun⟩ := Tasks.exists_run_forM Prod.snd hleads (fun _ _ => rfl) hok
  have hholds := Tasks.Holds.run_forM Prod.snd hleads .start hrun
  rw [hidx, Set.empty_union] at hholds
  rw [hholds.eq h] at hrun
  exact hrun

theorem reducePhase_eq (h : (j.reduceTasks J sorter fs).Holds {r | r < j.nReduce} fs') :
    (j.reducePhase J sorter).run fs = some ((), fs') := by
  have hleads : ∀ r ∈ List.range j.nReduce, ∀ gs,
      (j.reduceTasks J sorter fs).Leads r (j.reduceTask J sorter r) gs :=
    fun r hr gs => leads_reduceTask (List.mem_range.mp hr) fun _ => rfl
  have hok : ∀ r ∈ List.range j.nReduce, (j.reduceTasks J sorter fs).ok r := fun r hr =>
    h.ok r (List.mem_range.mp hr)
  obtain ⟨gs, hrun⟩ := Tasks.exists_run_forM id hleads (fun _ _ => rfl) hok
  have hholds := run_reducePhase hrun
  rw [hholds.eq h] at hrun
  exact hrun

end Runs

/-- When both phases of a distributed run have returned, the files are those at the end of the
two phases of a sequential run, so that the merge has the same result. -/
theorem distributed_eq_sequential
    (hin : ∀ f ∈ j.files, ∀ t < j.files.length, ∀ r < j.nReduce,
      j.path f ≠ reduceName j.jobName t r)
    (hF : ∀ k vs vs', vs.Perm vs' → j.reduceF k vs = j.reduceF k vs') {es : List Event}
    (hrun : (j.distributed J sorters fs).run (j.distributed J sorters fs).init es = some m)
    (hm : m.stage = .merge) :
    (j.phases J sorter).run fs = some ((), m.files) ∧
      (j.sequential J sorter).run fs = (j.merge J).run m.files := by
  have hreached : j.Reached J sorter fs m :=
    System.invariant (fun _ _ _ h hs => h.step hin hF hs) hrun (Or.inl (busy_start _ rfl rfl))
  have hphases : (j.phases J sorter).run fs = some ((), m.files) := by
    rcases hreached with h | ⟨fs₁, hmap, h | ⟨-, hover⟩⟩
    · simp [h.stage] at hm
    · simp [h.stage] at hm
    · exact Prog.run_seq_eq_some.mpr ⟨fs₁, mapPhase_eq hin hmap, reducePhase_eq hover.holds⟩
  refine ⟨hphases, ?_⟩
  rw [sequential, Prog.run_bind, hphases]
  rfl

/-- A run of `letterCount` whose first call fails after it has created one of its files. -/
def oneFailure : List Event :=
  [Event.register (str "u"), .work 0, .work 0, .result 0 false] ++
  Event.register (str "v") :: List.replicate 6 (Event.work 0) ++ [Event.result 0 true] ++
  [Event.register (str "v"), .register (str "w")] ++ List.replicate 3 (Event.work 1) ++
  List.replicate 3 (Event.work 0) ++ [Event.result 0 true, .result 0 true]

theorem oneFailure_merge :
    ((letterCount.distributed escaped (fun _ => insertion) letters).run
      (letterCount.distributed escaped (fun _ => insertion) letters).init oneFailure).map
        (fun m => decide (m.stage = .merge)) = some true := by
  decide +kernel

theorem distributed_eq_sequential_oneFailure : ∃ m,
    (letterCount.distributed escaped (fun _ => insertion) letters).run
      (letterCount.distributed escaped (fun _ => insertion) letters).init oneFailure = some m ∧
    (letterCount.phases escaped insertion).run letters = some ((), m.files) ∧
    (letterCount.sequential escaped insertion).run letters =
      (letterCount.merge escaped).run m.files := by
  obtain ⟨m, hm, hstage⟩ := Option.map_eq_some_iff.mp oneFailure_merge
  exact ⟨m, hm, distributed_eq_sequential (by decide +kernel)
    (fun _ _ _ h => congrArg itoa h.length_eq) hm (of_decide_eq_true hstage)⟩

/-- A job whose input file is the intermediate file of its map task. -/
def overlapping : Job where
  jobName := str "j"
  files := [reduceName (str "j") 0 0]
  nReduce := 1
  mapF _ content := [⟨str "k", if content = [] then str "a" else str "b"⟩]
  reduceF _ values := if str "a" ∈ values then str "a" else str "b"
  nReduce_pos := by decide

def emptyInput : Files Str Byte := fun n => if n = reduceName (str "j") 0 0 then some [] else none

/-- The first call of the map task does all its work and fails. -/
def repeated : List Event :=
  [.register (str "u"), .work 0, .work 0, .work 0, .result 0 false,
    .register (str "v"), .work 0, .work 0, .work 0, .result 0 true,
    .register (str "v"), .work 0, .work 0, .work 0, .result 0 true]

theorem repeated_isSome :
    ((overlapping.distributed escaped (fun _ => insertion) emptyInput).run
      (overlapping.distributed escaped (fun _ => insertion) emptyInput).init repeated).isSome =
        true := by
  decide +kernel

/-- A map task that is run again on its own output emits something else. -/
theorem distributed_differs_repeated :
    (∀ k vs vs', vs.Perm vs' → overlapping.reduceF k vs = overlapping.reduceF k vs') ∧
    ∃ m, (overlapping.distributed escaped (fun _ => insertion) emptyInput).run
        (overlapping.distributed escaped (fun _ => insertion) emptyInput).init repeated = some m ∧
      m.stage = .merge ∧
      ((overlapping.merge escaped).run m.files).map (fun r => r.2 (outputName (str "j"))) =
        some (some (str "k: b\n")) ∧
      ((overlapping.sequential escaped insertion).run emptyInput).map
          (fun r => r.2 (outputName (str "j"))) = some (some (str "k: a\n")) := by
  refine ⟨fun k vs vs' h => ?_, _, System.run_after _ _ _ repeated_isSome, ?_, ?_, ?_⟩
  · simp only [overlapping, h.mem_iff]
  all_goals decide +kernel

end DistLab.MapReduce.Job
