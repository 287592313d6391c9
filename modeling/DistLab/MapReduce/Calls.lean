import DistLab.MapReduce.Schedule
import DistLab.Systems.Runs

/-! # The calls of one schedule

A run of `schedule` with the goroutines it starts: workers register, a call of `DoTask`
returns, and the scheduler receives the result. No task is lost or done twice. Workers
that register once are never given a second task while they have one, and none after a
call to them has failed.
-/

namespace DistLab.MapReduce

/-- A goroutine and its call of `DoTask`, with the result between its return and its receipt. -/
structure TaskCall where
  taskIdx : ℕ
  worker : Str
  ok : Option Bool

inductive TaskEvent where
  | issued (taskIdx : ℕ) (worker : Str)
  | returned (taskIdx : ℕ) (worker : Str) (ok : Bool)
deriving DecidableEq

/-- A run of `schedule`, with the history of its calls, the latest first. -/
structure Session where
  sched : Schedule
  calls : List TaskCall
  returned : Bool
  history : List TaskEvent

inductive SessionEvent where
  | register (address : Str)
  | reply (call : ℕ) (ok : Bool)
  | receive (call : ℕ)

namespace TaskEvent

def success : TaskEvent → Option ℕ
  | .returned taskIdx _ true => some taskIdx
  | _ => none

def issuedTo (worker : Str) : TaskEvent → Bool
  | .issued _ w => w = worker
  | .returned .. => false

def returnedFrom (worker : Str) : TaskEvent → Bool
  | .issued .. => false
  | .returned _ w _ => w = worker

end TaskEvent

namespace Session

def started (o : Outcome) : List TaskCall := o.launched.toList.map fun t => ⟨t.1, t.2, none⟩

def issues (o : Outcome) : List TaskEvent := o.launched.toList.map fun t => .issued t.1 t.2

def proceed (s : Session) (o : Outcome) : Session where
  sched := o.sched
  calls := s.calls ++ started o
  returned := o.returned
  history := issues o ++ s.history

def step (s : Session) : SessionEvent → Option Session
  | .register address =>
    if s.returned then none else some (s.proceed (s.sched.receive (.worker address)))
  | .reply k ok =>
    match s.calls[k]? with
    | some ⟨taskIdx, worker, none⟩ => some { s with
        calls := s.calls.set k ⟨taskIdx, worker, some ok⟩
        history := .returned taskIdx worker ok :: s.history }
    | _ => none
  | .receive k =>
    match s.calls[k]? with
    | some ⟨taskIdx, worker, some ok⟩ =>
      if s.returned then none
      else some (proceed { s with calls := s.calls.eraseIdx k }
        (s.sched.receive (.result ⟨ok, taskIdx, worker⟩)))
    | _ => none

end Session

def session (ntasks : ℕ) : System Session SessionEvent where
  init := ⟨.start ntasks, [], false, []⟩
  step := Session.step

section Conservation

def successes (history : List TaskEvent) : List ℕ := history.filterMap TaskEvent.success

def pendingSuccesses (calls : List TaskCall) : List ℕ :=
  (calls.filter fun c => c.ok = some true).map TaskCall.taskIdx

/-- Each task in one place, and every success received or about to be. -/
structure Session.Balanced (n : ℕ) (s : Session) : Prop where
  ntasks : s.sched.ntasks = n
  conserved : s.sched.Conserved (s.calls.map TaskCall.taskIdx)
  successes : (successes s.history).Perm (s.sched.doneMap ++ pendingSuccesses s.calls)
  complete : s.returned = true → s.sched.doneN = s.sched.ntasks

variable {n : ℕ} {s s' : Session} {e : SessionEvent} {o : Outcome} {done : List ℕ}

@[simp] theorem started_map_taskIdx :
    (Session.started o).map TaskCall.taskIdx = o.launched.toList.map Prod.fst := by
  simp [Session.started]

@[simp] theorem pendingSuccesses_started : pendingSuccesses (Session.started o) = [] := by
  unfold pendingSuccesses Session.started
  cases o.launched <;> rfl

@[simp] theorem successes_issues : successes (Session.issues o) = [] := by
  simp [successes, Session.issues, List.filterMap_map, Function.comp_def, TaskEvent.success]

theorem pendingSuccesses_append {l l' : List TaskCall} :
    pendingSuccesses (l ++ l') = pendingSuccesses l ++ pendingSuccesses l' := by
  simp [pendingSuccesses]

theorem successes_append {l l' : List TaskEvent} :
    successes (l ++ l') = successes l ++ successes l' :=
  List.filterMap_append

theorem Session.Balanced.proceed (hn : s.sched.ntasks = n)
    (hk : s.sched.Keeps (s.calls.map TaskCall.taskIdx) done o)
    (hs : (DistLab.MapReduce.successes s.history).Perm (done ++ pendingSuccesses s.calls)) :
    (s.proceed o).Balanced n where
  ntasks := hk.ntasks.trans hn
  conserved := by
    refine hk.conserved.congr ?_
    simp only [Session.proceed, List.map_append, started_map_taskIdx]
    exact List.perm_append_comm
  successes := by
    simpa [Session.proceed, successes_append, pendingSuccesses_append, hk.doneMap] using hs
  complete := hk.returned

theorem Session.Balanced.register (h : s.Balanced n) (w : Str) :
    (s.proceed (s.sched.receive (.worker w))).Balanced n :=
  .proceed h.ntasks (h.conserved.assign w) h.successes

theorem perm_cons_eraseIdx {α : Type*} {l : List α} {k : ℕ} {a : α} (h : l[k]? = some a) :
    (a :: l.eraseIdx k).Perm l := by
  obtain ⟨hk, rfl⟩ := List.getElem?_eq_some_iff.mp h
  exact List.getElem_cons_eraseIdx_perm hk

theorem Session.Balanced.receive {k t : ℕ} {w : Str} {ok : Bool} (h : s.Balanced n)
    (hk : s.calls[k]? = some ⟨t, w, some ok⟩) :
    (Session.proceed { s with calls := s.calls.eraseIdx k }
      (s.sched.receive (.result ⟨ok, t, w⟩))).Balanced n := by
  have hperm := perm_cons_eraseIdx hk
  have hcons : s.sched.Conserved (t :: (s.calls.eraseIdx k).map TaskCall.taskIdx) :=
    h.conserved.congr (hperm.map TaskCall.taskIdx)
  have hsucc := h.successes.trans
    (((hperm.filter fun c => c.ok = some true).map TaskCall.taskIdx).symm.append_left _)
  cases ok with
  | true =>
    refine .proceed h.ntasks hcons.receive_true (hsucc.trans ?_)
    simp [pendingSuccesses]
  | false =>
    refine .proceed h.ntasks hcons.receive_false ?_
    simpa [pendingSuccesses] using hsucc

theorem Session.Balanced.reply {k t : ℕ} {w : Str} (h : s.Balanced n)
    (hk : s.calls[k]? = some ⟨t, w, none⟩) (ok : Bool) :
    Session.Balanced n { s with
      calls := s.calls.set k ⟨t, w, some ok⟩
      history := .returned t w ok :: s.history } := by
  obtain ⟨hlt, -⟩ := List.getElem?_eq_some_iff.mp hk
  have hold := perm_cons_eraseIdx hk
  have hnew := List.set_perm_cons_eraseIdx hlt ⟨t, w, some ok⟩
  have hsucc := h.successes.trans
    (((hold.filter fun c => c.ok = some true).map TaskCall.taskIdx).symm.append_left _)
  refine ⟨h.ntasks, h.conserved.congr ?_, ?_, h.complete⟩
  · exact (hnew.map TaskCall.taskIdx).trans (hold.map TaskCall.taskIdx)
  · refine List.Perm.trans ?_
      (((hnew.filter fun c => c.ok = some true).map TaskCall.taskIdx).symm.append_left _)
    cases ok with
    | true =>
      refine List.Perm.trans (List.Perm.cons t hsucc) ?_
      simpa using List.perm_middle.symm
    | false => exact hsucc

theorem Session.Balanced.step (h : s.Balanced n) (hs : s.step e = some s') : s'.Balanced n := by
  cases e with
  | register w =>
    simp only [Session.step] at hs
    split_ifs at hs
    exact Option.some.inj hs ▸ h.register w
  | reply k ok =>
    simp only [Session.step] at hs
    split at hs
    · exact Option.some.inj hs ▸ h.reply ‹_› ok
    · cases hs
  | receive k =>
    simp only [Session.step] at hs
    split at hs
    · split_ifs at hs
      exact Option.some.inj hs ▸ h.receive ‹_›
    · cases hs

/-- At every moment of a run of `schedule` each task is queued, in one outstanding call or done;
when it returns, each has succeeded exactly once and nothing is left. -/
theorem tasks_conserved {es : List SessionEvent}
    (h : (session n).run (session n).init es = some s) :
    (s.sched.taskQu.pending ++ s.calls.map TaskCall.taskIdx ++ s.sched.doneMap).Perm
      (List.range n) ∧
    s.sched.doneN = s.sched.doneMap.length ∧
    (s.returned = true → (∀ t < n, (successes s.history).count t = 1) ∧
      s.sched.taskQu.pending = [] ∧ s.calls = []) := by
  have hb : s.Balanced n := System.invariant (fun _ _ _ hi hs => hi.step hs) h
    ⟨rfl, Schedule.conserved_start n, .refl _, nofun⟩
  refine ⟨hb.ntasks ▸ hb.conserved.perm, hb.conserved.doneN_eq, fun hr => ?_⟩
  obtain ⟨hq, hout, -⟩ := hb.conserved.complete (hb.complete hr)
  have hcalls : s.calls = [] := List.map_eq_nil_iff.mp hout
  refine ⟨fun t ht => ?_, hq, hcalls⟩
  have hdone : s.sched.doneMap.Perm (List.range n) := by
    simpa [hq, hcalls, hb.ntasks] using hb.conserved.perm
  have hsucc : (successes s.history).Perm (List.range n) := by
    simpa [hcalls, pendingSuccesses] using hb.successes.trans (hdone.append_right _)
  rw [hsucc.count_eq]
  exact List.count_eq_one_of_mem List.nodup_range (List.mem_range.mpr ht)

def retried : List SessionEvent :=
  [.register [97], .register [98], .reply 0 false, .receive 0, .reply 0 true, .receive 0,
    .reply 0 true, .receive 0]

theorem tasks_conserved_retried :
    ∃ s, (session 2).run (session 2).init retried = some s ∧ s.returned = true ∧
      (successes s.history).count 0 = 1 ∧ (successes s.history).count 1 = 1 ∧ s.calls = [] :=
  have h := (session 2).run_after (session 2).init retried (by decide)
  have hret := (tasks_conserved h).2.2 (by decide)
  ⟨_, h, by decide, hret.1 0 (by decide), hret.1 1 (by decide), hret.2.2⟩

end Conservation

section Registration

def addresses (es : List SessionEvent) : List Str :=
  (es.filterMap fun e => match e with
    | .register address => some address
    | _ => none).reverse

theorem addresses_register {w : Str} {es : List SessionEvent} :
    addresses (.register w :: es) = addresses es ++ [w] := by
  simp [addresses]

/-- A property of the addresses received so far and of the session holds after every run when each
kind of event keeps it. -/
theorem session_induction {I : List Str → Session → Prop} {n : ℕ} {es : List SessionEvent}
    {joined : List Str} {s s' : Session}
    (hregister : ∀ joined s w, I joined s → s.returned = false →
      I (w :: joined) (s.proceed (s.sched.receive (.worker w))))
    (hreply : ∀ joined s k t w ok, I joined s → s.calls[k]? = some ⟨t, w, none⟩ →
      I joined { s with
        calls := s.calls.set k ⟨t, w, some ok⟩
        history := .returned t w ok :: s.history })
    (hreceive : ∀ joined s k t w ok, I joined s → s.returned = false →
      s.calls[k]? = some ⟨t, w, some ok⟩ →
      I joined (Session.proceed { s with calls := s.calls.eraseIdx k }
        (s.sched.receive (.result ⟨ok, t, w⟩))))
    (h : (session n).run s es = some s') (hi : I joined s) : I (addresses es ++ joined) s' := by
  induction es generalizing s joined with
  | nil => exact Option.some.inj h ▸ hi
  | cons e es ih =>
    obtain ⟨t, ht, hr⟩ := System.run_cons_eq_some.mp h
    cases e with
    | register w =>
      simp only [session, Session.step] at ht
      split_ifs at ht with hret
      obtain rfl := Option.some.inj ht
      rw [addresses_register, List.append_assoc, List.singleton_append]
      exact ih hr (hregister joined s w hi (Bool.eq_false_of_not_eq_true hret))
    | reply k ok =>
      simp only [session, Session.step] at ht
      split at ht
      · obtain rfl := Option.some.inj ht
        exact ih hr (hreply joined s k _ _ ok hi ‹_›)
      · cases ht
    | receive k =>
      simp only [session, Session.step] at ht
      split at ht
      · split_ifs at ht with hret
        obtain rfl := Option.some.inj ht
        exact ih hr (hreceive joined s k _ _ _ hi (Bool.eq_false_of_not_eq_true hret) ‹_›)
      · cases ht

end Registration

section Exclusion

/-- Whenever a task is given to a worker, all earlier calls to it have returned, none with a
failure. -/
def Exclusive (history : List TaskEvent) : Prop :=
  ∀ t w past, .issued t w :: past <:+ history →
    past.countP (TaskEvent.issuedTo w) = past.countP (TaskEvent.returnedFrom w) ∧
    ∀ t', .returned t' w false ∉ past

theorem exclusive_issued {t : ℕ} {w : Str} {history : List TaskEvent} :
    Exclusive (.issued t w :: history) ↔ Exclusive history ∧
      history.countP (TaskEvent.issuedTo w) = history.countP (TaskEvent.returnedFrom w) ∧
      ∀ t', .returned t' w false ∉ history := by
  simp only [Exclusive, List.suffix_cons_iff]
  constructor
  · intro h
    exact ⟨fun t' w' past hp => h t' w' past (Or.inr hp), h t w history (Or.inl rfl)⟩
  · rintro ⟨hold, hnew⟩ t' w' past (hp | hp)
    · obtain ⟨he, rfl⟩ := List.cons.inj hp
      obtain ⟨-, rfl⟩ := TaskEvent.issued.inj he
      exact hnew
    · exact hold t' w' past hp

theorem exclusive_returned {t : ℕ} {w : Str} {ok : Bool} {history : List TaskEvent}
    (h : Exclusive history) : Exclusive (.returned t w ok :: history) := by
  intro t' w' past hp
  rcases List.suffix_cons_iff.mp hp with hp | hp
  · cases hp
  · exact h t' w' past hp

/-- Where the registered workers are: idle, in one call, or given up after a failure. -/
structure Assigned (joined idle : List Str) (calls : List TaskCall) (history : List TaskEvent) :
    Prop where
  nodup : (idle ++ calls.map TaskCall.worker).Nodup
  known : ∀ w ∈ idle ++ calls.map TaskCall.worker, w ∈ joined
  counts : ∀ w, history.countP (TaskEvent.issuedTo w) =
    history.countP (TaskEvent.returnedFrom w) + calls.countP fun c => c.worker = w ∧ c.ok = none
  failed : ∀ t w, .returned t w false ∈ history →
    w ∈ joined ∧ w ∉ idle ∧ ∀ c ∈ calls, c.worker = w → c.ok = some false
  exclusive : Exclusive history

structure Available (joined idle : List Str) (calls : List TaskCall) (history : List TaskEvent)
    (w : Str) : Prop where
  known : w ∈ joined
  notMem : w ∉ idle ++ calls.map TaskCall.worker
  sound : ∀ t, .returned t w false ∉ history

namespace Assigned

variable {joined idle : List Str} {calls calls' : List TaskCall} {history : List TaskEvent}
  {t : ℕ} {w : Str} {ok : Bool}

theorem congr (h : Assigned joined idle calls history) (hp : calls'.Perm calls) :
    Assigned joined idle calls' history where
  nodup := ((hp.map TaskCall.worker).append_left idle).nodup_iff.mpr h.nodup
  known w hw := h.known w (((hp.map TaskCall.worker).append_left idle).mem_iff.mp hw)
  counts w := by rw [hp.countP_eq, h.counts w]
  failed t w hf := by
    obtain ⟨hk, hi, hc⟩ := h.failed t w hf
    exact ⟨hk, hi, fun c hm => hc c (hp.mem_iff.mp hm)⟩
  exclusive := h.exclusive

theorem register (h : Assigned joined idle calls history) (hw : w ∉ joined) :
    Assigned (w :: joined) idle calls history ∧ Available (w :: joined) idle calls history w := by
  refine ⟨⟨h.nodup, fun v hv => List.mem_cons_of_mem _ (h.known v hv), h.counts,
    fun t v hf => ?_, h.exclusive⟩, List.mem_cons_self, fun hm => hw (h.known w hm), fun t hf => ?_⟩
  · obtain ⟨hk, hrest⟩ := h.failed t v hf
    exact ⟨List.mem_cons_of_mem _ hk, hrest⟩
  · exact hw (h.failed t w hf).1

theorem launch (h : Assigned joined idle calls history)
    (ha : Available joined idle calls history w) :
    Assigned joined idle (⟨t, w, none⟩ :: calls) (.issued t w :: history) := by
  have hperm : (idle ++ w :: calls.map TaskCall.worker).Perm
    (w :: (idle ++ calls.map TaskCall.worker)) := List.perm_middle
  constructor
  · rw [List.map_cons, hperm.nodup_iff]
    exact List.nodup_cons.mpr ⟨ha.notMem, h.nodup⟩
  · intro v hv
    rcases List.mem_cons.mp (hperm.mem_iff.mp hv) with rfl | hv
    · exact ha.known
    · exact h.known v hv
  · intro v
    have hv := h.counts v
    by_cases hvw : w = v
    all_goals simp [TaskEvent.issuedTo, TaskEvent.returnedFrom, hvw, hv]
    omega
  · intro t' v hf
    obtain ⟨hk, hi, hc⟩ := h.failed t' v (by simpa using hf)
    refine ⟨hk, hi, fun c hm hcw => ?_⟩
    rcases List.mem_cons.mp hm with rfl | hm
    · obtain rfl : w = v := hcw
      exact absurd (by simpa using hf) (ha.sound t')
    · exact hc c hm hcw
  · refine exclusive_issued.mpr ⟨h.exclusive, ?_, ha.sound⟩
    have hnone : calls.countP (fun c => c.worker = w ∧ c.ok = none) = 0 := by
      rw [List.countP_eq_zero]
      intro c hc
      have hne : c.worker ≠ w := fun he =>
        ha.notMem (List.mem_append_right _ (he ▸ List.mem_map_of_mem hc))
      simp [hne]
    rw [h.counts w, hnone, Nat.add_zero]

theorem park (h : Assigned joined idle calls history)
    (ha : Available joined idle calls history w) : Assigned joined (idle ++ [w]) calls history := by
  have hperm : (idle ++ [w] ++ calls.map TaskCall.worker).Perm
      (w :: (idle ++ calls.map TaskCall.worker)) := by
    rw [List.append_assoc]
    exact List.perm_middle
  constructor
  · rw [hperm.nodup_iff]
    exact List.nodup_cons.mpr ⟨ha.notMem, h.nodup⟩
  · intro v hv
    rcases List.mem_cons.mp (hperm.mem_iff.mp hv) with rfl | hv
    · exact ha.known
    · exact h.known v hv
  · exact h.counts
  · intro t v hf
    obtain ⟨hk, hi, hc⟩ := h.failed t v hf
    refine ⟨hk, fun hm => ?_, hc⟩
    rcases List.mem_append.mp hm with hm | hm
    · exact hi hm
    · obtain rfl := List.mem_singleton.mp hm
      exact ha.sound t hf
  · exact h.exclusive

theorem unpark (h : Assigned joined (w :: idle) calls history) :
    Assigned joined idle calls history ∧ Available joined idle calls history w := by
  have hnodup := List.nodup_cons.mp h.nodup
  refine ⟨⟨hnodup.2, fun v hv => h.known v (List.mem_cons_of_mem _ hv), h.counts, fun t v hf => ?_,
    h.exclusive⟩, h.known w List.mem_cons_self, hnodup.1, fun t hf => ?_⟩
  · obtain ⟨hk, hi, hc⟩ := h.failed t v hf
    exact ⟨hk, fun hm => hi (List.mem_cons_of_mem _ hm), hc⟩
  · exact (h.failed t w hf).2.1 List.mem_cons_self

theorem reply (h : Assigned joined idle (⟨t, w, none⟩ :: calls) history) :
    Assigned joined idle (⟨t, w, some ok⟩ :: calls) (.returned t w ok :: history) := by
  have hnodup := List.nodup_cons.mp (List.perm_middle.nodup_iff.mp h.nodup)
  refine ⟨h.nodup, h.known, fun v => ?_, fun t' v hf => ?_, exclusive_returned h.exclusive⟩
  · have hv := h.counts v
    by_cases hvw : w = v
    all_goals simp [TaskEvent.issuedTo, TaskEvent.returnedFrom, hvw] at hv ⊢
    all_goals omega
  · rcases List.mem_cons.mp hf with hf | hf
    · obtain ⟨-, rfl, rfl⟩ := TaskEvent.returned.inj hf
      refine ⟨h.known v (by simp), fun hm => hnodup.1 (List.mem_append_left _ hm), ?_⟩
      intro c hc hcv
      rcases List.mem_cons.mp hc with rfl | hc
      · rfl
      · exact absurd (List.mem_append_right _ (List.mem_map.mpr ⟨c, hc, hcv⟩)) hnodup.1
    · obtain ⟨hk, hi, hc⟩ := h.failed t' v hf
      refine ⟨hk, hi, fun c hm hcv => ?_⟩
      rcases List.mem_cons.mp hm with rfl | hm
      · exact absurd (hc _ List.mem_cons_self hcv) (by simp)
      · exact hc c (List.mem_cons_of_mem _ hm) hcv

theorem receive (h : Assigned joined idle (⟨t, w, some ok⟩ :: calls) history) :
    Assigned joined idle calls history ∧
      (ok = true → Available joined idle calls history w) := by
  have hnodup := List.nodup_cons.mp (List.perm_middle.nodup_iff.mp h.nodup)
  refine ⟨⟨hnodup.2, fun v hv => h.known v ?_, fun v => ?_, fun t' v hf => ?_, h.exclusive⟩,
    fun hok => ⟨h.known w (by simp), hnodup.1, fun t' hf => ?_⟩⟩
  · exact List.perm_middle.mem_iff.mpr (List.mem_cons_of_mem _ hv)
  · simpa using h.counts v
  · obtain ⟨hk, hi, hc⟩ := h.failed t' v hf
    exact ⟨hk, hi, fun c hm => hc c (List.mem_cons_of_mem _ hm)⟩
  · have hc := (h.failed t' w hf).2.2 _ List.mem_cons_self rfl
    simp [hok] at hc

theorem assign (sched : Schedule) (h : Assigned joined sched.idleWorkers.pending calls history)
    (ha : Available joined sched.idleWorkers.pending calls history w) :
    Assigned joined (sched.assign w).sched.idleWorkers.pending
      (calls ++ Session.started (sched.assign w))
      (Session.issues (sched.assign w) ++ history) := by
  unfold Schedule.assign
  split_ifs
  · simpa [Session.started, Session.issues] using h
  · cases sched.taskQu.pop with
    | none => simpa [Session.started, Session.issues] using h.park ha
    | some r => exact (h.launch ha).congr (List.perm_append_singleton _ _)

end Assigned

def Session.Placed (joined : List Str) (s : Session) : Prop :=
  Assigned joined s.sched.idleWorkers.pending s.calls s.history

variable {joined : List Str} {s s' : Session}

theorem Session.Placed.of_quiet {o : Outcome} (ho : o.launched = none)
    (h : Assigned joined o.sched.idleWorkers.pending s.calls s.history) :
    (s.proceed o).Placed joined := by
  simpa [Session.Placed, Session.proceed, Session.started, Session.issues, ho] using h

theorem Session.Placed.reply {k t : ℕ} {w : Str} (h : s.Placed joined)
    (hk : s.calls[k]? = some ⟨t, w, none⟩) (ok : Bool) :
    Session.Placed joined { s with
      calls := s.calls.set k ⟨t, w, some ok⟩
      history := .returned t w ok :: s.history } := by
  obtain ⟨hlt, -⟩ := List.getElem?_eq_some_iff.mp hk
  exact (h.congr (perm_cons_eraseIdx hk)).reply.congr (List.set_perm_cons_eraseIdx hlt _)

theorem Session.Placed.receive {k t : ℕ} {w : Str} {ok : Bool} (h : s.Placed joined)
    (hk : s.calls[k]? = some ⟨t, w, some ok⟩) :
    (Session.proceed { s with calls := s.calls.eraseIdx k }
      (s.sched.receive (.result ⟨ok, t, w⟩))).Placed joined := by
  obtain ⟨hrest, havail⟩ := (h.congr (perm_cons_eraseIdx hk)).receive
  cases ok with
  | true =>
    have ha := havail rfl
    simp only [Schedule.receive]
    split_ifs
    · exact Assigned.assign s.sched hrest ha
    · exact .of_quiet rfl hrest
    · exact Assigned.assign (s.sched.markDone t) hrest ha
  | false =>
    simp only [Schedule.receive]
    cases hp : s.sched.idleWorkers.pop with
    | none => exact .of_quiet rfl hrest
    | some r =>
      rw [HeadQueue.pending_of_pop hp] at hrest
      obtain ⟨hidle, ha⟩ := hrest.unpark
      exact Assigned.assign { s.sched.requeue t with idleWorkers := r.2 } hidle ha

theorem Session.Placed.register {w : Str} (h : s.Placed joined) (hw : w ∉ joined) :
    (s.proceed (s.sched.receive (.worker w))).Placed (w :: joined) :=
  Assigned.assign s.sched (Assigned.register h hw).1 (Assigned.register h hw).2

/-- When no address is registered twice, no task is given to a worker that has one, and none to a
worker after one of its calls has failed. -/
theorem workers_exclusive {es : List SessionEvent} {n : ℕ} (hn : (addresses es).Nodup)
    (h : (session n).run (session n).init es = some s) : Exclusive s.history := by
  have hinit : (session n).init.Placed [] :=
    ⟨by simp [session, Schedule.start], by simp [session, Schedule.start], fun _ => rfl,
      by simp [session], by simp [session, Exclusive]⟩
  have hrun : (addresses es ++ []).Nodup → s.Placed (addresses es ++ []) := by
    refine session_induction (I := fun joined s => joined.Nodup → s.Placed joined) ?_
      (fun joined s k t w ok hi hk hn => (hi hn).reply hk ok)
      (fun joined s k t w ok hi _ hk hn => (hi hn).receive hk) h fun _ => hinit
    intro joined s w hi _ hn
    obtain ⟨hw, hn⟩ := List.nodup_cons.mp hn
    exact (hi hn).register hw
  exact (hrun (by simpa using hn)).exclusive

theorem workers_exclusive_retried :
    ∃ s, (session 2).run (session 2).init retried = some s ∧
      s.history.map (TaskEvent.issuedTo [98]) = [false, true, false, false, true, false] ∧
      Exclusive s.history :=
  have h := (session 2).run_after (session 2).init retried (by decide)
  ⟨_, h, by decide, workers_exclusive (by decide) h⟩

end Exclusion

end DistLab.MapReduce
