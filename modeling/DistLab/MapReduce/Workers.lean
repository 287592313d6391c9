import DistLab.MapReduce.Calls

/-! # No usable worker is dropped

Every registration of a worker stands for an idle worker, for a call that runs or has
succeeded, or for a call that has failed. While the scheduler waits it never has a task
to hand out and an idle worker at once: a failure that comes back when everything was
handed out wakes an idle worker.
-/

namespace DistLab.MapReduce

def TaskEvent.failure : TaskEvent → Option Str
  | .returned _ worker false => some worker
  | _ => none

def failures (history : List TaskEvent) : List Str := history.filterMap TaskEvent.failure

def engaged (calls : List TaskCall) : List Str :=
  (calls.filter fun c => c.ok ≠ some false).map TaskCall.worker

theorem mem_failures {history : List TaskEvent} {w : Str} :
    w ∈ failures history ↔ ∃ t, .returned t w false ∈ history := by
  simp only [failures, List.mem_filterMap]
  constructor
  · rintro ⟨e, he, hw⟩
    unfold TaskEvent.failure at hw
    split at hw
    · obtain rfl := Option.some.inj hw
      exact ⟨_, he⟩
    · cases hw
  · rintro ⟨t, ht⟩
    exact ⟨_, ht, rfl⟩

theorem mem_engaged {calls : List TaskCall} {w : Str} :
    w ∈ engaged calls ↔ ∃ c ∈ calls, c.worker = w ∧ c.ok ≠ some false := by
  simp only [engaged, List.mem_map, List.mem_filter, decide_eq_true_eq]
  constructor
  · rintro ⟨c, ⟨hc, hok⟩, rfl⟩
    exact ⟨c, hc, rfl, hok⟩
  · rintro ⟨c, hc, rfl, hok⟩
    exact ⟨c, ⟨hc, hok⟩, rfl⟩

/-- Where the registrations are, with every worker that has returned from a call among them. -/
structure Employed (joined idle : List Str) (calls : List TaskCall) (history : List TaskEvent) :
    Prop where
  perm : joined.Perm (idle ++ engaged calls ++ failures history)
  known : ∀ t w ok, .returned t w ok ∈ history → w ∈ joined

namespace Employed

variable {joined idle : List Str} {calls calls' : List TaskCall} {history : List TaskEvent}
  {t : ℕ} {w : Str} {ok : Bool}

theorem congr (h : Employed joined idle calls history) (hp : calls'.Perm calls) :
    Employed joined idle calls' history where
  perm := by
    refine h.perm.trans (List.Perm.append_right _ (List.Perm.append_left _ ?_))
    exact ((hp.filter _).map _).symm
  known := h.known

theorem register (h : Employed joined idle calls history) :
    Employed (w :: joined) (w :: idle) calls history where
  perm := h.perm.cons w
  known t v ok hv := List.mem_cons_of_mem _ (h.known t v ok hv)

theorem reply (h : Employed joined idle (⟨t, w, none⟩ :: calls) history) (ok : Bool) :
    Employed joined idle (⟨t, w, some ok⟩ :: calls) (.returned t w ok :: history) where
  perm := by
    refine h.perm.trans ?_
    cases ok with
    | true => exact .refl _
    | false =>
      simp only [engaged, failures, TaskEvent.failure, List.append_assoc, List.filter_cons_of_pos,
        List.map_cons, List.cons_append, ne_eq, reduceCtorEq, not_false_eq_true, decide_true]
      exact List.Perm.append_left _ List.perm_middle.symm
  known t' v ok' hv := by
    rcases List.mem_cons.mp hv with hv | hv
    · obtain ⟨-, rfl, -⟩ := TaskEvent.returned.inj hv
      exact h.perm.mem_iff.mpr (by simp [engaged])
    · exact h.known t' v ok' hv

theorem receive_true (h : Employed joined idle (⟨t, w, some true⟩ :: calls) history) :
    Employed joined (w :: idle) calls history where
  perm := by
    refine h.perm.trans (List.Perm.append_right _ ?_)
    exact List.perm_middle
  known := h.known

theorem receive_false (h : Employed joined idle (⟨t, w, some false⟩ :: calls) history) :
    Employed joined idle calls history where
  perm := h.perm
  known := h.known

theorem park (h : Employed joined (w :: idle) calls history) :
    Employed joined (idle ++ [w]) calls history where
  perm := by
    refine h.perm.trans (List.Perm.append_right _ (List.Perm.append_right _ ?_))
    exact (List.perm_append_singleton w idle).symm
  known := h.known

theorem launch (h : Employed joined (w :: idle) calls history) :
    Employed joined idle (⟨t, w, none⟩ :: calls) (.issued t w :: history) where
  perm := by
    refine h.perm.trans (List.Perm.append_right _ ?_)
    exact List.perm_middle.symm
  known t' v ok hv := h.known t' v ok (by simpa using hv)

theorem assign {sched : Schedule} (hw : w ≠ [])
    (h : Employed joined (w :: sched.idleWorkers.pending) calls history) :
    Employed joined (sched.assign w).sched.idleWorkers.pending
      (calls ++ Session.started (sched.assign w))
      (Session.issues (sched.assign w) ++ history) := by
  unfold Schedule.assign
  rw [if_neg hw]
  cases sched.taskQu.pop with
  | none => simpa [Session.started, Session.issues] using h.park
  | some r => exact h.launch.congr (List.perm_append_singleton _ _)

end Employed

/-- The scheduler has no task to hand out, or nobody to give one to. -/
def Schedule.Drained (sched : Schedule) : Prop :=
  sched.taskQu.pending = [] ∨ sched.idleWorkers.pending = []

theorem Schedule.drained_assign {sched : Schedule} {w : Str} (hw : w ≠ [])
    (h : sched.taskQu.pending.tail = [] ∨ sched.idleWorkers.pending = []) :
    (sched.assign w).sched.Drained := by
  unfold Schedule.assign
  rw [if_neg hw]
  cases hp : sched.taskQu.pop with
  | none => exact Or.inl (HeadQueue.pending_of_pop_none hp)
  | some r =>
    rw [HeadQueue.pending_of_pop hp, List.tail_cons] at h
    exact h

/-- The invariant of a session that still waits. -/
structure Session.Staffed (joined : List Str) (s : Session) : Prop where
  employed : Employed joined s.sched.idleWorkers.pending s.calls s.history
  drained : s.sched.Drained

namespace Session

variable {joined : List Str} {s : Session} {k t : ℕ} {w : Str}

theorem Staffed.ne_nil (h : s.Staffed joined) (hj : [] ∉ joined)
    (hw : w ∈ s.sched.idleWorkers.pending ∨ w ∈ engaged s.calls) : w ≠ [] := by
  rintro rfl
  refine hj (h.employed.perm.mem_iff.mpr ?_)
  simpa [or_assoc] using Or.inl hw

theorem Staffed.assign (sched : Schedule) (hw : w ≠ [])
    (h : Employed joined (w :: sched.idleWorkers.pending) s.calls s.history)
    (hd : sched.taskQu.pending.tail = [] ∨ sched.idleWorkers.pending = []) :
    (s.proceed (sched.assign w)).Staffed joined :=
  ⟨h.assign hw, Schedule.drained_assign hw hd⟩

theorem Staffed.register (h : s.Staffed joined) (hw : w ≠ []) :
    (s.proceed (s.sched.receive (.worker w))).Staffed (w :: joined) :=
  .assign s.sched hw h.employed.register (h.drained.imp_left fun hq => by rw [hq, List.tail_nil])

theorem Staffed.reply (h : s.Staffed joined) (hk : s.calls[k]? = some ⟨t, w, none⟩) (ok : Bool) :
    Session.Staffed joined { s with
      calls := s.calls.set k ⟨t, w, some ok⟩
      history := .returned t w ok :: s.history } where
  employed := by
    obtain ⟨hlt, -⟩ := List.getElem?_eq_some_iff.mp hk
    have hcall := (h.employed.congr (perm_cons_eraseIdx hk)).reply ok
    exact hcall.congr (List.set_perm_cons_eraseIdx hlt _)
  drained := h.drained

theorem Staffed.receive_true (h : s.Staffed joined) (hj : [] ∉ joined)
    (hk : s.calls[k]? = some ⟨t, w, some true⟩) :
    (Session.proceed { s with calls := s.calls.eraseIdx k }
      (s.sched.receive (.result ⟨true, t, w⟩))).returned = false →
    (Session.proceed { s with calls := s.calls.eraseIdx k }
      (s.sched.receive (.result ⟨true, t, w⟩))).Staffed joined := by
  have hw : w ≠ [] := h.ne_nil hj
    (Or.inr (mem_engaged.mpr ⟨_, List.mem_of_getElem? hk, rfl, by simp⟩))
  have hfree := (h.employed.congr (perm_cons_eraseIdx hk)).receive_true
  have hd := h.drained.imp_left fun hq => show s.sched.taskQu.pending.tail = [] by
    rw [hq, List.tail_nil]
  simp only [Schedule.receive]
  split_ifs
  · intro _
    exact .assign s.sched hw hfree hd
  · intro hret
    cases hret
  · intro _
    exact .assign (s.sched.markDone t) hw hfree hd

theorem Staffed.receive_false (h : s.Staffed joined) (hj : [] ∉ joined)
    (hk : s.calls[k]? = some ⟨t, w, some false⟩) :
    (Session.proceed { s with calls := s.calls.eraseIdx k }
      (s.sched.receive (.result ⟨false, t, w⟩))).Staffed joined := by
  have hrest := (h.employed.congr (perm_cons_eraseIdx hk)).receive_false
  simp only [Schedule.receive]
  cases hp : s.sched.idleWorkers.pop with
  | none =>
    constructor
    · simpa [Session.proceed, Session.started, Session.issues, Schedule.requeue] using hrest
    · exact Or.inr (HeadQueue.pending_of_pop_none hp)
  | some r =>
    have hidle := HeadQueue.pending_of_pop hp
    have hw : r.1 ≠ [] := h.ne_nil hj (Or.inl (by simp [hidle]))
    have hqueue : s.sched.taskQu.pending = [] := h.drained.resolve_right (by simp [hidle])
    rw [hidle] at hrest
    refine .assign { s.sched.requeue t with idleWorkers := r.2 } hw hrest (Or.inl ?_)
    simp [Schedule.requeue, hqueue]

end Session

/-- Whenever the scheduler waits, there is no task to hand out or no idle worker, and every
registration of a worker, all of them by non-empty addresses, is an idle worker, a call that runs
or has succeeded, or a call that has failed. -/
theorem work_conserved {n : ℕ} {s : Session} {es : List SessionEvent} (hw : [] ∉ addresses es)
    (h : (session n).run (session n).init es = some s) (hb : s.returned = false) :
    (s.sched.taskQu.pending = [] ∨ s.sched.idleWorkers.pending = []) ∧
    (∀ w, w ∈ addresses es ∨ (∃ t, .returned t w true ∈ s.history) →
      w ∉ s.sched.idleWorkers.pending →
      (∃ c ∈ s.calls, c.worker = w) ∨ ∃ t, .returned t w false ∈ s.history) ∧
    (addresses es).Perm
      (s.sched.idleWorkers.pending ++ engaged s.calls ++ failures s.history) := by
  have hinit : (session n).init.Staffed [] :=
    ⟨⟨.refl _, by simp [session]⟩, Or.inr rfl⟩
  have hrun : [] ∉ addresses es ++ [] → s.returned = false → s.Staffed (addresses es ++ []) := by
    refine session_induction
      (I := fun joined s => [] ∉ joined → s.returned = false → s.Staffed joined) ?_ ?_ ?_ h
      fun _ _ => hinit
    · intro joined s w hi hret hj _
      simp only [List.mem_cons, not_or] at hj
      exact (hi hj.2 hret).register (Ne.symm hj.1)
    · intro joined s k t w ok hi hk hj hret
      exact (hi hj hret).reply hk ok
    · intro joined s k t w ok hi hret hk hj
      cases ok with
      | true => exact (hi hj hret).receive_true hj hk
      | false => exact fun _ => (hi hj hret).receive_false hj hk
  rw [List.append_nil] at hrun
  obtain ⟨⟨hperm, hknown⟩, hdrained⟩ := hrun hw hb
  refine ⟨hdrained, fun w hw hidle => ?_, hperm⟩
  have hmem : w ∈ addresses es := by
    rcases hw with hw | ⟨t, ht⟩
    · exact hw
    · exact hknown t w true ht
  rcases List.mem_append.mp (hperm.mem_iff.mp hmem) with hm | hm
  · obtain ⟨c, hc, hcw, -⟩ := mem_engaged.mp ((List.mem_append.mp hm).resolve_left hidle)
    exact Or.inl ⟨c, hc, hcw⟩
  · exact Or.inr (mem_failures.mp hm)

def woken : List SessionEvent :=
  [.register [97], .register [98], .register [99], .reply 0 false, .receive 0]

theorem work_conserved_woken :
    ∃ s, (session 2).run (session 2).init woken = some s ∧ s.returned = false ∧
      s.calls.map TaskCall.worker = [[98], [99]] ∧ failures s.history = [[97]] ∧
      (s.sched.taskQu.pending = [] ∨ s.sched.idleWorkers.pending = []) :=
  have h := (session 2).run_after (session 2).init woken (by decide)
  ⟨_, h, by decide, by decide, by decide, (work_conserved (by decide) h (by decide)).1⟩

end DistLab.MapReduce
