import Mathlib.Data.Rat.Defs
import Mathlib.Algebra.Order.Ring.Rat
import DistLab.Systems.Linked
import DistLab.Systems.Runs
import DistLab.Rdt.Util

/-! # The virtual timers

The list of records behind the one timer of the simulator: a start links a record before the
first one that does not end earlier, an end unlinks the first record of a key, and an expiry
unlinks the record in front and runs its callback, which starts the key again. The
timer of the simulator is set for the record in front as long as no delay is negative.
-/

namespace DistLab.Rdt

/-- The simulator, as far as its timer goes: the time, the time the pending event is scheduled
for, and the delays the timer has been started with. -/
structure Simulator where
  now : ℚ := 0
  pending : Option ℚ := none
  delays : List ℚ := []

namespace Simulator

def schedule (sim : Simulator) (t : ℚ) : Option ℚ := if t < sim.now then none else some t

def startTimer (sim : Simulator) (timeout : ℚ) : Simulator :=
  { sim with
    pending := sim.schedule (sim.now + timeout)
    delays := sim.delays ++ [timeout] }

def stopTimer (sim : Simulator) : Simulator := { sim with pending := none }

def advance (sim : Simulator) (t : ℚ) : Simulator := { sim with now := t }

def expire (sim : Simulator) (t : ℚ) : Simulator := { sim with now := t, pending := none }

end Simulator

structure Record (κ ω : Type) where
  key : κ
  endT : ℚ
  work : ω

structure LinkedTimer (κ ω : Type) where
  maxTimerN : ℕ
  timerN : ℕ
  list : LinkedList (Record κ ω)

namespace LinkedTimer

variable {κ ω : Type}

def create (maxTimerN : ℕ) (mem : ℕ → ListCell (Record κ ω)) : LinkedTimer κ ω :=
  ⟨maxTimerN, 0, .create mem⟩

def start (v : LinkedTimer κ ω) (sim : Simulator) (key : κ) (time : ℚ) (work : ω) :
    Option (LinkedTimer κ ω × Simulator) :=
  if v.timerN < v.maxTimerN then do
    let endTime := sim.now + time
    let (p, r) ← v.list.seek fun x => !decide (x.endT < endTime)
    let list := v.list.link ⟨key, endTime, work⟩ p r
    let x ← list.front
    some ({ v with timerN := v.timerN + 1, list }, sim.startTimer (x.endT - sim.now))
  else none

def finish [DecidableEq κ] (v : LinkedTimer κ ω) (sim : Simulator) (key : κ) :
    Option (LinkedTimer κ ω × Simulator) := do
  let (p, r) ← v.list.seek fun x => decide (x.key = key)
  match r with
  | none => some (v, sim)
  | some r =>
    let list := v.list.unlink p r
    let v' := { v with timerN := v.timerN - 1, list }
    if v.list.first = some r then
      match list.front with
      | some x => some (v', sim.startTimer (x.endT - sim.now))
      | none => some (v', sim.stopTimer)
    else some (v', sim)

/-- The callback of the record in front, given as `call`, may use the timers; the result has
the record it was run for. -/
def timeout (v : LinkedTimer κ ω) (sim : Simulator)
    (call : Record κ ω → LinkedTimer κ ω → Simulator → Option (LinkedTimer κ ω × Simulator)) :
    Option (Record κ ω × LinkedTimer κ ω × Simulator) := do
  let r ← v.list.first
  let list := v.list.unlink v.list.head r
  let x := (list.heap r).val
  let (v, sim) ← call x { v with timerN := v.timerN - 1, list } sim
  if v.list.head = v.list.tail then some (x, v, sim.stopTimer)
  else do
    let y ← v.list.front
    some (x, v, sim.startTimer (y.endT - sim.now))

/-- The timers are the given records, in the order they end in. -/
structure Lists (v : LinkedTimer κ ω) (xs : List (Record κ ω)) : Prop where
  represents : v.list.Represents xs
  count : v.timerN = xs.length
  sorted : xs.Pairwise (·.endT ≤ ·.endT)

end LinkedTimer

def Simulator.arm {κ ω : Type} (sim : Simulator) (xs : List (Record κ ω)) : Simulator :=
  match xs.head? with
  | some x => sim.startTimer (x.endT - sim.now)
  | none => sim.stopTimer

namespace LinkedTimer

variable {κ ω : Type} {v : LinkedTimer κ ω} {sim : Simulator} {xs ys zs : List (Record κ ω)}
  {x : Record κ ω} {key : κ} {time : ℚ} {work : ω}

theorem lists_create (n : ℕ) (mem : ℕ → ListCell (Record κ ω)) : (create n mem).Lists [] :=
  ⟨LinkedList.represents_create mem, rfl, .nil⟩

theorem sorted_insert (h : (ys ++ zs).Pairwise (·.endT ≤ ·.endT)) (hy : ∀ y ∈ ys, y.endT < x.endT)
    (hz : ∀ z ∈ zs.head?, x.endT ≤ z.endT) : (ys ++ x :: zs).Pairwise (·.endT ≤ ·.endT) := by
  obtain ⟨hys, hzs, hyz⟩ := List.pairwise_append.mp h
  have hxz : ∀ z ∈ zs, x.endT ≤ z.endT := by
    cases zs with
    | nil => simp
    | cons z zs =>
      intro w hw
      rcases List.mem_cons.mp hw with rfl | hw
      · exact hz w rfl
      · exact (hz z rfl).trans ((List.pairwise_cons.mp hzs).1 w hw)
  refine List.pairwise_append.mpr ⟨hys, List.pairwise_cons.mpr ⟨hxz, hzs⟩, ?_⟩
  intro y hyy w hw
  rcases List.mem_cons.mp hw with rfl | hw
  · exact (hy y hyy).le
  · exact hyz y hyy w hw

theorem exists_head_append (ys : List (Record κ ω)) (x : Record κ ω) (zs : List (Record κ ω)) :
    ∃ y, (ys ++ x :: zs).head? = some y := by
  cases ys <;> exact ⟨_, rfl⟩

theorem Lists.start (h : v.Lists xs) (hn : v.timerN < v.maxTimerN) (sim : Simulator) (key : κ)
    (time : ℚ) (work : ω) :
    ∃ v' ys zs, xs = ys ++ zs ∧ (∀ y ∈ ys, y.endT < sim.now + time) ∧
      (∀ z ∈ zs.head?, sim.now + time ≤ z.endT) ∧ v'.maxTimerN = v.maxTimerN ∧
      v'.Lists (ys ++ ⟨key, sim.now + time, work⟩ :: zs) ∧
      v.start sim key time work =
        some (v', sim.arm (ys ++ ⟨key, sim.now + time, work⟩ :: zs)) := by
  obtain ⟨p, r, ys, zs, hseek, rfl, hy, hz, hl⟩ := h.represents.insert
    (fun x => !decide (x.endT < sim.now + time)) ⟨key, sim.now + time, work⟩
  replace hy : ∀ y ∈ ys, y.endT < sim.now + time := by simpa using hy
  replace hz : ∀ z ∈ zs.head?, sim.now + time ≤ z.endT := by simpa using hz
  have hcount : v.timerN + 1 = (ys ++ (⟨key, sim.now + time, work⟩ : Record κ ω) :: zs).length := by
    rw [h.count, List.length_append, List.length_append, List.length_cons, Nat.add_assoc]
  refine ⟨⟨v.maxTimerN, v.timerN + 1, v.list.link ⟨key, sim.now + time, work⟩ p r⟩, ys, zs, rfl,
    hy, hz, rfl, ⟨hl, hcount, sorted_insert h.sorted hy hz⟩, ?_⟩
  obtain ⟨y, hfront⟩ := exists_head_append ys (⟨key, sim.now + time, work⟩ : Record κ ω) zs
  simp only [LinkedTimer.start, if_pos hn, hseek, Option.bind_eq_bind, Option.bind_some,
    hl.front_eq, hfront, Simulator.arm]

theorem Lists.exists_start (h : v.Lists xs) (hn : v.timerN < v.maxTimerN) (sim : Simulator)
    (key : κ) (work : ω) (ha : ∀ x ∈ xs, sim.now ≤ x.endT) (h0 : 0 ≤ time) :
    ∃ v' ys, v'.Lists ys ∧ ys.length ≤ v'.maxTimerN ∧ (∀ y ∈ ys, sim.now ≤ y.endT) ∧
      v.start sim key time work = some (v', sim.arm ys) := by
  obtain ⟨v', ys, zs, rfl, -, -, hmax, hv, hstart⟩ := h.start hn sim key time work
  refine ⟨v', _, hv, ?_, ?_, hstart⟩
  · rw [hmax, List.perm_middle.length_eq, List.length_cons, ← h.count]
    exact hn
  · intro y hy
    rcases List.mem_cons.mp (List.perm_middle.mem_iff.mp hy) with rfl | hy
    · exact le_add_of_nonneg_right h0
    · exact ha y hy

theorem Lists.finish [DecidableEq κ] (h : v.Lists xs) (sim : Simulator) (key : κ) :
    ∃ v' sim', v.finish sim key = some (v', sim') ∧ v'.maxTimerN = v.maxTimerN ∧
      v'.Lists (xs.eraseP fun x => decide (x.key = key)) ∧
      (sim' = sim.arm (xs.eraseP fun x => decide (x.key = key)) ∨
        sim' = sim ∧ (xs.eraseP fun x => decide (x.key = key)).head? = xs.head?) := by
  rcases h.represents.remove fun x => decide (x.key = key) with
    ⟨p, hseek, hx⟩ | ⟨p, r, ys, x, zs, hseek, rfl, hy, hx, hfirst, hl⟩
  · rw [List.eraseP_of_forall_not (by simpa using hx)]
    exact ⟨v, sim, by simp [LinkedTimer.finish, hseek], rfl, h, Or.inr ⟨rfl, rfl⟩⟩
  · have herase : (ys ++ x :: zs).eraseP (fun x => decide (x.key = key)) = ys ++ zs := by
      rw [List.eraseP_append_right _ (by simpa using hy), List.eraseP_cons, hx, cond_true]
    have hcount : v.timerN - 1 = (ys ++ zs).length := by
      rw [h.count, List.length_append, List.length_append, List.length_cons]
      omega
    have hsorted : (ys ++ zs).Pairwise (·.endT ≤ ·.endT) :=
      h.sorted.sublist ((List.sublist_cons_self x zs).append_left ys)
    rw [herase]
    by_cases hys : ys = []
    · refine ⟨⟨v.maxTimerN, v.timerN - 1, v.list.unlink p r⟩, _, ?_, rfl, ⟨hl, hcount, hsorted⟩,
        Or.inl rfl⟩
      simp only [LinkedTimer.finish, hseek, Option.bind_eq_bind, Option.bind_some,
        if_pos (hfirst.mpr hys), hl.front_eq, Simulator.arm]
      cases (ys ++ zs).head? <;> rfl
    · refine ⟨⟨v.maxTimerN, v.timerN - 1, v.list.unlink p r⟩, sim, ?_, rfl, ⟨hl, hcount, hsorted⟩,
        Or.inr ⟨rfl, ?_⟩⟩
      · simp only [LinkedTimer.finish, hseek, Option.bind_eq_bind, Option.bind_some,
          if_neg (mt hfirst.mp hys)]
      · cases ys with
        | nil => exact absurd rfl hys
        | cons y ys => rfl

theorem Lists.timeout (h : v.Lists (x :: xs)) (sim : Simulator) :
    ∃ w : LinkedTimer κ ω, w.maxTimerN = v.maxTimerN ∧ w.Lists xs ∧
      ∀ call {v' sim' ys}, call x w sim = some (v', sim') → v'.Lists ys →
        v.timeout sim call = some (x, v', sim'.arm ys) := by
  obtain ⟨r, hfirst, hval, hl⟩ := h.represents.pop
  refine ⟨⟨v.maxTimerN, v.timerN - 1, v.list.unlink v.list.head r⟩, rfl,
    ⟨hl, by rw [h.count]; rfl, h.sorted.of_cons⟩, ?_⟩
  intro call v' sim' ys hcall hv
  simp only [LinkedTimer.timeout, hfirst, Option.bind_eq_bind, Option.bind_some,
    LinkedList.unlink_val, hval, hcall, hv.represents.head_eq_tail_iff]
  cases ys with
  | nil => rfl
  | cons y ys =>
    rw [if_neg (List.cons_ne_nil y ys), hv.represents.front_eq]
    rfl

end LinkedTimer

section Arming

variable {κ ω : Type} {sim : Simulator} {xs : List (Record κ ω)}

theorem pending_arm (h : ∀ x ∈ xs, sim.now ≤ x.endT) :
    (sim.arm xs).pending = xs.head?.map Record.endT := by
  cases xs with
  | nil => rfl
  | cons x xs =>
    have hx : ¬ sim.now + (x.endT - sim.now) < sim.now := by
      rw [add_sub_cancel]
      exact not_lt_of_ge (h x List.mem_cons_self)
    show sim.schedule _ = some x.endT
    rw [Simulator.schedule, if_neg hx, add_sub_cancel]

theorem delays_arm (h : ∀ x ∈ xs, sim.now ≤ x.endT) (hd : ∀ d ∈ sim.delays, 0 ≤ d) :
    ∀ d ∈ (sim.arm xs).delays, 0 ≤ d := by
  cases xs with
  | nil => exact hd
  | cons x xs =>
    intro d hmem
    rcases List.mem_append.mp hmem with hmem | hmem
    · exact hd d hmem
    · rw [List.mem_singleton.mp hmem]
      exact sub_nonneg.mpr (h x List.mem_cons_self)

theorem now_arm : (sim.arm xs).now = sim.now := by
  cases xs <;> rfl

end Arming

/-- The calls of the timers at their times; an expiry with what its callback starts the key
with. -/
inductive TimerEvent (κ ω : Type) where
  | start (t : ℚ) (key : κ) (time : ℚ) (work : ω)
  | finish (t : ℚ) (key : κ)
  | timeout (time : ℚ) (work : ω)

structure Timing (κ ω : Type) where
  timer : LinkedTimer κ ω
  sim : Simulator
  called : List (ω × κ)

namespace Timing

variable {κ ω : Type} [DecidableEq κ]

def step (s : Timing κ ω) : TimerEvent κ ω → Option (Timing κ ω)
  | .start t key time work => do
    let (timer, sim) ← s.timer.start (s.sim.advance t) key time work
    some { s with timer, sim }
  | .finish t key => do
    let (timer, sim) ← s.timer.finish (s.sim.advance t) key
    some { s with timer, sim }
  | .timeout time work => do
    let t ← s.sim.pending
    let (x, timer, sim) ← s.timer.timeout (s.sim.expire t)
      fun r v sim => v.start sim r.key time work
    some { timer, sim, called := s.called ++ [(x.work, x.key)] }

def records (s : Timing κ ω) : List (Record κ ω) := s.timer.list.toList

/-- Time does not go back or pass the pending event, a start finds a free place, and an expiry,
which is that of the pending event, does not start its key with a negative delay. -/
def Timely (s : Timing κ ω) : TimerEvent κ ω → Prop
  | .start t _ _ _ =>
    s.sim.now ≤ t ∧ (∀ d ∈ s.sim.pending, t ≤ d) ∧ s.records.length < s.timer.maxTimerN
  | .finish t _ => s.sim.now ≤ t ∧ ∀ d ∈ s.sim.pending, t ≤ d
  | .timeout time _ => s.sim.pending.isSome = true ∧ 0 ≤ time

def Forward : TimerEvent κ ω → Prop
  | .start _ _ time _ => 0 ≤ time
  | .finish .. => True
  | .timeout .. => True

instance decidableTimely (s : Timing κ ω) : ∀ e, Decidable (s.Timely e)
  | .start t _ _ _ => inferInstanceAs (Decidable (s.sim.now ≤ t ∧ (∀ d ∈ s.sim.pending, t ≤ d) ∧
      s.records.length < s.timer.maxTimerN))
  | .finish t _ => inferInstanceAs (Decidable (s.sim.now ≤ t ∧ ∀ d ∈ s.sim.pending, t ≤ d))
  | .timeout time _ => inferInstanceAs (Decidable (s.sim.pending.isSome = true ∧ 0 ≤ time))

instance decidableForward : ∀ e : TimerEvent κ ω, Decidable (Forward e)
  | .start _ _ time _ => inferInstanceAs (Decidable (0 ≤ time))
  | .finish .. => isTrue trivial
  | .timeout .. => isTrue trivial

/-- The list is sorted and ends at its tail, the counter has its length, and the timer of the
simulator, which was never started with a negative delay, is pending for the record in front. -/
structure Multiplexed (s : Timing κ ω) : Prop where
  linked : Reaches s.timer.list.heap s.timer.list.first s.timer.list.nodes
  sorted : s.records.Pairwise (·.endT ≤ ·.endT)
  tail : s.timer.list.tail = s.timer.list.nodes.getLastD s.timer.list.head
  count : s.timer.timerN = s.timer.list.nodes.length
  pending : s.sim.pending = s.records.head?.map Record.endT
  delays : ∀ d ∈ s.sim.delays, 0 ≤ d

def Calls (s : Timing κ ω) (e : TimerEvent κ ω) (s' : Timing κ ω) : Prop :=
  match e with
  | .timeout .. => ∃ x ∈ s.records, (∀ y ∈ s.records, x.endT ≤ y.endT) ∧
      s'.called = s.called ++ [(x.work, x.key)]
  | .start .. => s'.called = s.called
  | .finish .. => s'.called = s.called

def CallsEarliest (s : Timing κ ω) (e : TimerEvent κ ω) : Prop := ∀ s' ∈ s.step e, s.Calls e s'

end Timing

def virtualTimer {κ ω : Type} [DecidableEq κ] (maxTimerN : ℕ) (mem : ℕ → ListCell (Record κ ω)) :
    System (Timing κ ω) (TimerEvent κ ω) where
  init := ⟨.create maxTimerN mem, {}, []⟩
  step := Timing.step

namespace Timing

variable {κ ω : Type} {s : Timing κ ω} {xs : List (Record κ ω)} {t : ℚ}

structure Follows (s : Timing κ ω) (xs : List (Record κ ω)) : Prop where
  lists : s.timer.Lists xs
  limit : xs.length ≤ s.timer.maxTimerN
  ahead : ∀ x ∈ xs, s.sim.now ≤ x.endT
  pending : s.sim.pending = xs.head?.map Record.endT
  delays : ∀ d ∈ s.sim.delays, 0 ≤ d

theorem Follows.records_eq (h : s.Follows xs) : s.records = xs := h.lists.represents.toList_eq

theorem Follows.multiplexed (h : s.Follows xs) : s.Multiplexed := by
  have hl := h.lists.represents
  have hx := h.records_eq
  constructor
  · exact hl.holds.reaches
  · rw [hx]
    exact h.lists.sorted
  · exact hl.holds.tail
  · rw [h.lists.count, ← hx, records, LinkedList.toList, List.length_map]
  · rw [hx]
    exact h.pending
  · exact h.delays

theorem Follows.le_endT (h : s.Follows xs) (ht : ∀ d ∈ s.sim.pending, t ≤ d) :
    ∀ x ∈ xs, t ≤ x.endT := by
  have hs := h.lists.sorted
  rw [h.pending] at ht
  cases xs with
  | nil => simp
  | cons x xs =>
    intro y hy
    have hx : t ≤ x.endT := ht _ rfl
    rcases List.mem_cons.mp hy with rfl | hy
    · exact hx
    · exact hx.trans ((List.pairwise_cons.mp hs).1 y hy)

theorem follows_arm {v : LinkedTimer κ ω} {sim : Simulator} {called : List (ω × κ)}
    (hv : v.Lists xs) (hn : xs.length ≤ v.maxTimerN) (ha : ∀ x ∈ xs, sim.now ≤ x.endT)
    (hd : ∀ d ∈ sim.delays, 0 ≤ d) : Follows ⟨v, sim.arm xs, called⟩ xs where
  lists := hv
  limit := hn
  ahead := by simpa only [now_arm] using ha
  pending := pending_arm ha
  delays := delays_arm ha hd

theorem Follows.exists_popped {x : Record κ ω} (h : s.Follows (x :: xs)) :
    ∃ w : LinkedTimer κ ω, w.maxTimerN = s.timer.maxTimerN ∧ w.Lists xs ∧
      w.timerN < w.maxTimerN ∧ s.sim.pending = some x.endT ∧
      ∀ call {v' sim' ys}, call x w (s.sim.expire x.endT) = some (v', sim') → v'.Lists ys →
        s.timer.timeout (s.sim.expire x.endT) call = some (x, v', sim'.arm ys) := by
  obtain ⟨w, hmax, hw, htimeout⟩ := h.lists.timeout (s.sim.expire x.endT)
  refine ⟨w, hmax, hw, ?_, h.pending, htimeout⟩
  rw [hw.count, hmax]
  exact h.limit

variable [DecidableEq κ] {key : κ} {time : ℚ} {work : ω}

theorem Follows.start (h : s.Follows xs) (ht : s.Timely (.start t key time work)) (h0 : 0 ≤ time) :
    ∃ s' xs', s.step (.start t key time work) = some s' ∧ s'.Follows xs' ∧
      s.Calls (.start t key time work) s' := by
  obtain ⟨-, ht, hlen⟩ := ht
  have hn : s.timer.timerN < s.timer.maxTimerN := by
    rwa [h.lists.count, ← h.records_eq]
  obtain ⟨v, ys, hv, hlen, ha, hstart⟩ :=
    h.lists.exists_start hn (s.sim.advance t) key work (h.le_endT ht) h0
  exact ⟨⟨v, (s.sim.advance t).arm ys, s.called⟩, ys, by rw [step, hstart]; rfl,
    follows_arm hv hlen ha h.delays, rfl⟩

theorem Follows.finish (h : s.Follows xs) (ht : s.Timely (.finish t key)) :
    ∃ s' xs', s.step (.finish t key) = some s' ∧ s'.Follows xs' ∧
      s.Calls (.finish t key) s' := by
  obtain ⟨v, sim, hfinish, hmax, hv, hsim⟩ := h.lists.finish (s.sim.advance t) key
  have hsub : (xs.eraseP fun x => decide (x.key = key)).Sublist xs := List.eraseP_sublist
  have ha : ∀ x ∈ xs.eraseP fun x => decide (x.key = key), t ≤ x.endT := fun x hx =>
    h.le_endT ht.2 x (hsub.subset hx)
  have hlen : (xs.eraseP fun x => decide (x.key = key)).length ≤ v.maxTimerN :=
    hmax ▸ hsub.length_le.trans h.limit
  refine ⟨⟨v, sim, s.called⟩, xs.eraseP fun x => decide (x.key = key),
    by rw [step, hfinish]; rfl, ?_, rfl⟩
  rcases hsim with rfl | ⟨rfl, hhead⟩
  · exact follows_arm hv hlen ha h.delays
  · exact ⟨hv, hlen, ha, h.pending.trans (by rw [hhead]), h.delays⟩

theorem Follows.timeout (h : s.Follows xs) (ht : s.Timely (.timeout time work)) :
    ∃ s' xs', s.step (.timeout time work) = some s' ∧ s'.Follows xs' ∧
      s.Calls (.timeout time work) s' := by
  obtain ⟨hp, h0⟩ := ht
  cases xs with
  | nil => simp [h.pending] at hp
  | cons x xs =>
    obtain ⟨w, hmax, hw, hn, hpend, htimeout⟩ := h.exists_popped
    have hle : ∀ y ∈ x :: xs, x.endT ≤ y.endT := h.le_endT (by simp [hpend])
    obtain ⟨v, ys, hv, hlen, ha, hstart⟩ :=
      hw.exists_start hn (s.sim.expire x.endT) x.key work
        (fun y hy => hle y (List.mem_cons_of_mem _ hy)) h0
    refine ⟨⟨v, ((s.sim.expire x.endT).arm ys).arm ys, s.called ++ [(x.work, x.key)]⟩, ys, ?_, ?_,
      x, ?_⟩
    · simp only [step, hpend, htimeout (fun r v sim => v.start sim r.key time work) hstart hv,
        Option.bind_eq_bind, Option.bind_some]
    · exact follows_arm hv hlen (by simpa only [now_arm] using ha) (delays_arm ha h.delays)
    · rw [h.records_eq]
      exact ⟨List.mem_cons_self, hle, rfl⟩

theorem Follows.step (h : s.Follows xs) {e : TimerEvent κ ω} (ht : s.Timely e) (hf : Forward e) :
    ∃ s' xs', s.step e = some s' ∧ s'.Follows xs' ∧ s.Calls e s' := by
  cases e with
  | start t key time work => exact h.start ht hf
  | finish t key => exact h.finish ht
  | timeout time work => exact h.timeout ht

end Timing

/-- Under every sequence of calls without a negative delay the timer of the simulator is the one
of the record in front, and an expiry runs the callback of a record that ends first. -/
theorem timers_multiplexed {κ ω : Type} [DecidableEq κ] (maxTimerN : ℕ)
    (mem : ℕ → ListCell (Record κ ω)) (es : List (TimerEvent κ ω))
    (h : (virtualTimer maxTimerN mem).Meets (fun s e => s.Timely e ∧ Timing.Forward e)
      (virtualTimer maxTimerN mem).init es) :
    (virtualTimer maxTimerN mem).Meets Timing.CallsEarliest (virtualTimer maxTimerN mem).init es ∧
      ∃ s, (virtualTimer maxTimerN mem).run (virtualTimer maxTimerN mem).init es = some s ∧
        s.Multiplexed := by
  have hinit : Timing.Follows (virtualTimer maxTimerN mem).init [] :=
    ⟨LinkedTimer.lists_create maxTimerN mem, Nat.zero_le _, by simp, rfl, by simp [virtualTimer]⟩
  have hstep : ∀ (s : Timing κ ω) (e : TimerEvent κ ω), (∃ xs, s.Follows xs) →
      s.Timely e ∧ Timing.Forward e →
      ∃ s', (virtualTimer maxTimerN mem).step s e = some s' ∧ ∃ xs, s'.Follows xs := by
    rintro s e ⟨xs, hs⟩ ⟨ht, hf⟩
    obtain ⟨s', xs', hs', hx, -⟩ := hs.step ht hf
    exact ⟨s', hs', xs', hx⟩
  constructor
  · refine System.Meets.of_invariant (I := fun s => ∃ xs, s.Follows xs) ?_ ?_ h ⟨[], hinit⟩
    · intro s e s' hs hg hs'
      obtain ⟨u, hu, hf⟩ := hstep s e hs hg
      obtain rfl : u = s' := Option.some.inj (hu.symm.trans hs')
      exact hf
    · rintro s e ⟨xs, hs⟩ ⟨ht, hf⟩ s' hs'
      obtain ⟨u, -, hu, -, hcalls⟩ := hs.step ht hf
      obtain rfl : u = s' := Option.some.inj (hu.symm.trans hs')
      exact hcalls
  · obtain ⟨s, hs, xs, hx⟩ := System.exists_run hstep h ⟨[], hinit⟩
    exact ⟨s, hs, hx.multiplexed⟩

def VirtualTimer.step {ω : Type} (v : VirtualTimer) : TimerEvent ℕ ω → Option VirtualTimer
  | .start t key time _ => v.start t key time
  | .finish _ key => some (v.finish key)
  | .timeout time _ => match v.records with
    | [] => none
    | (key, t) :: rs => { v with records := rs }.start t key time

def timerList (ω : Type) (maxTimerN : ℕ) : System VirtualTimer (TimerEvent ℕ ω) where
  init := { maxTimerN := maxTimerN }
  step := VirtualTimer.step

namespace LinkedTimer

variable {ω : Type} {v : LinkedTimer ℕ ω} {xs : List (Record ℕ ω)}

def virtual (v : LinkedTimer ℕ ω) : VirtualTimer where
  maxTimerN := v.maxTimerN
  records := v.list.toList.map fun x => (x.key, x.endT)

theorem Lists.virtual_eq (h : v.Lists xs) :
    v.virtual = ⟨v.maxTimerN, xs.map fun x => (x.key, x.endT)⟩ := by
  rw [virtual, h.represents.toList_eq]

theorem insert_append {key : ℕ} {t : ℚ} {rs qs : List (ℕ × ℚ)} (hr : ∀ r ∈ rs, r.2 < t)
    (hq : ∀ q ∈ qs.head?, t ≤ q.2) :
    VirtualTimer.insert key t (rs ++ qs) = rs ++ (key, t) :: qs := by
  induction rs with
  | nil =>
    cases qs with
    | nil => rfl
    | cons q qs => exact if_neg (not_lt_of_ge (hq q rfl))
  | cons r rs ih =>
    rw [List.cons_append, VirtualTimer.insert, if_pos (hr r List.mem_cons_self),
      ih fun r' hr' => hr r' (List.mem_cons_of_mem _ hr'), List.cons_append]

theorem Lists.start_virtual (h : v.Lists xs) (hn : v.timerN < v.maxTimerN) (sim : Simulator)
    (key : ℕ) (time : ℚ) (work : ω) :
    (v.start sim key time work).map (fun r => r.1.virtual) =
      v.virtual.start sim.now key time := by
  obtain ⟨v', ys, zs, rfl, hy, hz, hmax, hv, hstart⟩ := h.start hn sim key time work
  have hlen : (ys ++ zs).length < v.maxTimerN := by rwa [← h.count]
  rw [hstart, Option.map_some, hv.virtual_eq, h.virtual_eq, hmax, VirtualTimer.start,
    List.length_map, if_pos hlen, List.map_append, List.map_append, List.map_cons, insert_append]
  · simpa using hy
  · simpa using hz

theorem Lists.finish_virtual (h : v.Lists xs) (sim : Simulator) (key : ℕ) :
    (v.finish sim key).map (fun r => r.1.virtual) = some (v.virtual.finish key) := by
  obtain ⟨v', sim', hfinish, hmax, hv, -⟩ := h.finish sim key
  rw [hfinish, Option.map_some, hv.virtual_eq, h.virtual_eq, hmax, VirtualTimer.finish_natCast,
    List.eraseP_map]
  rfl

end LinkedTimer

namespace Timing

variable {ω : Type} {s s' : Timing ℕ ω} {xs : List (Record ℕ ω)} {e : TimerEvent ℕ ω}

theorem Follows.timeout_virtual (h : s.Follows xs) {time : ℚ} {work : ω}
    (hs : s.step (.timeout time work) = some s') :
    s.timer.virtual.step (.timeout time work : TimerEvent ℕ ω) = some s'.timer.virtual := by
  cases xs with
  | nil =>
    have hp : s.sim.pending = none := h.pending
    simp [Timing.step, hp] at hs
  | cons x xs =>
    obtain ⟨w, hmax, hw, hn, hp, htimeout⟩ := h.exists_popped
    have hv := hw.start_virtual hn (s.sim.expire x.endT) x.key time work
    obtain ⟨v, ys, zs, -, -, -, -, hlists, hstart⟩ :=
      hw.start hn (s.sim.expire x.endT) x.key time work
    simp only [Timing.step, hp, htimeout (fun r v sim => v.start sim r.key time work) hstart hlists,
      Option.bind_eq_bind, Option.bind_some] at hs
    obtain rfl := Option.some.inj hs
    rw [hstart, Option.map_some, hw.virtual_eq, hmax] at hv
    rw [h.lists.virtual_eq]
    exact hv.symm

/-- A step of the linked timers is one of the list in the sender's model. -/
theorem Follows.step_virtual (h : s.Follows xs) (ht : s.Timely e) (hs : s.step e = some s') :
    s.timer.virtual.step e = some s'.timer.virtual := by
  cases e with
  | start t key time work =>
    have hn : s.timer.timerN < s.timer.maxTimerN := by
      rw [h.lists.count, ← h.records_eq]
      exact ht.2.2
    obtain ⟨⟨v, sim⟩, hv, hs⟩ := Option.bind_eq_some_iff.mp hs
    obtain rfl := Option.some.inj hs
    have hstart := h.lists.start_virtual hn (s.sim.advance t) key time work
    rw [hv] at hstart
    exact hstart.symm
  | finish t key =>
    obtain ⟨⟨v, sim⟩, hv, hs⟩ := Option.bind_eq_some_iff.mp hs
    obtain rfl := Option.some.inj hs
    have hfinish := h.lists.finish_virtual (s.sim.advance t) key
    rw [hv] at hfinish
    exact hfinish.symm
  | timeout time work => exact h.timeout_virtual hs

end Timing

/-- The linked timers and the list of the sender's model go through the same runs. -/
theorem timers_refine_list {ω : Type} {maxTimerN : ℕ} {mem : ℕ → ListCell (Record ℕ ω)}
    {es : List (TimerEvent ℕ ω)} {s : Timing ℕ ω} {xs : List (Record ℕ ω)} (hi : s.Follows xs)
    (h : (virtualTimer maxTimerN mem).Meets (fun s e => s.Timely e ∧ Timing.Forward e) s es) :
    ∃ s', (virtualTimer maxTimerN mem).run s es = some s' ∧
      (timerList ω maxTimerN).run s.timer.virtual es = some s'.timer.virtual := by
  induction es generalizing s xs with
  | nil => exact ⟨s, rfl, rfl⟩
  | cons e es ih =>
    obtain ⟨u, ys, hu, hf, -⟩ := hi.step h.1.1 h.1.2
    obtain ⟨s', hrun, hlist⟩ := ih hf (h.2 u hu)
    exact ⟨s', System.run_cons_eq_some.mpr ⟨u, hu, hrun⟩,
      System.run_cons_eq_some.mpr ⟨_, hi.step_virtual h.1.1 hu, hlist⟩⟩

def blank : ℕ → ListCell (Record ℕ Unit) := fun _ => ⟨⟨0, 0, ()⟩, none⟩

/-- Two timers end together, one is ended by its key and the other expires. -/
theorem timers_multiplexed_tie :
    (virtualTimer 2 blank).Meets Timing.CallsEarliest (virtualTimer 2 blank).init
        [.start 0 1 1 (), .start 0 2 1 (), .finish 1 1, .timeout 1 ()] ∧
      ∃ s, (virtualTimer 2 blank).run (virtualTimer 2 blank).init
          [.start 0 1 1 (), .start 0 2 1 (), .finish 1 1, .timeout 1 ()] = some s ∧
        s.Multiplexed :=
  timers_multiplexed 2 blank _ (by decide +kernel)

/-- A negative delay starts the timer of the simulator in the past: the event is dropped, and
the record waits for nothing. -/
theorem negative_delay_lost :
    (virtualTimer 1 blank).Meets (fun s e => s.Timely e) (virtualTimer 1 blank).init
        [.start 0 7 (-1) ()] ∧
      ∃ s, (virtualTimer 1 blank).run (virtualTimer 1 blank).init [.start 0 7 (-1) ()] = some s ∧
        s.sim.delays = [-1] ∧ s.sim.pending = none ∧ s.records.map Record.key = [7] ∧
        ¬ s.Multiplexed := by
  refine ⟨by decide +kernel, _, System.run_after _ _ _ (by decide +kernel), by decide +kernel,
    by decide +kernel, by decide +kernel, ?_⟩
  intro h
  have hd := h.delays (-1)
  revert hd
  decide +kernel

end DistLab.Rdt
