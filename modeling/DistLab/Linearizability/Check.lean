import Mathlib.Algebra.Order.BigOperators.Group.Finset
import DistLab.Linearizability.Entries
import DistLab.Systems.Progress

/-! # Checking the parts of a history

`CheckOperationsTimeout` and `CheckEventsTimeout` start a goroutine for each part of the
history and receive their results until one is negative, all have come, or the time is over.
The goroutines run at any speed and see `kill` whenever it is set. In every run the result
is that of the parts, and every run comes to a result if there is a part or a timeout.
-/

namespace DistLab.Linearizability

variable {ι ο σ : Type}

/-- A goroutine searches, waits to send its result, or has sent it. -/
inductive Goroutine (ι ο σ : Type) where
  | running (s : Search ι ο σ)
  | offers (result : Bool)
  | ended

structure Check (ι ο σ : Type) where
  goroutines : List (Goroutine ι ο σ)
  kill : Bool := false
  ok : Bool := true
  count : ℕ := 0
  returned : Option Bool := none

inductive CheckEvent where
  | tick (k : ℕ)
  | receive (k : ℕ)
  | timeout

namespace Check

def receive (c : Check ι ο σ) (result : Bool) : Check ι ο σ :=
  let ok := c.ok && result
  if !ok then { c with ok := ok, kill := true, returned := some ok }
  else if c.count + 1 ≥ c.goroutines.length then
    { c with ok := ok, count := c.count + 1, returned := some ok }
  else { c with ok := ok, count := c.count + 1 }

def step (model : FullModel ι ο σ) (timeout : Bool) (c : Check ι ο σ) :
    CheckEvent → Option (Check ι ο σ)
  | .tick k =>
    match c.goroutines[k]? with
    | some (.running s) => (s.tick model c.kill).map fun
      | .inl s => { c with goroutines := c.goroutines.set k (.running s) }
      | .inr result => { c with goroutines := c.goroutines.set k (.offers result) }
    | _ => none
  | .receive k =>
    match c.goroutines[k]?, c.returned with
    | some (.offers result), none =>
      some (receive { c with goroutines := c.goroutines.set k .ended } result)
    | _, _ => none
  | .timeout =>
    if timeout && c.returned.isNone then some { c with returned := some c.ok } else none

end Check

def check (model : FullModel ι ο σ) (timeout : Bool) (subhistories : List (Linking ι ο)) :
    System (Check ι ο σ) CheckEvent where
  init := { goroutines := subhistories.map fun l => .running (Search.start model l) }
  step := Check.step model timeout

def checkOperationsTimeout [DecidableEq σ] (sorter : Sorter ι ο) (model : Model ι ο σ)
    (timeout : Bool) (history : List (Operation ι ο)) : System (Check ι ο σ) CheckEvent :=
  check (fillDefault model) timeout
    (((fillDefault model).partition history).map fun subhistory =>
      makeLinkedEntries (makeEntries sorter subhistory))

def checkOperations [DecidableEq σ] (sorter : Sorter ι ο) (model : Model ι ο σ)
    (history : List (Operation ι ο)) : System (Check ι ο σ) CheckEvent :=
  checkOperationsTimeout sorter model false history

def checkEventsTimeout [DecidableEq σ] (model : Model ι ο σ) (timeout : Bool)
    (history : List (Event ι ο)) : System (Check ι ο σ) CheckEvent :=
  check (fillDefault model) timeout
    (((fillDefault model).partitionEvent history).map fun subhistory =>
      makeLinkedEntries (convertEntries (renumber subhistory)))

section Loop

variable {model : FullModel ι ο σ} {timeout kill : Bool} {answer : ℕ → Bool} {parts n k : ℕ}
  {c c' : Check ι ο σ} {g g' : Goroutine ι ο σ} {e : CheckEvent} {a : Bool}

def Goroutine.isEnded : Goroutine ι ο σ → Bool
  | .ended => true
  | _ => false

/-- What a goroutine will answer, as long as it is not killed, and how much it has to do. -/
inductive Goroutine.Owes (model : FullModel ι ο σ) (kill : Bool) :
    Goroutine ι ο σ → Bool → ℕ → Prop
  | running {s : Search ι ο σ} {a : Bool} {n : ℕ} (h : EndsIn model n s a) :
    Owes model kill (.running s) a (n + 2)
  | offers {result a : Bool} (h : kill = false → result = a) : Owes model kill (.offers result) a 1
  | ended {a : Bool} (h : kill = false → a = true) : Owes model kill .ended a 0

/-- The answers of the parts are on their way or taken into account. -/
structure Check.Sound (model : FullModel ι ο σ) (timeout : Bool) (answer : ℕ → Bool)
    (parts n : ℕ) (c : Check ι ο σ) : Prop where
  length : c.goroutines.length = parts
  owes : ∃ cost : ℕ → ℕ,
    (∀ k g, c.goroutines[k]? = some g → Goroutine.Owes model c.kill g (answer k) (cost k)) ∧
      (∑ k ∈ Finset.range parts, cost k) + (if c.returned = none then 1 else 0) = n
  waiting : c.returned = none → c.ok = true ∧ c.kill = false ∧
    c.count = c.goroutines.countP Goroutine.isEnded ∧ (0 < parts → c.count < parts)
  refused : c.returned = some false → ∃ k < parts, answer k = false
  accepted : c.returned = some true → timeout = false → ∀ k < parts, answer k = true

theorem Goroutine.Owes.set_kill (h : g.Owes model kill a n) : g.Owes model true a n := by
  cases h with
  | running h => exact .running h
  | offers h => exact .offers nofun
  | ended h => exact .ended nofun

theorem Goroutine.Owes.exists_endsIn {s : Search ι ο σ} (h : Owes model kill (.running s) a n) :
    ∃ m, n = m + 2 ∧ EndsIn model m s a := by
  cases h with
  | running h => exact ⟨_, rfl, h⟩

theorem Goroutine.Owes.offers_eq {result : Bool} (h : Owes model kill (.offers result) a n)
    (hkill : kill = false) : n = 1 ∧ result = a := by
  cases h with
  | offers h => exact ⟨rfl, h hkill⟩

theorem Goroutine.Owes.eq_true (h : g.Owes model kill a n) (hg : g.isEnded = true)
    (hkill : kill = false) : a = true := by
  cases h with
  | running _ => cases hg
  | offers _ => cases hg
  | ended h => exact h hkill

theorem receive_false :
    c.receive false = { c with ok := false, kill := true, returned := some false } := by
  simp [Check.receive]

theorem receive_true (hok : c.ok = true) : c.receive true =
    if c.count + 1 ≥ c.goroutines.length then
      { c with count := c.count + 1, returned := some true }
    else { c with count := c.count + 1 } := by
  simp [Check.receive, hok]

theorem sum_update_lt {cost : ℕ → ℕ} {m : ℕ} (hk : k < parts) (hm : m < cost k) :
    ∑ i ∈ Finset.range parts, Function.update cost k m i < ∑ i ∈ Finset.range parts, cost i := by
  refine Finset.sum_lt_sum (fun i _ => ?_) ⟨k, Finset.mem_range.mpr hk, by simpa using hm⟩
  by_cases hi : i = k
  · subst hi
    simpa using hm.le
  · simp [hi]

theorem owes_set {gs : List (Goroutine ι ο σ)} {cost : ℕ → ℕ} {m : ℕ}
    (h : ∀ k g, gs[k]? = some g → Goroutine.Owes model kill g (answer k) (cost k))
    (hg : g'.Owes model kill (answer k) m) :
    ∀ i g, (gs.set k g')[i]? = some g →
      Goroutine.Owes model kill g (answer i) (Function.update cost k m i) := by
  intro i g hi
  by_cases hik : i = k
  · subst hik
    rw [Function.update_self]
    rw [List.getElem?_set_self'] at hi
    obtain ⟨-, -, rfl⟩ := Option.map_eq_some_iff.mp hi
    exact hg
  · rw [List.getElem?_set_ne (Ne.symm hik)] at hi
    rw [Function.update_of_ne hik]
    exact h i g hi

namespace Check.Sound

variable (h : c.Sound model timeout answer parts n)

include h

theorem lt_parts (hk : c.goroutines[k]? = some g) : k < parts := by
  rw [← h.length]
  exact (List.getElem?_eq_some_iff.mp hk).1

theorem tick {s : Search ι ο σ} (hk : c.goroutines[k]? = some (.running s))
    (hg' : g'.isEnded = false)
    (howes : ∀ m, EndsIn model m s (answer k) → ∃ m' < m + 2, g'.Owes model c.kill (answer k) m') :
    ∃ m < n, Sound model timeout answer parts m { c with goroutines := c.goroutines.set k g' } := by
  obtain ⟨cost, howe, rfl⟩ := h.owes
  obtain ⟨m, hm, hend⟩ := (howe k _ hk).exists_endsIn
  obtain ⟨m', hlt, hnew⟩ := howes m hend
  refine ⟨_, Nat.add_lt_add_right (sum_update_lt (h.lt_parts hk) (hm ▸ hlt)) _, ?_⟩
  refine ⟨by simpa using h.length, ⟨_, owes_set howe hnew, rfl⟩, ?_, h.refused, h.accepted⟩
  intro hnone
  obtain ⟨hok, hkill, hcount, hlt⟩ := h.waiting hnone
  refine ⟨hok, hkill, ?_, hlt⟩
  obtain ⟨hlen, hget⟩ := List.getElem?_eq_some_iff.mp hk
  rw [hcount, List.countP_set hlen, hget, hg']
  simp [Goroutine.isEnded]

theorem receive {result : Bool} (hk : c.goroutines[k]? = some (.offers result))
    (hnone : c.returned = none) :
    ∃ m < n, Sound model timeout answer parts m
      (Check.receive { c with goroutines := c.goroutines.set k .ended } result) := by
  obtain ⟨hok, hkill, hcount, hlt⟩ := h.waiting hnone
  obtain ⟨cost, howe, rfl⟩ := h.owes
  have hkp := h.lt_parts hk
  obtain ⟨hcost, rfl⟩ := (howe k _ hk).offers_eq hkill
  have hsum : ∑ i ∈ Finset.range parts, Function.update cost k 0 i <
      ∑ i ∈ Finset.range parts, cost i := sum_update_lt hkp (by omega)
  have hlen : (c.goroutines.set k .ended).length = parts := by simpa using h.length
  rw [if_pos hnone]
  cases ha : answer k with
  | false =>
    have howe' := owes_set (fun i g hi => (howe i g hi).set_kill)
      (show Goroutine.ended.Owes model true (answer k) 0 from .ended nofun)
    rw [receive_false]
    refine ⟨_, ?_, hlen, ⟨_, howe', rfl⟩, nofun, fun _ => ⟨k, hkp, ha⟩, nofun⟩
    simp only [reduceCtorEq, if_false]
    omega
  | true =>
    have howe' := owes_set howe
      (show Goroutine.ended.Owes model c.kill (answer k) 0 from .ended fun _ => ha)
    have hcount' : c.count + 1 = (c.goroutines.set k .ended).countP Goroutine.isEnded := by
      obtain ⟨hkl, hget⟩ := List.getElem?_eq_some_iff.mp hk
      rw [hcount, List.countP_set hkl, hget]
      simp [Goroutine.isEnded]
    rw [receive_true (by exact hok)]
    split
    case isTrue hall =>
      refine ⟨_, ?_, hlen, ⟨_, howe', rfl⟩, nofun, nofun, fun _ _ i hi => ?_⟩
      · simp only [reduceCtorEq, if_false]
        omega
      · rw [ge_iff_le, hcount'] at hall
        have hended := List.countP_eq_length.mp (le_antisymm List.countP_le_length hall)
        have hget := List.getElem?_eq_getElem (hlen ▸ hi)
        exact (howe' i _ hget).eq_true (hended _ (List.getElem_mem _)) hkill
    case isFalse hmore =>
      refine ⟨_, ?_, hlen, ⟨_, howe', rfl⟩, fun _ => ⟨hok, hkill, hcount', fun _ => ?_⟩, ?_, ?_⟩
      · rw [if_pos hnone]
        omega
      · simp only [hlen] at hmore
        simp only
        omega
      · exact h.refused
      · exact h.accepted

theorem step (hs : c.step model timeout e = some c') :
    ∃ m < n, Sound model timeout answer parts m c' := by
  cases e with
  | tick k =>
    rw [Check.step] at hs
    split at hs
    case h_1 s hk =>
      obtain ⟨x, hx, rfl⟩ := Option.map_eq_some_iff.mp hs
      cases x with
      | inl s' =>
        refine h.tick hk rfl fun m hend => ?_
        rcases hend.tick hx with ⟨s₁, m', heq, rfl, hend'⟩ | ⟨r, heq, -⟩
        · obtain rfl := Sum.inl.inj heq
          exact ⟨m' + 2, by omega, .running hend'⟩
        · cases heq
      | inr result =>
        refine h.tick hk rfl fun m hend => ?_
        rcases hend.tick hx with ⟨s₁, m', heq, -, -⟩ | ⟨r, heq, hr⟩
        · cases heq
        · obtain rfl := Sum.inr.inj heq
          exact ⟨1, by omega, .offers hr⟩
    case h_2 => cases hs
  | receive k =>
    rw [Check.step] at hs
    split at hs
    case h_1 result hk hnone =>
      obtain rfl := Option.some.inj hs
      exact h.receive hk hnone
    case h_2 => cases hs
  | timeout =>
    rw [Check.step] at hs
    obtain ⟨ht, hc⟩ := Option.ite_none_right_eq_some.mp hs
    obtain rfl := Option.some.inj hc
    obtain ⟨rfl, hnone⟩ : timeout = true ∧ c.returned = none := by simpa using ht
    obtain ⟨hok, -⟩ := h.waiting hnone
    obtain ⟨cost, howe, rfl⟩ := h.owes
    refine ⟨_, ?_, h.length, ⟨cost, howe, rfl⟩, nofun, ?_, nofun⟩
    · simp [hnone]
    · simp [hok]

theorem progress (hp : timeout = true ∨ 0 < parts) :
    c.returned.isSome ∨ ∃ e c', c.step model timeout e = some c' := by
  cases hr : c.returned with
  | some r => exact .inl rfl
  | none =>
    refine .inr ?_
    rcases hp with rfl | hp
    · exact ⟨.timeout, by simp [Check.step, hr]⟩
    obtain ⟨-, hkill, hcount, hlt⟩ := h.waiting hr
    obtain ⟨cost, howe, -⟩ := h.owes
    have hex : ∃ g ∈ c.goroutines, ¬ g.isEnded = true := by
      by_contra hall
      push Not at hall
      have := List.countP_eq_length.mpr hall
      have := hlt hp
      have := h.length
      omega
    obtain ⟨g, hg, hnot⟩ := hex
    obtain ⟨k, hk⟩ := List.mem_iff_getElem?.mp hg
    cases g with
    | running s =>
      obtain ⟨m, -, hend⟩ := (howe k _ hk).exists_endsIn
      obtain ⟨x, hx⟩ : ∃ x, s.tick model false = some x := by
        cases m with
        | zero => exact ⟨_, hend⟩
        | succ m =>
          obtain ⟨s', hs', -⟩ := hend
          exact ⟨_, hs'⟩
      refine ⟨.tick k, ?_⟩
      simp [Check.step, hk, hkill, hx]
    | offers result =>
      refine ⟨.receive k, ?_⟩
      simp [Check.step, hk, hr]
    | ended => exact absurd rfl hnot

end Check.Sound

theorem check_nil {es : List CheckEvent}
    (hrun : (check model false []).run (check model false []).init es = some c) :
    es = [] ∧ c.returned = none := by
  cases es with
  | nil =>
    obtain rfl := Option.some.inj hrun
    exact ⟨rfl, rfl⟩
  | cons e es =>
    obtain ⟨c', hstep, -⟩ := System.run_cons_eq_some.mp hrun
    cases e <;> simp [check, Check.step] at hstep

section Parts

variable {π : Type} {histories : List π} {link : π → Linking ι ο} {P : π → Bool → Prop}
  {es : List CheckEvent}
  (hends : ∀ p ∈ histories, ∃ n result, EndsIn model n (.start model (link p)) result ∧ P p result)

include hends

theorem exists_sound (timeout : Bool) : ∃ answer n,
    (check model timeout (histories.map link)).init.Sound model
    timeout answer histories.length n ∧ ∀ k p, histories[k]? = some p → P p (answer k) := by
  have hk : ∀ k : ℕ, ∃ a m, ∀ p, histories[k]? = some p →
      EndsIn model m (.start model (link p)) a ∧ P p a := by
    intro k
    cases hk : histories[k]? with
    | none => exact ⟨true, 0, nofun⟩
    | some p =>
      obtain ⟨n, a, hn, hp⟩ := hends p (List.mem_of_getElem? hk)
      exact ⟨a, n, fun p' hp' => Option.some.inj hp' ▸ ⟨hn, hp⟩⟩
  choose answer cost hk using hk
  refine ⟨answer, _, ⟨?_, ⟨fun k => cost k + 2, ?_, rfl⟩, fun _ => ?_, nofun, nofun⟩, ?_⟩
  · simp [check]
  · intro k g hg
    simp only [check, List.getElem?_map, Option.map_eq_some_iff] at hg
    obtain ⟨_, ⟨p, hp, rfl⟩, rfl⟩ := hg
    exact .running (hk k p hp).1
  · refine ⟨rfl, rfl, ?_, id⟩
    symm
    simp [check, List.countP_eq_zero, Goroutine.isEnded]
  · exact fun k p hp => (hk k p hp).2

/-- A negative result is that of a part, and a positive one that of all parts. -/
theorem check_sound (hrun : (check model timeout (histories.map link)).run
      (check model timeout (histories.map link)).init es = some c) :
    (c.returned = some false → ∃ p ∈ histories, P p false) ∧
      (c.returned = some true → timeout = false → ∀ p ∈ histories, P p true) := by
  obtain ⟨answer, n, hinit, hP⟩ := exists_sound hends timeout
  obtain ⟨m, -, hc⟩ := System.run_budget (fun _ _ _ _ h hs => h.step hs) hrun hinit
  constructor
  · intro hfalse
    obtain ⟨k, hk, ha⟩ := hc.refused hfalse
    have := hP k _ (List.getElem?_eq_getElem hk)
    exact ⟨_, List.getElem_mem hk, ha ▸ this⟩
  · intro htrue ht p hp
    obtain ⟨k, hk⟩ := List.mem_iff_getElem?.mp hp
    have hlt := (List.getElem?_eq_some_iff.mp hk).1
    exact hc.accepted htrue ht k hlt ▸ hP k p hk

/-- The runs of a check are bounded, and each can be continued to a result, unless there is
nothing to wait for. -/
theorem check_returns :
    (∃ bound, ∀ es c, (check model timeout (histories.map link)).run
        (check model timeout (histories.map link)).init es = some c → es.length ≤ bound) ∧
      ∀ es c, (check model timeout (histories.map link)).run
        (check model timeout (histories.map link)).init es = some c →
        ((∃ fs c', (check model timeout (histories.map link)).run c fs = some c' ∧
          c'.returned.isSome) ↔ timeout = true ∨ histories ≠ []) := by
  obtain ⟨answer, n, hinit, -⟩ := exists_sound hends timeout
  constructor
  · refine ⟨n, fun es c hrun => ?_⟩
    obtain ⟨m, hm, -⟩ := System.run_budget (fun _ _ _ _ h hs => h.step hs) hrun hinit
    omega
  · intro es c hrun
    constructor
    · rintro ⟨fs, c', hfs, hsome⟩
      by_contra hno
      obtain ⟨hto, rfl⟩ : timeout = false ∧ histories = [] := by simpa using hno
      subst hto
      obtain ⟨rfl, -⟩ := check_nil hrun
      obtain rfl := Option.some.inj hrun
      rw [(check_nil hfs).2] at hsome
      cases hsome
    · intro hwait
      obtain ⟨m, -, hc⟩ := System.run_budget (fun _ _ _ _ h hs => h.step hs) hrun hinit
      exact System.exists_run_goal (fun _ _ _ _ h hs => h.step hs)
        (fun _ _ h => h.progress (hwait.imp_right List.length_pos_iff.mpr)) hc

end Parts

end Loop

end DistLab.Linearizability
