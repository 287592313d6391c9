import Mathlib.Data.List.Sort
import DistLab.Linearizability.Check

/-! # Histories of operations

What `checkSingle` and `CheckOperations` say about a history, in which every operation
returns after its call. A positive result is a linearization in which operations keep the
order of time. A negative one excludes linearizations that also keep the order of an
operation that returns and one that is called at the same time.
-/

namespace DistLab.Linearizability

variable {ι ο σ : Type}

/-- Every operation returns after its call. -/
def Timed (history : List (Operation ι ο)) : Prop := ∀ op ∈ history, op.call < op.ret

/-- No operation is called at the time at which one returns. -/
def NoTies (history : List (Operation ι ο)) : Prop :=
  ∀ a ∈ history, ∀ b ∈ history, a.ret ≠ b.call

/-- The operations are linearizable with respect to the model. -/
def FullModel.Accepts (model : FullModel ι ο σ) (history : List (Operation ι ο)) : Prop :=
  Linearizable (opStep model) Before model.init history

/-- As `Accepts`, with operations that return at the time of a call ordered before it. -/
def FullModel.AcceptsStrictly (model : FullModel ι ο σ) (history : List (Operation ι ο)) : Prop :=
  Linearizable (opStep model) BeforeOrAt model.init history

variable {model : FullModel ι ο σ} {history : List (Operation ι ο)} {sorter : Sorter ι ο}

theorem FullModel.AcceptsStrictly.accepts (h : model.AcceptsStrictly history) :
    model.Accepts history :=
  Linearizable.mono h fun _ _ _ _ hb => hb.le

theorem acceptsStrictly_iff (ht : NoTies history) :
    model.AcceptsStrictly history ↔ model.Accepts history := by
  constructor
  · exact FullModel.AcceptsStrictly.accepts
  · intro h
    exact Linearizable.mono h fun a ha b hb hle => lt_of_le_of_ne hle (ht a ha b hb)

theorem logs_makeEntries (sorter : Sorter ι ο) (ht : Timed history) :
    Logs history.zipIdx (makeEntries sorter history) where
  perm := sorter.perm _
  sorted := sorter.sorted _
  nodup := by
    rw [List.zipIdx_map_snd]
    exact List.nodup_range'
  small x hx := by
    rw [List.length_zipIdx]
    exact (List.mem_zipIdx' hx).1
  order x hx := ht x.1 (List.fst_mem_of_mem_zipIdx hx)

def insertionSorter : Sorter ι ο where
  sort es := es.insertionSort (·.time ≤ ·.time)
  perm := List.perm_insertionSort _
  sorted es := by
    have : IsTrans (Entry ι ο) (·.time ≤ ·.time) := ⟨fun _ _ _ => le_trans⟩
    have : Std.Total fun a b : Entry ι ο => a.time ≤ b.time :=
      ⟨fun a b => le_total a.time b.time⟩
    exact List.pairwise_insertionSort _ es

def adder : Model ℕ ℕ ℕ where
  init := 0
  step state input output := (output = state, state + input)

def twoAdds : List (Operation ℕ ℕ) := [⟨1, 0, 2, 5⟩, ⟨2, 1, 0, 4⟩]

theorem congruent_of_equal_eq_none [DecidableEq σ] {user : Model ι ο σ} (h : user.equal = none) :
    Congruent (fillDefault user) := by
  intro t t' input output heq hok
  obtain rfl : t = t' := by simpa [fillDefault, h, shallowEqual] using heq
  exact ⟨hok, by simp [fillDefault, h, shallowEqual]⟩

theorem timed_twoAdds : Timed twoAdds := by
  unfold Timed
  decide

theorem congruent_adder : Congruent (fillDefault adder) := congruent_of_equal_eq_none rfl

theorem exists_endsIn_makeEntries (sorter : Sorter ι ο) (hc : Congruent model)
    (ht : Timed history) :
    ∃ n result, EndsIn model n
        (.start model (makeLinkedEntries (makeEntries sorter history))) result ∧
      (result = true → model.Accepts history) ∧
      (result = false → ¬ model.AcceptsStrictly history) := by
  have h := (logs_makeEntries sorter ht).exists_endsIn hc
  rwa [List.zipIdx_map_fst] at h

/-- `checkSingle` returns, and decides whether the history is linearizable. However it is
killed, it is only positive about histories that are. -/
theorem checkSingle_decides (sorter : Sorter ι ο) (hc : Congruent model) (ht : Timed history) :
    ∃ bound result,
      (∀ fuel > bound, checkSingle model (fun _ => false) fuel
        (makeLinkedEntries (makeEntries sorter history)) = some result) ∧
      (result = true → model.Accepts history) ∧
      (result = false → ¬ model.AcceptsStrictly history) ∧
      ∀ kill fuel, checkSingle model kill fuel
        (makeLinkedEntries (makeEntries sorter history)) = some true → model.Accepts history := by
  obtain ⟨n, result, hend, htrue, hfalse⟩ := exists_endsIn_makeEntries sorter hc ht
  refine ⟨n, result, fun fuel hfuel => hend.loop hfuel 0, htrue, hfalse, ?_⟩
  intro kill fuel hl
  exact htrue (hend.of_loop hl)

theorem accepts_twoAdds : (fillDefault adder).Accepts twoAdds := by
  obtain ⟨_, _, -, -, -, h⟩ :=
    checkSingle_decides insertionSorter congruent_adder timed_twoAdds
  exact h (fun _ => false) 20 (by decide)

section Timeout

variable [DecidableEq σ] {user : Model ι ο σ} {timeout : Bool} {es : List CheckEvent}
  {c : Check ι ο σ}

/-- However the goroutines are scheduled, `CheckOperationsTimeout` is negative only if a part of
the history is not linearizable with its ties ordered, and without a timeout positive only if all
parts are linearizable. -/
theorem checkOperationsTimeout_sound (hc : Congruent (fillDefault user))
    (ht : ∀ p ∈ (fillDefault user).partition history, Timed p)
    (hrun : (checkOperationsTimeout sorter user timeout history).run
      (checkOperationsTimeout sorter user timeout history).init es = some c) :
    (c.returned = some false →
      ∃ p ∈ (fillDefault user).partition history, ¬ (fillDefault user).AcceptsStrictly p) ∧
    (c.returned = some true → timeout = false →
      ∀ p ∈ (fillDefault user).partition history, (fillDefault user).Accepts p) := by
  obtain ⟨hneg, hpos⟩ := check_sound
    (fun p hp => exists_endsIn_makeEntries sorter hc (ht p hp)) hrun
  constructor
  · intro hfalse
    obtain ⟨p, hp, -, hnot⟩ := hneg hfalse
    exact ⟨p, hp, hnot rfl⟩
  · exact fun htrue hto p hp => (hpos htrue hto p hp).1 rfl

theorem checkOperations_twoAdds : (fillDefault adder).Accepts twoAdds := by
  have hrun := System.run_after (checkOperationsTimeout insertionSorter adder false twoAdds)
    (checkOperationsTimeout insertionSorter adder false twoAdds).init
    [.tick 0, .tick 0, .tick 0, .tick 0, .receive 0] (by decide)
  refine (checkOperationsTimeout_sound congruent_adder ?_ hrun).2 (by decide) rfl twoAdds
    List.mem_cons_self
  exact fun p hp => List.mem_singleton.mp hp ▸ timed_twoAdds

/-- The runs of `CheckOperationsTimeout` are bounded, and at every moment it can still come to
return if and only if there is a part or a timeout. -/
theorem checkOperationsTimeout_returns (hc : Congruent (fillDefault user))
    (ht : ∀ p ∈ (fillDefault user).partition history, Timed p) :
    (∃ bound, ∀ es c, (checkOperationsTimeout sorter user timeout history).run
        (checkOperationsTimeout sorter user timeout history).init es = some c →
        es.length ≤ bound) ∧
      ∀ es c, (checkOperationsTimeout sorter user timeout history).run
        (checkOperationsTimeout sorter user timeout history).init es = some c →
        ((∃ fs c', (checkOperationsTimeout sorter user timeout history).run c fs = some c' ∧
          c'.returned.isSome) ↔ timeout = true ∨ (fillDefault user).partition history ≠ []) :=
  check_returns fun p hp => exists_endsIn_makeEntries sorter hc (ht p hp)

theorem checkOperations_twoAdds_returns :
    ∃ fs c, (checkOperationsTimeout insertionSorter adder false twoAdds).run
      (checkOperationsTimeout insertionSorter adder false twoAdds).init fs = some c ∧
        c.returned.isSome :=
  ((checkOperationsTimeout_returns congruent_adder
    (fun _ hp => List.mem_singleton.mp hp ▸ timed_twoAdds)).2 [] _ rfl).mpr
    (.inr (List.cons_ne_nil twoAdds []))

end Timeout

end DistLab.Linearizability
