import DistLab.Linearizability.Operations

/-! # The key-value model

Translation of `models.go`. The history is split by key, and the state of a part is the value
of its key. A verdict on the parts is one on the history as that of a store with all keys.
A history without operations has no part, so that no result ever comes.
-/

namespace DistLab.Linearizability

abbrev GoString := List UInt8

structure KvInput where
  op : UInt8
  key : GoString
  value : GoString
deriving DecidableEq

structure KvOutput where
  value : GoString
deriving DecidableEq

abbrev KvOperation := Operation KvInput KvOutput

abbrev KvMap := List (GoString × List KvOperation)

def appendAt (key : GoString) (v : KvOperation) : KvMap → KvMap
  | [] => [(key, [v])]
  | (k, ops) :: m => if k = key then (k, ops ++ [v]) :: m else (k, ops) :: appendAt key v m

/-- The order in which a map is ranged over, which may be any. -/
structure RangeOrder where
  range : KvMap → KvMap
  perm : ∀ m, (range m).Perm m

def kvPartition (order : RangeOrder) (history : List KvOperation) : List (List KvOperation) :=
  (order.range (history.foldl (fun m v => appendAt v.input.key v m) [])).map Prod.snd

def kvStep (st : GoString) (inp : KvInput) (out : KvOutput) : Bool × GoString :=
  if inp.op = 0 then (out.value = st, st)
  else if inp.op = 1 then (true, inp.value)
  else (true, st ++ inp.value)

def kvModel (order : RangeOrder) : Model KvInput KvOutput GoString where
  partition := some (kvPartition order)
  init := []
  step := kvStep
  equal := some shallowEqual

/-- One step of a store with all keys, for which the operation must be right. -/
def storeStep (store : GoString → GoString) (op : KvOperation) : Option (GoString → GoString) :=
  if op.input.op = 0 then if op.output.value = store op.input.key then some store else none
  else if op.input.op = 1 then some (Function.update store op.input.key op.input.value)
  else some (Function.update store op.input.key (store op.input.key ++ op.input.value))

section Partition

variable {history : List KvOperation} {order : RangeOrder} {v : KvOperation} {k : GoString}

def onKey (history : List KvOperation) (k : GoString) : List KvOperation :=
  history.filter (·.input.key = k)

def groupsOf (history : List KvOperation) (keys : List GoString) : KvMap :=
  keys.map fun k => (k, onKey history k)

theorem onKey_append_self :
    onKey (history ++ [v]) v.input.key = onKey history v.input.key ++ [v] := by
  simp [onKey]

theorem onKey_append_of_ne (h : v.input.key ≠ k) : onKey (history ++ [v]) k = onKey history k := by
  simp [onKey, h]

theorem onKey_eq_nil (h : ∀ v ∈ history, v.input.key ≠ k) : onKey history k = [] := by
  simpa [onKey, List.filter_eq_nil_iff] using h

theorem appendAt_groupsOf {keys : List GoString} (hnd : keys.Nodup)
    (hnew : v.input.key ∉ keys → onKey history v.input.key = []) :
    appendAt v.input.key v (groupsOf history keys) =
      groupsOf (history ++ [v])
        (if v.input.key ∈ keys then keys else keys ++ [v.input.key]) := by
  induction keys with
  | nil => simp [groupsOf, appendAt, onKey_append_self, hnew]
  | cons k keys ih =>
    rw [List.nodup_cons] at hnd
    by_cases hk : k = v.input.key
    · subst hk
      have hrest : groupsOf (history ++ [v]) keys = groupsOf history keys := by
        refine List.map_congr_left fun k' hk' => ?_
        rw [onKey_append_of_ne fun he => hnd.1 (he ▸ hk')]
      rw [if_pos List.mem_cons_self]
      change _ = (_, _) :: groupsOf (history ++ [v]) keys
      rw [hrest, onKey_append_self]
      simp [groupsOf, appendAt]
    · have hmem : v.input.key ∈ k :: keys ↔ v.input.key ∈ keys := by simp [Ne.symm hk]
      have hih := ih hnd.2 (fun hn => hnew (hmem.not.mpr hn))
      have happ : appendAt v.input.key v (groupsOf history (k :: keys)) =
          (k, onKey history k) :: appendAt v.input.key v (groupsOf history keys) := by
        simp [groupsOf, appendAt, hk]
      rw [happ, hih]
      by_cases hm : v.input.key ∈ keys
      · rw [if_pos hm, if_pos (hmem.mpr hm)]
        simp [groupsOf, onKey_append_of_ne (Ne.symm hk)]
      · rw [if_neg hm, if_neg (hmem.not.mpr hm)]
        simp [groupsOf, onKey_append_of_ne (Ne.symm hk)]

theorem exists_groups (history : List KvOperation) :
    ∃ keys : List GoString, keys.Nodup ∧ (∀ k, k ∈ keys ↔ ∃ v ∈ history, v.input.key = k) ∧
      history.foldl (fun m v => appendAt v.input.key v m) [] = groupsOf history keys := by
  induction history using List.reverseRecOn with
  | nil => exact ⟨[], .nil, by simp, rfl⟩
  | append_singleton history v ih =>
    obtain ⟨keys, hnd, hkeys, heq⟩ := ih
    rw [List.foldl_append, heq, List.foldl_cons, List.foldl_nil, appendAt_groupsOf hnd]
    · refine ⟨_, ?_, ?_, rfl⟩
      · split
        case isTrue => exact hnd
        case isFalse hn => exact hnd.append (List.nodup_singleton _) (by simpa using hn)
      · intro k
        split
        case isTrue hm =>
          rw [hkeys] at hm ⊢
          simp only [List.mem_append, List.mem_singleton]
          constructor
          · rintro ⟨w, hw, rfl⟩
            exact ⟨w, .inl hw, rfl⟩
          · rintro ⟨w, hw | rfl, rfl⟩
            · exact ⟨w, hw, rfl⟩
            · exact hm
        case isFalse =>
          simp only [List.mem_append, List.mem_singleton, hkeys]
          constructor
          · rintro (⟨w, hw, rfl⟩ | rfl)
            · exact ⟨w, .inl hw, rfl⟩
            · exact ⟨v, .inr rfl, rfl⟩
          · rintro ⟨w, hw | rfl, rfl⟩
            · exact .inl ⟨w, hw, rfl⟩
            · exact .inr rfl
    · intro hn
      exact onKey_eq_nil fun w hw he => hn ((hkeys _).mpr ⟨w, hw, he⟩)

theorem mem_kvPartition {p : List KvOperation} :
    p ∈ kvPartition order history ↔ ∃ v ∈ history, p = onKey history v.input.key := by
  obtain ⟨keys, -, hkeys, heq⟩ := exists_groups history
  rw [kvPartition, ((order.perm _).map _).mem_iff, heq, groupsOf, List.map_map]
  simp only [List.mem_map, Function.comp_apply, hkeys]
  constructor
  · rintro ⟨k, ⟨v, hv, rfl⟩, rfl⟩
    exact ⟨v, hv, rfl⟩
  · rintro ⟨v, hv, rfl⟩
    exact ⟨_, ⟨v, hv, rfl⟩, rfl⟩

theorem kvPartition_eq_nil : kvPartition order history = [] ↔ history = [] := by
  rw [List.eq_nil_iff_forall_not_mem, List.eq_nil_iff_forall_not_mem]
  constructor
  · intro h v hv
    exact h _ (mem_kvPartition.mpr ⟨v, hv, rfl⟩)
  · intro h p hp
    obtain ⟨v, hv, -⟩ := mem_kvPartition.mp hp
    exact h v hv

theorem Timed.of_mem_kvPartition {p : List KvOperation} (ht : Timed history)
    (hp : p ∈ kvPartition order history) : Timed p := by
  intro op hop
  obtain ⟨v, -, rfl⟩ := mem_kvPartition.mp hp
  exact ht op (List.mem_filter.mp hop).1

end Partition

section Verdict

variable {history : List KvOperation} {order : RangeOrder} {sorter : Sorter KvInput KvOutput}
  {timeout : Bool} {es : List CheckEvent} {c : Check KvInput KvOutput GoString}

theorem congruent_kvModel (order : RangeOrder) : Congruent (fillDefault (kvModel order)) := by
  intro t t' input output heq hok
  obtain rfl : t = t' := by simpa [fillDefault, kvModel, shallowEqual] using heq
  exact ⟨hok, by simp [fillDefault, kvModel, shallowEqual]⟩

theorem stepAt_kvModel (order : RangeOrder) :
    stepAt (opStep (fillDefault (kvModel order))) (·.input.key) = storeStep := by
  funext store op
  simp only [stepAt, opStep, fillDefault, kvModel, kvStep, storeStep]
  split
  · by_cases hv : op.output.value = store op.input.key <;> simp [hv]
  · split <;> simp

/-- The verdict on a key-value history is one on a store with all keys, whatever the order in
which the parts are made and their goroutines run. -/
theorem kvModel_check_sound (ht : Timed history)
    (hrun : (checkOperationsTimeout sorter (kvModel order) timeout history).run
      (checkOperationsTimeout sorter (kvModel order) timeout history).init es = some c) :
    (c.returned = some true → timeout = false →
      Linearizable storeStep Before (fun _ => []) history) ∧
    (c.returned = some false → ¬ Linearizable storeStep BeforeOrAt (fun _ => []) history) := by
  obtain ⟨hneg, hpos⟩ := check_sound (fun p hp => exists_endsIn_makeEntries sorter
    (congruent_kvModel order) (ht.of_mem_kvPartition hp)) hrun
  rw [← stepAt_kvModel order]
  constructor
  · intro htrue hto
    refine linearizable_of_forall_key (fun a ha => (ht a ha).le) fun k => ?_
    by_cases hk : ∃ v ∈ history, v.input.key = k
    · obtain ⟨v, hv, rfl⟩ := hk
      exact (hpos htrue hto _ (mem_kvPartition.mpr ⟨v, hv, rfl⟩)).1 rfl
    · push Not at hk
      have hnil : history.filter (·.input.key = k) = [] := onKey_eq_nil hk
      rw [hnil]
      exact .nil
  · intro hfalse hl
    obtain ⟨p, hp, -, hnot⟩ := hneg hfalse
    obtain ⟨v, hv, rfl⟩ := mem_kvPartition.mp hp
    exact hnot rfl (hl.filter_key v.input.key)

def insertionOrder : RangeOrder := ⟨id, fun _ => .refl _⟩

/-- A value is put, and a later get of the same key does not see it. -/
def staleGet : List KvOperation :=
  [⟨⟨1, [97], [1]⟩, 0, ⟨[]⟩, 1⟩, ⟨⟨1, [98], [2]⟩, 0, ⟨[]⟩, 3⟩, ⟨⟨0, [97], []⟩, 2, ⟨[]⟩, 4⟩]

theorem staleGet_refused : ¬ Linearizable storeStep BeforeOrAt (fun _ => []) staleGet := by
  have hrun := System.run_after
    (checkOperationsTimeout insertionSorter (kvModel insertionOrder) true staleGet)
    (checkOperationsTimeout insertionSorter (kvModel insertionOrder) true staleGet).init
    [.tick 1, .tick 0, .tick 0, .tick 0, .tick 0, .receive 0] (by decide)
  refine (kvModel_check_sound ?_ hrun).2 (by decide)
  unfold Timed
  decide

/-- `CheckOperations` can come to return if and only if the history has an operation. On a history
without one it waits forever. -/
theorem kvModel_check_returns (ht : Timed history)
    (hrun : (checkOperations sorter (kvModel order) history).run
      (checkOperations sorter (kvModel order) history).init es = some c) :
    ((∃ fs c', (checkOperations sorter (kvModel order) history).run c fs = some c' ∧
      c'.returned.isSome) ↔ history ≠ []) ∧ (history = [] → es = [] ∧ c.returned = none) := by
  constructor
  · obtain ⟨-, hreturns⟩ := check_returns fun p hp => exists_endsIn_makeEntries sorter
      (congruent_kvModel order) (ht.of_mem_kvPartition hp)
    refine (hreturns es c hrun).trans ?_
    rw [or_iff_right Bool.false_ne_true, ne_eq, kvPartition_eq_nil]
  · intro hnil
    have hcheck : checkOperations sorter (kvModel order) history =
        check (fillDefault (kvModel order)) false [] := by
      change check _ false (List.map _ (kvPartition order history)) = _
      rw [kvPartition_eq_nil.mpr hnil]
      rfl
    rw [hcheck] at hrun
    exact check_nil hrun

theorem kvModel_check_returns_nil :
    (checkOperations insertionSorter (kvModel insertionOrder) []).init.returned = none :=
  ((kvModel_check_returns (by unfold Timed; decide) (System.run_after _ _ [] rfl)).2 rfl).2

end Verdict

end DistLab.Linearizability
