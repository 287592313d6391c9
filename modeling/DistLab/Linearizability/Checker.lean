import DistLab.Linearizability.Bitset
import DistLab.Systems.Links

/-! # The checker

Translation of `linearizability.go` and `model.go`. The entries of a history become a doubly
linked list of calls and returns. The search takes the calls before the first return one by
one, lifts a call that the model accepts out of the list together with its return, and puts
it back when the rest of the list leads nowhere. `none` is a panic.
-/

namespace DistLab.Linearizability

structure Operation (ι ο : Type) where
  input : ι
  call : ℤ
  output : ο
  ret : ℤ
deriving DecidableEq

inductive Kind where
  | call
  | ret
deriving DecidableEq, Repr

structure Event (ι ο : Type) where
  kind : Kind
  value : ι ⊕ ο
  id : ℕ
deriving DecidableEq

structure Model (ι ο σ : Type) where
  partition : Option (List (Operation ι ο) → List (List (Operation ι ο))) := none
  partitionEvent : Option (List (Event ι ο) → List (List (Event ι ο))) := none
  init : σ
  step : σ → ι → ο → Bool × σ
  equal : Option (σ → σ → Bool) := none

structure FullModel (ι ο σ : Type) where
  partition : List (Operation ι ο) → List (List (Operation ι ο))
  partitionEvent : List (Event ι ο) → List (List (Event ι ο))
  init : σ
  step : σ → ι → ο → Bool × σ
  equal : σ → σ → Bool

variable {ι ο σ : Type}

def noPartition (history : List (Operation ι ο)) : List (List (Operation ι ο)) := [history]

def noPartitionEvent (history : List (Event ι ο)) : List (List (Event ι ο)) := [history]

def shallowEqual [DecidableEq σ] (state1 state2 : σ) : Bool := state1 = state2

def fillDefault [DecidableEq σ] (model : Model ι ο σ) : FullModel ι ο σ where
  partition := model.partition.getD noPartition
  partitionEvent := model.partitionEvent.getD noPartitionEvent
  init := model.init
  step := model.step
  equal := model.equal.getD shallowEqual

structure Entry (ι ο : Type) where
  kind : Kind
  value : ι ⊕ ο
  id : ℕ
  time : ℤ
deriving DecidableEq

/-- `sort.Sort(byTime(..))`, which may put entries of the same time in any order. -/
structure Sorter (ι ο : Type) where
  sort : List (Entry ι ο) → List (Entry ι ο)
  perm : ∀ entries, (sort entries).Perm entries
  sorted : ∀ entries, (sort entries).Pairwise (·.time ≤ ·.time)

def entriesOf (elem : Operation ι ο) (id : ℕ) : List (Entry ι ο) :=
  [⟨.call, .inl elem.input, id, elem.call⟩, ⟨.ret, .inr elem.output, id, elem.ret⟩]

def makeEntries (sorter : Sorter ι ο) (history : List (Operation ι ο)) : List (Entry ι ο) :=
  sorter.sort (history.zipIdx.flatMap fun x => entriesOf x.1 x.2)

def renumberLoop (m : ℕ → Option ℕ) (id : ℕ) : List (Event ι ο) → List (Event ι ο)
  | [] => []
  | v :: events =>
    match m v.id with
    | some r => { v with id := r } :: renumberLoop m id events
    | none => { v with id := id } :: renumberLoop (Function.update m v.id (some id)) (id + 1) events

def renumber (events : List (Event ι ο)) : List (Event ι ο) :=
  renumberLoop (fun _ => none) 0 events

def convertEntries (events : List (Event ι ο)) : List (Entry ι ο) :=
  events.map fun elem => ⟨elem.kind, elem.value, elem.id, -1⟩

/-- What a node holds besides its neighbours; a call has the address of its return. -/
structure Node (ι ο : Type) where
  value : Option (ι ⊕ ο)
  matching : Option ℕ
  id : ℕ

/-- The nodes made so far, the first address that is free, the first node and the returns. -/
structure Linking (ι ο : Type) where
  heap : Links (Node ι ο) := fun _ => ⟨⟨none, none, 0⟩, none, none⟩
  fresh : ℕ := 0
  root : Option ℕ := none
  returns : ℕ → Option ℕ := fun _ => none

def Linking.add (l : Linking ι ο) (node : Node ι ο) : Linking ι ο :=
  { l with
    heap := Links.insertBefore (Function.update l.heap l.fresh ⟨node, none, none⟩) l.fresh l.root
    fresh := l.fresh + 1
    root := some l.fresh }

def linkEntry (elem : Entry ι ο) (l : Linking ι ο) : Linking ι ο :=
  match elem.kind with
  | .ret =>
    { l.add ⟨some elem.value, none, elem.id⟩ with
      returns := Function.update l.returns elem.id (some l.fresh) }
  | .call => l.add ⟨some elem.value, l.returns elem.id, elem.id⟩

/-- The loop goes through the entries from the last one to the first. -/
def makeLinkedEntries (entries : List (Entry ι ο)) : Linking ι ο := entries.foldr linkEntry {}

def length (heap : Links (Node ι ο)) : ℕ → Option ℕ → ℕ
  | 0, _ => 0
  | _ + 1, none => 0
  | fuel + 1, some n => length heap fuel (heap n).next + 1

def lift (heap : Links (Node ι ο)) (entry : ℕ) : Option (Links (Node ι ο)) := do
  let _ ← (heap entry).next
  let heap ← heap.unlink entry
  let m ← (heap entry).val.matching
  heap.unlink m

def unlift (heap : Links (Node ι ο)) (entry : ℕ) : Option (Links (Node ι ο)) := do
  let m ← (heap entry).val.matching
  let heap ← heap.relink m
  let _ ← (heap entry).next
  heap.relink entry

/-- Configurations that have been reached, by the hash of the operations that were linearized. -/
abbrev Cache (σ : Type) := Word → List (Bitset × σ)

def cacheContains (model : FullModel ι ο σ) (cache : Cache σ) (linearized : Bitset) (state : σ) :
    Bool :=
  (cache linearized.hash).any fun elem => linearized.equals elem.1 && model.equal state elem.2

def Cache.add (cache : Cache σ) (linearized : Bitset) (state : σ) : Cache σ :=
  Function.update cache linearized.hash (cache linearized.hash ++ [(linearized, state)])

/-- The variables of `checkSingle`, with the calls that were taken, the last one first. -/
structure Search (ι ο σ : Type) where
  heap : Links (Node ι ο)
  headEntry : ℕ
  entry : Option ℕ
  state : σ
  linearized : Bitset
  cache : Cache σ := fun _ => []
  calls : List (ℕ × σ) := []

def stepNode (model : FullModel ι ο σ) (node : ℕ → Node ι ο) (state : σ) (entry : ℕ) :
    Option (Bool × σ) := do
  let matching ← (node entry).matching
  let input ← (node entry).value.bind Sum.getLeft?
  let output ← (node matching).value.bind Sum.getRight?
  return model.step state input output

namespace Search

def skip (s : Search ι ο σ) (entry : ℕ) : Search ι ο σ :=
  { s with entry := (s.heap entry).next }

def push (s : Search ι ο σ) (entry : ℕ) (newLinearized : Bitset) (newState : σ) :
    Option (Search ι ο σ) :=
  (lift s.heap entry).map fun heap =>
    { s with
      cache := s.cache.add newLinearized newState
      calls := (entry, s.state) :: s.calls
      state := newState
      linearized := newLinearized
      heap := heap
      entry := (heap s.headEntry).next }

def pop (s : Search ι ο σ) (entry : ℕ) (state : σ) (calls : List (ℕ × σ)) :
    Option (Search ι ο σ) := do
  let linearized ← s.linearized.clear (s.heap entry).val.id
  let heap ← unlift s.heap entry
  return { s with state, linearized, calls, heap, entry := (heap entry).next }

def body (model : FullModel ι ο σ) (s : Search ι ο σ) : Option (Search ι ο σ ⊕ Bool) := do
  let entry ← s.entry
  if (s.heap entry).val.matching.isSome then
    let (ok, newState) ← stepNode model (fun a => (s.heap a).val) s.state entry
    if ok then
      let newLinearized ← s.linearized.set (s.heap entry).val.id
      if !cacheContains model s.cache newLinearized newState then
        (s.push entry newLinearized newState).map .inl
      else return .inl (s.skip entry)
    else return .inl (s.skip entry)
  else match s.calls with
    | [] => return .inr false
    | (entry, state) :: calls => (s.pop entry state calls).map .inl

def finished (s : Search ι ο σ) : Bool := (s.heap s.headEntry).next.isNone

/-- One iteration of the loop, given whether `kill` is found set. -/
def tick (model : FullModel ι ο σ) (kill : Bool) (s : Search ι ο σ) :
    Option (Search ι ο σ ⊕ Bool) :=
  if s.finished then some (.inr true)
  else if kill then some (.inr false)
  else s.body model

/-- The loop, given in which iterations `kill` is found set. -/
def loop (model : FullModel ι ο σ) (kill : ℕ → Bool) : ℕ → ℕ → Search ι ο σ → Option Bool
  | 0, _, _ => none
  | fuel + 1, i, s =>
    match s.tick model (kill i) with
    | none => none
    | some (.inl s) => loop model kill fuel (i + 1) s
    | some (.inr result) => some result

def start (model : FullModel ι ο σ) (subhistory : Linking ι ο) : Search ι ο σ where
  heap := (subhistory.add ⟨none, none, 2 ^ 64 - 1⟩).heap
  headEntry := subhistory.fresh
  entry := subhistory.root
  state := model.init
  linearized := .newBitset (length subhistory.heap (subhistory.fresh + 1) subhistory.root / 2)

end Search

def checkSingle (model : FullModel ι ο σ) (kill : ℕ → Bool) (fuel : ℕ)
    (subhistory : Linking ι ο) : Option Bool :=
  (Search.start model subhistory).loop model kill fuel 0

end DistLab.Linearizability
