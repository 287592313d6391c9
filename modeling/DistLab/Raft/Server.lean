import Mathlib.Data.Fintype.Card
import Mathlib.Data.Fintype.Basic
import Mathlib.Data.List.FinRange
import Mathlib.Data.List.Sort

/-! # A Raft server

The state of one server and the functions of `raft.go` on it. A function runs
while the server holds its lock, so each is one atomic change of the state. An
index out of range ends the process: such a function returns the state it
panicked in as an error. Terms and most indices never go below zero and are
natural numbers; `nextIndex` and what is derived from it are integers, since the
source subtracts from it and uses -1 as a marker.
-/

namespace DistLab.Raft

structure LogEntry (C : Type*) where
  content : C
  termIdx : ℕ
  deriving DecidableEq, Repr

structure ApplyMsg (C : Type*) where
  commandValid : Bool
  command : C
  commandIndex : ℕ
  deriving DecidableEq, Repr

inductive Status where
  | leader
  | candidate
  | follower
  deriving DecidableEq, Repr

structure RequestVoteArgs (n : ℕ) where
  term : ℕ
  candidateId : Fin n
  lastLogIndex : ℕ
  lastLogTerm : ℕ
  deriving DecidableEq, Repr

structure RequestVoteReply where
  term : ℕ
  voteGranted : Bool
  deriving DecidableEq, Repr

structure AppendEntriesArgs (n : ℕ) (C : Type*) where
  term : ℕ
  leaderId : Fin n
  prevLogIndex : ℤ
  prevLogTerm : ℕ
  entries : List (LogEntry C)
  leaderCommit : ℕ
  deriving DecidableEq, Repr

structure AppendEntriesReply where
  term : ℕ
  success : Bool
  nextIndex : ℤ
  deriving DecidableEq, Repr

@[ext] structure Saved (n : ℕ) (C : Type*) where
  currentTerm : ℕ
  votedFor : Option (Fin n)
  log : List (LogEntry C)
  deriving DecidableEq, Repr

/-- Where the role goroutine stands while it does not hold the lock.

`candidate` waits in the `select` of one round of `candidateRoutine`: the request of that round,
the peers whose call has not returned, and `grantN`. `elected` has counted its last vote and has
yet to lock again. `leader` waits in the `select` of `leaderRoutine` with the reply channel of its
round, or has yet to send its first round. `demoted` has received from `toFollower` and has yet to
lock; `ended` has returned. -/
inductive Routine (n : ℕ) where
  | follower
  | candidate (args : RequestVoteArgs n) (waiting : Finset (Fin n)) (grantN : ℕ)
  | elected (args : RequestVoteArgs n)
  | leader (appendChan : Option ℕ)
  | demoted
  | ended
  deriving DecidableEq

/-- A `Raft` object. `batches` holds what the goroutines of `applyLog` have yet to send on
`applyCh`; `chans` counts the reply channels made so far and `boots` the restarts, so that both name
channels and incarnations apart. -/
structure Server (n : ℕ) (C : Type*) where
  persister : Option (Saved n C)
  currentTerm : ℕ
  votedFor : Option (Fin n)
  log : List (LogEntry C)
  commitIndex : ℕ
  lastApplied : ℕ
  nextIndex : Fin n → ℤ
  matchIndex : Fin n → ℕ
  status : Status
  resetElectionTimer : Bool
  toFollower : Bool
  terminateCh : Bool
  batches : List (List (ApplyMsg C))
  routine : Routine n
  chans : ℕ
  boots : ℕ

/-- The result of a function that may panic, with the state it panicked in. -/
abbrev Go (n : ℕ) (C α : Type*) := Except (Server n C) α

variable {n : ℕ} {C : Type*}

def sentinel [Inhabited C] : LogEntry C := ⟨default, 0⟩

def Saved.blank [Inhabited C] : Saved n C := ⟨0, none, [sentinel]⟩

def at? {α : Type*} (l : List α) (k : ℤ) : Option α :=
  if k < 0 then none else l[k.toNat]?

namespace Server

def saved (rf : Server n C) : Saved n C := ⟨rf.currentTerm, rf.votedFor, rf.log⟩

def persist (rf : Server n C) : Server n C := { rf with persister := some rf.saved }

def readPersist (rf : Server n C) (data : Option (Saved n C)) : Server n C :=
  match data with
  | none => rf
  | some s => { rf with currentTerm := s.currentTerm, votedFor := s.votedFor, log := s.log }

def make [Inhabited C] (persister : Option (Saved n C)) (chans boots : ℕ) : Server n C :=
  readPersist
    { persister := persister
      currentTerm := 0
      votedFor := none
      log := [sentinel]
      commitIndex := 0
      lastApplied := 0
      nextIndex := fun _ => 0
      matchIndex := fun _ => 0
      status := .follower
      resetElectionTimer := false
      toFollower := false
      terminateCh := false
      batches := []
      routine := .follower
      chans := chans
      boots := boots }
    persister

/-- The process stops and `Make` is called again on its `Persister`. -/
def restart [Inhabited C] (rf : Server n C) : Server n C :=
  make rf.persister rf.chans (rf.boots + 1)

def logNewer (rf : Server n C) (args : RequestVoteArgs n) : Go n C Bool :=
  match rf.log.getLast? with
  | none => .error rf
  | some latest =>
    if args.lastLogTerm > latest.termIdx then .ok true
    else if args.lastLogTerm = latest.termIdx then .ok (args.lastLogIndex + 1 ≥ rf.log.length)
    else .ok false

def updateTerm (rf : Server n C) (term : ℕ) : Server n C × Bool :=
  if term > rf.currentTerm then
    let rf := if rf.status ≠ .follower ∧ rf.toFollower = false
      then { rf with status := .follower, toFollower := true } else rf
    (persist { rf with currentTerm := term, votedFor := none }, true)
  else (rf, false)

def appMsgs (log : List (LogEntry C)) (lastApplied : ℕ) : ℕ → Option (List (ApplyMsg C))
  | 0 => some []
  | k + 1 => do
    let e ← log[lastApplied + 1]?
    let ms ← appMsgs log (lastApplied + 1) k
    return ⟨true, e.content, lastApplied + 1⟩ :: ms

def applyLog (rf : Server n C) : Go n C (Server n C) :=
  match appMsgs rf.log rf.lastApplied (rf.commitIndex - rf.lastApplied) with
  | none => .error rf
  | some ms => .ok { rf with
      lastApplied := max rf.lastApplied rf.commitIndex
      batches := rf.batches ++ [ms] }

def requestVote (rf : Server n C) (args : RequestVoteArgs n) :
    Go n C (Server n C × RequestVoteReply) :=
  let term := rf.currentTerm
  let rf := (rf.updateTerm args.term).1
  if args.term < rf.currentTerm then .ok (rf, ⟨term, false⟩)
  else if rf.votedFor ≠ none ∧ rf.votedFor ≠ some args.candidateId then .ok (rf, ⟨term, false⟩)
  else match rf.logNewer args with
    | .error rf => .error rf
    | .ok false => .ok (rf, ⟨term, false⟩)
    | .ok true =>
      let rf := persist { rf with votedFor := some args.candidateId }
      .ok ({ rf with resetElectionTimer := true }, ⟨term, true⟩)

/-- The backward scan of `AppendEntries`: one more than the largest index below the argument
whose term differs from the conflicting one. -/
def conflictStart (log : List (LogEntry C)) (lastTerm : ℕ) : ℕ → ℕ
  | 0 => 0
  | k + 1 => if log[k]?.map LogEntry.termIdx = some lastTerm then conflictStart log lastTerm k
      else k + 1

/-- The forward loop of `AppendEntries`: how many new entries have the terms already there. -/
def skipSame : List (LogEntry C) → List (LogEntry C) → ℕ
  | e :: es, o :: os => if e.termIdx = o.termIdx then skipSame es os + 1 else 0
  | _, _ => 0

/-- The branch of `AppendEntries` that answers Success: cut, persist, append, commit. -/
def acceptEntries (rf : Server n C) (args : AppendEntriesArgs n C) (prev : ℕ) :
    Go n C (Server n C) :=
  let newIdx := skipSame args.entries (rf.log.drop (prev + 1))
  let rf := persist { rf with log := rf.log.take (prev + 1 + newIdx) }
  let rf := { rf with log := rf.log ++ args.entries.drop newIdx }
  if args.leaderCommit > rf.commitIndex then
    applyLog { rf with commitIndex := min (rf.log.length - 1) args.leaderCommit }
  else .ok rf

def appendEntries (rf : Server n C) (args : AppendEntriesArgs n C) :
    Go n C (Server n C × AppendEntriesReply) :=
  let term := rf.currentTerm
  let rf := (rf.updateTerm args.term).1
  if rf.currentTerm > args.term then .ok (rf, ⟨term, false, -1⟩)
  else if (rf.log.length : ℤ) ≤ args.prevLogIndex then
    .ok ({ rf with resetElectionTimer := true }, ⟨term, false, rf.log.length⟩)
  else match at? rf.log args.prevLogIndex with
    | none => .error rf
    | some e =>
      if e.termIdx ≠ args.prevLogTerm then
        .ok ({ rf with resetElectionTimer := true },
          ⟨term, false, conflictStart rf.log e.termIdx args.prevLogIndex.toNat⟩)
      else do
        let rf ← rf.acceptEntries args args.prevLogIndex.toNat
        return ({ rf with resetElectionTimer := true }, ⟨term, true, 0⟩)

def start (me : Fin n) (rf : Server n C) (command : C) : Server n C × ℕ × ℕ × Bool :=
  let index := rf.log.length
  let term := rf.currentTerm
  if rf.status = .leader then
    let rf := persist { rf with log := rf.log ++ [⟨command, rf.currentTerm⟩] }
    ({ rf with matchIndex := Function.update rf.matchIndex me (rf.matchIndex me + 1) },
      index, term, true)
  else (rf, index, term, false)

/-- The head of `leaderRoutine`, up to its first unlock. -/
def enterLeader (me : Fin n) (rf : Server n C) : Server n C :=
  { rf with
    nextIndex := fun _ => rf.log.length
    matchIndex := Function.update (fun _ => 0) me (rf.log.length - 1)
    routine := .leader none }

/-- The request that one round of `leaderRoutine` builds for a peer. -/
def buildArgs (me : Fin n) (rf : Server n C) (peer : Fin n) : Option (AppendEntriesArgs n C) :=
  (at? rf.log (rf.nextIndex peer - 1)).map fun e =>
    { term := rf.currentTerm
      leaderId := me
      prevLogIndex := rf.nextIndex peer - 1
      prevLogTerm := e.termIdx
      entries := rf.log.drop (rf.nextIndex peer).toNat
      leaderCommit := rf.commitIndex }

/-- The loop over the peers: the requests built before the first panic, and whether it ended. -/
def buildAll (me : Fin n) (rf : Server n C) :
    List (Fin n) → List (Fin n × AppendEntriesArgs n C) × Bool
  | [] => ([], true)
  | p :: ps => match rf.buildArgs me p with
    | none => ([], false)
    | some a => ((p, a) :: (buildAll me rf ps).1, (buildAll me rf ps).2)

def peers (me : Fin n) : List (Fin n) := (List.finRange n).filter (· ≠ me)

/-- The candidate commit index: element `n / 2` of the sorted match indices. -/
def sortedMatch (rf : Server n C) : List ℕ := (List.ofFn rf.matchIndex).insertionSort (· ≤ ·)

/-- The branch of `leaderRoutine` that receives a reply of its round. -/
def appendReply (rf : Server n C) (peer : Fin n) (args : AppendEntriesArgs n C)
    (reply : AppendEntriesReply) : Go n C (Server n C) :=
  if reply.term > rf.currentTerm then
    .ok { persist { rf with currentTerm := reply.term, votedFor := none } with
      status := .follower
      routine := .follower }
  else if reply.success then
    if args.entries.length ≠ 0 then
      let matched := (args.prevLogIndex + args.entries.length).toNat
      let rf := { rf with
        matchIndex := Function.update rf.matchIndex peer matched
        nextIndex := Function.update rf.nextIndex peer (matched + 1) }
      match rf.sortedMatch[n / 2]? with
      | none => .error rf
      | some newCommit => match rf.log[newCommit]? with
        | none => .error rf
        | some e =>
          if e.termIdx ≥ rf.currentTerm then applyLog { rf with commitIndex := newCommit }
          else .ok rf
    else .ok rf
  else if reply.nextIndex ≠ -1 then
    .ok { rf with nextIndex := Function.update rf.nextIndex peer reply.nextIndex }
  else .ok rf

/-- One turn of the loop of `candidateRoutine`, up to its unlock: the new round and its request. -/
def enterCandidate (me : Fin n) (rf : Server n C) : Go n C (Server n C × RequestVoteArgs n) :=
  let rf := persist { rf with currentTerm := rf.currentTerm + 1, votedFor := some me }
  match rf.log.getLast? with
  | none => .error rf
  | some e =>
    let args : RequestVoteArgs n := ⟨rf.currentTerm, me, rf.log.length - 1, e.termIdx⟩
    .ok ({ rf with routine := .candidate args (Finset.univ.erase me) 1 }, args)

def voteReply (rf : Server n C) (args : RequestVoteArgs n) (waiting : Finset (Fin n)) (grantN : ℕ)
    (peer : Fin n) (reply : RequestVoteReply) : Server n C :=
  if rf.currentTerm < reply.term then
    { persist { rf with currentTerm := reply.term, votedFor := none } with
      status := .follower
      routine := .follower }
  else if reply.voteGranted then
    if grantN + 1 > n / 2 then { rf with routine := .elected args }
    else { rf with routine := .candidate args (waiting.erase peer) (grantN + 1) }
  else { rf with routine := .candidate args (waiting.erase peer) grantN }

end Server

end DistLab.Raft
