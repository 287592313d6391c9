import Mathlib.Algebra.GroupWithZero.Nat
import DistLab.Systems.Network
import DistLab.Raft.Server

/-! # A cluster of Raft servers

The reactions of a server to its timers, its channels, its service and the four
kinds of messages. Each is a section of the code between a lock and the next
unlock; a receive from `toFollower` and the last counted vote, which release
control before locking again, are reactions of their own. What a server grants,
counts, sends, adopts and applies is recorded in the history of the world.
-/

namespace DistLab.Raft

instance neZero_two : NeZero 2 := ⟨by decide⟩

instance neZero_three : NeZero 3 := ⟨by decide⟩

instance neZero_five : NeZero 5 := ⟨by decide⟩

inductive Msg (n : ℕ) (C : Type*) where
  | requestVote (peer : Fin n) (args : RequestVoteArgs n)
  | requestVoteReply (peer : Fin n) (args : RequestVoteArgs n) (reply : RequestVoteReply)
  | appendEntries (peer : Fin n) (appendChan : ℕ) (args : AppendEntriesArgs n C)
  | appendEntriesReply (peer : Fin n) (appendChan : ℕ) (args : AppendEntriesArgs n C)
      (reply : AppendEntriesReply)
  deriving DecidableEq

/-- A request goes to the peer it names, a reply to the caller named by the call it answers. -/
def Msg.dst {n : ℕ} {C : Type*} : Msg n C → Fin n
  | requestVote peer _ => peer
  | requestVoteReply _ args _ => args.candidateId
  | appendEntries peer _ _ => peer
  | appendEntriesReply _ _ args _ => args.leaderId

/-- The branches of the role routines that no message triggers, and the calls of the service. -/
inductive Act (C : Type*) where
  | electionTimeout
  | resetTimer
  | voteTimeout
  | takeToFollower
  | switchRole
  | becomeLeader
  | heartbeat
  | start (command : C)
  | emit (batch : ℕ)
  | kill
  | terminate
  | restart
  deriving DecidableEq

/-- What the history of a cluster records. A grant carries the voter's log at that moment, an
accepted `Start` and a sent request carry the incarnation and the log of the server, and a server
adopts a log in a term when it wins the term, extends the log as its leader or accepts it. -/
inductive Obs (n : ℕ) (C : Type*) where
  | granted (voter candidate : Fin n) (term : ℕ) (log : List (LogEntry C))
  | counted (candidate voter : Fin n) (term : ℕ)
  | won (server : Fin n) (term : ℕ)
  | started (server : Fin n) (boots term : ℕ) (log : List (LogEntry C))
  | sent (server : Fin n) (boots : ℕ) (args : AppendEntriesArgs n C) (log : List (LogEntry C))
  | adopted (server : Fin n) (term : ℕ) (log : List (LogEntry C))
  | applied (server : Fin n) (msg : ApplyMsg C)
  deriving DecidableEq

abbrev Outcome (n : ℕ) (C : Type*) := Reaction (Server n C) (Msg n C) (Obs n C)

abbrev Cluster (n : ℕ) (C : Type*) := World (fun _ : Fin n => Server n C) (Msg n C) (Obs n C)

variable {n : ℕ} {C : Type*}

namespace Server

def quiet (rf : Server n C) : Outcome n C := ⟨rf, [], []⟩

variable [Inhabited C]

def crash (rf : Server n C) : Outcome n C := rf.restart.quiet

def campaign (me : Fin n) (rf : Server n C) : Outcome n C :=
  match rf.enterCandidate me with
  | .error rf => rf.crash
  | .ok (rf, args) =>
    ⟨rf, (peers me).map (.requestVote · args),
      [.granted me me args.term rf.log, .counted me me args.term]⟩

def switchRole (me : Fin n) (rf : Server n C) : Outcome n C :=
  match rf.status with
  | .leader => (rf.enterLeader me).quiet
  | .candidate => rf.campaign me
  | .follower => quiet { rf with routine := .follower }

def makeChan (rf : Server n C) : Server n C :=
  { rf with routine := .leader (some rf.chans), chans := rf.chans + 1 }

/-- A round of `leaderRoutine`: one request for every peer on a new channel. -/
def broadcast (me : Fin n) (rf : Server n C) : Outcome n C :=
  let (calls, done) := rf.buildAll me (peers me)
  ⟨if done then rf.makeChan else rf.makeChan.restart,
    calls.map fun (p, args) => .appendEntries p rf.chans args,
    calls.map fun (_, args) => .sent me rf.boots args rf.log⟩

def act (me : Fin n) (rf : Server n C) : Act C → Option (Outcome n C)
  | .electionTimeout => match rf.routine with
    | .follower => some (campaign me { rf with status := .candidate })
    | _ => none
  | .resetTimer => match rf.routine with
    | .follower => if rf.resetElectionTimer then
        some (quiet { rf with resetElectionTimer := false }) else none
    | _ => none
  | .voteTimeout => match rf.routine with
    | .candidate .. => some (rf.campaign me)
    | _ => none
  | .takeToFollower => match rf.routine with
    | .candidate .. | .leader (some _) => if rf.toFollower then
        some (quiet { rf with toFollower := false, routine := .demoted }) else none
    | _ => none
  | .switchRole => match rf.routine with
    | .demoted => some (rf.switchRole me)
    | _ => none
  | .becomeLeader => match rf.routine with
    | .elected args => some ⟨enterLeader me { rf with status := .leader }, [],
        [.won me args.term, .adopted me rf.currentTerm rf.log]⟩
    | _ => none
  | .heartbeat => match rf.routine with
    | .leader _ => some (rf.broadcast me)
    | _ => none
  | .start command =>
    let rf' := (rf.start me command).1
    some ⟨rf', [], if rf.status = .leader then
      [.started me rf.boots rf.currentTerm rf'.log, .adopted me rf.currentTerm rf'.log] else []⟩
  | .emit k => match rf.batches[k]? with
    | some (m :: ms) => some ⟨{ rf with batches := rf.batches.set k ms }, [], [.applied me m]⟩
    | _ => none
  | .kill => some (quiet { rf with terminateCh := true })
  | .terminate => match rf.routine with
    | .candidate .. | .leader (some _) => if rf.terminateCh then
        some (quiet { rf with terminateCh := false, routine := .ended }) else none
    | _ => none
  | .restart => some rf.crash

/-- The reaction of a server to a message. A reply nobody waits for has no effect. -/
def recv (me : Fin n) (rf : Server n C) : Msg n C → Outcome n C
  | .requestVote _ args => match rf.requestVote args with
    | .error rf => rf.crash
    | .ok (rf', reply) => ⟨rf', [.requestVoteReply me args reply],
        if reply.voteGranted then [.granted me args.candidateId args.term rf'.log] else []⟩
  | .requestVoteReply peer args reply => match rf.routine with
    | .candidate args' waiting grantN =>
      if args' = args ∧ peer ∈ waiting then
        ⟨rf.voteReply args waiting grantN peer reply, [],
          if reply.voteGranted ∧ reply.term ≤ rf.currentTerm
            then [.counted me peer args.term] else []⟩
      else rf.quiet
    | _ => rf.quiet
  | .appendEntries _ appendChan args => match rf.appendEntries args with
    | .error rf => rf.crash
    | .ok (rf', reply) => ⟨rf', [.appendEntriesReply me appendChan args reply],
        if reply.success then [.adopted me args.term rf'.log] else []⟩
  | .appendEntriesReply peer appendChan args reply =>
    if rf.routine = .leader (some appendChan) then
      match rf.appendReply peer args reply with
      | .error rf => rf.crash
      | .ok rf' => rf'.quiet
    else rf.quiet

end Server

/-- The protocol of a cluster of servers started on empty `Persister`s. -/
def raft (n : ℕ) (C : Type*) [Inhabited C] :
    Protocol (Fin n) (fun _ => Server n C) (Act C) (Msg n C) (Obs n C) where
  init _ := Server.make none 0 0
  dst := Msg.dst
  react me rf
    | .act x => rf.act me x
    | .recv m => some (rf.recv me m)

abbrev cluster (n : ℕ) (C : Type*) [Inhabited C] :
    System (Cluster n C) (NetEvent (Fin n) (Act C)) :=
  (raft n C).system

end DistLab.Raft
