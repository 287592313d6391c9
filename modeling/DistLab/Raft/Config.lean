import Mathlib.Data.List.FinRange
import DistLab.Raft.Cluster
import DistLab.Labrpc.Network

/-! # The test configuration

`config.go` over `labrpc.go` and `raft.go`. The test goroutine calls one function of the
configuration after the other; each is a list of operations, between which everything
else goes on. A server that is crashed cannot be stopped: its instance goes on with ends
that nobody enables again and a persister that nobody reads again, makes any calls and
returns any replies. A section under the lock of a server is one step, also for the copy
of its persister, and a request travels with what its goroutine remembers of the call.
-/

namespace DistLab.Raft

/-- The name of an end: the instance it was made for and the peer it leads to. The source draws
names at random; here names drawn at different times differ. -/
abbrev EndName (n : ℕ) := ℕ × Fin n

inductive Phase where
  | starting
  | running
  | superseded
  deriving DecidableEq

/-- One call of `Make` for a server; the `Server` of `labrpc` made for it has the same address. -/
structure Instance (n : ℕ) where
  host : Fin n
  phase : Phase
  deriving DecidableEq

/-- The operations of the test goroutine. Those on ends go by `cfg.endnames[i][j]`. -/
inductive Op (n : ℕ) where
  | enable (i j : Fin n) (yes : Bool)
  | deleteServer (i : Fin n)
  | copyPersister (i : Fin n)
  | kill (i : Fin n)
  | newEndnames (i : Fin n)
  | makeEnd (i j : Fin n)
  | connect (i j : Fin n)
  | make (i : Fin n)
  | addService (i : Fin n)
  | addServer (i : Fin n)
  | reliable (yes : Bool)
  | longReordering (yes : Bool)
  | netCleanup
  deriving DecidableEq

inductive Command (n : ℕ) where
  | crash1 (i : Fin n)
  | start1 (i : Fin n)
  | connect (i : Fin n)
  | disconnect (i : Fin n)
  | setunreliable (unrel : Bool)
  | setlongreordering (longrel : Bool)
  | cleanup
  deriving DecidableEq

variable {n : ℕ} {C : Type*}

/-- What the operations decide about ends, servers and instances. -/
structure Setting (n : ℕ) where
  ends : EndName n → Bool
  enabled : EndName n → Bool
  connections : EndName n → Option (Fin n)
  servers : Fin n → Option ℕ
  instances : List (Instance n)
  endnames : Fin n → Option ℕ
  connected : Fin n → Bool

namespace Setting

variable (s : Setting n)

/-- The instance runs on the persister that the next start will read. -/
def runs (a : ℕ) : Bool := s.instances[a]?.any (·.phase = .running)

def running (i : Fin n) : Option ℕ := (s.endnames i).filter s.runs

def disconnectOps (i : Fin n) : List (Op n) :=
  (if (s.endnames i).isSome then (List.finRange n).map (.enable i · false) else []) ++
    ((List.finRange n).filter fun j => (s.endnames j).isSome).map (.enable · i false)

def connectOps (i : Fin n) : List (Op n) :=
  ((List.finRange n).filter s.connected).map (.enable i · true) ++
    ((List.finRange n).filter s.connected).map (.enable · i true)

def crashOps (i : Fin n) : List (Op n) :=
  s.disconnectOps i ++ [.deleteServer i, .copyPersister i, .kill i]

def startOps (i : Fin n) : List (Op n) :=
  s.crashOps i ++ .newEndnames i :: ((List.finRange n).flatMap fun j =>
    [.makeEnd i j, .connect i j]) ++ [.make i, .addService i, .addServer i]

def cleanupOps : List (Op n) :=
  ((List.finRange n).filter fun i => (s.running i).isSome).map .kill ++ [.netCleanup]

end Setting

/-- The configuration with the network and the servers. `rafts` holds the running instance of every
server, or the one the next start will make; `heard` are the calls whose reply was taken. -/
structure Config (n : ℕ) (C : Type*) where
  net : Labrpc.Network (EndName n) (Fin n) (Msg n C)
  rafts : Fin n → Server n C
  instances : List (Instance n)
  endnames : Fin n → Option ℕ
  connected : Fin n → Bool
  todo : List (Op n)
  heard : List ℕ
  trace : List (Obs n C)

def Msg.svcMeth : Msg n C → List Char
  | .requestVote .. | .requestVoteReply .. =>
    ['R', 'a', 'f', 't', '.', 'R', 'e', 'q', 'u', 'e', 's', 't', 'V', 'o', 't', 'e']
  | .appendEntries .. | .appendEntriesReply .. =>
    ['R', 'a', 'f', 't', '.', 'A', 'p', 'p', 'e', 'n', 'd', 'E', 'n', 't', 'r', 'i', 'e', 's']

def raftMethods : List Labrpc.Method :=
  [⟨['A', 'p', 'p', 'e', 'n', 'd', 'E', 'n', 't', 'r', 'i', 'e', 's'], true, 3, true, 0⟩,
    ⟨['G', 'e', 't', 'S', 't', 'a', 't', 'e'], true, 1, false, 2⟩,
    ⟨['K', 'i', 'l', 'l'], true, 1, false, 0⟩,
    ⟨['R', 'e', 'q', 'u', 'e', 's', 't', 'V', 'o', 't', 'e'], true, 3, true, 0⟩,
    ⟨['S', 't', 'a', 'r', 't'], true, 2, false, 3⟩]

def Msg.request (m : Msg n C) (a : ℕ) : Labrpc.Call (EndName n) (Fin n) (Msg n C) :=
  ⟨⟨(a, m.dst), m.svcMeth, m⟩, .calling, .idle, false⟩

namespace Config

def setting (cfg : Config n C) : Setting n where
  ends := cfg.net.ends
  enabled := cfg.net.enabled
  connections := cfg.net.connections
  servers := cfg.net.servers
  instances := cfg.instances
  endnames := cfg.endnames
  connected := cfg.connected

def react (cfg : Config n C) (i : Fin n) (r : Outcome n C) : Config n C :=
  { cfg with
    rafts := Function.update cfg.rafts i r.state
    trace := r.obs ++ cfg.trace }

/-- Install a reaction of the running instance `a` of a server. A panic, which starts the server
anew in the cluster, ends the whole process here. -/
def install (cfg : Config n C) (i : Fin n) (a : ℕ) (r : Outcome n C) : Config n C :=
  { cfg.react i r with net := { cfg.net with
      calls := cfg.net.calls ++ r.out.map (·.request a)
      fatal := r.state.boots != (cfg.rafts i).boots } }

def returned (cfg : Config n C) (k : ℕ) (c : Labrpc.Call (EndName n) (Fin n) (Msg n C))
    (info : Labrpc.Info (Fin n)) : List (Msg n C) → Config n C
  | [m] => { cfg with net := { cfg.net with
      calls := cfg.net.calls.set k { c with handler := .sending info m } } }
  | _ => { cfg with net := { cfg.net with fatal := true } }

def onLatest (cfg : Config n C) (i : Fin n) (op : ℕ → Labrpc.Admin (EndName n) (Fin n)) :
    Config n C :=
  match cfg.endnames i with
  | none => cfg
  | some a => { cfg with net := cfg.net.admin (op a) }

variable [Inhabited C]

def exec (cfg : Config n C) : Op n → Config n C
  | .enable i j yes => cfg.onLatest i fun a => .enable (a, j) yes
  | .deleteServer i => { cfg with net := cfg.net.admin (.deleteServer i) }
  | .copyPersister i => match cfg.setting.running i with
    | none => cfg
    | some a => { cfg with
        instances := cfg.instances.set a ⟨i, .superseded⟩
        rafts := Function.update cfg.rafts i (cfg.rafts i).restart }
  | .kill i => match cfg.setting.running i with
    | none => cfg
    | some _ => { cfg with
        rafts := Function.update cfg.rafts i { cfg.rafts i with terminateCh := true } }
  | .newEndnames i => { cfg with
      instances := cfg.instances ++ [⟨i, .starting⟩]
      endnames := Function.update cfg.endnames i (some cfg.instances.length) }
  | .makeEnd i j => cfg.onLatest i fun a => .makeEnd (a, j)
  | .connect i j => cfg.onLatest i fun a => .connect (a, j) j
  | .make i => match cfg.endnames i with
    | none => cfg
    | some a => { cfg with instances := cfg.instances.set a ⟨i, .running⟩ }
  | .addService i => cfg.onLatest i fun a =>
      .addService a (Labrpc.makeService ['R', 'a', 'f', 't'] raftMethods)
  | .addServer i => cfg.onLatest i fun a => .addServer i a
  | .reliable yes => { cfg with net := cfg.net.admin (.reliable yes) }
  | .longReordering yes => { cfg with net := cfg.net.admin (.longReordering yes) }
  | .netCleanup => { cfg with net := cfg.net.admin .cleanup }

/-- A function of the configuration is called. The tests connect a server only while it runs. -/
def call (cfg : Config n C) : Command n → Option (Config n C)
  | .crash1 i => some { cfg with
      connected := Function.update cfg.connected i false
      todo := cfg.setting.crashOps i }
  | .start1 i => some { cfg with
      connected := Function.update cfg.connected i false
      todo := cfg.setting.startOps i }
  | .connect i => if (cfg.setting.running i).isSome then
      let cfg := { cfg with connected := Function.update cfg.connected i true }
      some { cfg with todo := cfg.setting.connectOps i }
    else none
  | .disconnect i => some { cfg with
      connected := Function.update cfg.connected i false
      todo := cfg.setting.disconnectOps i }
  | .setunreliable unrel => some { cfg with todo := [.reliable !unrel] }
  | .setlongreordering longrel => some { cfg with todo := [.longReordering longrel] }
  | .cleanup => some { cfg with todo := cfg.setting.cleanupOps }

end Config

/-- What can happen next: the test goroutine calls a function or goes on with the one it is in; a
running instance acts, handles a request or takes the reply of a call it made; the network goes on
with a call; a superseded instance makes a call or returns from a handler. -/
inductive Happening (n : ℕ) (C : Type*) where
  | call (cmd : Command n)
  | next
  | act (i : Fin n) (x : Act C)
  | handle (k : ℕ)
  | hear (k : ℕ)
  | rpc (k : ℕ) (a : Labrpc.Act (Msg n C))
  | stopListening
  | strayCall (a : ℕ) (req : Labrpc.ReqMsg (Fin n) (Msg n C))
  | strayReply (k : ℕ) (m : Msg n C)

namespace Config

variable [Inhabited C]

def handle (cfg : Config n C) (k : ℕ) : Option (Config n C) :=
  match cfg.net.calls[k]? with
  | some ⟨req, st, .running info, d⟩ => match cfg.instances[info.server]? with
    | some ⟨i, .running⟩ =>
      let r := (cfg.rafts i).recv i req.args
      some ((cfg.react i r).returned k ⟨req, st, .running info, d⟩ info r.out)
    | _ => none
  | _ => none

def hear (cfg : Config n C) (k : ℕ) : Option (Config n C) :=
  if k ∈ cfg.heard then none else match cfg.net.calls[k]? with
  | some ⟨req, .returned (some m), _, _⟩ => match cfg.instances[req.endname.1]? with
    | some ⟨i, .running⟩ => some
        { cfg.install i req.endname.1 ((cfg.rafts i).recv i m) with heard := k :: cfg.heard }
    | _ => none
  | _ => none

def strayReply (cfg : Config n C) (k : ℕ) (m : Msg n C) : Option (Config n C) :=
  match cfg.net.calls[k]? with
  | some ⟨req, st, .running info, d⟩ => match cfg.instances[info.server]? with
    | some ⟨_, .superseded⟩ => some (cfg.returned k ⟨req, st, .running info, d⟩ info [m])
    | _ => none
  | _ => none

def step (cfg : Config n C) (e : Happening n C) : Option (Config n C) :=
  if cfg.net.fatal then none else match e with
  | .call cmd => match cfg.todo with
    | [] => cfg.call cmd
    | _ => none
  | .next => match cfg.todo with
    | [] => none
    | op :: ops => some { cfg.exec op with todo := ops }
  | .act i x => match x with
    | .restart => none
    | x => (cfg.setting.running i).bind fun a => ((cfg.rafts i).act i x).map (cfg.install i a)
  | .handle k => cfg.handle k
  | .hear k => cfg.hear k
  | .rpc k a => match a with
    | .finish _ => none
    | a => (cfg.net.step (.on k a)).map fun rn => { cfg with net := rn }
  | .stopListening => (cfg.net.step .stopListening).map fun rn => { cfg with net := rn }
  | .strayCall a req => match cfg.instances[a]? with
    | some ⟨_, .superseded⟩ => some { cfg with net := { cfg.net with
        calls := cfg.net.calls ++
          [⟨⟨(a, req.endname), req.svcMeth, req.args⟩, .calling, .idle, false⟩] } }
    | _ => none
  | .strayReply k m => cfg.strayReply k m

end Config

def makeConfig (n : ℕ) (C : Type*) [Inhabited C] : Config n C where
  net := Labrpc.makeNetwork
  rafts := (raft n C).init
  instances := []
  endnames _ := none
  connected _ := false
  todo := []
  heard := []
  trace := []

def deployment (n : ℕ) (C : Type*) [Inhabited C] : System (Config n C) (Happening n C) where
  init := makeConfig n C
  step := Config.step

end DistLab.Raft
