import Mathlib.Data.Int.Notation
import Mathlib.Data.List.Basic
import Mathlib.Logic.Function.Basic
import DistLab.Systems.Runs

/-! # The simulated network

`labrpc.go` as a transition system. Every `Call` is followed from its request to its
return: the goroutine of `ProcessReq` that serves it, the one that runs the handler and
the one that drains the channel of a dead server. A section under the lock of the network
is one step; how long something sleeps is not modelled, only what may happen meanwhile.
An end is named by `E`, a server by `S`, encoded arguments and replies are of type `B`.
-/

namespace DistLab.Labrpc

variable {E S B : Type*}

structure ReqMsg (E B : Type*) where
  endname : E
  svcMeth : List Char
  args : B
  deriving DecidableEq

/-- `reply` is `none` for the nil slice. -/
structure ReplyMsg (B : Type*) where
  ok : Bool
  reply : Option B
  deriving DecidableEq

structure Method where
  name : List Char
  exported : Bool
  numIn : ℕ
  replyIsPtr : Bool
  numOut : ℕ
  deriving DecidableEq

structure Service where
  name : List Char
  methods : List (List Char)
  deriving DecidableEq

/-- The methods that look like handlers. -/
def makeService (name : List Char) (methods : List Method) : Service where
  name := name
  methods := (methods.filter fun m =>
    m.exported && m.numIn == 3 && m.replyIsPtr && m.numOut == 0).map Method.name

structure Server where
  services : List Char → Option Service
  count : ℕ

def makeServer : Server := ⟨fun _ => none, 0⟩

def Server.addService (rs : Server) (svc : Service) : Server :=
  { rs with services := Function.update rs.services svc.name (some svc) }

def lastIndex (c : Char) : List Char → Option ℕ
  | [] => none
  | a :: l => match lastIndex c l with
    | some k => some (k + 1)
    | none => if a = c then some 0 else none

/-- `dispatch` finds a handler for the method: the name has a dot, what stands before the last
one is a service and what follows is one of its methods. -/
def Server.handles (rs : Server) (svcMeth : List Char) : Bool :=
  match lastIndex '.' svcMeth with
  | none => false
  | some dot => match rs.services (svcMeth.take dot) with
    | none => false
    | some svc => svc.methods.contains (svcMeth.drop (dot + 1))

def Server.counted (rs : Server) : Server := { rs with count := rs.count + 1 }

/-- What `ReadEndnameInfo` returns for an end that is enabled and connected to a server; servers
are compared by their addresses. -/
structure Info (S : Type*) where
  servername : S
  server : ℕ
  reliable : Bool
  longreordering : Bool
  deriving DecidableEq

/-- Where a `Call` and the goroutine of `ProcessReq` that serves it stand.

`calling` is the `select` of `Call`; `accepted` is the start of `ProcessReq`; `delayed` has read
the state of the end and `waiting` has started the handler. `decided` has left the loop, with the
reply if there is one. `answering` has an answer to send to the caller. -/
inductive Stage (S B : Type*) where
  | calling
  | accepted
  | delayed (info : Info S)
  | waiting (info : Info S)
  | decided (info : Info S) (reply : Option (ReplyMsg B))
  | answering (rep : ReplyMsg B)
  | returned (result : Option B)
  deriving DecidableEq

/-- The goroutine that runs the handler of the server that `ProcessReq` has read, up to the send
of its reply. -/
inductive Handler (S B : Type*) where
  | idle
  | spawned (info : Info S)
  | running (info : Info S)
  | sending (info : Info S) (reply : B)
  | ended (info : Info S) (reply : B)
  deriving DecidableEq

/-- One `Call`; `drainer` is set when a goroutine drains the channel of its handler. -/
structure Call (E S B : Type*) where
  req : ReqMsg E B
  stage : Stage S B
  handler : Handler S B
  drainer : Bool
  deriving DecidableEq

/-- `listening` is the goroutine of `MakeNetwork`; `fatal` is set when the process has ended in
`log.Fatalf` or a panic. `objects` are the servers by address, each as `MakeServer` makes it until
a service is added. -/
structure Network (E S B : Type*) where
  reliable : Bool
  longReordering : Bool
  ends : E → Bool
  enabled : E → Bool
  servers : S → Option ℕ
  connections : E → Option S
  count : Int32
  done : Bool
  listening : Bool
  objects : ℕ → Server
  calls : List (Call E S B)
  fatal : Bool

def makeNetwork : Network E S B where
  reliable := true
  longReordering := false
  ends _ := false
  enabled _ := false
  servers _ := none
  connections _ := none
  count := 0
  done := false
  listening := true
  objects _ := makeServer
  calls := []
  fatal := false

inductive Admin (E S : Type*) where
  | makeEnd (endname : E)
  | addService (server : ℕ) (svc : Service)
  | addServer (servername : S) (server : ℕ)
  | deleteServer (servername : S)
  | connect (endname : E) (servername : S)
  | enable (endname : E) (enabled : Bool)
  | reliable (yes : Bool)
  | longReordering (yes : Bool)
  | cleanup
  deriving DecidableEq

/-- The random choice that follows the last look at the server. -/
inductive Choice where
  | drop
  | delay
  | send
  deriving DecidableEq

inductive Act (B : Type*) where
  | accept
  | refuse
  | read
  | drop
  | execute
  | dispatch
  | finish (reply : B)
  | receive
  | tick
  | drain
  | check (c : Choice)
  | answer
  deriving DecidableEq

inductive Event (E S B : Type*) where
  | admin (a : Admin E S)
  | call (req : ReqMsg E B)
  | stopListening
  | on (k : ℕ) (a : Act B)
  deriving DecidableEq

def ReplyMsg.lost : ReplyMsg B := ⟨false, none⟩

namespace Network

def readEndnameInfo (rn : Network E S B) (endname : E) :
    Bool × Option S × Option ℕ × Bool × Bool :=
  let servername := rn.connections endname
  (rn.enabled endname, servername, servername.bind rn.servers, rn.reliable, rn.longReordering)

def isServerDead [DecidableEq S] (rn : Network E S B) (endname : E) (servername : S)
    (server : ℕ) : Bool :=
  !rn.enabled endname || rn.servers servername != some server

def getCount (rn : Network E S B) (servername : S) : Option ℕ :=
  (rn.servers servername).map fun server => (rn.objects server).count

def getTotalCount (rn : Network E S B) : ℤ := rn.count.toInt

def admin [DecidableEq E] [DecidableEq S] (rn : Network E S B) : Admin E S → Network E S B
  | .makeEnd e => if rn.ends e then { rn with fatal := true } else { rn with
      ends := Function.update rn.ends e true
      enabled := Function.update rn.enabled e false
      connections := Function.update rn.connections e none }
  | .addService o svc =>
      { rn with objects := Function.update rn.objects o ((rn.objects o).addService svc) }
  | .addServer s o => { rn with servers := Function.update rn.servers s (some o) }
  | .deleteServer s => { rn with servers := Function.update rn.servers s none }
  | .connect e s => { rn with connections := Function.update rn.connections e (some s) }
  | .enable e b => { rn with enabled := Function.update rn.enabled e b }
  | .reliable yes => { rn with reliable := yes }
  | .longReordering yes => { rn with longReordering := yes }
  | .cleanup => if rn.done then { rn with fatal := true } else { rn with done := true }

/-- What a step of a call does beside the call itself: the listening goroutine and `dispatch`
count it, and the process ends when no handler is found or the reply cannot be decoded. -/
def effect (rn : Network E S B) (c : Call E S B) : Act B → Network E S B
  | .accept => { rn with count := rn.count + 1 }
  | .dispatch => match c.handler with
    | .spawned info => { rn with
        objects := Function.update rn.objects info.server (rn.objects info.server).counted
        fatal := !(rn.objects info.server).handles c.req.svcMeth }
    | _ => rn
  | .answer => match c.stage with
    | .answering ⟨true, none⟩ => { rn with fatal := true }
    | _ => rn
  | _ => rn

end Network

namespace Call

variable [DecidableEq S]

def act (rn : Network E S B) (c : Call E S B) : Act B → Option (Call E S B)
  | .accept => match c.stage with
    | .calling => if rn.listening then some { c with stage := .accepted } else none
    | _ => none
  | .refuse => match c.stage with
    | .calling => if rn.done then some { c with stage := .returned none } else none
    | _ => none
  | .read => match c.stage with
    | .accepted => match rn.readEndnameInfo c.req.endname with
      | (true, some servername, some server, reliable, longreordering) =>
        some { c with stage := .delayed ⟨servername, server, reliable, longreordering⟩ }
      | _ => some { c with stage := .answering .lost }
    | _ => none
  | .drop => match c.stage with
    | .delayed info => if info.reliable then none else
        some { c with stage := .answering .lost }
    | _ => none
  | .execute => match c.stage with
    | .delayed info => some { c with stage := .waiting info, handler := .spawned info }
    | _ => none
  | .dispatch => match c.handler with
    | .spawned info => some { c with handler := .running info }
    | _ => none
  | .finish b => match c.handler with
    | .running info => some { c with handler := .sending info b }
    | _ => none
  | .receive => match c.stage, c.handler with
    | .waiting info, .sending info' b =>
      some { c with stage := .decided info (some ⟨true, some b⟩), handler := .ended info' b }
    | _, _ => none
  | .tick => match c.stage with
    | .waiting info => some (if rn.isServerDead c.req.endname info.servername info.server
        then { c with stage := .decided info none, drainer := true } else c)
    | _ => none
  | .drain => match c.drainer, c.handler with
    | true, .sending info b => some { c with handler := .ended info b }
    | _, _ => none
  | .check choice => match c.stage with
    | .decided info reply => match reply with
      | none => some { c with stage := .answering .lost }
      | some rep =>
        if rn.isServerDead c.req.endname info.servername info.server then
          some { c with stage := .answering .lost }
        else match choice with
          | .drop => if info.reliable then none else some { c with stage := .answering .lost }
          | .delay => if info.longreordering then some { c with stage := .answering rep } else none
          | .send => some { c with stage := .answering rep }
    | _ => none
  | .answer => match c.stage with
    | .answering rep => some { c with stage := .returned (if rep.ok then rep.reply else none) }
    | _ => none

end Call

variable [DecidableEq E] [DecidableEq S]

def Network.step (rn : Network E S B) (e : Event E S B) : Option (Network E S B) :=
  if rn.fatal then none else match e with
  | .admin a => some (rn.admin a)
  | .call req => if rn.ends req.endname then
      some { rn with calls := rn.calls ++ [⟨req, .calling, .idle, false⟩] } else none
  | .stopListening => if rn.done && rn.listening then some { rn with listening := false } else none
  | .on k a => rn.calls[k]?.bind fun c => (c.act rn a).map fun c' =>
      { rn.effect c a with calls := rn.calls.set k c' }

def network (E S B : Type*) [DecidableEq E] [DecidableEq S] :
    System (Network E S B) (Event E S B) where
  init := makeNetwork
  step := Network.step

end DistLab.Labrpc
