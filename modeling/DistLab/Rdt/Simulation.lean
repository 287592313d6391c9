import Mathlib.Data.Rat.Floor
import DistLab.Systems.Agenda
import DistLab.Systems.Runs
import DistLab.Rdt.Sender
import DistLab.Rdt.Receiver

/-! # The simulator

Translation of `rdt_sim.cc`: the event chain, the timer of the sender, the lossy lower layer,
the generation and the verification of messages, and the main cycle. The random numbers and
what the stack holds are parameters. `none` is a handler that fails an assertion or leaves
its arrays.
-/

namespace DistLab.Rdt

structure EventChain (ε : Type) where
  simTime : ℚ := 0
  events : List (ℚ × ε) := []

namespace EventChain

variable {ε : Type}

/-- An event that is scheduled for the past is dropped. -/
def schedule (c : EventChain ε) (t : ℚ) (e : ε) : EventChain ε :=
  if t < c.simTime then c else { c with events := Agenda.enter t e c.events }

def cancel (c : EventChain ε) (test : ε → Bool) : EventChain ε :=
  { c with events := c.events.eraseP fun e => test e.2 }

def nextEvent (c : EventChain ε) : Option (ε × EventChain ε) :=
  match c.events with
  | [] => none
  | (t, e) :: es => some (e, ⟨t, es⟩)

end EventChain

/-- A timeout carries the number of its allocation, a packet whether it was corrupted on its way,
which the code does not keep. -/
inductive SimEvent where
  | senderFromUpperLayer
  | senderFromLowerLayer (pkt : Packet) (corrupted : Bool)
  | senderTimeout (id : ℕ)
  | receiverFromLowerLayer (pkt : Packet) (corrupted : Bool)

def SimEvent.isTimeout (id : ℕ) : SimEvent → Bool
  | .senderTimeout id' => id' == id
  | _ => false

def pktLatency : ℚ := 1 / 10

/-- The arguments of `main`, the results of `myrandom`, and what the handlers find on the stack. -/
structure Params where
  simTime : ℚ
  msgArrivalint : ℚ
  msgSize : ℕ
  outoforderRate : ℚ
  lossRate : ℚ
  corruptRate : ℚ
  random : ℕ → ℚ
  stack : ℕ → Packet

namespace Params

variable (p : Params)

/-- What `main` checks before it starts, and the range of `myrandom`. -/
structure Accepted : Prop where
  simTime : 0 < p.simTime
  msgArrivalint : 0 < p.msgArrivalint
  msgSize : 0 < p.msgSize
  outoforderRate : 0 ≤ p.outoforderRate ∧ p.outoforderRate ≤ 1
  lossRate : 0 ≤ p.lossRate ∧ p.lossRate ≤ 1
  corruptRate : 0 ≤ p.corruptRate ∧ p.corruptRate ≤ 1
  randtest : 1 / 4 ≤ ((List.range 1000).map p.random).sum / 1000 ∧
    ((List.range 1000).map p.random).sum / 1000 ≤ 3 / 4
  random : ∀ i, 0 ≤ p.random i ∧ p.random i ≤ 1

def corrupt (draws : ℕ) (pkt : Packet) : Packet := fun i =>
  if i < kPktSize then pkt i + BitVec.ofInt 8 (⌊p.random (draws + i) * 20⌋ - 10) else pkt i

/-- What becomes of a packet, unless it is lost: the bytes that arrive, whether they were
corrupted, and the time they take. The second part counts the random numbers drawn. -/
def channel (draws : ℕ) (pkt : Packet) : Option (Packet × Bool × ℚ) × ℕ :=
  if p.random draws < p.lossRate then (none, draws + 1)
  else
    let (pkt, corrupted, draws) :=
      if p.random (draws + 1) < p.corruptRate then
        (p.corrupt (draws + 2) pkt, true, draws + 2 + kPktSize)
      else (pkt, false, draws + 2)
    if p.random draws < p.outoforderRate then
      (some (pkt, corrupted, pktLatency * 2 * p.random (draws + 1)), draws + 2)
    else (some (pkt, corrupted, pktLatency), draws + 1)

end Params

/-- The global variables. The timer is known by the number of its allocation. -/
structure Simulation where
  core : EventChain SimEvent := {}
  senderTimer : Option ℕ := none
  allocated : ℕ := 0
  draws : ℕ := 0
  handled : ℕ := 0
  sender : Sender := {}
  receiver : Receiver := {}
  generateCnt : ℕ := 0
  verifyCnt : ℕ := 0
  totCharsSent : ℕ := 0
  totCharsDelivered : ℕ := 0
  totPktsPassed : ℕ := 0
  messageVerificationPassed : Bool := true

def digit (cnt : ℕ) : Byte := BitVec.ofNat 8 (48 + cnt)

def fill : ℕ → ℕ → List Byte × ℕ
  | cnt, 0 => ([], cnt)
  | cnt, size + 1 =>
    let (data, cnt') := fill ((cnt + 1) % 10) size
    (digit cnt :: data, cnt')

def verify : ℕ → Bool → List Byte → ℕ × Bool
  | cnt, passed, [] => (cnt, passed)
  | cnt, passed, c :: cs => verify ((cnt + 1) % 10) (passed && c == digit cnt) cs

namespace Simulation

variable (p : Params) (s : Simulation)

def generateMsg : List Byte × Simulation :=
  let size := ⌊p.random s.draws * 2 * p.msgSize⌋.toNat
  let size := if size = 0 then 1 else size
  let (data, cnt) := fill s.generateCnt size
  (data, { s with
    draws := s.draws + 1
    generateCnt := cnt
    totCharsSent := s.totCharsSent + size })

def stopTimer : Simulation :=
  match s.senderTimer with
  | none => s
  | some id => { s with core := s.core.cancel (SimEvent.isTimeout id), senderTimer := none }

def startTimer (timeout : ℚ) : Simulation :=
  let s := s.stopTimer
  { s with
    core := s.core.schedule (s.core.simTime + timeout) (.senderTimeout s.allocated)
    senderTimer := some s.allocated
    allocated := s.allocated + 1 }

/-- Both directions of the lower layer, with the event that a packet arrives as. -/
def toLowerLayer (event : Packet → Bool → SimEvent) (pkt : Packet) : Simulation :=
  match p.channel s.draws pkt with
  | (none, draws) => { s with draws := draws }
  | (some (pkt, corrupted, latency), draws) =>
    { s with
      core := s.core.schedule (s.core.simTime + latency) (event pkt corrupted)
      draws := draws
      totPktsPassed := s.totPktsPassed + 1 }

def senderToLowerLayer (pkt : Packet) : Simulation := s.toLowerLayer p .receiverFromLowerLayer pkt

def receiverToLowerLayer (pkt : Packet) : Simulation := s.toLowerLayer p .senderFromLowerLayer pkt

def receiverToUpperLayer (msg : List Byte) : Simulation :=
  let (cnt, passed) := verify s.verifyCnt s.messageVerificationPassed msg
  { s with
    verifyCnt := cnt
    messageVerificationPassed := passed
    totCharsDelivered := s.totCharsDelivered + msg.length }

def call : Call → Simulation
  | .startTimer timeout => s.startTimer timeout
  | .stopTimer => s.stopTimer
  | .toLowerLayer pkt => s.senderToLowerLayer p pkt

def senderCalls : Sender × List Call → Simulation
  | (sender, calls) => calls.foldl (call p) { s with sender := sender }

def receiverCalls : Receiver × List Packet × Option (List Byte) → Simulation
  | (receiver, acks, msg) =>
    let s := acks.foldl (receiverToLowerLayer p) { s with receiver := receiver }
    match msg with
    | none => s
    | some msg => s.receiverToUpperLayer msg

def recur : Simulation :=
  if s.core.simTime < p.simTime then
    { s with
      core := s.core.schedule (s.core.simTime + p.msgArrivalint * 2 * p.random s.draws)
        .senderFromUpperLayer
      draws := s.draws + 1 }
  else s

def handle : SimEvent → Option Simulation
  | .senderFromUpperLayer =>
    let (msg, s) := s.generateMsg p
    (Sender.Calling.fromUpperLayer s.core.simTime (p.stack s.handled) msg s.sender).map fun r =>
      (s.senderCalls p r).recur p
  | .senderFromLowerLayer pkt _ =>
    (Sender.Calling.fromLowerLayer s.core.simTime (p.stack s.handled) pkt s.sender).map
      (s.senderCalls p)
  | .senderTimeout _ =>
    (Sender.Calling.timeout s.core.simTime s.sender).map
      ({ s with senderTimer := none }.senderCalls p)
  | .receiverFromLowerLayer pkt _ =>
    (s.receiver.fromLowerLayer (p.stack s.handled) pkt).map (s.receiverCalls p)

def advance (core : EventChain SimEvent) : Simulation :=
  { s with core := core, handled := s.handled + 1 }

def cycle : Option Simulation :=
  match s.core.nextEvent with
  | none => some s
  | some (e, core) => (s.advance core).handle p e

def errorFree : Bool := s.messageVerificationPassed && s.totCharsSent == s.totCharsDelivered

end Simulation

/-- `main` draws a thousand random numbers before it schedules the first message. -/
def simulation (p : Params) : System Simulation Unit where
  init := { core := ({} : EventChain SimEvent).schedule 0 .senderFromUpperLayer, draws := 1000 }
  step s _ := s.cycle p

end DistLab.Rdt
