import DistLab.Systems.Carriage
import DistLab.Labrpc.Transport
import DistLab.Raft.Reactions
import DistLab.Raft.Instances

/-! # Raft over the simulated network

The servers as the tests deploy them are the servers of the cluster. A handler that runs
on a superseded instance never confirms its call, since the server was deleted before its
persister was copied, and a call by a superseded instance never reaches anyone, since its
ends stay disabled. So every request is handled at most once by an instance whose state
survives, every reply that is taken comes from such a handler, and a run of the
configuration is a run of the cluster with the same servers and the same history.
-/

namespace DistLab.Raft

open Labrpc (Call)

variable {n : ℕ} {C : Type*}

def Msg.isRequest : Msg n C → Bool
  | .requestVote .. | .appendEntries .. => true
  | .requestVoteReply .. | .appendEntriesReply .. => false

def Msg.caller : Msg n C → Fin n
  | .requestVote _ args | .requestVoteReply _ args _ => args.candidateId
  | .appendEntries _ _ args | .appendEntriesReply _ _ args _ => args.leaderId

theorem Msg.dst_of_reply {m : Msg n C} (h : m.isRequest = false) : m.dst = m.caller := by
  cases m <;> first | rfl | cases h

namespace Server

variable [Inhabited C] {me : Fin n} {rf : Server n C}

theorem act_out {x : Act C} {r : Outcome n C} (h : rf.act me x = some r) {m : Msg n C}
    (hm : m ∈ r.out) : m.isRequest = true ∧ m.caller = me := by
  cases act_reacts h
  case campaign =>
    obtain ⟨p, -, rfl⟩ := List.mem_map.mp hm
    exact ⟨rfl, rfl⟩
  case broadcast | brokenBroadcast =>
    obtain ⟨⟨p, args⟩, hargs, rfl⟩ := List.mem_map.mp hm
    obtain ⟨-, hb⟩ := mem_buildAll hargs
    obtain ⟨e, -, rfl⟩ := Option.map_eq_some_iff.mp hb
    exact ⟨rfl, rfl⟩
  all_goals simp at hm

theorem recv_out_request {m m' : Msg n C} (h : m.isRequest = true)
    (hm : (rf.recv me m).out = [m']) : m'.isRequest = false ∧ m'.caller = m.caller := by
  cases m with
  | requestVote p args =>
    simp only [recv] at hm
    split at hm
    · simp at hm
    · obtain rfl := List.singleton_inj.mp hm
      exact ⟨rfl, rfl⟩
  | appendEntries p ch args =>
    simp only [recv] at hm
    split at hm
    · simp at hm
    · obtain rfl := List.singleton_inj.mp hm
      exact ⟨rfl, rfl⟩
  | requestVoteReply | appendEntriesReply => cases h

theorem recv_out_reply {m : Msg n C} (h : m.isRequest = false) : (rf.recv me m).out = [] := by
  cases m with
  | requestVoteReply | appendEntriesReply =>
    simp only [recv]
    repeat' split
    all_goals rfl
  | requestVote | appendEntries => cases h

end Server

/-- Instances keep their server; one that has started is never started again, and one that is
superseded stays so. -/
def Evolves (s s' : Setting n) : Prop :=
  ∀ (a : ℕ) (i : Fin n) (p : Phase), s.instances[a]? = some ⟨i, p⟩ →
    ∃ p', s'.instances[a]? = some ⟨i, p'⟩ ∧
    (p ≠ .starting → p' ≠ .starting ∧ (p' = .running → p = .running))

namespace Evolves

variable {s s' : Setting n} {i : Fin n} {a : ℕ} {op : Op n}

theorem of_eq (h : s'.instances = s.instances) : Evolves s s' := by
  intro a i p ha
  exact ⟨p, h ▸ ha, fun hp => ⟨hp, id⟩⟩

theorem of_set {p q : Phase} (ha : s.instances[a]? = some ⟨i, p⟩)
    (h : s'.instances = s.instances.set a ⟨i, q⟩)
    (hq : p ≠ .starting → q ≠ .starting ∧ (q = .running → p = .running)) : Evolves s s' := by
  intro b j r hb
  rw [h, Orderly.getElem?_phase ha]
  split_ifs with hab
  · subst hab
    obtain ⟨rfl, rfl⟩ := Instance.mk.inj (Option.some.inj (ha.symm.trans hb))
    exact ⟨q, rfl, hq⟩
  · exact ⟨r, hb, fun hr => ⟨hr, id⟩⟩

theorem exec (h : Orderly s) (hi : s.Allows op) : Evolves s (s.exec op) := by
  cases op with
  | copyPersister i =>
    simp only [Setting.exec]
    split
    · exact of_eq rfl
    · next a ha => exact of_set (h.running_iff.mp ha) rfl (by simp)
  | newEndnames i =>
    intro a j p ha
    obtain ⟨hlt, -⟩ := List.getElem?_eq_some_iff.mp ha
    exact ⟨p, (List.getElem?_append_left hlt).trans ha, fun hp => ⟨hp, id⟩⟩
  | make i =>
    simp only [Setting.exec]
    split
    · exact of_eq rfl
    · next a ha => exact of_set (hi a ha) rfl (by simp)
  | makeEnd i j =>
    simp only [Setting.exec]
    repeat' split
    all_goals exact of_eq rfl
  | enable | connect | addServer =>
    simp only [Setting.exec]
    split <;> exact of_eq rfl
  | deleteServer | kill | addService | reliable | longReordering | netCleanup => exact of_eq rfl

theorem runs (h : Evolves s s') {p : Phase} (ha : s.instances[a]? = some ⟨i, p⟩)
    (hp : p ≠ .starting) (hr : s'.runs a = true) : s.runs a = true := by
  obtain ⟨p', ha', hp'⟩ := h a i p ha
  obtain ⟨j, hj⟩ := Setting.runs_iff.mp hr
  obtain ⟨rfl, rfl⟩ := Instance.mk.inj (Option.some.inj (ha'.symm.trans hj))
  rw [(hp' hp).2 rfl] at ha
  exact Setting.runs_iff.mpr ⟨i, ha⟩

end Evolves

abbrev RaftCall (n : ℕ) (C : Type*) := Call (EndName n) (Fin n) (Msg n C)

/-- What a call can still deliver between running instances. -/
def Setting.holds (s : Setting n) (heard : Bool) (c : RaftCall n C) : Option (Msg n C) :=
  c.holds (fun e => s.runs e.1) s.runs heard

structure Proper (s : Setting n) (c : RaftCall n C) : Prop where
  request : c.req.args.isRequest = true
  dst : c.req.args.dst = c.req.endname.2
  caller : ∃ p, s.instances[c.req.endname.1]? = some ⟨c.req.args.caller, p⟩

/-- What is known of every call, also of those that superseded instances have made or handled. -/
structure Accounted (s : Setting n) (c : RaftCall n C) : Prop where
  sound : c.Sound
  made : ∃ i p, s.instances[c.req.endname.1]? = some ⟨i, p⟩ ∧ p ≠ .starting
  unread : c.stage = .calling ∨ c.stage = .accepted → s.runs c.req.endname.1 = true → Proper s c
  read : ∀ info, c.Routed info → Proper s c ∧ info.servername = c.req.endname.2 ∧
    ∃ p, s.instances[info.server]? = some ⟨info.servername, p⟩ ∧ p ≠ .starting
  reply : c.handler.reply.isSome = true → ∀ m, s.holds false c = some m →
    m.isRequest = false ∧ ∃ p, s.instances[c.req.endname.1]? = some ⟨m.caller, p⟩

theorem Proper.evolves {s s' : Setting n} {c : RaftCall n C} (h : Proper s c)
    (he : Evolves s s') : Proper s' c where
  request := h.request
  dst := h.dst
  caller := by
    obtain ⟨p, hp⟩ := h.caller
    obtain ⟨p', hp', -⟩ := he _ _ _ hp
    exact ⟨p', hp'⟩

namespace Accounted

variable {s s' : Setting n} {c : RaftCall n C}

theorem holds_evolves (h : Accounted s c) (he : Evolves s s') {heard : Bool} {m : Msg n C}
    (hm : s'.holds heard c = some m) : s.holds heard c = some m := by
  obtain ⟨i, p, hi, hp⟩ := h.made
  refine Labrpc.Call.holds_mono (fun ho => he.runs hi hp ho) (fun info hinfo hl => ?_) id hm
  obtain ⟨-, -, q, hq, hne⟩ := h.read info (h.sound.routed hinfo)
  exact he.runs hq hne hl

theorem evolves (h : Accounted s c) (he : Evolves s s') : Accounted s' c where
  sound := h.sound
  made := by
    obtain ⟨i, p, hi, hp⟩ := h.made
    obtain ⟨p', hp', hne⟩ := he _ _ _ hi
    exact ⟨i, p', hp', (hne hp).1⟩
  unread hst hr := by
    obtain ⟨i, p, hi, hp⟩ := h.made
    exact (h.unread hst (he.runs hi hp hr)).evolves he
  read info hinfo := by
    obtain ⟨hproper, hname, q, hq, hne⟩ := h.read info hinfo
    obtain ⟨q', hq', hne'⟩ := he _ _ _ hq
    exact ⟨hproper.evolves he, hname, q', hq', (hne' hne).1⟩
  reply hrep m hm := by
    obtain ⟨hreq, p, hp⟩ := h.reply hrep m (h.holds_evolves he hm)
    obtain ⟨p', hp', -⟩ := he _ _ _ hp
    exact ⟨hreq, p', hp'⟩

theorem moves (h : Accounted s c) (ho : Orderly s) {rn : Labrpc.Network (EndName n) (Fin n) (Msg n C)}
    {a : Labrpc.Act (Msg n C)} {c' : RaftCall n C} (hen : rn.enabled = s.enabled)
    (hco : rn.connections = s.connections) (hsv : rn.servers = s.servers) (hm : c.Moves rn a c')
    (ha : ∀ m, a ≠ .finish m) : Accounted s c' := by
  have hreq := hm.req_eq
  have hproper : Proper s c → Proper s c' := by
    intro hp
    exact ⟨hreq ▸ hp.request, hreq ▸ hp.dst, hreq ▸ hp.caller⟩
  refine ⟨h.sound.moves hm, hreq ▸ h.made, fun hst hr => ?_, fun info hinfo => ?_,
    fun hrep m hmsg => ?_⟩
  · refine hproper (h.unread ?_ (hreq ▸ hr))
    cases hm <;> simp_all
  · rw [hreq]
    by_cases hold : c.Routed info
    · obtain ⟨hp, hrest⟩ := h.read info hold
      exact ⟨hproper hp, hrest⟩
    · obtain ⟨rfl, he, hc, hs⟩ := hm.routed hold hinfo
      rw [hen] at he
      rw [hco] at hc
      rw [hsv] at hs
      have hacc : c.stage = .accepted := by
        cases hm <;> assumption
      exact ⟨hproper (h.unread (Or.inr hacc) (ho.enabled _ _ he)), ho.connections _ _ _ hc,
        .running, ho.servers _ _ hs, by simp⟩
  · rw [hreq]
    refine h.reply ?_ m ?_
    · cases hm <;> simp_all [Labrpc.Handler.reply]
    · exact hm.holds h.sound ha (fun he => ho.enabled _ _ (hen ▸ he))
        (fun i o hs => Setting.runs_iff.mpr ⟨i, ho.servers i o (hsv ▸ hs)⟩) hmsg

theorem finish (h : Accounted s c) {info : Labrpc.Info (Fin n)} {m : Msg n C}
    (hh : c.handler = .running info) (hm : s.runs info.server = true →
      m.isRequest = false ∧ m.caller = c.req.args.caller) :
    Accounted s { c with handler := .sending info m } := by
  have hmove : c.Moves Labrpc.makeNetwork (.finish m) { c with handler := .sending info m } :=
    .finish hh
  have hrouted : c.Routed info := Or.inr (by rw [hh]; rfl)
  refine ⟨h.sound.moves hmove, h.made, fun hst hr => ?_, fun info' hinfo => ?_,
    fun _ m' hm' => ?_⟩
  · exact ⟨(h.unread hst hr).request, (h.unread hst hr).dst, (h.unread hst hr).caller⟩
  · obtain ⟨hp, hrest⟩ := h.read info' (hinfo.imp_right fun hi => by rw [hh]; exact hi)
    exact ⟨⟨hp.request, hp.dst, hp.caller⟩, hrest⟩
  · obtain ⟨info', hinfo, hlive, rfl⟩ := hmove.holds_finish h.sound hm'
    obtain rfl := Labrpc.Handler.running.inj (hh.symm.trans hinfo)
    obtain ⟨hreq, hcaller⟩ := hm hlive
    exact ⟨hreq, hcaller ▸ (h.read info hrouted).1.caller⟩

theorem new {req : Labrpc.ReqMsg (EndName n) (Msg n C)} {i : Fin n} {p : Phase}
    (ha : s.instances[req.endname.1]? = some ⟨i, p⟩) (hp : p ≠ .starting)
    (hr : p = .running → req.args.isRequest = true ∧ req.args.dst = req.endname.2 ∧
      req.args.caller = i) : Accounted s (⟨req, .calling, .idle, false⟩ : RaftCall n C) := by
  refine ⟨.calling, ⟨i, p, ha, hp⟩, fun _ hrun => ?_, fun info hinfo => ?_, fun h => ?_⟩
  · obtain ⟨j, hj⟩ := Setting.runs_iff.mp hrun
    obtain ⟨hreq, hdst, rfl⟩ := hr (Instance.mk.inj (Option.some.inj (ha.symm.trans hj))).2
    exact ⟨hreq, hdst, p, ha⟩
  · simp [Labrpc.Call.Routed, Labrpc.Handler.info] at hinfo
  · cases h

end Accounted

namespace Config

def holds (cfg : Config n C) (k : ℕ) : Option (Msg n C) :=
  cfg.net.calls[k]?.bind (cfg.setting.holds (k ∈ cfg.heard))

/-- The cluster that the configuration shows; nothing is delivered once the process has ended. -/
def view (cfg : Config n C) : Cluster n C where
  node := cfg.rafts
  net := if cfg.net.fatal then [] else held cfg.net.calls.length cfg.holds
  trace := cfg.trace

structure Sane (cfg : Config n C) : Prop where
  orderly : Orderly cfg.setting
  ready : cfg.setting.Ready cfg.todo
  accounted : ∀ (k : ℕ) (c : RaftCall n C), cfg.net.calls[k]? = some c → Accounted cfg.setting c

variable {cfg cfg' : Config n C} {l : List (Msg n C)}

theorem view_net (h : cfg.net.fatal = false) :
    cfg.view.net = held cfg.net.calls.length cfg.holds := by
  simp [view, h]

theorem view_net_subperm (h : (held cfg.net.calls.length cfg.holds).Subperm l) :
    cfg.view.net.Subperm l := by
  simp only [view]
  split_ifs
  · exact List.nil_subperm
  · exact h

theorem holds_eq {k : ℕ} {c : RaftCall n C} (hc : cfg.net.calls[k]? = some c) :
    cfg.holds k = cfg.setting.holds (k ∈ cfg.heard) c := by
  simp [holds, hc]

theorem carries_idle [Inhabited C] (hf : cfg.net.fatal = false) (hr : cfg'.rafts = cfg.rafts)
    (ht : cfg'.trace = cfg.trace) (hlen : cfg'.net.calls.length = cfg.net.calls.length)
    (hh : ∀ k, ∀ m ∈ cfg'.holds k, cfg.holds k = some m) :
    (raft n C).Carries ⊤ cfg.view cfg'.view := by
  refine .idle hr ht (view_net_subperm ?_)
  rw [view_net hf, hlen]
  exact held_subperm fun k _ => hh k

section Steps

variable [Inhabited C]

omit [Inhabited C] in
theorem Sane.evolves (h : cfg.Sane) (he : Evolves cfg.setting cfg'.setting)
    (ho : Orderly cfg'.setting) (hr : cfg'.setting.Ready cfg'.todo)
    (hcalls : cfg'.net.calls = cfg.net.calls) (hheard : cfg'.heard = cfg.heard) :
    cfg'.Sane ∧ ∀ k, ∀ m ∈ cfg'.holds k, cfg.holds k = some m := by
  refine ⟨⟨ho, hr, fun k c hc => ?_⟩, fun k m hm => ?_⟩
  · exact (h.accounted k c (hcalls ▸ hc)).evolves he
  · obtain ⟨c, hc, hm⟩ := Option.bind_eq_some_iff.mp hm
    rw [hcalls] at hc
    rw [holds_eq hc, ← hheard]
    exact (h.accounted k c hc).holds_evolves he hm

theorem Sane.call {cmd : Command n} (h : cfg.Sane) (hf : cfg.net.fatal = false)
    (hs : cfg.call cmd = some cfg') : cfg'.Sane ∧ (raft n C).Carries ⊤ cfg.view cfg'.view := by
  obtain ⟨horderly, hready⟩ := call_orderly h.orderly hs
  have hsame : cfg'.net = cfg.net ∧ cfg'.rafts = cfg.rafts ∧ cfg'.trace = cfg.trace ∧
      cfg'.heard = cfg.heard ∧ cfg'.instances = cfg.instances := by
    cases cmd <;> simp only [Config.call, Option.ite_none_right_eq_some, Option.some.injEq] at hs
    case connect =>
      obtain ⟨-, rfl⟩ := hs
      exact ⟨rfl, rfl, rfl, rfl, rfl⟩
    all_goals
      obtain rfl := hs
      exact ⟨rfl, rfl, rfl, rfl, rfl⟩
  obtain ⟨hnet, hrafts, htrace, hheard, hinst⟩ := hsame
  obtain ⟨hsane, hholds⟩ := h.evolves (.of_eq hinst) horderly hready (by rw [hnet]) hheard
  exact ⟨hsane, carries_idle hf hrafts htrace (by rw [hnet]) hholds⟩

/-- A server notices an operation of the test goroutine when its persister is copied or when it is
killed. -/
theorem exec_rafts (cfg : Config n C) (op : Op n) : (cfg.exec op).rafts = cfg.rafts ∨
    ∃ i x rf, (cfg.rafts i).act i x = some (Server.quiet rf) ∧
      (cfg.exec op).rafts = Function.update cfg.rafts i rf := by
  cases op with
  | copyPersister i =>
    simp only [Config.exec]
    split
    · exact Or.inl rfl
    · exact Or.inr ⟨i, .restart, _, rfl, rfl⟩
  | kill i =>
    simp only [Config.exec]
    split
    · exact Or.inl rfl
    · exact Or.inr ⟨i, .kill, _, rfl, rfl⟩
  | enable | makeEnd | connect | make | addService | addServer =>
    simp only [Config.exec, onLatest]
    split <;> exact Or.inl rfl
  | deleteServer | newEndnames | reliable | longReordering | netCleanup => exact Or.inl rfl

theorem exec_frame (cfg : Config n C) (op : Op n) : (cfg.exec op).net.calls = cfg.net.calls ∧
    (cfg.exec op).heard = cfg.heard ∧ (cfg.exec op).trace = cfg.trace := by
  cases op <;> simp only [Config.exec, onLatest] <;> try split
  all_goals simp

theorem Sane.exec {op : Op n} {ops : List (Op n)} (h : cfg.Sane) (hf : cfg.net.fatal = false)
    (htodo : cfg.todo = op :: ops) : Sane { cfg.exec op with todo := ops } ∧
      (raft n C).Carries ⊤ cfg.view (view { cfg.exec op with todo := ops }) := by
  have hrafts := exec_rafts cfg op
  have hready := h.ready
  rw [htodo] at hready
  obtain ⟨hallows, hrest⟩ := hready
  obtain ⟨hcalls, hheard, htrace⟩ := exec_frame cfg op
  have hset := exec_setting cfg op
  have he : Evolves cfg.setting (cfg.exec op).setting := hset ▸ .exec h.orderly hallows
  have ho : Orderly (cfg.exec op).setting := hset ▸ h.orderly.exec hallows
  have hr : (cfg.exec op).setting.Ready ops := hset ▸ hrest
  generalize cfg.exec op = cfg' at *
  obtain ⟨hsane, hholds⟩ : Sane { cfg' with todo := ops } ∧ _ := h.evolves he ho hr hcalls hheard
  refine ⟨hsane, ?_⟩
  rcases hrafts with hrafts | ⟨i, x, rf, hact, hrafts⟩
  · exact carries_idle hf hrafts htrace (by rw [hcalls]) hholds
  · refine .act (x := x) hact trivial hrafts htrace (view_net_subperm ?_)
    rw [view_net hf]
    simp only [hcalls, Server.quiet_out, List.append_nil]
    exact held_subperm fun k _ => hholds k

theorem Sane.install {i : Fin n} {a : ℕ} {x : Act C} {r : Outcome n C} (h : cfg.Sane)
    (hf : cfg.net.fatal = false) (ha : cfg.setting.running i = some a)
    (hr : (cfg.rafts i).act i x = some r) :
    (cfg.install i a r).Sane ∧ (raft n C).Carries ⊤ cfg.view (cfg.install i a r).view := by
  have hinst := h.orderly.running_iff.mp ha
  refine ⟨⟨h.orderly, h.ready, fun k c hc => ?_⟩, ?_⟩
  · simp only [Config.install, List.getElem?_append] at hc
    split_ifs at hc with hk
    · exact h.accounted k c hc
    · obtain ⟨m, hm, rfl⟩ := List.mem_map.mp (List.mem_of_getElem? hc)
      obtain ⟨hreq, hcaller⟩ := Server.act_out hr hm
      exact .new hinst (by simp) fun _ => ⟨hreq, rfl, hcaller⟩
  · refine .act (x := x) hr trivial rfl rfl (view_net_subperm ?_)
    rw [view_net hf]
    have hlen : (cfg.install i a r).net.calls.length = cfg.net.calls.length + r.out.length := by
      simp [Config.install]
    rw [hlen]
    refine held_add (fun k hk m hm => ?_) fun k m hm => ?_
    · obtain ⟨c, hc, hm⟩ := Option.bind_eq_some_iff.mp hm
      rw [Config.install, List.getElem?_append_left hk] at hc
      exact (holds_eq hc).trans hm
    · obtain ⟨c, hc, hm⟩ := Option.bind_eq_some_iff.mp hm
      rw [Config.install, List.getElem?_append_right (Nat.le_add_right _ _),
        Nat.add_sub_cancel_left, List.getElem?_map] at hc
      obtain ⟨m', hm', rfl⟩ := Option.map_eq_some_iff.mp hc
      obtain ⟨-, hm⟩ := Option.ite_none_right_eq_some.mp hm
      exact hm'.trans hm

section OneCall

variable {k : ℕ} {c c' : RaftCall n C}

omit [Inhabited C] in
theorem Sane.set (h : cfg.Sane) (hset : cfg'.setting = cfg.setting) (htodo : cfg'.todo = cfg.todo)
    (hcalls : cfg'.net.calls = cfg.net.calls.set k c') (hc : Accounted cfg.setting c') :
    cfg'.Sane := by
  refine ⟨hset ▸ h.orderly, ?_, fun j d hd => ?_⟩
  · rw [hset, htodo]
    exact h.ready
  · rw [hset]
    rw [hcalls, List.getElem?_set] at hd
    split_ifs at hd
    · exact Option.some.inj hd ▸ hc
    · exact h.accounted j d hd

omit [Inhabited C] in
theorem holds_set (hset : cfg'.setting = cfg.setting) (hheard : cfg'.heard = cfg.heard)
    (hcalls : cfg'.net.calls = cfg.net.calls.set k c') (hc : cfg.net.calls[k]? = some c) :
    (∀ j, j ≠ k → cfg'.holds j = cfg.holds j) ∧
      cfg'.holds k = cfg.setting.holds (k ∈ cfg.heard) c' := by
  obtain ⟨hlt, -⟩ := List.getElem?_eq_some_iff.mp hc
  refine ⟨fun j hj => ?_, ?_⟩
  · rw [holds, holds, hcalls, List.getElem?_set_ne hj.symm, hset, hheard]
  · rw [← hset, ← hheard]
    exact holds_eq (by rw [hcalls, List.getElem?_set_self hlt])

theorem carries_set (hf : cfg.net.fatal = false) (hset : cfg'.setting = cfg.setting)
    (hr : cfg'.rafts = cfg.rafts) (ht : cfg'.trace = cfg.trace) (hheard : cfg'.heard = cfg.heard)
    (hcalls : cfg'.net.calls = cfg.net.calls.set k c') (hc : cfg.net.calls[k]? = some c)
    (hm : ∀ heard m, cfg.setting.holds heard c' = some m → cfg.setting.holds heard c = some m) :
    (raft n C).Carries ⊤ cfg.view cfg'.view := by
  obtain ⟨hne, hk⟩ := holds_set hset hheard hcalls hc
  refine carries_idle hf hr ht (by rw [hcalls, List.length_set]) fun j m hj => ?_
  rcases eq_or_ne j k with rfl | hjk
  · rw [holds_eq hc]
    exact hm _ m (hk ▸ hj)
  · exact hne j hjk ▸ hj

theorem Sane.rpc {a : Labrpc.Act (Msg n C)} {rn : Labrpc.Network (EndName n) (Fin n) (Msg n C)}
    (h : cfg.Sane) (ha : ∀ m, a ≠ .finish m) (hs : cfg.net.step (.on k a) = some rn) :
    Sane { cfg with net := rn } ∧ (raft n C).Carries ⊤ cfg.view (view { cfg with net := rn }) := by
  obtain ⟨hf, hsteps⟩ := Labrpc.Network.step_steps hs
  cases hsteps with
  | @on _ _ c c' hc hm =>
    have hset : ({ cfg with net := { cfg.net.effect c a with
        calls := cfg.net.calls.set k c' } } : Config n C).setting = cfg.setting := by
      simp [setting]
    have hacc := h.accounted k c hc
    refine ⟨h.set hset rfl rfl (hacc.moves h.orderly rfl rfl rfl hm ha),
      carries_set hf hset rfl rfl rfl rfl hc fun heard m hmsg => ?_⟩
    exact hm.holds hacc.sound ha (fun he => h.orderly.enabled _ _ he)
      (fun i o hs => Setting.runs_iff.mpr ⟨i, h.orderly.servers i o hs⟩) hmsg

theorem Sane.strayReply {m : Msg n C} (h : cfg.Sane) (hf : cfg.net.fatal = false)
    (hs : cfg.strayReply k m = some cfg') :
    cfg'.Sane ∧ (raft n C).Carries ⊤ cfg.view cfg'.view := by
  unfold Config.strayReply at hs
  split at hs
  · next req st info d hc =>
    split at hs
    · next i ha =>
      obtain rfl := Option.some.inj hs
      have hdead : cfg.setting.runs info.server = false := by
        simp [Setting.runs, setting, ha]
      have hacc := (h.accounted k _ hc).finish (m := m) rfl (by simp [hdead])
      refine ⟨h.set rfl rfl rfl hacc,
        carries_set hf rfl rfl rfl rfl rfl hc fun heard m' hm => ?_⟩
      have hmove : (⟨req, st, .running info, d⟩ : RaftCall n C).Moves Labrpc.makeNetwork (.finish m)
          ⟨req, st, .sending info m, d⟩ := .finish rfl
      obtain ⟨info', hinfo, hlive, -⟩ := hmove.holds_finish (h.accounted k _ hc).sound hm
      obtain rfl := Labrpc.Handler.running.inj hinfo
      exact (Bool.false_ne_true (hdead.symm.trans hlive)).elim
    · cases hs
  · cases hs

end OneCall

theorem Sane.strayCall {a : ℕ} {i : Fin n} {req : Labrpc.ReqMsg (Fin n) (Msg n C)} (h : cfg.Sane)
    (hf : cfg.net.fatal = false) (ha : cfg.instances[a]? = some ⟨i, .superseded⟩)
    (hs : cfg' = { cfg with net := { cfg.net with calls := cfg.net.calls ++
      [⟨⟨(a, req.endname), req.svcMeth, req.args⟩, .calling, .idle, false⟩] } }) :
    cfg'.Sane ∧ (raft n C).Carries ⊤ cfg.view cfg'.view := by
  subst hs
  have hdead : cfg.setting.runs a = false := by
    simp [Setting.runs, setting, ha]
  refine ⟨⟨h.orderly, h.ready, fun k c hc => ?_⟩, .idle rfl rfl (view_net_subperm ?_)⟩
  · simp only [List.getElem?_append] at hc
    split_ifs at hc
    · exact h.accounted k c hc
    · rw [List.mem_singleton.mp (List.mem_of_getElem? hc)]
      exact .new ha (by simp) (by simp)
  · rw [view_net hf, List.length_append, ← List.append_nil (held cfg.net.calls.length cfg.holds)]
    refine held_add (fun k hk m hm => ?_) fun k m hm => ?_
    · obtain ⟨c, hc, hm⟩ := Option.bind_eq_some_iff.mp hm
      rw [List.getElem?_append_left hk] at hc
      exact (holds_eq hc).trans hm
    · obtain ⟨c, hc, hm⟩ := Option.bind_eq_some_iff.mp hm
      rw [List.getElem?_append_right (Nat.le_add_right _ _)] at hc
      rw [List.mem_singleton.mp (List.mem_of_getElem? hc)] at hm
      obtain ⟨hlive, -⟩ := Option.ite_none_right_eq_some.mp hm
      exact (Bool.false_ne_true (hdead.symm.trans hlive)).elim

theorem carries_recv {k : ℕ} {m : Msg n C} {r : Outcome n C} (hf : cfg.net.fatal = false)
    (hreact : (raft n C).react m.dst (cfg.rafts m.dst) (.recv m) = some r)
    (hk : k < cfg.net.calls.length) (hheld : cfg.holds k = some m)
    (hrafts : cfg'.rafts = Function.update cfg.rafts m.dst r.state)
    (htrace : cfg'.trace = r.obs ++ cfg.trace)
    (hlen : cfg'.net.calls.length = cfg.net.calls.length)
    (hne : ∀ j, j ≠ k → ∀ m ∈ cfg'.holds j, cfg.holds j = some m)
    (hout : cfg'.net.fatal = true ∨ ∀ m ∈ cfg'.holds k, r.out = [m]) :
    (raft n C).Carries ⊤ cfg.view cfg'.view := by
  rcases hout with hfatal | hout
  · obtain ⟨rest, hrest, -⟩ : ∃ rest, (held cfg.net.calls.length cfg.holds).Perm (m :: rest) ∧
        (held cfg.net.calls.length fun _ => none).Subperm (rest ++ []) :=
      held_exchange hk hheld (by simp) (by simp)
    refine .recv hreact trivial (by rwa [view_net hf]) hrafts htrace ?_
    simp [view, hfatal]
  · obtain ⟨rest, hrest, hsub⟩ := held_exchange hk hheld hne hout
    refine .recv hreact trivial (by rwa [view_net hf]) hrafts htrace (view_net_subperm ?_)
    rwa [hlen]

theorem Sane.handle {k : ℕ} (h : cfg.Sane) (hf : cfg.net.fatal = false)
    (hs : cfg.handle k = some cfg') : cfg'.Sane ∧ (raft n C).Carries ⊤ cfg.view cfg'.view := by
  unfold Config.handle at hs
  split at hs
  · next req st info d hc =>
    split at hs
    · next i ha =>
      obtain rfl := Option.some.inj hs
      have hacc := h.accounted k _ hc
      obtain ⟨hproper, hname, p, hp, -⟩ := hacc.read info (Or.inr rfl)
      obtain ⟨hi, -⟩ := Instance.mk.inj (Option.some.inj (hp.symm.trans ha))
      obtain rfl : req.args.dst = i := by rw [hproper.dst, ← hname, hi]
      obtain ⟨hlt, -⟩ := List.getElem?_eq_some_iff.mp hc
      have hheld : cfg.holds k = some req.args := by
        rw [holds_eq hc]
        exact Labrpc.Call.holds_running rfl (Setting.runs_iff.mpr ⟨_, ha⟩)
      have hreply : ∀ m, ((cfg.rafts req.args.dst).recv req.args.dst req.args).out = [m] →
          m.isRequest = false ∧ m.caller = req.args.caller :=
        fun m => Server.recv_out_request hproper.request
      generalize hr : (cfg.rafts req.args.dst).recv req.args.dst req.args = r at hreply ⊢
      have hreact : (raft n C).react req.args.dst (cfg.rafts req.args.dst) (.recv req.args) =
        some r := congrArg some hr
      unfold Config.returned
      split
      · next m hout =>
        refine ⟨h.set rfl rfl rfl (hacc.finish (m := m) rfl fun _ => hreply m hout), ?_⟩
        obtain ⟨hne, hk⟩ : (∀ j, j ≠ k → ((cfg.react req.args.dst r).returned k
            ⟨req, st, .running info, d⟩ info [m]).holds j = cfg.holds j) ∧ _ :=
          holds_set rfl rfl rfl hc
        refine carries_recv hf hreact hlt hheld rfl rfl (List.length_set ..)
          (fun j hj m' hm' => (hne j hj).symm.trans hm') (Or.inr fun m' hm' => ?_)
        have hmove : (⟨req, st, .running info, d⟩ : RaftCall n C).Moves Labrpc.makeNetwork
            (.finish m) ⟨req, st, .sending info m, d⟩ := .finish rfl
        obtain ⟨-, -, -, rfl⟩ := hmove.holds_finish hacc.sound (hk.symm.trans hm')
        exact hout
      · exact ⟨⟨h.orderly, h.ready, h.accounted⟩, carries_recv hf hreact hlt hheld rfl rfl rfl
          (fun j _ m' hm' => hm') (Or.inl rfl)⟩
    · cases hs
  · cases hs

theorem Sane.hear {k : ℕ} (h : cfg.Sane) (hf : cfg.net.fatal = false)
    (hs : cfg.hear k = some cfg') : cfg'.Sane ∧ (raft n C).Carries ⊤ cfg.view cfg'.view := by
  obtain ⟨hheard, hs⟩ := Option.ite_none_left_eq_some.mp hs
  split at hs
  · next req m hd d hc =>
    split at hs
    · next i ha =>
      obtain rfl := Option.some.inj hs
      have hacc := h.accounted k _ hc
      have hheld : cfg.setting.holds false (⟨req, .returned (some m), hd, d⟩ : RaftCall n C) =
        some m := Labrpc.Call.holds_returned hacc.sound rfl
      have hrep : hd.reply.isSome = true := by
        cases hacc.sound
        rfl
      obtain ⟨hreply, p, hp⟩ := hacc.reply hrep m hheld
      obtain ⟨hi, -⟩ := Instance.mk.inj (Option.some.inj (hp.symm.trans ha))
      obtain rfl : m.dst = i := by rw [m.dst_of_reply hreply, hi]
      obtain ⟨hlt, -⟩ := List.getElem?_eq_some_iff.mp hc
      have hk : cfg.holds k = some m := by
        rw [holds_eq hc, decide_eq_false hheard]
        exact hheld
      have hout : ((cfg.rafts m.dst).recv m.dst m).out = [] := Server.recv_out_reply hreply
      generalize hr : (cfg.rafts m.dst).recv m.dst m = r at hout ⊢
      have hreact : (raft n C).react m.dst (cfg.rafts m.dst) (.recv m) = some r :=
        congrArg some hr
      have hcalls : (cfg.install m.dst req.endname.1 r).net.calls = cfg.net.calls := by
        simp [Config.install, hout]
      refine ⟨⟨h.orderly, h.ready, fun j c hj => h.accounted j c (hcalls ▸ hj)⟩,
        carries_recv hf hreact hlt hk rfl rfl (by rw [hcalls]) (fun j hj m' hm' => ?_)
          (Or.inr fun m' hm' => ?_)⟩
      · obtain ⟨c, hc', hm'⟩ := Option.bind_eq_some_iff.mp hm'
        rw [hcalls] at hc'
        have hsame : decide (j ∈ k :: cfg.heard) = decide (j ∈ cfg.heard) := by simp [hj]
        rw [holds_eq hc', ← hsame]
        exact hm'
      · obtain ⟨c, hc', hm'⟩ := Option.bind_eq_some_iff.mp hm'
        rw [hcalls, hc] at hc'
        obtain rfl := Option.some.inj hc'
        have hnone := (Labrpc.Call.holds_returned hacc.sound rfl).symm.trans hm'
        simp at hnone
    · cases hs
  · cases hs

/-- Every step of a sane configuration leads to another and is a step of the cluster it shows. -/
theorem Sane.step {e : Happening n C} (h : cfg.Sane) (hs : cfg.step e = some cfg') :
    cfg'.Sane ∧ (raft n C).Carries ⊤ cfg.view cfg'.view := by
  obtain ⟨hf, hs⟩ := Option.ite_none_left_eq_some.mp hs
  replace hf : cfg.net.fatal = false := by simpa using hf
  cases e with
  | call cmd =>
    dsimp only at hs
    split at hs
    · exact h.call hf hs
    · cases hs
  | next =>
    dsimp only at hs
    split at hs
    · cases hs
    · next op ops htodo =>
      obtain rfl := Option.some.inj hs
      exact h.exec hf htodo
  | act i x =>
    dsimp only at hs
    split at hs
    · cases hs
    · obtain ⟨a, ha, hs⟩ := Option.bind_eq_some_iff.mp hs
      obtain ⟨r, hr, rfl⟩ := Option.map_eq_some_iff.mp hs
      exact h.install hf ha hr
  | handle k => exact h.handle hf hs
  | hear k => exact h.hear hf hs
  | rpc k a =>
    dsimp only at hs
    split at hs
    · cases hs
    · next ha =>
      obtain ⟨rn, hrn, rfl⟩ := Option.map_eq_some_iff.mp hs
      exact h.rpc (fun m hm => ha m hm) hrn
  | stopListening =>
    obtain ⟨rn, hrn, rfl⟩ := Option.map_eq_some_iff.mp hs
    cases (Labrpc.Network.step_steps hrn).2 with
    | stopListening =>
      obtain ⟨hsane, hholds⟩ : Sane { cfg with net := { cfg.net with listening := false } } ∧ _ :=
        h.evolves (.of_eq rfl) h.orderly h.ready rfl rfl
      exact ⟨hsane, carries_idle hf rfl rfl rfl hholds⟩
  | strayCall a req =>
    dsimp only at hs
    split at hs
    · next i ha => exact h.strayCall hf ha (Option.some.inj hs).symm
    · cases hs
  | strayReply k m => exact h.strayReply hf hs

end Steps

theorem sane_makeConfig [Inhabited C] : (makeConfig n C).Sane := by
  refine ⟨⟨?_, ?_, ?_, ?_, ?_, ?_⟩, trivial, ?_⟩
  all_goals simp [makeConfig, setting, Labrpc.makeNetwork]

end Config

variable [Inhabited C]

/-- Raft as the tests deploy it refines the cluster: whatever functions of the configuration are
called, whatever the network loses or delays and whatever superseded instances do, there is a run
of the cluster with the same servers and the same history. -/
theorem deployment_refines {es : List (Happening n C)} {cfg : Config n C}
    (h : (deployment n C).run (deployment n C).init es = some cfg) :
    ∃ fs w, (cluster n C).run (cluster n C).init fs = some w ∧ w.node = cfg.rafts ∧
      w.trace = cfg.trace := by
  have hinit : (cluster n C).init.Covers (makeConfig n C).view := ⟨rfl, rfl, List.Subperm.refl _⟩
  obtain ⟨fs, w, hw, -, hcov⟩ := Protocol.exists_run_of_carries (P := raft n C) (I := Config.Sane)
    Config.view (fun cfg e cfg' hsane _ hs => hsane.step hs) h (System.meets_true _ _)
    Config.sane_makeConfig hinit
  exact ⟨fs, w, hw, hcov.node, hcov.trace⟩

def madeConfig : List (Happening 2 ℕ) :=
  .call (.start1 0) :: List.replicate 11 .next ++ .call (.start1 1) :: List.replicate 12 .next ++
    .call (.connect 0) :: List.replicate 2 .next ++ .call (.connect 1) :: List.replicate 4 .next

def electedOnce : List (Happening 2 ℕ) :=
  [.act 0 .electionTimeout, .rpc 0 .accept, .rpc 0 .read, .rpc 0 .execute, .rpc 0 .dispatch,
    .handle 0, .rpc 0 .receive, .rpc 0 (.check .send), .rpc 0 .answer, .hear 0,
    .act 0 .becomeLeader, .act 0 .heartbeat, .rpc 1 .accept, .rpc 1 .read, .call (.start1 0)] ++
  List.replicate 15 .next ++ [.rpc 1 .execute, .rpc 1 .dispatch, .handle 1, .rpc 1 .receive,
    .rpc 1 (.check .send), .rpc 1 .answer]

theorem deployment_refines_elected : ∃ cfg fs w,
    (deployment 2 ℕ).run (deployment 2 ℕ).init (madeConfig ++ electedOnce) = some cfg ∧
      (cluster 2 ℕ).run (cluster 2 ℕ).init fs = some w ∧ w.node = cfg.rafts ∧
      w.trace = cfg.trace ∧ Obs.won 0 1 ∈ w.trace ∧ (w.node 0).boots = 1 ∧
      (w.node 1).currentTerm = 1 := by
  have h := (deployment 2 ℕ).run_after (deployment 2 ℕ).init (madeConfig ++ electedOnce)
    (by decide +kernel)
  obtain ⟨fs, w, hw, hnode, htrace⟩ := deployment_refines h
  refine ⟨_, fs, w, h, hw, hnode, htrace, ?_, ?_, ?_⟩
  · rw [htrace]
    decide +kernel
  · rw [hnode]
    decide +kernel
  · rw [hnode]
    decide +kernel

end DistLab.Raft
