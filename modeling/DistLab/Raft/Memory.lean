import DistLab.Systems.Carriage
import DistLab.Systems.Slices
import DistLab.Raft.Durability
import DistLab.Raft.Replication

/-! # The arrays behind the logs

`leaderRoutine` puts the slice `rf.log[nextIdx:]` into a request, and the goroutine that
sends the request encodes it later, without the lock. Until then the request shares the
array of the log: when the log is cut and extended in place, its entries change with it.
As long as no step writes a cell that a request still has to read, the cluster behaves
as if the entries of a request were fixed when it is built.
-/

namespace DistLab.Raft

variable {n : ℕ} {C : Type*}

instance [Inhabited C] : Inhabited (LogEntry C) := ⟨sentinel⟩

/-- An `AppendEntries` call before `Call` has encoded its arguments: the entries of `args` are
those the request was built with, the slice is where they are read. -/
structure Draft (n : ℕ) (C : Type*) where
  peer : Fin n
  appendChan : ℕ
  args : AppendEntriesArgs n C
  slice : Slice

def Draft.msg (d : Draft n C) : Msg n C := .appendEntries d.peer d.appendChan d.args

def Msg.draft (log : Slice) : Msg n C → Option (Draft n C)
  | .appendEntries peer appendChan args =>
    some ⟨peer, appendChan, args, log.tail (args.prevLogIndex + 1).toNat⟩
  | _ => none

theorem draft_eq_some {log : Slice} {m : Msg n C} {d : Draft n C} : m.draft log = some d ↔
    ∃ p ch args, m = .appendEntries p ch args ∧
      ⟨p, ch, args, log.tail (args.prevLogIndex + 1).toNat⟩ = d := by
  constructor
  · intro h
    unfold Msg.draft at h
    split at h
    · exact ⟨_, _, _, rfl, Option.some.inj h⟩
    · cases h
  · rintro ⟨p, ch, args, rfl, rfl⟩
    rfl

/-- A cluster with the arrays of every `rf.log` and the calls yet to be encoded. -/
structure Memory (n : ℕ) (C : Type*) where
  world : Cluster n C
  logs : Fin n → Vec (LogEntry C)
  drafts : List (Draft n C)

inductive MemoryEvent (n : ℕ) (C : Type*) where
  | net (e : NetEvent (Fin n) (Act C))
  | encode (k : ℕ)

namespace Server

/-- Where a step cuts `rf.log` and what it appends there, entry by entry. -/
def writes (rf : Server n C) : Input (Act C) (Msg n C) → Option (ℕ × List (LogEntry C))
  | .act (.start command) =>
    if rf.status = .leader then some (rf.log.length, [⟨command, rf.currentTerm⟩]) else none
  | .recv (.appendEntries _ _ args) =>
    if rf.Matches args then
      some (args.prevLogIndex.toNat + 1 +
          skipSame args.entries (rf.log.drop (args.prevLogIndex.toNat + 1)),
        args.entries.drop (skipSame args.entries (rf.log.drop (args.prevLogIndex.toNat + 1))))
    else none
  | _ => none

def Edits (rf u : Server n C) (edit : Option (ℕ × List (LogEntry C))) : Prop :=
  u.boots = rf.boots → (edit = none → u.log = rf.log) ∧
    ∀ k es, edit = some (k, es) → k ≤ rf.log.length ∧ u.log = rf.log.take k ++ es

variable [Inhabited C]

/-- The array of the log after a step; a restart decodes the log into a new one. -/
def rewrite (A : Growth) (rf u : Server n C) (edit : Option (ℕ × List (LogEntry C)))
    (v : Vec (LogEntry C)) : Vec (LogEntry C) :=
  if u.boots = rf.boots then edit.elim v fun e => v.splice A e.1 e.2 else v.move A 0 u.log

variable {me : Fin n} {rf u : Server n C} {x : Input (Act C) (Msg n C)} {r : Outcome n C}
  {edit : Option (ℕ × List (LogEntry C))}

theorem Reacts.log_of_writes (h : Reacts me rf x r) (hw : rf.writes x = none)
    (hb : r.state.boots = rf.boots) : r.state.log = rf.log := by
  cases h with
  | pass | resume | campaign | win | broadcast | emit | depose | countVote | matched | commit => rfl
  | start hs => simp [writes, hs] at hw
  | refuseVote | grantVote | refuseEntries => simp
  | brokenBroadcast | crashRaised => exact absurd hb (by simp)
  | crashNominee => exact absurd hb (Nat.succ_ne_self _)
  | crash _ _ _ hu => exact absurd hb (by simp [hu])
  | accept ht hp he het => simp [writes, matches_of_eq ht hp he het] at hw

theorem react_writes {k : ℕ} {es : List (LogEntry C)} (hr : (raft n C).react me rf x = some r)
    (hw : rf.writes x = some (k, es)) : k ≤ rf.log.length ∧ r.state.log = rf.log.take k ++ es := by
  unfold writes at hw
  split at hw
  · obtain ⟨hs, hw⟩ := Option.ite_none_right_eq_some.mp hw
    obtain ⟨rfl, rfl⟩ := Prod.mk.inj (Option.some.inj hw)
    obtain rfl := Option.some.inj hr
    exact ⟨le_rfl, by simp [start_of_leader hs]⟩
  · rename_i args
    obtain ⟨hm, hw⟩ := Option.ite_none_right_eq_some.mp hw
    obtain ⟨rfl, rfl⟩ := Prod.mk.inj (Option.some.inj hw)
    obtain rfl := Option.some.inj hr
    obtain ⟨u, hu, ha⟩ := appendEntries_of_matches hm
    obtain ⟨ci, la, bs, rfl⟩ := acceptEntries_frame hu
    obtain ⟨e, he, -⟩ := Option.map_eq_some_iff.mp hm.2.2
    obtain ⟨hlt, -⟩ := List.getElem?_eq_some_iff.mp he
    have hle : skipSame args.entries (rf.log.drop (args.prevLogIndex.toNat + 1)) ≤
        (rf.log.drop (args.prevLogIndex.toNat + 1)).length := skipSame_le_right
    rw [List.length_drop] at hle
    exact ⟨by omega, by simp [recv, ha, splice, spliced]⟩
  · cases hw

theorem react_edits (hr : (raft n C).react me rf x = some r) :
    rf.Edits r.state (rf.writes x) := by
  intro hb
  constructor
  · intro hw
    exact (react_reacts hr).log_of_writes hw hb
  · intro k es hw
    exact react_writes hr hw

omit [Inhabited C] in
theorem Elects.edits (h : rf.Elects u) : rf.Edits u none :=
  fun _ => ⟨fun _ => h.log, by simp⟩

theorem Elects.edits_crash (h : rf.Elects u) : rf.Edits u.crash.state none := by
  intro hb
  simp [h.boots] at hb

end Server

namespace Server

variable [Inhabited C] {A : Growth} {rf u : Server n C} {v : Vec (LogEntry C)} {t : Slice}
  {edit : Option (ℕ × List (LogEntry C))}

theorem contents_rewrite (h : v.Has v.slice) (hl : v.contents = rf.log) (he : rf.Edits u edit) :
    (rewrite A rf u edit v).contents = u.log ∧
      (rewrite A rf u edit v).Has (rewrite A rf u edit v).slice := by
  unfold rewrite
  split_ifs with hb
  · obtain ⟨hkeep, hwrite⟩ := he hb
    rcases edit with _ | ⟨k, es⟩
    · exact ⟨hl.trans (hkeep rfl).symm, h⟩
    · obtain ⟨hk, hlog⟩ := hwrite k es rfl
      rw [← hl, Vec.contents, Vec.length_read h] at hk
      obtain ⟨hc, hh⟩ := Vec.contents_splice (A := A) es h hk
      exact ⟨hc.trans (by rw [hl, hlog]), hh⟩
  · exact ⟨Vec.contents_move, Vec.has_move⟩

theorem read_rewrite (h : v.Has t) (hs : ∀ e ∈ edit, v.Spares e.1 e.2 t) :
    (rewrite A rf u edit v).read t = v.read t ∧ (rewrite A rf u edit v).Has t := by
  unfold rewrite
  split_ifs with hb
  · rcases edit with _ | e
    · exact ⟨rfl, h⟩
    · exact Vec.read_splice h (hs e rfl)
  · exact ⟨Vec.read_move h, Vec.has_of_move h⟩

end Server

namespace Memory

variable [Inhabited C] (A : Growth)

/-- Install a reaction; the requests it builds wait for their goroutines. -/
def put (s : Memory n C) (i : Fin n) (net : List (Msg n C))
    (edit : Option (ℕ × List (LogEntry C))) (r : Outcome n C) : Memory n C where
  world := s.world.put i net
    { r with out := r.out.filter fun m => (m.draft (s.logs i).slice).isNone }
  logs := Function.update s.logs i ((s.world.node i).rewrite A r.state edit (s.logs i))
  drafts := s.drafts ++ r.out.filterMap (Msg.draft (s.logs i).slice)

/-- What `Call` reads from the slice of a request and puts on the wire. -/
def encoded (s : Memory n C) (d : Draft n C) : Msg n C :=
  .appendEntries d.peer d.appendChan
    { d.args with entries := (s.logs d.args.leaderId).read d.slice }

def encode (s : Memory n C) (k : ℕ) (d : Draft n C) : Memory n C :=
  { s with
    world := { s.world with net := s.world.net ++ [s.encoded d] }
    drafts := s.drafts.eraseIdx k }

def drop (s : Memory n C) (k : ℕ) : Memory n C :=
  { s with world := { s.world with net := s.world.net.eraseIdx k } }

def step (s : Memory n C) : MemoryEvent n C → Option (Memory n C)
  | .net (.act i x) => ((s.world.node i).act i x).map
      (s.put A i s.world.net ((s.world.node i).writes (.act x)))
  | .net (.deliver k) => s.world.net[k]?.map fun m =>
      s.put A m.dst (s.world.net.eraseIdx k) ((s.world.node m.dst).writes (.recv m))
        ((s.world.node m.dst).recv m.dst m)
  | .net (.drop k) => if k < s.world.net.length then some (s.drop k) else none
  | .encode k => s.drafts[k]?.map (s.encode k)

end Memory

def memory (A : Growth) (n : ℕ) (C : Type*) [Inhabited C] :
    System (Memory n C) (MemoryEvent n C) where
  init := ⟨(cluster n C).init, fun _ => Vec.move A ⟨[], ⟨0, 0, 0⟩⟩ 0 [sentinel], []⟩
  step := Memory.step A

namespace Memory

/-- The step writes no cell that a request of the server has yet to be encoded from. -/
def Spares (s : Memory n C) (i : Fin n) (x : Input (Act C) (Msg n C)) : Prop :=
  ∀ d ∈ s.drafts, d.args.leaderId = i →
    ∀ e ∈ (s.world.node i).writes x, (s.logs i).Spares e.1 e.2 d.slice

instance (s : Memory n C) (i : Fin n) (x : Input (Act C) (Msg n C)) : Decidable (s.Spares i x) :=
  inferInstanceAs (Decidable (∀ d ∈ s.drafts, d.args.leaderId = i →
    ∀ e ∈ (s.world.node i).writes x, (s.logs i).Spares e.1 e.2 d.slice))

def Guards (G : Memory n C → Fin n → Input (Act C) (Msg n C) → Prop) (s : Memory n C) :
    MemoryEvent n C → Prop
  | .net (.act i x) => G s i (.act x)
  | .net (.deliver k) => ∀ m ∈ s.world.net[k]?, G s m.dst (.recv m)
  | .net (.drop _) => True
  | .encode _ => True

instance (G : Memory n C → Fin n → Input (Act C) (Msg n C) → Prop) [∀ s i x, Decidable (G s i x)]
    (s : Memory n C) : ∀ e, Decidable (s.Guards G e)
  | .net (.act i x) => inferInstanceAs (Decidable (G s i (.act x)))
  | .net (.deliver k) =>
    inferInstanceAs (Decidable (∀ m ∈ s.world.net[k]?, G s m.dst (.recv m)))
  | .net (.drop _) => isTrue trivial
  | .encode _ => isTrue trivial

/-- The cluster in which the entries of a request are those it was built with. -/
def view (s : Memory n C) : Cluster n C :=
  { s.world with net := s.world.net ++ s.drafts.map Draft.msg }

/-- The arrays hold the logs, and every request still reads what it was built with. -/
structure Sound (s : Memory n C) : Prop where
  has : ∀ i, (s.logs i).Has (s.logs i).slice
  log : ∀ i, (s.logs i).contents = (s.world.node i).log
  drafts : ∀ d ∈ s.drafts, (s.logs d.args.leaderId).Has d.slice ∧
    (s.logs d.args.leaderId).read d.slice = d.args.entries

theorem Guards.mono {G G' : Memory n C → Fin n → Input (Act C) (Msg n C) → Prop} {s : Memory n C}
    {e : MemoryEvent n C} (hG : ∀ i x, G s i x → G' s i x) (h : s.Guards G e) :
    s.Guards G' e := by
  rcases e with (_ | _ | _) | _
  · exact hG _ _ h
  · exact fun m hm => hG _ _ (h m hm)
  · trivial
  · trivial

variable [Inhabited C] {A : Growth} {s s' : Memory n C} {v : Cluster n C} {i : Fin n}
  {net : List (Msg n C)} {edit : Option (ℕ × List (LogEntry C))} {r : Outcome n C}

omit [Inhabited C] in
theorem perm_drafts (t : Slice) (out : List (Msg n C)) :
    (out.filter (fun m => (m.draft t).isNone) ++ (out.filterMap (Msg.draft t)).map Draft.msg).Perm
      out := by
  induction out with
  | nil => exact .refl _
  | cons m out ih =>
    cases hd : m.draft t with
    | none =>
      rw [List.filter_cons_of_pos (by simp [hd]), List.filterMap_cons_none hd]
      exact ih.cons m
    | some d =>
      have hm : d.msg = m := by
        obtain ⟨p, ch, args, rfl, rfl⟩ := draft_eq_some.mp hd
        rfl
      rw [List.filter_cons_of_neg (by simp [hd]), List.filterMap_cons_some hd, List.map_cons, hm]
      exact List.perm_middle.trans (ih.cons m)

theorem view_put_net : (s.put A i net edit r).view.net.Perm
    ((net ++ s.drafts.map Draft.msg) ++ r.out) := by
  have hswap : ∀ a b c d : List (Msg n C), (a ++ b ++ (c ++ d)).Perm (a ++ c ++ (b ++ d)) := by
    intro a b c d
    rw [List.append_assoc, List.append_assoc, ← List.append_assoc b, ← List.append_assoc c]
    exact (List.perm_append_comm.append_right d).append_left a
  rw [view, put, World.put_net, List.map_append]
  exact (hswap ..).trans ((perm_drafts _ r.out).append_left _)

theorem Sound.init : (memory A n C).init.Sound where
  has _ := Vec.has_move
  log _ := Vec.contents_move
  drafts d hd := by simp [memory] at hd

@[simp] theorem put_logs_self : (s.put A i net edit r).logs i =
    (s.world.node i).rewrite A r.state edit (s.logs i) :=
  Function.update_self ..

theorem put_logs_of_ne {j : Fin n} (h : j ≠ i) : (s.put A i net edit r).logs j = s.logs j :=
  Function.update_of_ne h ..

@[simp] theorem put_node_self : (s.put A i net edit r).world.node i = r.state :=
  World.put_node_self

theorem put_node_of_ne {j : Fin n} (h : j ≠ i) :
    (s.put A i net edit r).world.node j = s.world.node j :=
  World.put_node_of_ne h

theorem read_put (A : Growth) (net : List (Msg n C)) (r : Outcome n C) {j : Fin n} {t : Slice}
    (h : (s.logs j).Has t) (hs : j = i → ∀ e ∈ edit, (s.logs i).Spares e.1 e.2 t) :
    ((s.put A i net edit r).logs j).Has t ∧
      ((s.put A i net edit r).logs j).read t = (s.logs j).read t := by
  rcases eq_or_ne j i with rfl | hne
  · rw [put_logs_self]
    exact (Server.read_rewrite h (hs rfl)).symm
  · rw [put_logs_of_ne hne]
    exact ⟨h, rfl⟩

omit [Inhabited C] in
theorem Sound.cutFrom (h : s.Sound) {args : AppendEntriesArgs n C}
    (hc : args.CutFrom (s.world.node i).log) :
    (s.logs i).Has ((s.logs i).slice.tail (args.prevLogIndex + 1).toNat) ∧
      (s.logs i).read ((s.logs i).slice.tail (args.prevLogIndex + 1).toNat) = args.entries := by
  obtain ⟨prev, e, hp, hprev, -, hcut⟩ := hc
  obtain ⟨hlt, -⟩ := List.getElem?_eq_some_iff.mp hprev
  have hk : (args.prevLogIndex + 1).toNat = prev + 1 := by omega
  have hlen : prev + 1 ≤ (s.logs i).slice.len := by
    rw [← Vec.length_read (h.has i), ← Vec.contents, h.log]
    exact hlt
  rw [hk]
  refine ⟨(h.has i).tail hlen, ?_⟩
  rw [Vec.read_tail, ← Vec.contents, h.log, hcut]

theorem Sound.put (h : s.Sound) (he : (s.world.node i).Edits r.state edit)
    (hs : ∀ d ∈ s.drafts, d.args.leaderId = i →
      ∀ e ∈ edit, (s.logs i).Spares e.1 e.2 d.slice)
    (ho : ∀ p ch args, Msg.appendEntries p ch args ∈ r.out →
      edit = none ∧ args.leaderId = i ∧ args.CutFrom (s.world.node i).log) :
    (s.put A i net edit r).Sound := by
  have hself := Server.contents_rewrite (A := A) (h.has i) (h.log i) he
  constructor
  · intro j
    rcases eq_or_ne j i with rfl | hne
    · rw [put_logs_self]
      exact hself.2
    · rw [put_logs_of_ne hne]
      exact h.has j
  · intro j
    rcases eq_or_ne j i with rfl | hne
    · rw [put_logs_self, put_node_self]
      exact hself.1
    · rw [put_logs_of_ne hne, put_node_of_ne hne]
      exact h.log j
  · intro d hd
    rcases List.mem_append.mp hd with hd | hd
    · obtain ⟨hhas, hentries⟩ := h.drafts d hd
      obtain ⟨hhas', hsame⟩ := read_put A net r hhas (hs d hd)
      exact ⟨hhas', hsame.trans hentries⟩
    · obtain ⟨m, hm, hd⟩ := List.mem_filterMap.mp hd
      obtain ⟨p, ch, args, rfl, rfl⟩ := draft_eq_some.mp hd
      obtain ⟨hnone, rfl, hcut⟩ := ho p ch args hm
      obtain ⟨hhas, hentries⟩ := h.cutFrom hcut
      have hspare : args.leaderId = args.leaderId → ∀ e ∈ edit, (s.logs args.leaderId).Spares
          e.1 e.2 ((s.logs args.leaderId).slice.tail (args.prevLogIndex + 1).toNat) := by
        simp [hnone]
      obtain ⟨hhas', hsame⟩ := read_put A net r hhas hspare
      exact ⟨hhas', hsame.trans hentries⟩

theorem edit_of_sent {x : Input (Act C) (Msg n C)}
    (hr : (raft n C).react i (s.world.node i) x = some r) {p : Fin n} {ch : ℕ}
    {args : AppendEntriesArgs n C} (hm : Msg.appendEntries p ch args ∈ r.out) :
    (s.world.node i).writes x = none ∧ args.leaderId = i ∧
      args.CutFrom (s.world.node i).log := by
  have hmoves := (Server.react_reacts hr).moves
  obtain ⟨hid, -, hsent, hcut⟩ := hmoves.msgs p ch args hm
  obtain ⟨rfl, -⟩ := (Server.react_reacts hr).sent hsent
  exact ⟨rfl, hid, hcut⟩

theorem Sound.react (h : s.Sound) {x : Input (Act C) (Msg n C)}
    (hr : (raft n C).react i (s.world.node i) x = some r) (hs : s.Spares i x) :
    (s.put A i net ((s.world.node i).writes x) r).Sound :=
  h.put (Server.react_edits hr) hs fun _ _ _ => edit_of_sent hr

omit [Inhabited C] in
theorem Sound.drop (h : s.Sound) (k : ℕ) : (s.drop k).Sound := ⟨h.has, h.log, h.drafts⟩

omit [Inhabited C] in
theorem Sound.encode (h : s.Sound) (k : ℕ) (d : Draft n C) : (s.encode k d).Sound where
  has := h.has
  log := h.log
  drafts d' hd := h.drafts d' (List.eraseIdx_subset hd)

omit [Inhabited C] in
theorem Sound.encoded (h : s.Sound) {d : Draft n C} (hd : d ∈ s.drafts) :
    s.encoded d = d.msg := by
  rw [Memory.encoded, (h.drafts d hd).2]
  rfl

omit [Inhabited C] in
theorem Sound.encode_view (h : s.Sound) {k : ℕ} {d : Draft n C} (hd : s.drafts[k]? = some d) :
    (s.encode k d).view.net.Perm s.view.net := by
  obtain ⟨hk, rfl⟩ := List.getElem?_eq_some_iff.mp hd
  have hperm := (List.getElem_cons_eraseIdx_perm hk).map Draft.msg
  rw [view, view, Memory.encode, h.encoded (List.getElem_mem hk), List.append_assoc,
    List.singleton_append]
  exact hperm.append_left _

omit [Inhabited C] in
theorem view_drop {k : ℕ} : (s.drop k).view.net.Subperm s.view.net :=
  ((List.eraseIdx_sublist ..).append_right _).subperm

omit [Inhabited C] in
theorem view_perm {k : ℕ} {m : Msg n C} (hm : s.world.net[k]? = some m) :
    s.view.net.Perm (m :: (s.world.net.eraseIdx k ++ s.drafts.map Draft.msg)) := by
  obtain ⟨hk, rfl⟩ := List.getElem?_eq_some_iff.mp hm
  exact (List.getElem_cons_eraseIdx_perm hk).symm.append_right (s.drafts.map Draft.msg)

/-- A guarded step of the memory shows a guarded step of the cluster. -/
theorem Sound.carries {G : Fin n → Server n C → Input (Act C) (Msg n C) → Prop} (h : s.Sound)
    {e : MemoryEvent n C} (hg : s.Guards (fun s i x => G i (s.world.node i) x ∧ s.Spares i x) e)
    (hs : s.step A e = some s') : s'.Sound ∧ (raft n C).Carries G s.view s'.view := by
  rcases e with (⟨i, x⟩ | k | k) | k
  · obtain ⟨r, hr, rfl⟩ := Option.map_eq_some_iff.mp hs
    exact ⟨h.react hr hg.2, .act hr hg.1 rfl rfl view_put_net.subperm⟩
  · obtain ⟨m, hm, rfl⟩ := Option.map_eq_some_iff.mp hs
    exact ⟨h.react rfl (hg m hm).2,
      .recv rfl (hg m hm).1 (view_perm hm) rfl rfl view_put_net.subperm⟩
  · obtain ⟨-, hs⟩ := Option.ite_none_right_eq_some.mp hs
    obtain rfl := Option.some.inj hs
    exact ⟨h.drop k, .idle rfl rfl view_drop⟩
  · obtain ⟨d, hd, rfl⟩ := Option.map_eq_some_iff.mp hs
    exact ⟨h.encode k d, .idle rfl rfl (h.encode_view hd).subperm⟩

theorem deliver_covers {k : ℕ} {m : Msg n C} (hm : s.world.net[k]? = some m)
    (hs : s.step A (.net (.deliver k)) = some s') (hv : v.Covers s.view) :
    ∃ j v', v.net[j]? = some m ∧ (cluster n C).step v (.deliver j) = some v' ∧
      v'.Covers s'.view := by
  obtain ⟨m', hm', rfl⟩ := Option.map_eq_some_iff.mp hs
  obtain rfl := Option.some.inj (hm.symm.trans hm')
  exact hv.deliver (P := raft n C) (view_perm hm) rfl rfl rfl view_put_net.subperm

section Runs

variable {G : Fin n → Server n C → Input (Act C) (Msg n C) → Prop} {es : List (MemoryEvent n C)}

theorem Sound.run (h : s.Sound) (hr : (memory A n C).run s es = some s')
    (hg : (memory A n C).Meets (Guards Spares) s es) : s'.Sound := by
  refine System.run_induction (fun _ _ _ hi hg hs => ?_) hr hg h
  exact (hi.carries (G := fun _ _ _ => True) (hg.mono fun _ _ h => ⟨trivial, h⟩) hs).1

/-- A run in which no request is overwritten before it is encoded is a run of the cluster. -/
theorem Sound.exists_run (h : s.Sound) (hr : (memory A n C).run s es = some s')
    (hg : (memory A n C).Meets
      (Guards fun s i x => G i (s.world.node i) x ∧ s.Spares i x) s es)
    (hv : v.Covers s.view) :
    ∃ fs v', (cluster n C).run v fs = some v' ∧ (cluster n C).Meets ((raft n C).Guards G) v fs ∧
      v'.Covers s'.view :=
  Protocol.exists_run_of_carries view (fun _ _ _ hi hg hs => hi.carries hg hs) hr hg h hv

theorem covers_init : (cluster n C).init.Covers (memory A n C).init.view :=
  ⟨rfl, rfl, List.Subperm.refl _⟩

end Runs

end Memory

namespace Memory

variable [Inhabited C]

/-- A step of the replication part with its memory, of the election part, or a restart; `G` guards
the steps that write to a log. -/
inductive Replicates (A : Growth) (G : Memory n C → Fin n → Input (Act C) (Msg n C) → Prop)
    (s : Memory n C) : Memory n C → Prop
  | start {i command r} (h : (s.world.node i).act i (.start command) = some r)
      (hg : G s i (.act (.start command))) :
      Replicates A G s
        (s.put A i s.world.net ((s.world.node i).writes (.act (.start command))) r)
  | heartbeat {i r} (h : (s.world.node i).act i .heartbeat = some r) :
      Replicates A G s (s.put A i s.world.net none r)
  | deliver {k m} (hm : s.world.net[k]? = some m) (ha : m.isAppend = true)
      (hg : G s m.dst (.recv m)) :
      Replicates A G s (s.put A m.dst (s.world.net.eraseIdx k)
        ((s.world.node m.dst).writes (.recv m)) ((s.world.node m.dst).recv m.dst m))
  | drop {k} : Replicates A G s (s.drop k)
  | encode {k d} (hd : s.drafts[k]? = some d) : Replicates A G s (s.encode k d)
  | elect {i u net out obs} (h : (s.world.node i).Elects u) (hn : net ⊆ s.world.net)
      (hout : ∀ m ∈ out, m.isAppend = false) (hobs : deeds obs = []) :
      Replicates A G s (s.put A i net none ⟨u, out, obs⟩)
  | restart {i u net} (h : (s.world.node i).Elects u) (hn : net ⊆ s.world.net) :
      Replicates A G s (s.put A i net none u.crash)

variable {A : Growth} {s s' : Memory n C} {v : Cluster n C} {i : Fin n} {net : List (Msg n C)}

theorem exists_elect {edit : Option (ℕ × List (LogEntry C))} {r : Outcome n C}
    (hv : v.Covers s.view) (hn : net ⊆ s.world.net)
    (hr : ∀ net' ⊆ v.net, DistLab.Raft.Replicates v (v.put i net' r)) :
    ∃ v', DistLab.Raft.Replicates v v' ∧ v'.Covers (s.put A i net edit r).view := by
  refine ⟨_, hr (net ++ s.drafts.map Draft.msg) ?_, ?_, ?_, ?_⟩
  · intro m hm
    refine hv.net.subset (List.mem_append.mpr ?_)
    exact (List.mem_append.mp hm).imp_left fun hm => hn hm
  · rw [World.put, hv.node]
    rfl
  · rw [World.put, hv.trace]
    rfl
  · exact view_put_net.subperm

/-- A step that overwrites no request to be encoded is one of the replication part, up to the
messages in flight. -/
theorem Sound.replicates (h : s.Sound) (hs : Replicates A Spares s s') (hv : v.Covers s.view) :
    s'.Sound ∧ ∃ v', Relation.ReflTransGen DistLab.Raft.Replicates v v' ∧ v'.Covers s'.view := by
  have hact : ∀ i x r edit, (s.world.node i).act i x = some r →
      (∀ r, (v.node i).act i x = some r → DistLab.Raft.Replicates v (v.put i v.net r)) →
      ∃ v', Relation.ReflTransGen DistLab.Raft.Replicates v v' ∧
        v'.Covers (s.put A i s.world.net edit r).view := by
    intro i x r edit hr hrep
    have hr' : (v.node i).act i x = some r := by rwa [hv.node]
    refine ⟨_, .single (hrep r hr'), ?_, ?_, ?_⟩
    · rw [World.put, hv.node]
      rfl
    · rw [World.put, hv.trace]
      rfl
    · exact view_put_net.subperm.trans ((List.subperm_append_right _).mpr hv.net)
  cases hs with
  | start hr hg => exact ⟨h.react hr hg, hact _ _ _ _ hr fun _ => .start⟩
  | heartbeat hr =>
    refine ⟨?_, hact _ _ _ _ hr fun _ => .heartbeat⟩
    exact h.react (x := .act .heartbeat) hr (by simp [Spares, Server.writes])
  | @deliver k m hm ha hg =>
    obtain ⟨j, hj, hrest⟩ := hv.exists_index (view_perm hm)
    refine ⟨h.react rfl hg, _, .single (.deliver hj ha), ?_, ?_, ?_⟩
    · rw [World.put, hv.node]
      rfl
    · rw [World.put, hv.trace, hv.node]
      rfl
    · rw [hv.node]
      exact view_put_net.subperm.trans ((List.subperm_append_right _).mpr hrest)
  | drop => exact ⟨h.drop _, v, .refl, hv.node, hv.trace, view_drop.trans hv.net⟩
  | encode hd =>
    exact ⟨h.encode _ _, v, .refl, hv.node, hv.trace, (h.encode_view hd).subperm.trans hv.net⟩
  | elect hu hn hout hobs =>
    obtain ⟨v', hv', hcov⟩ := exists_elect hv hn fun net' hn' =>
      .elect (by rwa [hv.node]) hn' hout hobs
    refine ⟨h.put hu.edits (by simp) fun p ch args hm => ?_, v', .single hv', hcov⟩
    exact absurd (hout _ hm) (by simp [Msg.isAppend])
  | restart hu hn =>
    obtain ⟨v', hv', hcov⟩ := exists_elect hv hn fun net' hn' => .restart (by rwa [hv.node]) hn'
    exact ⟨h.put hu.edits_crash (by simp) (by simp), v', .single hv', hcov⟩

theorem replicates_of_react {G : Memory n C → Fin n → Input (Act C) (Msg n C) → Prop}
    {x : Input (Act C) (Msg n C)} {r : Outcome n C}
    (hr : (raft n C).react i (s.world.node i) x = some r) (hn : net ⊆ s.world.net)
    (hx : Server.replicating x = false) :
    Replicates A G s (s.put A i net ((s.world.node i).writes x) r) := by
  have hw : (s.world.node i).writes x = none := by
    unfold Server.writes
    split
    · cases hx
    · cases hx
    · rfl
  rw [hw]
  rcases (Server.react_reacts hr).elects hx with ⟨he, hout, hobs⟩ | ⟨u, he, rfl⟩
  · exact .elect he hn hout hobs
  · exact .restart he hn

theorem step_replicates {G : Memory n C → Fin n → Input (Act C) (Msg n C) → Prop}
    {e : MemoryEvent n C} (h : s.step A e = some s') (hg : s.Guards G e) :
    Replicates A G s s' := by
  rcases e with (⟨i, x⟩ | k | k) | k
  · obtain ⟨r, hr, rfl⟩ := Option.map_eq_some_iff.mp h
    cases x with
    | start command => exact .start hr hg
    | heartbeat => exact .heartbeat hr
    | _ => exact replicates_of_react hr (List.Subset.refl _) rfl
  · obtain ⟨m, hm, rfl⟩ := Option.map_eq_some_iff.mp h
    cases ha : m.isAppend with
    | true => exact .deliver hm ha (hg m hm)
    | false => exact replicates_of_react (x := .recv m) rfl List.eraseIdx_subset ha
  · obtain ⟨-, h⟩ := Option.ite_none_right_eq_some.mp h
    obtain rfl := Option.some.inj h
    exact .drop
  · obtain ⟨d, hd, rfl⟩ := Option.map_eq_some_iff.mp h
    exact .encode hd

/-- The election code of the repository is one of the histories. -/
theorem run_replicates {G : Memory n C → Fin n → Input (Act C) (Msg n C) → Prop}
    {es : List (MemoryEvent n C)} (h : (memory A n C).run s es = some s')
    (hg : (memory A n C).Meets (Guards G) s es) :
    Relation.ReflTransGen (Replicates A G) s s' :=
  System.run_induction (I := fun t => Relation.ReflTransGen (Replicates A G) s t)
    (fun _ _ _ hi hg hs => hi.tail (step_replicates hs hg)) h hg .refl

theorem Sound.exists_replicates (h : s.Sound)
    (hs : Relation.ReflTransGen (Replicates A Spares) s s') (hv : v.Covers s.view) :
    s'.Sound ∧ ∃ v', Relation.ReflTransGen DistLab.Raft.Replicates v v' ∧ v'.Covers s'.view := by
  induction hs with
  | refl => exact ⟨h, v, .refl, hv⟩
  | tail _ hstep ih =>
    obtain ⟨hsound, u, hu, hcov⟩ := ih
    obtain ⟨hsound', v', hv', hcov'⟩ := hsound.replicates hstep hcov
    exact ⟨hsound', v', hu.trans hv', hcov'⟩

end Memory

/-- Server 0 of five leads term 1, gives its first command to server 1 and builds a request with
its second one. Before the request is encoded, server 2 leads term 2 and overwrites both in the
array of server 0; then the request is encoded and reaches server 1, which is still in term 1. -/
def aliased : List (MemoryEvent 5 ℕ) :=
  [.net (.act 0 .electionTimeout), .net (.deliver 2), .net (.deliver 2), .net (.deliver 2),
    .net (.deliver 2), .net (.act 0 .becomeLeader), .net (.act 0 (.start 10)),
    .net (.act 0 .heartbeat), .encode 0, .net (.deliver 2), .net (.deliver 2),
    .net (.act 0 (.start 11)), .net (.act 0 .heartbeat),
    .net (.act 2 .electionTimeout), .net (.act 2 .voteTimeout), .net (.deliver 8),
    .net (.deliver 8), .net (.deliver 8), .net (.deliver 8), .net (.act 2 .becomeLeader),
    .net (.act 2 (.start 20)), .net (.act 2 (.start 21)), .net (.act 2 .heartbeat), .encode 7,
    .net (.deliver 8), .encode 3, .net (.deliver 9)]

end DistLab.Raft
