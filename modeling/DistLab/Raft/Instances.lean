import DistLab.Raft.Config

/-! # Instances of a server

What the functions of the configuration keep about ends, servers and instances. An
instance is superseded only after its ends are disabled and its server is deleted, so a
server in place and an enabled end always belong to a running instance, and a server has
at most one. The functions are lists of operations, and everything each operation relies
on is established by those before it.
-/

namespace DistLab.Raft

variable {n : ℕ} {C : Type*}

namespace Setting

def exec (s : Setting n) : Op n → Setting n
  | .enable i j yes => match s.endnames i with
    | none => s
    | some a => { s with enabled := Function.update s.enabled (a, j) yes }
  | .deleteServer i => { s with servers := Function.update s.servers i none }
  | .copyPersister i => match s.running i with
    | none => s
    | some a => { s with instances := s.instances.set a ⟨i, .superseded⟩ }
  | .newEndnames i => { s with
      instances := s.instances ++ [⟨i, .starting⟩]
      endnames := Function.update s.endnames i (some s.instances.length) }
  | .makeEnd i j => match s.endnames i with
    | none => s
    | some a => if s.ends (a, j) then s else { s with
        ends := Function.update s.ends (a, j) true
        enabled := Function.update s.enabled (a, j) false
        connections := Function.update s.connections (a, j) none }
  | .connect i j => match s.endnames i with
    | none => s
    | some a => { s with connections := Function.update s.connections (a, j) (some j) }
  | .make i => match s.endnames i with
    | none => s
    | some a => { s with instances := s.instances.set a ⟨i, .running⟩ }
  | .addServer i => match s.endnames i with
    | none => s
    | some a => { s with servers := Function.update s.servers i (some a) }
  | .kill _ | .addService _ | .reliable _ | .longReordering _ | .netCleanup => s

end Setting

theorem Config.exec_setting [Inhabited C] (cfg : Config n C) (op : Op n) :
    (cfg.exec op).setting = cfg.setting.exec op := by
  cases op with
  | makeEnd i j =>
    simp only [exec, onLatest, Setting.exec, setting]
    cases cfg.endnames i with
    | none => rfl
    | some a => by_cases he : cfg.net.ends (a, j) = true <;> simp [Labrpc.Network.admin, he]
  | copyPersister i | kill i =>
    simp only [exec, Setting.exec]
    split <;> simp_all [setting]
  | netCleanup =>
    simp only [exec, Setting.exec, Labrpc.Network.admin]
    split <;> rfl
  | enable i | connect i | make i | addService i | addServer i =>
    simp only [exec, onLatest, Setting.exec, setting]
    cases cfg.endnames i <;> rfl
  | deleteServer | newEndnames | reliable | longReordering => rfl

/-- What is always true of ends, servers and instances. -/
structure Orderly (s : Setting n) : Prop where
  host : ∀ i a, s.endnames i = some a → ∃ p, s.instances[a]? = some ⟨i, p⟩
  latest : ∀ i a, s.instances[a]? = some ⟨i, .running⟩ → s.endnames i = some a
  servers : ∀ i a, s.servers i = some a → s.instances[a]? = some ⟨i, .running⟩
  enabled : ∀ a j, s.enabled (a, j) = true → s.runs a = true
  connections : ∀ a j j', s.connections (a, j) = some j' → j' = j
  connected : ∀ i, s.connected i = true → (s.running i).isSome = true

/-- What an operation relies on. -/
def Setting.Allows (s : Setting n) : Op n → Prop
  | .enable i _ true => (s.running i).isSome = true
  | .copyPersister i => s.connected i = false ∧ s.servers i = none ∧
      ∀ a, s.endnames i = some a → ∀ j, s.enabled (a, j) = false
  | .newEndnames i => s.connected i = false ∧ s.running i = none
  | .make i => ∀ a, s.endnames i = some a → s.instances[a]? = some ⟨i, .starting⟩
  | .addServer i => (s.running i).isSome = true
  | _ => True

def Setting.Ready (s : Setting n) : List (Op n) → Prop
  | [] => True
  | op :: ops => s.Allows op ∧ (s.exec op).Ready ops

namespace Setting

variable {s : Setting n} {i : Fin n} {a : ℕ}

theorem runs_iff : s.runs a = true ↔ ∃ i, s.instances[a]? = some ⟨i, .running⟩ := by
  simp only [runs, Option.any_eq_true, decide_eq_true_eq]
  constructor
  · rintro ⟨⟨i, p⟩, ha, rfl⟩
    exact ⟨i, ha⟩
  · rintro ⟨i, ha⟩
    exact ⟨_, ha, rfl⟩

theorem running_isSome_iff :
    (s.running i).isSome = true ↔ ∃ a, s.endnames i = some a ∧ s.runs a = true := by
  simp only [running, Option.isSome_iff_exists, Option.filter_eq_some_iff]

end Setting

namespace Orderly

variable {s : Setting n} {i j : Fin n} {a : ℕ}

theorem running_iff (h : Orderly s) :
    s.running i = some a ↔ s.instances[a]? = some ⟨i, .running⟩ := by
  rw [Setting.running, Option.filter_eq_some_iff, Setting.runs_iff]
  constructor
  · rintro ⟨he, j, hj⟩
    obtain ⟨p, hp⟩ := h.host i a he
    obtain ⟨rfl, rfl⟩ := Instance.mk.inj (Option.some.inj (hp.symm.trans hj))
    exact hj
  · intro ha
    exact ⟨h.latest i a ha, i, ha⟩

theorem endnames_inj (h : Orderly s) (hi : s.endnames i = some a) (hj : s.endnames j = some a) :
    i = j := by
  obtain ⟨p, hp⟩ := h.host i a hi
  obtain ⟨q, hq⟩ := h.host j a hj
  exact (Instance.mk.inj (Option.some.inj (hp.symm.trans hq))).1

theorem getElem?_phase {q : Phase} (ha : s.instances[a]? = some ⟨j, q⟩) (inst : Instance n)
    (b : ℕ) : (s.instances.set a inst)[b]? = if a = b then some inst else s.instances[b]? := by
  obtain ⟨hlt, -⟩ := List.getElem?_eq_some_iff.mp ha
  rw [List.getElem?_set, if_pos hlt]

theorem enable (h : Orderly s) {yes : Bool} (hi : s.Allows (.enable i j yes)) :
    Orderly (s.exec (.enable i j yes)) := by
  simp only [Setting.exec]
  split
  · exact h
  · next a ha =>
    refine ⟨h.host, h.latest, h.servers, fun b j' hb => ?_, h.connections, h.connected⟩
    simp only [Function.update_apply] at hb
    split_ifs at hb with he
    · subst hb
      obtain ⟨rfl, -⟩ := Prod.mk.inj he
      obtain ⟨b', hend, hrun⟩ := Setting.running_isSome_iff.mp hi
      rw [Option.some.inj (ha.symm.trans hend)]
      exact hrun
    · exact h.enabled b j' hb

theorem copyPersister (h : Orderly s) (hi : s.Allows (.copyPersister i)) :
    Orderly (s.exec (.copyPersister i)) := by
  obtain ⟨hconn, hserv, hends⟩ := hi
  simp only [Setting.exec]
  split
  · exact h
  · next a ha =>
    have hinst := h.running_iff.mp ha
    have hend := h.latest i a hinst
    have hget := getElem?_phase hinst ⟨i, .superseded⟩
    have hrun : ∀ b, b ≠ a → s.runs b = true →
        Setting.runs { s with instances := s.instances.set a ⟨i, .superseded⟩ } b = true := by
      intro b hb hr
      simpa [Setting.runs, hget, hb.symm] using hr
    refine ⟨fun j b hj => ?_, fun j b hb => ?_, fun j b hj => ?_, fun b j hb => ?_,
      h.connections, fun j hj => ?_⟩
    · rw [hget]
      split_ifs with hab
      · subst hab
        exact ⟨_, by rw [h.endnames_inj hend hj]⟩
      · exact h.host j b hj
    · rw [hget] at hb
      split_ifs at hb
      · cases hb
      · exact h.latest j b hb
    · have hb := h.servers j b hj
      rw [hget, if_neg, hb]
      rintro rfl
      obtain ⟨rfl, -⟩ := Instance.mk.inj (Option.some.inj (hb.symm.trans hinst))
      rw [hserv] at hj
      cases hj
    · refine hrun b ?_ (h.enabled b j hb)
      rintro rfl
      rw [hends b hend j] at hb
      cases hb
    · obtain ⟨b, hb, hr⟩ := Setting.running_isSome_iff.mp (h.connected j hj)
      refine Setting.running_isSome_iff.mpr ⟨b, hb, hrun b ?_ hr⟩
      rintro rfl
      rw [h.endnames_inj hb hend, hconn] at hj
      cases hj

theorem newEndnames (h : Orderly s) (hi : s.Allows (.newEndnames i)) :
    Orderly (s.exec (.newEndnames i)) := by
  obtain ⟨hconn, hrun⟩ := hi
  have hold : ∀ b, b < s.instances.length →
      (s.instances ++ [⟨i, .starting⟩])[b]? = s.instances[b]? :=
    fun b hb => List.getElem?_append_left hb
  have hlt : ∀ b inst, s.instances[b]? = some inst → b < s.instances.length :=
    fun b inst hb => (List.getElem?_eq_some_iff.mp hb).1
  have hruns : ∀ b, s.runs b = true →
      Setting.runs { s with instances := s.instances ++ [⟨i, .starting⟩] } b = true := by
    intro b hr
    obtain ⟨j, hj⟩ := Setting.runs_iff.mp hr
    exact Setting.runs_iff.mpr ⟨j, (hold b (hlt b _ hj)).trans hj⟩
  refine ⟨fun j b hj => ?_, fun j b hb => ?_, fun j b hj => ?_, fun b j hb => ?_,
    h.connections, fun j hj => ?_⟩
  · simp only [Setting.exec, Function.update_apply] at hj ⊢
    split_ifs at hj with hji
    · obtain rfl := Option.some.inj hj
      exact ⟨.starting, by simp [hji]⟩
    · obtain ⟨p, hp⟩ := h.host j b hj
      exact ⟨p, (hold b (hlt b _ hp)).trans hp⟩
  · simp only [Setting.exec, Function.update_apply] at hb ⊢
    rw [List.getElem?_append] at hb
    split_ifs at hb with hlen
    · rw [if_neg, h.latest j b hb]
      rintro rfl
      rw [h.running_iff.mpr hb] at hrun
      cases hrun
    · obtain ⟨_, hinst⟩ := List.getElem?_eq_some_iff.mp hb
      simp at hinst
  · have hb := h.servers j b hj
    exact (hold b (hlt b _ hb)).trans hb
  · exact hruns b (h.enabled b j hb)
  · obtain ⟨b, hb, hr⟩ := Setting.running_isSome_iff.mp (h.connected j hj)
    refine Setting.running_isSome_iff.mpr ⟨b, ?_, hruns b hr⟩
    simp only [Setting.exec, Function.update_apply]
    rw [if_neg, hb]
    rintro rfl
    exact Bool.false_ne_true (hconn.symm.trans hj)

theorem makeEnd (h : Orderly s) : Orderly (s.exec (.makeEnd i j)) := by
  simp only [Setting.exec]
  split
  · exact h
  · next a ha =>
    split_ifs
    · exact h
    · refine ⟨h.host, h.latest, h.servers, fun b j' hb => ?_, fun b j₁ j₂ hb => ?_, h.connected⟩
      · simp only [Function.update_apply] at hb
        split_ifs at hb
        exact h.enabled b j' hb
      · simp only [Function.update_apply] at hb
        split_ifs at hb
        exact h.connections b j₁ j₂ hb

theorem connect (h : Orderly s) : Orderly (s.exec (.connect i j)) := by
  simp only [Setting.exec]
  split
  · exact h
  · next a ha =>
    refine ⟨h.host, h.latest, h.servers, h.enabled, fun b j₁ j₂ hb => ?_, h.connected⟩
    simp only [Function.update_apply] at hb
    split_ifs at hb with he
    · rw [(Prod.mk.inj he).2, Option.some.inj hb]
    · exact h.connections b j₁ j₂ hb

theorem make (h : Orderly s) (hi : s.Allows (.make i)) : Orderly (s.exec (.make i)) := by
  simp only [Setting.exec]
  split
  · exact h
  · next a ha =>
    have hinst := hi a ha
    have hget := getElem?_phase hinst ⟨i, .running⟩
    have hkeep : ∀ (b : ℕ) (j : Fin n), s.instances[b]? = some ⟨j, .running⟩ →
        (s.instances.set a ⟨i, .running⟩)[b]? = some ⟨j, .running⟩ := by
      intro b j hb
      rw [hget, if_neg, hb]
      rintro rfl
      cases Option.some.inj (hb.symm.trans hinst)
    have hruns : ∀ b, s.runs b = true →
        Setting.runs { s with instances := s.instances.set a ⟨i, .running⟩ } b = true := by
      intro b hr
      obtain ⟨j, hj⟩ := Setting.runs_iff.mp hr
      exact Setting.runs_iff.mpr ⟨j, hkeep b j hj⟩
    refine ⟨fun j b hj => ?_, fun j b hb => ?_, fun j b hj => hkeep b j (h.servers j b hj),
      fun b j hb => hruns b (h.enabled b j hb), h.connections, fun j hj => ?_⟩
    · rw [hget]
      split_ifs with hab
      · subst hab
        exact ⟨_, by rw [h.endnames_inj ha hj]⟩
      · exact h.host j b hj
    · rw [hget] at hb
      split_ifs at hb with hab
      · obtain ⟨rfl, -⟩ := Instance.mk.inj (Option.some.inj hb)
        rw [← hab, ha]
      · exact h.latest j b hb
    · obtain ⟨b, hb, hr⟩ := Setting.running_isSome_iff.mp (h.connected j hj)
      exact Setting.running_isSome_iff.mpr ⟨b, hb, hruns b hr⟩

theorem deleteServer (h : Orderly s) : Orderly (s.exec (.deleteServer i)) := by
  refine ⟨h.host, h.latest, fun j b hj => ?_, h.enabled, h.connections, h.connected⟩
  simp only [Setting.exec, Function.update_apply] at hj
  split_ifs at hj
  exact h.servers j b hj

theorem addServer (h : Orderly s) (hi : s.Allows (.addServer i)) :
    Orderly (s.exec (.addServer i)) := by
  obtain ⟨a, ha⟩ := Option.isSome_iff_exists.mp hi
  have hinst := h.running_iff.mp ha
  simp only [Setting.exec, h.latest i a hinst]
  refine ⟨h.host, h.latest, fun j b hj => ?_, h.enabled, h.connections, h.connected⟩
  simp only [Function.update_apply] at hj
  split_ifs at hj with hji
  · rw [hji, ← Option.some.inj hj, hinst]
  · exact h.servers j b hj

theorem exec (h : Orderly s) {op : Op n} (hi : s.Allows op) : Orderly (s.exec op) := by
  cases op with
  | enable i j yes => exact h.enable hi
  | deleteServer i => exact h.deleteServer
  | copyPersister i => exact h.copyPersister hi
  | newEndnames i => exact h.newEndnames hi
  | makeEnd i j => exact h.makeEnd
  | connect i j => exact h.connect
  | make i => exact h.make hi
  | addServer i => exact h.addServer hi
  | kill | addService | reliable | longReordering | netCleanup => exact h

end Orderly

namespace Setting

variable {s : Setting n} {i j : Fin n} {a : ℕ} {ops ops' : List (Op n)}

theorem ready_append :
    s.Ready (ops ++ ops') ↔ s.Ready ops ∧ (ops.foldl exec s).Ready ops' := by
  induction ops generalizing s with
  | nil => simp [Ready]
  | cons op ops ih => simp only [List.cons_append, Ready, List.foldl_cons, ih, and_assoc]

theorem ready_loop {I : Setting n → Prop}
    (h : ∀ op ∈ ops, ∀ s, I s → s.Allows op ∧ I (s.exec op)) (hi : I s) :
    s.Ready ops ∧ I (ops.foldl exec s) := by
  induction ops generalizing s with
  | nil => exact ⟨trivial, hi⟩
  | cons op ops ih =>
    obtain ⟨hop, hi'⟩ := h op List.mem_cons_self s hi
    obtain ⟨hready, hlast⟩ := ih (fun op ho => h op (List.mem_cons_of_mem _ ho)) hi'
    exact ⟨⟨hop, hready⟩, hlast⟩

@[simp] theorem exec_enable_endnames {yes : Bool} :
    (s.exec (.enable i j yes)).endnames = s.endnames := by
  simp only [exec]
  split <;> rfl

@[simp] theorem exec_enable_instances {yes : Bool} :
    (s.exec (.enable i j yes)).instances = s.instances := by
  simp only [exec]
  split <;> rfl

@[simp] theorem exec_enable_connected {yes : Bool} :
    (s.exec (.enable i j yes)).connected = s.connected := by
  simp only [exec]
  split <;> rfl

theorem running_congr {t : Setting n} (he : t.endnames = s.endnames)
    (hi : t.instances = s.instances) : t.running = s.running := by
  unfold running runs
  rw [he, hi]

theorem enabled_of_disable {e : EndName n} (h : ∀ op ∈ ops, ∃ i j, op = .enable i j false)
    (he : (ops.foldl exec s).enabled e = true) : s.enabled e = true ∧
      ∀ i, .enable i e.2 false ∈ ops → s.endnames i ≠ some e.1 := by
  induction ops generalizing s with
  | nil => exact ⟨he, by simp⟩
  | cons op ops ih =>
    obtain ⟨i, j, rfl⟩ := h op List.mem_cons_self
    obtain ⟨hs, hne⟩ := ih (fun op ho => h op (List.mem_cons_of_mem _ ho)) he
    rw [exec_enable_endnames] at hne
    simp only [exec] at hs
    cases ha : s.endnames i with
    | none =>
      simp only [ha] at hs
      refine ⟨hs, fun i' hmem => ?_⟩
      rcases List.mem_cons.mp hmem with heq | hmem
      · obtain ⟨rfl, -⟩ := Op.enable.inj heq
        simp [ha]
      · exact hne i' hmem
    | some a =>
      simp only [ha, Function.update_apply] at hs
      split_ifs at hs with hej
      refine ⟨hs, fun i' hmem => ?_⟩
      rcases List.mem_cons.mp hmem with heq | hmem
      · obtain ⟨rfl, hj, -⟩ := Op.enable.inj heq
        intro hend
        rw [ha] at hend
        exact hej (Prod.ext (Option.some.inj hend).symm hj)
      · exact hne i' hmem

theorem mem_disconnectOps {op : Op n} (h : op ∈ s.disconnectOps i) :
    ∃ i j, op = .enable i j false := by
  rcases List.mem_append.mp h with h | h
  · split_ifs at h
    · obtain ⟨j, -, rfl⟩ := List.mem_map.mp h
      exact ⟨i, j, rfl⟩
    · cases h
  · obtain ⟨j, -, rfl⟩ := List.mem_map.mp h
    exact ⟨j, i, rfl⟩

theorem ready_disconnect (s : Setting n) (i : Fin n) : s.Ready (s.disconnectOps i) ∧
    ((s.disconnectOps i).foldl exec s).connected = s.connected ∧
    ((s.disconnectOps i).foldl exec s).endnames = s.endnames ∧
    ∀ a, s.endnames i = some a → ∀ j,
      ((s.disconnectOps i).foldl exec s).enabled (a, j) = false := by
  have hstep : ∀ op ∈ s.disconnectOps i, ∀ t : Setting n,
      t.connected = s.connected ∧ t.endnames = s.endnames →
      t.Allows op ∧ (t.exec op).connected = s.connected ∧ (t.exec op).endnames = s.endnames := by
    intro op ho t ht
    obtain ⟨i', j, rfl⟩ := mem_disconnectOps ho
    simpa [Allows] using ht
  obtain ⟨hready, hconn, hend⟩ := ready_loop hstep ⟨rfl, rfl⟩
  refine ⟨hready, hconn, hend, fun a ha j => Bool.eq_false_iff.mpr fun he => ?_⟩
  have hne := (enabled_of_disable (fun op ho => mem_disconnectOps ho) he).2 i
  refine hne (List.mem_append_left _ ?_) ha
  simp [ha]

theorem running_copyPersister : (s.exec (.copyPersister i)).running i = none := by
  simp only [exec]
  split
  · assumption
  · next a ha =>
    obtain ⟨hend, hrun⟩ := Option.filter_eq_some_iff.mp ha
    obtain ⟨j, hj⟩ := runs_iff.mp hrun
    simp [running, hend, runs, Orderly.getElem?_phase hj]

theorem ready_crash (h : s.connected i = false) : s.Ready (s.crashOps i) ∧
    ((s.crashOps i).foldl exec s).connected i = false ∧
    ((s.crashOps i).foldl exec s).running i = none := by
  obtain ⟨hready, hconn, hend, hdis⟩ := ready_disconnect s i
  rw [crashOps, ready_append, List.foldl_append]
  generalize (s.disconnectOps i).foldl exec s = t at hconn hend hdis ⊢
  have hconn' : ((t.exec (.deleteServer i)).exec (.copyPersister i)).connected i = false := by
    have : ((t.exec (.deleteServer i)).exec (.copyPersister i)).connected = t.connected := by
      simp only [exec]
      split <;> rfl
    rw [this, hconn, h]
  refine ⟨⟨hready, trivial, ⟨?_, ?_, ?_⟩, trivial, trivial⟩, hconn', running_copyPersister⟩
  · exact (congrFun hconn i).trans h
  · exact Function.update_self ..
  · intro a ha
    exact hdis a (hend ▸ ha)

theorem ready_ends (l : List (Fin n)) :
    s.Ready (l.flatMap fun j => [.makeEnd i j, .connect i j]) ∧
    ((l.flatMap fun j => [.makeEnd i j, .connect i j]).foldl exec s).endnames = s.endnames ∧
    ((l.flatMap fun j => [.makeEnd i j, .connect i j]).foldl exec s).instances = s.instances := by
  refine ready_loop (I := fun t => t.endnames = s.endnames ∧ t.instances = s.instances)
    (fun op ho t ht => ?_) ⟨rfl, rfl⟩
  obtain ⟨j, -, hj⟩ := List.mem_flatMap.mp ho
  rcases List.mem_pair.mp hj with rfl | rfl
  · refine ⟨trivial, ?_⟩
    simp only [exec]
    repeat' split
    all_goals exact ht
  · refine ⟨trivial, ?_⟩
    simp only [exec]
    split <;> exact ht

theorem ready_start (h : s.connected i = false) : s.Ready (s.startOps i) := by
  obtain ⟨hcrash, hconn, hrun⟩ := ready_crash h
  rw [startOps, List.append_assoc, ready_append]
  refine ⟨hcrash, ?_⟩
  generalize (s.crashOps i).foldl exec s = t at hconn hrun
  refine ⟨⟨hconn, hrun⟩, ?_⟩
  have hend : (t.exec (.newEndnames i)).endnames i = some t.instances.length :=
    Function.update_self ..
  have hinst : (t.exec (.newEndnames i)).instances[t.instances.length]? = some ⟨i, .starting⟩ := by
    simp [exec]
  generalize t.exec (.newEndnames i) = u at hend hinst
  obtain ⟨hends, hend', hinst'⟩ := ready_ends (s := u) (i := i) (List.finRange n)
  refine ready_append.mpr ⟨hends, ?_⟩
  generalize List.foldl exec u _ = v at hend' hinst' ⊢
  rw [← hend'] at hend
  rw [← hinst'] at hinst
  refine ⟨fun a ha => ?_, trivial, running_isSome_iff.mpr ⟨t.instances.length, ?_, ?_⟩, trivial⟩
  · rw [← Option.some.inj (hend.symm.trans ha), hinst]
  · simp [exec, hend]
  · simp [exec, hend, runs, Orderly.getElem?_phase hinst]

theorem ready_connect (hi : (s.running i).isSome = true)
    (h : ∀ j, s.connected j = true → (s.running j).isSome = true) : s.Ready (s.connectOps i) := by
  refine (ready_loop (I := fun t => t.endnames = s.endnames ∧ t.instances = s.instances)
    (fun op ho t ht => ?_) ⟨rfl, rfl⟩).1
  have hop : ∃ i' j, op = .enable i' j true ∧ (s.running i').isSome = true := by
    rcases List.mem_append.mp ho with ho | ho
    · obtain ⟨j, -, rfl⟩ := List.mem_map.mp ho
      exact ⟨i, j, rfl, hi⟩
    · obtain ⟨j, hj, rfl⟩ := List.mem_map.mp ho
      exact ⟨j, i, rfl, h j (List.mem_filter.mp hj).2⟩
  obtain ⟨i', j, rfl, hrun⟩ := hop
  rw [exec_enable_endnames, exec_enable_instances]
  refine ⟨?_, ht⟩
  rw [Allows, running_congr ht.1 ht.2]
  exact hrun

theorem ready_cleanup : s.Ready s.cleanupOps := by
  refine (ready_loop (I := fun _ => True) (fun op ho t _ => ⟨?_, trivial⟩) trivial).1
  rcases List.mem_append.mp ho with ho | ho
  · obtain ⟨j, -, rfl⟩ := List.mem_map.mp ho
    trivial
  · rw [List.mem_singleton.mp ho]
    trivial

end Setting

/-- A call of a function of the configuration leaves the setting in order and finds everything its
operations rely on. -/
theorem Config.call_orderly [Inhabited C] {cfg cfg' : Config n C} {cmd : Command n}
    (h : Orderly cfg.setting) (hc : cfg.call cmd = some cfg') :
    Orderly cfg'.setting ∧ cfg'.setting.Ready cfg'.todo := by
  have hoff : ∀ i, Orderly { cfg.setting with
      connected := Function.update cfg.connected i false } := by
    intro i
    refine ⟨h.host, h.latest, h.servers, h.enabled, h.connections, fun j hj => ?_⟩
    simp only [Function.update_apply] at hj
    split_ifs at hj
    exact h.connected j hj
  cases cmd with
  | crash1 i =>
    obtain rfl := Option.some.inj hc
    exact ⟨hoff i, (Setting.ready_crash (s := { cfg.setting with
      connected := Function.update cfg.connected i false }) (Function.update_self ..)).1⟩
  | start1 i =>
    obtain rfl := Option.some.inj hc
    exact ⟨hoff i, Setting.ready_start (s := { cfg.setting with
      connected := Function.update cfg.connected i false }) (Function.update_self ..)⟩
  | connect i =>
    obtain ⟨hrun, hc⟩ := Option.ite_none_right_eq_some.mp hc
    obtain rfl := Option.some.inj hc
    have hconn : ∀ j, Function.update cfg.connected i true j = true →
        (cfg.setting.running j).isSome = true := by
      intro j hj
      simp only [Function.update_apply] at hj
      split_ifs at hj with hji
      · rw [hji]
        exact hrun
      · exact h.connected j hj
    exact ⟨⟨h.host, h.latest, h.servers, h.enabled, h.connections, hconn⟩,
      Setting.ready_connect (s := { cfg.setting with
        connected := Function.update cfg.connected i true }) hrun hconn⟩
  | disconnect i =>
    obtain rfl := Option.some.inj hc
    exact ⟨hoff i, (Setting.ready_disconnect { cfg.setting with
      connected := Function.update cfg.connected i false } i).1⟩
  | setunreliable | setlongreordering =>
    obtain rfl := Option.some.inj hc
    exact ⟨h, trivial, trivial⟩
  | cleanup =>
    obtain rfl := Option.some.inj hc
    exact ⟨h, Setting.ready_cleanup⟩

end DistLab.Raft
