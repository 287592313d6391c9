import Mathlib.Data.List.Nodup
import DistLab.Linearizability.Search

/-! # Entries and operations

The node of an entry has the number of entries behind it as its address, and a call is
matched with the first return of its id behind it. If the entries are those of some
operations, in the order of time, then the list is well matched and the search decides
whether the operations are linearizable. Entries of the same time may stand in any order.
What is proved about the result is the same for all of them: an operation may precede one
that is called when it returns, or be concurrent with it.
-/

namespace DistLab.Linearizability

variable {ι ο σ : Type}

section Linking

def firstOf (kind : Kind) : List (Entry ι ο) → ℕ → Option ℕ
  | [], _ => none
  | e :: es, id => if e.kind = kind ∧ e.id = id then some es.length else firstOf kind es id

def nodeOf (e : Entry ι ο) (rest : List (Entry ι ο)) : Node ι ο where
  value := some e.value
  matching := match e.kind with
    | .ret => none
    | .call => firstOf .ret rest e.id
  id := e.id

def addresses (n : ℕ) : List ℕ := (List.range n).reverse

theorem addresses_succ (n : ℕ) : addresses (n + 1) = n :: addresses n := by
  simp [addresses, List.range_succ]

theorem mem_addresses {n a : ℕ} : a ∈ addresses n ↔ a < n := by simp [addresses]

theorem length_addresses (n : ℕ) : (addresses n).length = n := by simp [addresses]

def Placed (node : ℕ → Node ι ο) (es : List (Entry ι ο)) : Prop :=
  ∀ e rest, e :: rest <:+ es → node rest.length = nodeOf e rest

structure Built (es : List (Entry ι ο)) (l : Linking ι ο) : Prop where
  fresh : l.fresh = es.length
  root : l.root = (addresses es.length).head?
  returns : l.returns = firstOf .ret es
  linked : l.heap.Linked (addresses es.length)
  first : ∀ a ∈ l.root, (l.heap a).prev = none
  placed : Placed (fun a => (l.heap a).val) es

variable {l : Linking ι ο} {es : List (Entry ι ο)} {e : Entry ι ο}

theorem Built.add (h : Built es l) (node : Node ι ο) :
    (l.add node).heap.Linked (l.fresh :: addresses es.length) ∧
      ((l.add node).heap l.fresh).prev = none ∧ ((l.add node).heap l.fresh).val = node ∧
      ∀ a < l.fresh, ((l.add node).heap a).val = (l.heap a).val := by
  let heap : Links (Node ι ο) := Function.update l.heap l.fresh ⟨node, none, none⟩
  have hself : heap l.fresh = ⟨node, none, none⟩ := Function.update_self ..
  have hother : ∀ a < l.fresh, heap a = l.heap a := fun a ha => Function.update_of_ne ha.ne ..
  have hlt : ∀ a ∈ addresses es.length, a < l.fresh := by
    intro a ha
    rw [h.fresh]
    exact mem_addresses.mp ha
  have hlinked : heap.Linked (addresses es.length) :=
    h.linked.congr fun a ha => hother a (hlt a ha)
  obtain ⟨hnew, hprev, hval⟩ := hlinked.insertBefore (n := l.fresh)
    (fun hmem => lt_irrefl _ (hlt _ hmem))
    (fun a ha => by
      rw [hother a (hlt a (List.mem_of_mem_head? ha))]
      exact h.first a (h.root ▸ ha))
    (by rw [hself])
  rw [← h.root] at hnew hprev hval
  refine ⟨hnew, hprev.trans (by rw [hself]), (hval _).trans (by rw [hself]), fun a ha => ?_⟩
  exact (hval a).trans (by rw [hother a ha])

theorem Built.cons (h : Built es l) (e : Entry ι ο) : Built (e :: es) (linkEntry e l) := by
  obtain ⟨hlinked, hprev, hself, hother⟩ := h.add (nodeOf e es)
  have hheap : (linkEntry e l).heap = (l.add (nodeOf e es)).heap := by
    cases hk : e.kind <;> simp [linkEntry, Linking.add, nodeOf, hk, h.returns]
  have hroot : (linkEntry e l).root = some l.fresh := by
    cases hk : e.kind <;> simp [linkEntry, Linking.add, hk]
  constructor
  · cases hk : e.kind <;> simp [linkEntry, Linking.add, hk, h.fresh]
  · rw [hroot, List.length_cons, addresses_succ, h.fresh, List.head?_cons]
  · funext id
    cases hk : e.kind
    · simp [linkEntry, Linking.add, hk, h.returns, firstOf]
    · by_cases hid : id = e.id
      · simp [linkEntry, hk, h.fresh, firstOf, hid]
      · simp [linkEntry, hk, h.returns, firstOf, hid, Ne.symm hid]
  · rw [hheap, List.length_cons, addresses_succ]
    rwa [h.fresh] at hlinked
  · rw [hroot, hheap]
    rintro a ⟨⟩
    exact hprev
  · intro e' rest hsuf
    rw [hheap]
    rcases List.suffix_cons_iff.mp hsuf with heq | hsuf
    · obtain ⟨rfl, rfl⟩ := List.cons.inj heq
      rw [← h.fresh]
      exact hself
    · have hlt : rest.length < l.fresh := by
        rw [h.fresh]
        exact hsuf.length_le
      rw [← h.placed e' rest hsuf]
      exact hother _ hlt

theorem built_makeLinkedEntries (es : List (Entry ι ο)) : Built es (makeLinkedEntries es) := by
  induction es with
  | nil =>
    refine ⟨rfl, rfl, rfl, ⟨.nil, .nil, by simp [addresses]⟩, by simp [makeLinkedEntries], ?_⟩
    rintro e rest hsuf
    simp at hsuf
  | cons e es ih => exact ih.cons e

end Linking

section Logs

abbrev Numbered (ι ο : Type) := Operation ι ο × ℕ

def Numbered.callEntry (x : Numbered ι ο) : Entry ι ο := ⟨.call, .inl x.1.input, x.2, x.1.call⟩

def Numbered.retEntry (x : Numbered ι ο) : Entry ι ο := ⟨.ret, .inr x.1.output, x.2, x.1.ret⟩

/-- The entries of some operations in the order of time. -/
structure Logs (ops : List (Numbered ι ο)) (es : List (Entry ι ο)) : Prop where
  perm : es.Perm (ops.flatMap fun x => entriesOf x.1 x.2)
  sorted : es.Pairwise (·.time ≤ ·.time)
  nodup : (ops.map Prod.snd).Nodup
  small : ∀ x ∈ ops, x.2 < ops.length
  order : ∀ x ∈ ops, x.1.call < x.1.ret

variable {ops : List (Numbered ι ο)} {es rest rest' : List (Entry ι ο)} {e e' : Entry ι ο}
  {x y : Numbered ι ο} {kind : Kind} {id a : ℕ}

theorem exists_of_firstOf (h : firstOf kind es id = some a) :
    ∃ e rest, e :: rest <:+ es ∧ e.kind = kind ∧ e.id = id ∧ rest.length = a := by
  induction es with
  | nil => exact nomatch h
  | cons e es ih =>
    rw [firstOf] at h
    split at h
    case isTrue he =>
      exact ⟨e, es, List.suffix_rfl, he.1, he.2, Option.some.inj h⟩
    case isFalse =>
      obtain ⟨e', rest, hsuf, h⟩ := ih h
      exact ⟨e', rest, hsuf.trans (List.suffix_cons e es), h⟩

theorem isSome_firstOf (h : e ∈ es) : (firstOf e.kind es e.id).isSome := by
  induction es with
  | nil => simp at h
  | cons e' es ih =>
    rw [firstOf]
    split
    case isTrue => rfl
    case isFalse hne =>
      rcases List.mem_cons.mp h with rfl | h
      · exact absurd ⟨rfl, rfl⟩ hne
      · exact ih h

namespace Logs

variable (h : Logs ops es)

include h

theorem mem_iff : e ∈ es ↔ ∃ x ∈ ops, e = x.callEntry ∨ e = x.retEntry := by
  rw [h.perm.mem_iff]
  simp [List.mem_flatMap, entriesOf, Numbered.callEntry, Numbered.retEntry]

theorem length_eq : es.length = 2 * ops.length := by
  rw [h.perm.length_eq]
  simp [entriesOf, Nat.mul_comm]

theorem nodup_keys : (es.map fun e => (e.kind, e.id)).Nodup := by
  rw [(h.perm.map _).nodup_iff, List.map_flatMap, List.nodup_flatMap]
  constructor
  · intro x _
    simp [entriesOf]
  · refine (List.pairwise_map.mp h.nodup).imp fun {x y} hne => ?_
    simp [Function.onFun, List.disjoint_left, entriesOf, hne]

theorem unique (hs : e :: rest <:+ es) (hs' : e' :: rest' <:+ es) (hk : e.kind = e'.kind)
    (hid : e.id = e'.id) : e = e' ∧ rest = rest' := by
  wlog hle : rest.length ≤ rest'.length generalizing e e' rest rest'
  · obtain ⟨rfl, rfl⟩ := this hs' hs hk.symm hid.symm (by omega)
    exact ⟨rfl, rfl⟩
  have hsuf := List.suffix_of_suffix_length_le hs hs' (by simpa using hle)
  rcases List.suffix_cons_iff.mp hsuf with heq | hsuf
  · exact List.cons.inj heq
  · have hnd := (hs'.sublist.map fun e => (e.kind, e.id)).nodup h.nodup_keys
    rw [List.map_cons, List.nodup_cons] at hnd
    refine absurd (List.mem_map.mpr ⟨e, hsuf.mem List.mem_cons_self, ?_⟩) hnd.1
    rw [hk, hid]

theorem time_le (hs : e :: rest <:+ es) (hs' : e' :: rest' <:+ es)
    (hlt : rest'.length < rest.length) : e.time ≤ e'.time := by
  have hsuf : e' :: rest' <:+ rest :=
    List.suffix_of_suffix_length_le hs' ((List.suffix_cons e rest).trans hs) hlt
  have hsorted := h.sorted.sublist hs.sublist
  exact (List.pairwise_cons.mp hsorted).1 e' (hsuf.mem List.mem_cons_self)

end Logs

structure At (es : List (Entry ι ο)) (x : Numbered ι ο) (c r : ℕ) : Prop where
  intro ::
  exists_rest : ∃ rest rest', x.callEntry :: rest <:+ es ∧ x.retEntry :: rest' <:+ rest ∧
    firstOf .ret rest x.2 = some r ∧ rest.length = c ∧ rest'.length = r

variable {node : ℕ → Node ι ο} {c r c' r' : ℕ}

theorem Placed.call (hp : Placed node es) (hat : At es x c r) :
    node c = ⟨some (.inl x.1.input), some r, x.2⟩ := by
  obtain ⟨rest, rest', hcall, -, hfirst, rfl, -⟩ := hat
  rw [hp _ _ hcall]
  simp [nodeOf, Numbered.callEntry, hfirst]

theorem Placed.ret (hp : Placed node es) (hat : At es x c r) :
    node r = ⟨some (.inr x.1.output), none, x.2⟩ := by
  obtain ⟨rest, rest', hcall, hret, -, -, rfl⟩ := hat
  rw [hp _ _ (hret.trans ((List.suffix_cons _ _).trans hcall))]
  simp [nodeOf, Numbered.retEntry]

theorem At.lt (hat : At es x c r) : r < c ∧ c < es.length := by
  obtain ⟨rest, rest', hcall, hret, -, rfl, rfl⟩ := hat
  exact ⟨hret.length_le, hcall.length_le⟩

namespace Logs

variable (h : Logs ops es)

include h

theorem at_of_call (hx : x ∈ ops) (hs : x.callEntry :: rest <:+ es) :
    ∃ r, At es x rest.length r := by
  have hmem : x.retEntry ∈ es := h.mem_iff.mpr ⟨x, hx, .inr rfl⟩
  have hret : x.retEntry ∈ rest := by
    obtain ⟨pre, rfl⟩ := hs
    rcases List.mem_append.mp hmem with hpre | hmem
    · have hle := (List.pairwise_append.mp h.sorted).2.2 _ hpre _ List.mem_cons_self
      exact absurd (h.order x hx) (not_lt.mpr hle)
    · exact (List.mem_cons.mp hmem).resolve_left (by simp [Numbered.callEntry, Numbered.retEntry])
  obtain ⟨r, hr⟩ := Option.isSome_iff_exists.mp (isSome_firstOf hret)
  obtain ⟨e, rest', hsuf, hk, hid, rfl⟩ := exists_of_firstOf hr
  obtain ⟨pre, post, hes⟩ := List.append_of_mem hmem
  obtain ⟨rfl, -⟩ := h.unique (hsuf.trans ((List.suffix_cons _ _).trans hs))
    ⟨pre, hes.symm⟩ hk hid
  exact ⟨_, rest, rest', hs, hsuf, hr, rfl, rfl⟩

theorem exists_at (hx : x ∈ ops) : ∃ c r, At es x c r := by
  obtain ⟨pre, rest, hes⟩ := List.append_of_mem (h.mem_iff.mpr ⟨x, hx, .inl rfl⟩)
  obtain ⟨r, hr⟩ := h.at_of_call hx ⟨pre, hes.symm⟩
  exact ⟨_, r, hr⟩

theorem at_unique (hat : At es x c r) (hat' : At es y c' r') (hid : x.2 = y.2) :
    c = c' ∧ r = r' := by
  obtain ⟨rest, rest', hcall, hret, hfirst, rfl, rfl⟩ := hat
  obtain ⟨rest₂, rest₂', hcall₂, hret₂, hfirst₂, rfl, rfl⟩ := hat'
  obtain ⟨-, rfl⟩ := h.unique hcall hcall₂ rfl hid
  rw [hid] at hfirst
  exact ⟨rfl, Option.some.inj (hfirst.symm.trans hfirst₂)⟩

theorem exists_of_lt (ha : a < es.length) : ∃ x ∈ ops, ∃ c r, At es x c r ∧ (a = c ∨ a = r) := by
  obtain ⟨e, rest, hsuf, rfl⟩ : ∃ e rest, e :: rest <:+ es ∧ rest.length = a := by
    have hdrop := List.drop_suffix (es.length - 1 - a) es
    cases hd : es.drop (es.length - 1 - a) with
    | nil =>
      have := congrArg List.length hd
      simp at this
      omega
    | cons e rest =>
      rw [hd] at hdrop
      have := congrArg List.length hd
      simp at this
      exact ⟨e, rest, hdrop, by omega⟩
  obtain ⟨x, hx, rfl | rfl⟩ := h.mem_iff.mp (hsuf.mem List.mem_cons_self)
  · obtain ⟨r, hr⟩ := h.at_of_call hx hsuf
    exact ⟨x, hx, _, r, hr, .inl rfl⟩
  · obtain ⟨c, r, hat⟩ := h.exists_at hx
    refine ⟨x, hx, c, r, hat, .inr ?_⟩
    obtain ⟨rest₂, rest₂', hcall₂, hret₂, -, -, rfl⟩ := hat
    obtain ⟨-, rfl⟩ := h.unique hsuf (hret₂.trans ((List.suffix_cons _ _).trans hcall₂)) rfl rfl
    rfl

theorem wellMatched (hp : Placed node es) {words : ℕ} (hw : ∀ id < ops.length, id / 64 < words) :
    WellMatched node (addresses es.length) words := by
  have hplace : ∀ a ∈ addresses es.length, ∃ x ∈ ops, ∃ c r, At es x c r ∧ (a = c ∨ a = r) :=
    fun a ha => h.exists_of_lt (mem_addresses.mp ha)
  constructor
  · rw [addresses, List.pairwise_reverse]
    exact List.pairwise_lt_range
  · intro a ha m hm
    obtain ⟨x, hx, c, r, hat, rfl | rfl⟩ := hplace a ha
    · obtain rfl : r = m := by simpa [hp.call hat] using hm
      rw [mem_addresses, hp.ret hat]
      exact ⟨hat.lt.1.trans hat.lt.2, hat.lt.1, rfl⟩
    · simp [hp.ret hat] at hm
  · intro a ha m hm
    obtain ⟨x, hx, c, r, hat, rfl | rfl⟩ := hplace a ha
    · obtain rfl : r = m := by simpa [hp.call hat] using hm
      rw [hp.call hat, hp.ret hat]
    · simp [hp.ret hat] at hm
  · intro a ha hm
    obtain ⟨x, hx, c, r, hat, rfl | rfl⟩ := hplace a ha
    · simp [hp.call hat] at hm
    · exact ⟨c, mem_addresses.mpr hat.lt.2, by rw [hp.call hat]⟩
  · intro a ha b hb hca hcb hid
    obtain ⟨x, hx, c, r, hat, rfl | rfl⟩ := hplace a ha
    · obtain ⟨y, hy, c', r', hat', rfl | rfl⟩ := hplace b hb
      · rw [hp.call hat, hp.call hat'] at hid
        exact (h.at_unique hat hat' hid).1
      · simp [hp.ret hat'] at hcb
    · simp [hp.ret hat] at hca
  · intro a ha
    obtain ⟨x, hx, c, r, hat, rfl | rfl⟩ := hplace a ha
    · rw [hp.call hat]
      exact hw x.2 (h.small x hx)
    · rw [hp.ret hat]
      exact hw x.2 (h.small x hx)

theorem typed (hp : Placed node es) : Typed node (addresses es.length) := by
  intro a ha m hm
  obtain ⟨x, hx, c, r, hat, rfl | rfl⟩ := h.exists_of_lt (mem_addresses.mp ha)
  · obtain rfl : r = m := by simpa [hp.call hat] using hm
    exact ⟨x.1.input, x.1.output, by rw [hp.call hat], by rw [hp.ret hat]⟩
  · simp [hp.ret hat] at hm

end Logs

end Logs

section Deciding

def opStep (model : FullModel ι ο σ) (t : σ) (op : Operation ι ο) : Option σ :=
  if (model.step t op.input op.output).1 then some (model.step t op.input op.output).2 else none

def Before (a b : Operation ι ο) : Prop := a.ret < b.call

def BeforeOrAt (a b : Operation ι ο) : Prop := a.ret ≤ b.call

variable {model : FullModel ι ο σ} {ops : List (Numbered ι ο)} {es : List (Entry ι ο)}
  {node : ℕ → Node ι ο} {x y : Numbered ι ο} {c r c' r' : ℕ} {t : σ}

def callAddress (es : List (Entry ι ο)) (x : Numbered ι ο) : ℕ := (firstOf .call es x.2).getD 0

theorem Placed.callStep_eq (hp : Placed node es) (hat : At es x c r) :
    callStep model node t c = opStep model t x.1 := by
  simp [callStep, stepNode, opStep, hp.call hat, hp.ret hat]

theorem Placed.precedes_iff (hp : Placed node es) (hat : At es x c r) {b : ℕ} :
    Precedes node c b ↔ b < r := by
  simp [Precedes, hp.call hat]

namespace Logs

variable (h : Logs ops es)

include h

theorem callAddress_eq (hat : At es x c r) : callAddress es x = c := by
  obtain ⟨rest, rest', hcall, hret, hfirst, rfl, rfl⟩ := hat
  obtain ⟨a, ha⟩ := Option.isSome_iff_exists.mp (isSome_firstOf (hcall.mem List.mem_cons_self))
  obtain ⟨e, rest₂, hsuf, hk, hid, rfl⟩ := exists_of_firstOf ha
  obtain ⟨-, rfl⟩ := h.unique hsuf hcall hk hid
  have ha : firstOf .call es x.2 = some rest₂.length := ha
  rw [callAddress, ha, Option.getD_some]

theorem calls_perm (hp : Placed node es) :
    ((addresses es.length).filter (isCall node)).Perm (ops.map (callAddress es)) := by
  have hnd : (ops.map (callAddress es)).Nodup := by
    refine List.Nodup.map_on (fun x hx y hy hxy => ?_) h.nodup.of_map
    obtain ⟨c, r, hat⟩ := h.exists_at hx
    obtain ⟨c', r', hat'⟩ := h.exists_at hy
    rw [h.callAddress_eq hat, h.callAddress_eq hat'] at hxy
    subst hxy
    have hid := (hp.call hat).symm.trans (hp.call hat')
    exact List.inj_on_of_nodup_map h.nodup hx hy (by simpa using congrArg Node.id hid)
  have hnd' : (addresses es.length).Nodup := List.nodup_reverse.mpr List.nodup_range
  rw [List.perm_ext_iff_of_nodup (hnd'.filter _) hnd]
  intro a
  rw [List.mem_filter, mem_addresses, List.mem_map]
  constructor
  · rintro ⟨ha, hcall⟩
    obtain ⟨x, hx, c, r, hat, rfl | rfl⟩ := h.exists_of_lt ha
    · exact ⟨x, hx, h.callAddress_eq hat⟩
    · simp [isCall, hp.ret hat] at hcall
  · rintro ⟨x, hx, rfl⟩
    obtain ⟨c, r, hat⟩ := h.exists_at hx
    rw [h.callAddress_eq hat]
    exact ⟨hat.lt.2, by simp [isCall, hp.call hat]⟩

theorem before_or_at_of_lt (hat : At es x c r) (hat' : At es y c' r') (hlt : c' < r) :
    BeforeOrAt x.1 y.1 := by
  obtain ⟨rest, rest', hcall, hret, -, -, rfl⟩ := hat
  obtain ⟨rest₂, rest₂', hcall₂, -, -, rfl, -⟩ := hat'
  exact h.time_le (hret.trans ((List.suffix_cons _ _).trans hcall)) hcall₂ hlt

theorem lt_of_before (hp : Placed node es) (hat : At es x c r) (hat' : At es y c' r')
    (hb : Before x.1 y.1) : c' < r := by
  rcases lt_trichotomy c' r with hlt | heq | hgt
  · exact hlt
  · have hr := hp.ret hat
    rw [← heq, hp.call hat'] at hr
    simp at hr
  · obtain ⟨rest, rest', hcall, hret, -, -, rfl⟩ := hat
    obtain ⟨rest₂, rest₂', hcall₂, -, -, rfl, -⟩ := hat'
    have hle := h.time_le hcall₂ (hret.trans ((List.suffix_cons _ _).trans hcall)) hgt
    exact absurd hb (not_lt.mpr hle)

theorem canFinish_iff (hp : Placed node es) :
    Linearizable (callStep model node) (Precedes node) t
        ((addresses es.length).filter (isCall node)) ↔
      Linearizable (opStep model · ·.1)
        (fun x y => Precedes node (callAddress es x) (callAddress es y)) t ops := by
  have hstep : ∀ x ∈ ops, ∀ t, callStep model node t (callAddress es x) = opStep model t x.1 := by
    intro x hx t
    obtain ⟨c, r, hat⟩ := h.exists_at hx
    rw [h.callAddress_eq hat, hp.callStep_eq hat]
  constructor
  · intro hl
    exact (linearizable_map.mp (hl.perm (h.calls_perm hp))).congr hstep
  · intro hl
    refine Linearizable.perm (linearizable_map.mpr ?_) (h.calls_perm hp).symm
    exact hl.congr fun x hx t => (hstep x hx t).symm

theorem linearizable_of_canFinish (hp : Placed node es)
    (hl : Linearizable (callStep model node) (Precedes node) t
      ((addresses es.length).filter (isCall node))) :
    Linearizable (opStep model) Before t (ops.map Prod.fst) := by
  rw [linearizable_map]
  refine ((h.canFinish_iff hp).mp hl).mono fun x hx y hy hb => ?_
  obtain ⟨c, r, hat⟩ := h.exists_at hx
  obtain ⟨c', r', hat'⟩ := h.exists_at hy
  rw [h.callAddress_eq hat, h.callAddress_eq hat', hp.precedes_iff hat]
  exact h.lt_of_before hp hat hat' hb

theorem canFinish_of_linearizable (hp : Placed node es)
    (hl : Linearizable (opStep model) BeforeOrAt t (ops.map Prod.fst)) :
    Linearizable (callStep model node) (Precedes node) t
      ((addresses es.length).filter (isCall node)) := by
  rw [linearizable_map] at hl
  rw [h.canFinish_iff hp]
  refine hl.mono fun x hx y hy hb => ?_
  obtain ⟨c, r, hat⟩ := h.exists_at hx
  obtain ⟨c', r', hat'⟩ := h.exists_at hy
  rw [h.callAddress_eq hat, h.callAddress_eq hat', hp.precedes_iff hat] at hb
  exact h.before_or_at_of_lt hat hat' hb

end Logs

end Deciding

section Start

variable {es : List (Entry ι ο)} {model : FullModel ι ο σ} {ops : List (Numbered ι ο)}

theorem length_of_linked {heap : Links (Node ι ο)} {l : List ℕ} (hl : heap.Linked l) {fuel : ℕ}
    (hfuel : l.length < fuel) : length heap fuel l.head? = l.length := by
  induction l generalizing fuel with
  | nil => cases fuel <;> rfl
  | cons a l ih =>
    obtain ⟨fuel, rfl⟩ := Nat.exists_eq_succ_of_ne_zero (Nat.ne_zero_of_lt hfuel)
    have hnext : (heap a).next = l.head? := hl.head_next
    rw [List.head?_cons, length, hnext, ih hl.tail (Nat.lt_of_succ_lt_succ hfuel),
      List.length_cons]

theorem newBitset_words (n : ℕ) {id : ℕ} (hid : id < n) :
    id / 64 < (Bitset.newBitset n).words.length := by
  rw [Bitset.newBitset, List.length_replicate]
  split <;> omega

/-- The search on the entries of some operations ends and decides their linearizability. -/
theorem Logs.exists_endsIn (h : Logs ops es) (hc : Congruent model) :
    ∃ n result, EndsIn model n (Search.start model (makeLinkedEntries es)) result ∧
      (result = true → Linearizable (opStep model) Before model.init (ops.map Prod.fst)) ∧
      (result = false →
        ¬ Linearizable (opStep model) BeforeOrAt model.init (ops.map Prod.fst)) := by
  have hb := built_makeLinkedEntries es
  obtain ⟨hlinked, -, -, hother⟩ := hb.add ⟨none, none, 2 ^ 64 - 1⟩
  have hlen : length (makeLinkedEntries es).heap ((makeLinkedEntries es).fresh + 1)
      (makeLinkedEntries es).root / 2 = ops.length := by
    rw [hb.root, length_of_linked hb.linked (by rw [length_addresses, hb.fresh]; omega),
      length_addresses, h.length_eq]
    omega
  let s := Search.start model (makeLinkedEntries es)
  have hset : s.linearized = .newBitset ops.length := congrArg Bitset.newBitset hlen
  have hp : Placed (fun a => (s.heap a).val) es := by
    intro e rest hsuf
    rw [← hb.placed e rest hsuf]
    exact hother _ (hb.fresh ▸ hsuf.length_le)
  have hrem : remaining (fun a => (s.heap a).val) (addresses es.length) s.linearized =
      addresses es.length := by
    rw [hset, remaining_newBitset]
  have hf : Fits model (fun a => (s.heap a).val) (addresses es.length)
      (Bitset.newBitset ops.length).words.length s := by
    refine ⟨by rwa [hrem], fun _ => rfl, by rw [hset], ?_⟩
    rintro x ⟨hash, hx⟩
    simp [s, Search.start] at hx
  obtain ⟨n, result, hend, hiff⟩ := Linearizability.exists_endsIn
    (h.wellMatched hp fun id hid => newBitset_words _ hid) (h.typed hp) hc hf rfl
    (by rw [hrem]; exact hb.root)
  rw [CanFinish, hrem] at hiff
  refine ⟨n, result, hend, ?_, ?_⟩
  · intro htrue
    exact h.linearizable_of_canFinish hp (hiff.mp htrue)
  · rintro hfalse hl
    rw [hfalse] at hiff
    exact Bool.false_ne_true (hiff.mpr (h.canFinish_of_linearizable hp hl))

end Start

end DistLab.Linearizability
