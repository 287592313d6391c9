import DistLab.Linearizability.Operations

/-! # Histories of events

`CheckEvents` takes the calls and returns themselves, in the order in which they happened. The
ids of the operations may be any numbers; `renumber` makes them fit the bit set. The times of
an operation are then the places of its events, so that no two events have the same time and
the verdict is exact.
-/

namespace DistLab.Linearizability

variable {ι ο σ : Type}

def Event.entry (x : Event ι ο × ℕ) : Entry ι ο := ⟨x.1.kind, x.1.value, x.1.id, x.2⟩

/-- The events are the calls and the returns of the operations, at the places that are their
times. Each operation has an id of its own. -/
structure Records (ops : List (Numbered ι ο)) (events : List (Event ι ο)) : Prop where
  perm : (events.zipIdx.map Event.entry).Perm (ops.flatMap fun x => entriesOf x.1 x.2)
  nodup : (ops.map Prod.snd).Nodup
  order : ∀ x ∈ ops, x.1.call < x.1.ret

section Renumber

/-- The numbers given to ids, in the order in which the ids came. -/
def numberIn (ids : List ℕ) (id : ℕ) : Option ℕ := if id ∈ ids then some (ids.idxOf id) else none

def Event.renumbered (ids : List ℕ) (v : Event ι ο) : Event ι ο := { v with id := ids.idxOf v.id }

theorem update_numberIn {ids : List ℕ} {id : ℕ} (h : id ∉ ids) :
    Function.update (numberIn ids) id (some ids.length) = numberIn (ids ++ [id]) := by
  funext i
  by_cases hi : i = id
  · subst hi
    simp [numberIn, List.idxOf_append_of_notMem h]
  · by_cases hm : i ∈ ids
    · simp [numberIn, hi, hm, List.idxOf_append_of_mem hm]
    · simp [numberIn, hi, hm]

theorem exists_renumberLoop (events : List (Event ι ο)) {ids : List ℕ} (hnd : ids.Nodup) :
    ∃ ids', ids <+: ids' ∧ ids'.Nodup ∧ (∀ i ∈ ids', i ∈ ids ∨ ∃ v ∈ events, v.id = i) ∧
      (∀ v ∈ events, v.id ∈ ids') ∧
      renumberLoop (numberIn ids) ids.length events = events.map (Event.renumbered ids') := by
  induction events generalizing ids with
  | nil => exact ⟨ids, List.prefix_rfl, hnd, fun i hi => .inl hi, by simp, rfl⟩
  | cons v events ih =>
    by_cases hv : v.id ∈ ids
    · obtain ⟨ids', hpre, hnd', hfrom, hto, heq⟩ := ih hnd
      refine ⟨ids', hpre, hnd', ?_, ?_, ?_⟩
      · intro i hi
        exact (hfrom i hi).imp_right fun ⟨w, hw, hi⟩ => ⟨w, List.mem_cons_of_mem v hw, hi⟩
      · rw [List.forall_mem_cons]
        exact ⟨hpre.mem hv, hto⟩
      · obtain ⟨more, rfl⟩ := hpre
        rw [renumberLoop, numberIn, if_pos hv]
        simp only [heq, List.map_cons, Event.renumbered, List.idxOf_append_of_mem hv]
    · have hnd₁ : (ids ++ [v.id]).Nodup := hnd.append (List.nodup_singleton _) (by simpa using hv)
      obtain ⟨ids', hpre, hnd', hfrom, hto, heq⟩ := ih hnd₁
      have hmem : v.id ∈ ids' := hpre.mem (by simp)
      refine ⟨ids', (List.prefix_append _ _).trans hpre, hnd', ?_, ?_, ?_⟩
      · intro i hi
        rcases hfrom i hi with hi | ⟨w, hw, rfl⟩
        · rcases List.mem_append.mp hi with hi | hi
          · exact .inl hi
          · exact .inr ⟨v, List.mem_cons_self, (List.mem_singleton.mp hi).symm⟩
        · exact .inr ⟨w, List.mem_cons_of_mem v hw, rfl⟩
      · rw [List.forall_mem_cons]
        exact ⟨hmem, hto⟩
      · obtain ⟨more, rfl⟩ := hpre
        rw [List.length_append, ← update_numberIn hv] at heq
        rw [renumberLoop, numberIn, if_neg hv]
        have hidx : (ids ++ [v.id] ++ more).idxOf v.id = ids.length := by
          rw [List.append_assoc, List.idxOf_append_of_notMem hv]
          simp
        simp only [List.length_singleton] at heq
        simp only [heq, List.map_cons, Event.renumbered, hidx]

theorem exists_renumber (events : List (Event ι ο)) :
    ∃ ids : List ℕ, ids.Nodup ∧ (∀ i ∈ ids, ∃ v ∈ events, v.id = i) ∧
      (∀ v ∈ events, v.id ∈ ids) ∧ renumber events = events.map (Event.renumbered ids) := by
  obtain ⟨ids, -, hnd, hfrom, hto, heq⟩ := exists_renumberLoop events .nil
  refine ⟨ids, hnd, fun i hi => (hfrom i hi).resolve_left (by simp), hto, ?_⟩
  rw [← heq]
  rfl

end Renumber

section Verdict

variable {model : FullModel ι ο σ} {ops : List (Numbered ι ο)} {events : List (Event ι ο)}

theorem makeLinkedEntries_map_time (es : List (Entry ι ο)) (t : ℤ) :
    makeLinkedEntries (es.map fun e => { e with time := t }) = makeLinkedEntries es := by
  rw [makeLinkedEntries, makeLinkedEntries, List.foldr_map]
  rfl

def placedEntries (ids : List ℕ) (events : List (Event ι ο)) : List (Entry ι ο) :=
  events.zipIdx.map fun x => Event.entry (x.1.renumbered ids, x.2)

theorem makeLinkedEntries_placedEntries (ids : List ℕ) (events : List (Event ι ο)) :
    makeLinkedEntries (placedEntries ids events) =
      makeLinkedEntries (convertEntries (events.map (Event.renumbered ids))) := by
  have heq : convertEntries (events.map (Event.renumbered ids)) =
      (placedEntries ids events).map fun e => { e with time := -1 } := by
    conv_lhs => rw [← List.zipIdx_map_fst 0 events]
    simp only [convertEntries, placedEntries, List.map_map]
    rfl
  rw [heq, makeLinkedEntries_map_time]

def Entry.renumbered (ids : List ℕ) (e : Entry ι ο) : Entry ι ο := { e with id := ids.idxOf e.id }

theorem pairwise_zipIdx (events : List (Event ι ο)) : events.zipIdx.Pairwise (·.2 < ·.2) := by
  rw [← List.pairwise_map (f := Prod.snd) (R := (· < ·)), List.zipIdx_map_snd]
  exact List.pairwise_lt_range'

namespace Records

variable (h : Records ops events)

include h

theorem mem_iff {e : Entry ι ο} :
    (∃ x ∈ events.zipIdx, Event.entry x = e) ↔ ∃ x ∈ ops, e = x.callEntry ∨ e = x.retEntry := by
  rw [← List.mem_map, h.perm.mem_iff]
  simp [List.mem_flatMap, entriesOf, Numbered.callEntry, Numbered.retEntry]

theorem mem_ids {i : ℕ} : (∃ v ∈ events, v.id = i) ↔ i ∈ ops.map Prod.snd := by
  constructor
  · rintro ⟨v, hv, rfl⟩
    rw [← List.zipIdx_map_fst 0 events] at hv
    obtain ⟨x, hx, rfl⟩ := List.mem_map.mp hv
    obtain ⟨y, hy, he⟩ := h.mem_iff.mp ⟨x, hx, rfl⟩
    refine List.mem_map.mpr ⟨y, hy, ?_⟩
    rcases he with he | he
    · exact (congrArg Entry.id he).symm
    · exact (congrArg Entry.id he).symm
  · intro hi
    obtain ⟨y, hy, rfl⟩ := List.mem_map.mp hi
    obtain ⟨x, hx, he⟩ := h.mem_iff.mpr ⟨y, hy, .inl rfl⟩
    exact ⟨x.1, List.fst_mem_of_mem_zipIdx hx, congrArg Entry.id he⟩

theorem logs {ids : List ℕ} (hnd : ids.Nodup) (hfrom : ∀ i ∈ ids, ∃ v ∈ events, v.id = i)
    (hto : ∀ v ∈ events, v.id ∈ ids) :
    Logs (ops.map fun x => (x.1, ids.idxOf x.2)) (placedEntries ids events) where
  perm := by
    have hperm := h.perm.map (Entry.renumbered ids)
    rw [List.map_map, List.map_flatMap] at hperm
    rw [List.flatMap_map]
    exact hperm
  sorted := by
    rw [placedEntries, List.pairwise_map]
    exact (pairwise_zipIdx events).imp fun hlt => Int.ofNat_le.mpr hlt.le
  nodup := by
    have hmem : ∀ i ∈ ops.map Prod.snd, i ∈ ids := by
      intro i hi
      obtain ⟨v, hv, rfl⟩ := h.mem_ids.mpr hi
      exact hto v hv
    rw [List.map_map]
    change (ops.map (ids.idxOf ∘ Prod.snd)).Nodup
    rw [← List.map_map]
    exact h.nodup.map_on fun i hi j _ hij => (List.idxOf_inj (hmem i hi)).mp hij
  small := by
    have hle : ids.length ≤ ops.length := by
      have hsub := List.subperm_of_subset hnd fun i hi => h.mem_ids.mp (hfrom i hi)
      simpa using hsub.length_le
    intro x hx
    obtain ⟨y, hy, rfl⟩ := List.mem_map.mp hx
    obtain ⟨v, hv, hid⟩ := h.mem_ids.mpr (List.mem_map_of_mem hy)
    have hlt := List.idxOf_lt_length_of_mem (hto v hv)
    rw [hid] at hlt
    rw [List.length_map]
    exact hlt.trans_le hle
  order := by
    intro x hx
    obtain ⟨y, hy, rfl⟩ := List.mem_map.mp hx
    exact h.order y hy

theorem noTies : NoTies (ops.map Prod.fst) := by
  intro a ha b hb heq
  obtain ⟨x, hx, rfl⟩ := List.mem_map.mp ha
  obtain ⟨y, hy, rfl⟩ := List.mem_map.mp hb
  obtain ⟨u, hu, hret⟩ := h.mem_iff.mpr ⟨x, hx, .inr rfl⟩
  obtain ⟨w, hw, hcall⟩ := h.mem_iff.mpr ⟨y, hy, .inl rfl⟩
  have hplace : (u.2 : ℤ) = w.2 := by
    rw [show (u.2 : ℤ) = x.1.ret from congrArg Entry.time hret, heq]
    exact (congrArg Entry.time hcall).symm
  have hnd : (events.zipIdx.map Prod.snd).Nodup := by
    rw [List.zipIdx_map_snd]
    exact List.nodup_range'
  obtain rfl := List.inj_on_of_nodup_map hnd hu hw (Int.ofNat_inj.mp hplace)
  simpa [Numbered.retEntry, Numbered.callEntry] using hret.symm.trans hcall

theorem exists_endsIn (hc : Congruent model) :
    ∃ n result, EndsIn model n
        (.start model (makeLinkedEntries (convertEntries (renumber events)))) result ∧
      (result = true ↔ model.Accepts (ops.map Prod.fst)) := by
  obtain ⟨ids, hnd, hfrom, hto, heq⟩ := exists_renumber events
  obtain ⟨n, result, hend, htrue, hfalse⟩ := (h.logs hnd hfrom hto).exists_endsIn hc
  rw [makeLinkedEntries_placedEntries, ← heq] at hend
  rw [List.map_map] at htrue hfalse
  refine ⟨n, result, hend, htrue, fun hacc => ?_⟩
  rw [← Bool.not_eq_false]
  intro hf
  exact hfalse hf ((acceptsStrictly_iff h.noTies).mpr hacc)

end Records

variable [DecidableEq σ] {user : Model ι ο σ} {timeout : Bool} {es : List CheckEvent}
  {c : Check ι ο σ} {opsOf : List (Event ι ο) → List (Numbered ι ο)}

/-- However the goroutines are scheduled, `CheckEventsTimeout` is negative only if the operations
of a part are not linearizable, and without a timeout positive only if those of all parts are. -/
theorem checkEventsTimeout_sound (hc : Congruent (fillDefault user))
    (hops : ∀ p ∈ (fillDefault user).partitionEvent events, Records (opsOf p) p)
    (hrun : (checkEventsTimeout user timeout events).run
      (checkEventsTimeout user timeout events).init es = some c) :
    (c.returned = some false → ∃ p ∈ (fillDefault user).partitionEvent events,
      ¬ (fillDefault user).Accepts ((opsOf p).map Prod.fst)) ∧
    (c.returned = some true → timeout = false → ∀ p ∈ (fillDefault user).partitionEvent events,
      (fillDefault user).Accepts ((opsOf p).map Prod.fst)) := by
  obtain ⟨hneg, hpos⟩ := check_sound (fun p hp => (hops p hp).exists_endsIn hc) hrun
  constructor
  · intro hfalse
    obtain ⟨p, hp, hiff⟩ := hneg hfalse
    exact ⟨p, hp, fun hacc => Bool.false_ne_true (hiff.mpr hacc)⟩
  · exact fun htrue hto p hp => (hpos htrue hto p hp).mp rfl

def addEvents : List (Event ℕ ℕ) :=
  [⟨.call, .inl 1, 7⟩, ⟨.call, .inl 2, 3⟩, ⟨.ret, .inr 0, 3⟩, ⟨.ret, .inr 2, 7⟩]

def recordedAdds : List (Numbered ℕ ℕ) := [(⟨1, 0, 2, 3⟩, 7), (⟨2, 1, 0, 2⟩, 3)]

theorem checkEvents_addEvents : (fillDefault adder).Accepts (recordedAdds.map Prod.fst) := by
  have hrun := System.run_after (checkEventsTimeout adder false addEvents)
    (checkEventsTimeout adder false addEvents).init
    [.tick 0, .tick 0, .tick 0, .tick 0, .receive 0] (by decide)
  have hops : ∀ p ∈ (fillDefault adder).partitionEvent addEvents,
      Records ((fun _ => recordedAdds) p) p := by
    intro p hp
    obtain rfl := List.mem_singleton.mp hp
    exact ⟨by decide, by decide, by decide⟩
  exact (checkEventsTimeout_sound congruent_adder hops hrun).2 (by decide) rfl addEvents
    List.mem_cons_self

end Verdict

end DistLab.Linearizability
