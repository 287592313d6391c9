import Mathlib.Algebra.Group.Nat.Defs
import Mathlib.Data.List.Count
import DistLab.Labrpc.Calls

/-! # What the answer of a call means

A handler runs at most once for every call. A call that returns true had its handler run
once, by the server its end was connected to, returns the reply of that handler, and the
server was still in place after the handler was done. The counters count what was run.
-/

namespace DistLab.Labrpc

variable {E S B : Type*} [DecidableEq E] [DecidableEq S] {rn rn' : Network E S B}
  {es fs : List (Event E S B)} {k : ℕ} {c c' : Call E S B} {a : Act B} {b : B}

namespace Call

def Succeeds (b : B) (c : Call E S B) : Prop :=
  c.stage = .answering ⟨true, some b⟩ ∨ c.stage = .returned (some b)

def Finished (info : Info S) (b : B) (c : Call E S B) : Prop :=
  c.handler = .sending info b ∨ c.handler = .ended info b

def Begun (info : Info S) (c : Call E S B) : Prop :=
  c.handler.begun = true ∧ c.handler.info = some info

def Routed (info : Info S) (c : Call E S B) : Prop :=
  c.stage = .delayed info ∨ c.handler.info = some info

namespace Moves

variable {info : Info S}

omit [DecidableEq E]

theorem req_eq (h : c.Moves rn a c') : c'.req = c.req := by
  cases h <;> rfl

theorem succeeds (h : c.Moves rn a c') (hs : c.Sound) (hn : ¬ c.Succeeds b)
    (hq : c'.Succeeds b) : ∃ choice info, a = .check choice ∧ c.handler = .ended info b ∧
      rn.isServerDead c.req.endname info.servername info.server = false := by
  obtain ⟨req, st, hd, d⟩ := c
  cases h <;> simp only [Succeeds, Stage.answering.injEq, Stage.returned.injEq, ReplyMsg.lost,
    ReplyMsg.mk.injEq, reduceCtorEq, or_false, false_or, false_and] at hn hq
  case confirm info rep choice hst hdead =>
    cases hst
    obtain rfl := hq
    cases hs
    exact ⟨choice, info, rfl, rfl, hdead⟩
  case answer rep hst =>
    cases hst
    cases hs with
    | confirmed => simp_all
    | lost => simp [ReplyMsg.lost] at hq
  all_goals simp_all

theorem finished (h : c.Moves rn a c') (hn : ¬ c.Finished info b) (hq : c'.Finished info b) :
    a = .finish b ∧ c.handler = .running info := by
  cases h with
  | finish hh =>
    obtain ⟨rfl, rfl⟩ : _ ∧ _ := by simpa [Finished] using hq
    exact ⟨rfl, hh⟩
  | receive _ hh | drain _ hh =>
    obtain ⟨rfl, rfl⟩ : _ ∧ _ := by simpa [Finished] using hq
    exact (hn (Or.inl hh)).elim
  | execute | dispatch => simp [Finished] at hq
  | _ => exact (hn hq).elim

theorem begun (h : c.Moves rn a c') (hn : ¬ c.Begun info) (hq : c'.Begun info) :
    a = .dispatch ∧ c.handler = .spawned info := by
  cases h with
  | dispatch hh =>
    obtain ⟨-, hi⟩ := hq
    obtain rfl := Option.some.inj hi
    exact ⟨rfl, hh⟩
  | finish hh | receive _ hh | drain _ hh =>
    obtain ⟨-, hi⟩ := hq
    exact (hn ⟨by rw [hh]; rfl, by rw [hh]; exact hi⟩).elim
  | execute => cases hq.1
  | _ => exact (hn hq).elim

theorem routed (h : c.Moves rn a c') (hn : ¬ c.Routed info) (hq : c'.Routed info) :
    a = .read ∧ rn.enabled c.req.endname = true ∧
      rn.connections c.req.endname = some info.servername ∧
      rn.servers info.servername = some info.server := by
  unfold Routed at hn hq
  cases h with
  | read _ he hc hs =>
    rcases hq with hq | hq
    · obtain rfl := Stage.delayed.inj hq
      exact ⟨rfl, he, hc, hs⟩
    · exact (hn (Or.inr hq)).elim
  | execute hst =>
    obtain rfl : _ = info := by simpa [Handler.info] using hq
    exact (hn (Or.inl hst)).elim
  | dispatch hh | finish hh | drain _ hh =>
    refine (hn (hq.imp_right fun hi => ?_)).elim
    rw [hh]
    exact hi
  | receive _ hh =>
    refine (hn (Or.inr ?_)).elim
    rw [hh]
    simpa [Handler.info] using hq
  | accept | refuse | unread | drop | expire | lose | confirm | answer =>
    exact (hn (Or.inr (hq.resolve_left (by simp)))).elim
  | wait => exact (hn hq).elim

end Moves

end Call

theorem exists_moment_call {Q : Call E S B → Prop} {u : ℕ}
    (hnew : ∀ req, ¬ Q ⟨req, .calling, .idle, false⟩)
    (h : (network E S B).run (network E S B).init (es.take u) = some rn)
    (hc : rn.calls[k]? = some c) (hq : Q c) : ∃ t a v v' c₀ c₁, t < u ∧
      es[t]? = some (.on k a) ∧ (network E S B).run (network E S B).init (es.take t) = some v ∧
      v.step (.on k a) = some v' ∧ v.calls[k]? = some c₀ ∧ c₀.Moves v a c₁ ∧ ¬ Q c₀ ∧ Q c₁ := by
  obtain ⟨t, e, v, v', ht, hv, hs, hn, c₁, hc₁, hq₁⟩ :=
    System.exists_moment (P := fun v => ∃ c, v.calls[k]? = some c ∧ Q c) h
      (by simp [network, makeNetwork]) ⟨c, hc, hq⟩
  rw [List.getElem?_take] at ht
  split_ifs at ht with htu
  rw [List.take_take, Nat.min_eq_left (Nat.le_of_lt htu)] at hv
  rcases (Network.step_steps hs).2.call_cases hc₁ with
    ⟨c₀, hc₀, ⟨-, rfl⟩ | ⟨a, rfl, hm⟩⟩ | ⟨req, -, -, rfl⟩
  · exact (hn ⟨c₁, hc₀, hq₁⟩).elim
  · exact ⟨t, a, v, v', c₀, c₁, htu, ht, hv, hs, hc₀, hm, fun hq₀ => hn ⟨c₀, hc₀, hq₀⟩, hq₁⟩
  · exact (hnew req hq₁).elim

theorem fatal_of_lt {s v : Network E S B} {t : ℕ} (h : (network E S B).run s es = some rn)
    (ht : t < es.length) (hv : (network E S B).run s (es.take t) = some v) : v.fatal = false := by
  rw [← List.take_append_drop t es, System.run_append, hv] at h
  rw [List.drop_eq_getElem_cons ht] at h
  obtain ⟨v', hs, -⟩ := System.run_cons_eq_some.mp h
  exact (Network.step_steps hs).1

theorem run_take_succ {s v v' : Network E S B} {t : ℕ} {e : Event E S B}
    (ht : es[t]? = some e) (hv : (network E S B).run s (es.take t) = some v)
    (hs : v.step e = some v') : (network E S B).run s (es.take (t + 1)) = some v' := by
  rw [List.take_add_one, ht, Option.toList_some, System.run_append, hv]
  exact System.run_cons_eq_some.mpr ⟨v', hs, rfl⟩

theorem handles_of_dispatch {info : Info S} (hs : rn.step (.on k .dispatch) = some rn')
    (hc : rn.calls[k]? = some c) (hh : c.handler = .spawned info) (hf : rn'.fatal = false) :
    (rn.objects info.server).handles c.req.svcMeth = true := by
  cases (Network.step_steps hs).2 with
  | on hc' =>
    obtain rfl := Option.some.inj (hc'.symm.trans hc)
    simpa [Network.effect, hh] using hf

def Network.begun (rn : Network E S B) (k : ℕ) : Bool := rn.calls[k]?.any (·.handler.begun)

omit [DecidableEq E] in
theorem Call.Moves.begun_iff (h : c.Moves rn a c') (hs : c.Sound) :
    (c'.handler.begun = true ↔ c.handler.begun = true ∨ a = .dispatch) ∧
      (a = .dispatch → c.handler.begun = false) := by
  cases h with
  | dispatch hh | finish hh | receive _ hh | drain _ hh => simp [hh, Handler.begun]
  | execute hst =>
    obtain ⟨req, st, hd, d⟩ := c
    cases hst
    cases hs
    simp [Handler.begun]
  | _ => simp

theorem Network.begun_step {e : Event E S B}
    (h : (network E S B).run (network E S B).init es = some rn) (hs : rn.Steps e rn') :
    (rn'.begun k = true ↔ rn.begun k = true ∨ e = .on k .dispatch) ∧
      (e = .on k .dispatch → rn.begun k = false) := by
  unfold begun
  cases hc' : rn'.calls[k]? with
  | some c' =>
    rcases hs.call_cases hc' with ⟨c, hc, ⟨hne, rfl⟩ | ⟨a, rfl, hm⟩⟩ | ⟨req, rfl, rfl, rfl⟩
    · simp [hc, hne]
    · simpa [hc] using hm.begun_iff (sound_of_run h hc)
    · simp [Handler.begun]
  | none =>
    rw [List.getElem?_eq_none_iff] at hc'
    have hc : rn.calls[k]? = none := List.getElem?_eq_none_iff.mpr (Nat.le_trans hs.length_le hc')
    have hne : e ≠ .on k .dispatch := by
      rintro rfl
      cases hs with
      | on hk => simp [hc] at hk
    simp [hc, hne]

/-- The handler of a call is called once if it has begun, and never otherwise. -/
theorem count_dispatch [DecidableEq B]
    (h : (network E S B).run (network E S B).init es = some rn) :
    es.count (.on k .dispatch) = if rn.begun k then 1 else 0 := by
  refine System.history_induction (H := fun es v => es.count (.on k .dispatch) =
    if Network.begun v k then 1 else 0) rfl (fun es v e v' hv ih hs => ?_) h
  obtain ⟨hiff, hnew⟩ := Network.begun_step (k := k) hv (Network.step_steps hs).2
  rw [List.count_append, List.count_singleton, ih]
  by_cases he : e = .on k .dispatch
  · have hb' : v'.begun k = true := hiff.mpr (Or.inr he)
    simp [he, hnew he, hb']
  · have hb : v'.begun k = v.begun k := by
      rw [Bool.eq_iff_iff, hiff]
      simp [he]
    simp [he, hb]

/-- No call is executed twice. A call that returns true was executed: its end was enabled and
connected to a server, the handler of that server was called for it and returned the reply, and
after that the end was still enabled and the server in place. -/
theorem call_true [DecidableEq B] (h : (network E S B).run (network E S B).init es = some rn)
    (hc : rn.calls[k]? = some c) : es.count (.on k .dispatch) ≤ 1 ∧
    ∀ b, c.stage = .returned (some b) →
      ∃ (info : Info S) (t₀ t₁ t₂ t₃ : ℕ) (choice : Choice) (v₀ v₁ v₃ : Network E S B),
        t₀ < t₁ ∧ t₁ < t₂ ∧ t₂ < t₃ ∧ es[t₀]? = some (.on k .read) ∧
        es[t₁]? = some (.on k .dispatch) ∧ es[t₂]? = some (.on k (.finish b)) ∧
        es[t₃]? = some (.on k (.check choice)) ∧
        (network E S B).run (network E S B).init (es.take t₀) = some v₀ ∧
        (network E S B).run (network E S B).init (es.take t₁) = some v₁ ∧
        (network E S B).run (network E S B).init (es.take t₃) = some v₃ ∧
        v₀.enabled c.req.endname = true ∧
        v₀.connections c.req.endname = some info.servername ∧
        v₀.servers info.servername = some info.server ∧
        (v₁.objects info.server).handles c.req.svcMeth = true ∧
        v₃.isServerDead c.req.endname info.servername info.server = false := by
  refine ⟨?_, fun b hr => ?_⟩
  · rw [count_dispatch h]
    split <;> omega
  have h' : (network E S B).run (network E S B).init (es.take es.length) = some rn := by
    rwa [List.take_length]
  obtain ⟨t₃, a₃, v₃, _, c₃, _, hlt₃, ht₃, hv₃, -, hc₃, hm₃, hn₃, hreq₃, hq₃⟩ :=
    exists_moment_call (Q := fun d => d.req = c.req ∧ d.Succeeds b) (by simp [Call.Succeeds]) h' hc
      ⟨rfl, Or.inr hr⟩
  rw [hm₃.req_eq] at hreq₃
  obtain ⟨choice, info, rfl, hh₃, hd₃⟩ :=
    hm₃.succeeds (sound_of_run hv₃ hc₃) (not_and.mp hn₃ hreq₃) hq₃
  obtain ⟨t₂, a₂, v₂, _, c₂, _, hlt₂, ht₂, hv₂, -, hc₂, hm₂, hn₂, hreq₂, hq₂⟩ :=
    exists_moment_call (Q := fun d => d.req = c.req ∧ d.Finished info b) (by simp [Call.Finished])
      hv₃ hc₃ ⟨hreq₃, Or.inr hh₃⟩
  rw [hm₂.req_eq] at hreq₂
  obtain ⟨rfl, hh₂⟩ := hm₂.finished (not_and.mp hn₂ hreq₂) hq₂
  obtain ⟨t₁, a₁, v₁, v₁', c₁, _, hlt₁, ht₁, hv₁, hs₁, hc₁, hm₁, hn₁, hreq₁, hq₁⟩ :=
    exists_moment_call (Q := fun d => d.req = c.req ∧ d.Begun info)
      (by simp [Call.Begun, Handler.begun]) hv₂ hc₂
      ⟨hreq₂, by rw [hh₂]; rfl, by rw [hh₂]; rfl⟩
  rw [hm₁.req_eq] at hreq₁
  obtain ⟨rfl, hh₁⟩ := hm₁.begun (not_and.mp hn₁ hreq₁) hq₁
  obtain ⟨t₀, a₀, v₀, _, c₀, _, hlt₀, ht₀, hv₀, -, hc₀, hm₀, hn₀, hreq₀, hq₀⟩ :=
    exists_moment_call (Q := fun d => d.req = c.req ∧ d.Routed info)
      (by simp [Call.Routed, Handler.info]) hv₁ hc₁ ⟨hreq₁, Or.inr (by rw [hh₁]; rfl)⟩
  rw [hm₀.req_eq] at hreq₀
  obtain ⟨rfl, he, hcon, hsrv⟩ := hm₀.routed (not_and.mp hn₀ hreq₀) hq₀
  rw [hreq₀] at he hcon
  rw [hreq₃] at hd₃
  refine ⟨info, t₀, t₁, t₂, t₃, choice, v₀, v₁, v₃, hlt₀, hlt₁, hlt₂, ht₀, ht₁, ht₂, ht₃, hv₀, hv₁,
    hv₃, he, hcon, hsrv, ?_, hd₃⟩
  rw [← hreq₁]
  refine handles_of_dispatch hs₁ hc₁ hh₁ (fatal_of_lt h ?_ (run_take_succ ht₁ hv₁ hs₁))
  omega

def setup : List (Event ℕ ℕ ℕ) :=
  [.admin (.makeEnd 0), .admin (.connect 0 1), .admin (.addService 5 ⟨['R'], [['P']]⟩),
    .admin (.addServer 1 5), .admin (.enable 0 true)]

def started : List (Event ℕ ℕ ℕ) :=
  setup ++ [.call ⟨0, ['R', '.', 'P'], 7⟩, .on 0 .accept, .on 0 .read, .on 0 .execute]

def served : List (Event ℕ ℕ ℕ) :=
  [.on 0 .dispatch, .on 0 (.finish 8), .on 0 .receive, .on 0 (.check .send), .on 0 .answer]

theorem call_true_served : ∃ rn c,
    (network ℕ ℕ ℕ).run (network ℕ ℕ ℕ).init (started ++ served) = some rn ∧
      rn.calls[0]? = some c ∧ c.stage = .returned (some 8) ∧
      (started ++ served).count (.on 0 .dispatch) ≤ 1 ∧
      ∃ t₁ t₂ : ℕ, t₁ < t₂ ∧ (started ++ served)[t₁]? = some (.on 0 .dispatch) ∧
        (started ++ served)[t₂]? = some (.on 0 (.finish 8)) := by
  have h := (network ℕ ℕ ℕ).run_after (network ℕ ℕ ℕ).init (started ++ served) (by decide +kernel)
  have hc : ((network ℕ ℕ ℕ).after (network ℕ ℕ ℕ).init (started ++ served)
      (by decide +kernel)).calls[0]? = some ⟨⟨0, ['R', '.', 'P'], 7⟩, .returned (some 8),
        .ended ⟨1, 5, true, false⟩ 8, false⟩ := by decide +kernel
  obtain ⟨hle, htrue⟩ := call_true h hc
  obtain ⟨-, -, t₁, t₂, -, -, -, -, -, -, hlt, -, -, ht₁, ht₂, -⟩ := htrue 8 rfl
  exact ⟨_, _, h, hc, rfl, hle, t₁, t₂, hlt, ht₁, ht₂⟩

section Counts

variable {e : Event E S B} {p : Call E S B → Bool}

omit [DecidableEq E] [DecidableEq S] in
theorem countP_set (c' : Call E S B) (hc : rn.calls[k]? = some c) :
    (rn.calls.set k c').countP p + (if p c then 1 else 0) =
      rn.calls.countP p + if p c' then 1 else 0 := by
  obtain ⟨hk, rfl⟩ := List.getElem?_eq_some_iff.mp hc
  rw [List.countP_set hk]
  have hle : (if p rn.calls[k] = true then 1 else 0) ≤ rn.calls.countP p := by
    split_ifs with hp
    · exact List.countP_pos_iff.mpr ⟨_, List.getElem_mem hk, hp⟩
    · exact Nat.zero_le _
  omega

def Call.ranOn (o : ℕ) (c : Call E S B) : Bool :=
  c.handler.begun && c.handler.info.any (·.server == o)

/-- The call has been accepted and has not failed before its handler was started. -/
def Call.taken (c : Call E S B) : Bool :=
  match c.handler with
  | .idle => match c.stage with
    | .calling | .returned none => false
    | _ => true
  | _ => true

def Call.left (c : Call E S B) : Bool :=
  match c.stage with
  | .calling => false
  | _ => true

def Act.counts : Act B → ℕ
  | .accept => 1
  | _ => 0

/-- The counters against the calls. The total is the number of calls accepted, as it wraps. -/
structure Counted (rn : Network E S B) : Prop where
  sound : ∀ (k : ℕ) (c : Call E S B), rn.calls[k]? = some c → c.Sound
  server : ∀ o, (rn.objects o).count = rn.calls.countP (Call.ranOn o)
  total : ∃ n, rn.count = Int32.ofNat n ∧ rn.calls.countP Call.taken ≤ n ∧
    n ≤ rn.calls.countP Call.left

omit [DecidableEq E] [DecidableEq S] in
theorem Network.effect_objects (ha : a ≠ .dispatch) : (rn.effect c a).objects = rn.objects := by
  cases a <;> simp only [effect, ne_eq, not_true_eq_false] at ha ⊢
  split <;> rfl

omit [DecidableEq E] [DecidableEq S] in
theorem Network.effect_count (n : ℕ) (hn : rn.count = Int32.ofNat n) :
    (rn.effect c a).count = Int32.ofNat (n + a.counts) := by
  cases a with
  | accept =>
    rw [effect, hn, Act.counts, Int32.ofNat_add]
    rfl
  | dispatch | answer =>
    rw [effect]
    split <;> exact hn
  | _ => exact hn

omit [DecidableEq E] in
theorem Call.Moves.ranOn (h : c.Moves rn a c') (hs : c.Sound) (o : ℕ) :
    ((rn.effect c a).objects o).count + (if c.ranOn o then 1 else 0) =
      (rn.objects o).count + if c'.ranOn o then 1 else 0 := by
  cases h with
  | @dispatch info hh =>
    simp only [Network.effect, hh, Call.ranOn, Handler.begun, Handler.info, Option.any_some,
      Bool.false_and, Bool.true_and, Function.update_apply, beq_iff_eq]
    rcases eq_or_ne o info.server with rfl | hne
    · simp [Server.counted]
    · simp [hne, hne.symm]
  | execute hst =>
    obtain ⟨req, st, hd, d⟩ := c
    cases hst
    cases hs
    rw [Network.effect_objects (by simp)]
    rfl
  | finish hh | receive _ hh | drain _ hh =>
    rw [Network.effect_objects (by simp)]
    simp [Call.ranOn, hh, Handler.begun, Handler.info]
  | wait => rw [Network.effect_objects (by simp)]
  | _ =>
    rw [Network.effect_objects (by simp)]
    rfl

omit [DecidableEq E] in
theorem Call.Moves.taken (h : c.Moves rn a c') (hs : c.Sound) :
    (if c'.taken then 1 else 0) ≤ a.counts + if c.taken then 1 else 0 := by
  obtain ⟨req, st, hd, d⟩ := c
  cases h with
  | accept hst | refuse hst =>
    cases hst
    cases hs
    simp [Act.counts, Call.taken]
  | dispatch hh | finish hh | drain _ hh | receive _ hh =>
    cases hh
    simp [Call.taken]
  | @answer rep hst =>
    cases hst
    have htaken : (⟨req, .answering rep, hd, d⟩ : Call E S B).taken = true := by
      cases hd <;> rfl
    rw [htaken]
    generalize Call.taken _ = x
    cases x <;> simp
  | wait => exact Nat.le_add_left ..
  | read hst | unread hst | drop hst | execute hst | expire hst | lose hst | confirm hst =>
    cases hst
    cases hd <;> simp [Call.taken]

omit [DecidableEq E] in
theorem Call.Moves.left (h : c.Moves rn a c') :
    a.counts + (if c.left then 1 else 0) ≤ if c'.left then 1 else 0 := by
  cases h with
  | dispatch | finish | drain | wait => exact Nat.le_of_eq (Nat.zero_add _)
  | accept hst | refuse hst | read hst | unread hst | drop hst | execute hst | receive hst
  | expire hst | lose hst | confirm hst | answer hst => simp [Act.counts, Call.left, hst]

theorem Network.admin_count (a : Admin E S) : (rn.admin a).count = rn.count := by
  cases a <;> simp only [admin]
  all_goals split <;> rfl

theorem Network.admin_server_count (a : Admin E S) (o : ℕ) :
    ((rn.admin a).objects o).count = (rn.objects o).count := by
  cases a <;> simp only [admin]
  case addService =>
    simp only [Function.update_apply]
    split_ifs with ho
    · rw [ho, Server.addService]
    · rfl
  all_goals split <;> rfl

theorem Counted.step (h : Counted rn) (hs : rn.Steps e rn') : Counted rn' := by
  have hsound : ∀ (k : ℕ) (c : Call E S B), rn'.calls[k]? = some c → c.Sound := by
    intro k c' hc'
    rcases hs.call_cases hc' with ⟨c, hc, ⟨-, rfl⟩ | ⟨a, -, hm⟩⟩ | ⟨req, -, -, rfl⟩
    · exact h.sound k c' hc
    · exact (h.sound k c hc).moves hm
    · exact .calling
  obtain ⟨n, hn, htaken, hleft⟩ := h.total
  cases hs with
  | @admin a =>
    refine ⟨hsound, fun o => ?_, n, ?_, ?_⟩
    · rw [Network.admin_calls, ← h.server o]
      exact Network.admin_server_count a o
    · rw [Network.admin_count, hn]
    · rw [Network.admin_calls]
      exact ⟨htaken, hleft⟩
  | call =>
    refine ⟨hsound, fun o => ?_, n, hn, ?_, ?_⟩
    · rw [List.countP_append]
      exact h.server o
    · rw [List.countP_append]
      exact htaken
    · rw [List.countP_append]
      exact hleft
  | stopListening => exact ⟨h.sound, h.server, h.total⟩
  | @on k a c c' hc hm =>
    refine ⟨hsound, fun o => ?_, n + a.counts, Network.effect_count n hn, ?_, ?_⟩
    · have hset := countP_set (p := Call.ranOn o) c' hc
      have hobj := hm.ranOn (h.sound k c hc) o
      have := h.server o
      dsimp only
      omega
    · have hset := countP_set (p := Call.taken) c' hc
      have hstep := hm.taken (h.sound k c hc)
      dsimp only
      omega
    · have hset := countP_set (p := Call.left) c' hc
      have hstep := hm.left
      dsimp only
      omega

/-- While fewer calls have been made than the total can hold, the count of a server is the number
of calls whose handler was called on it, and the total count lies between the number of calls
executed and the number of calls made. -/
theorem counts_executed (h : (network E S B).run (network E S B).init es = some rn)
    (hlt : rn.calls.length < 2 ^ 31) :
    (∀ s o, rn.servers s = some o → rn.getCount s = some (rn.calls.countP (Call.ranOn o))) ∧
    rn.calls.countP (fun c => c.handler.begun) ≤ rn.getTotalCount ∧
    rn.getTotalCount ≤ rn.calls.length := by
  have hcount : Counted rn := System.invariant (I := Counted)
    (fun v e v' hv hs => hv.step (Network.step_steps hs).2) h
    ⟨by simp [network, makeNetwork], fun o => rfl, 0, rfl, Nat.le_refl _, Nat.le_refl _⟩
  obtain ⟨n, hn, htaken, hleft⟩ := hcount.total
  have hle : n ≤ rn.calls.length := Nat.le_trans hleft List.countP_le_length
  have htotal : rn.getTotalCount = n := by
    rw [Network.getTotalCount, hn, Int32.toInt_ofNat_of_lt (by omega)]
  rw [htotal]
  refine ⟨fun s o hs => ?_, Int.ofNat_le.mpr ?_, Int.ofNat_le.mpr hle⟩
  · rw [Network.getCount, hs, Option.map_some, hcount.server]
  · refine Nat.le_trans (List.countP_mono_left fun c _ hb => ?_) htaken
    cases hh : c.handler <;> simp_all [Call.taken, Handler.begun]

theorem counts_executed_served : ∃ rn,
    (network ℕ ℕ ℕ).run (network ℕ ℕ ℕ).init (started ++ served) = some rn ∧
      rn.getCount 1 = some (rn.calls.countP (Call.ranOn 5)) ∧
      rn.calls.countP (Call.ranOn 5) = 1 ∧ rn.getTotalCount ≤ rn.calls.length := by
  have h := (network ℕ ℕ ℕ).run_after (network ℕ ℕ ℕ).init (started ++ served) (by decide +kernel)
  obtain ⟨hserver, -, hle⟩ := counts_executed h (by decide +kernel)
  exact ⟨_, h, hserver 1 5 (by decide +kernel), by decide +kernel, hle⟩

end Counts

section Dead

variable {e : Event E S B} {s : S} {o : ℕ} {n : E} {info : Info S}

omit [DecidableEq E] [DecidableEq S] in
@[simp] theorem Network.effect_servers (a : Act B) : (rn.effect c a).servers = rn.servers := by
  cases a <;> simp only [effect] <;> repeat' split
  all_goals rfl

omit [DecidableEq E] [DecidableEq S] in
@[simp] theorem Network.effect_enabled (a : Act B) : (rn.effect c a).enabled = rn.enabled := by
  cases a <;> simp only [effect] <;> repeat' split
  all_goals rfl

theorem Network.Steps.servers (h : rn.Steps e rn') (hs : rn'.servers s = some o) :
    rn.servers s = some o ∨ e = .admin (.addServer s o) := by
  cases h with
  | @admin a =>
    cases a with
    | addServer s' o' =>
      simp only [Network.admin, Function.update_apply] at hs
      split_ifs at hs with hss
      · obtain rfl := Option.some.inj hs
        exact Or.inr (by rw [hss])
      · exact Or.inl hs
    | deleteServer s' =>
      simp only [Network.admin, Function.update_apply] at hs
      split_ifs at hs
      exact Or.inl hs
    | makeEnd | cleanup =>
      simp only [Network.admin] at hs
      split at hs <;> exact Or.inl hs
    | _ => exact Or.inl hs
  | call | stopListening => exact Or.inl hs
  | on => exact Or.inl (by simpa using hs)

theorem Network.Steps.enabled (h : rn.Steps e rn') (he : rn'.enabled n = true) :
    rn.enabled n = true ∨ e = .admin (.enable n true) := by
  cases h with
  | @admin a =>
    cases a with
    | enable n' b =>
      simp only [Network.admin, Function.update_apply] at he
      split_ifs at he with hnn
      · exact Or.inr (by rw [hnn, he])
      · exact Or.inl he
    | makeEnd n' =>
      simp only [Network.admin] at he
      split at he
      · exact Or.inl he
      · simp only [Function.update_apply] at he
        split_ifs at he
        exact Or.inl he
    | cleanup =>
      simp only [Network.admin] at he
      split at he <;> exact Or.inl he
    | _ => exact Or.inl he
  | call | stopListening => exact Or.inl he
  | on => exact Or.inl (by simpa using he)

/-- The call waits for a server it has read, or has failed. -/
def Call.Doomed (info : Info S) (c : Call E S B) : Prop :=
  c.stage.info = some info ∨ c.stage = .answering .lost ∨ c.stage = .returned none

omit [DecidableEq E] in
theorem Call.Moves.doomed (h : c.Moves rn a c') (hc : c.Doomed info)
    (hd : rn.isServerDead c.req.endname info.servername info.server = true) : c'.Doomed info := by
  obtain ⟨req, st, hh, d⟩ := c
  cases h with
  | accept hst | refuse hst | read hst | unread hst => cases hst; simp [Doomed, Stage.info] at hc
  | drop hst | lose hst => exact Or.inr (Or.inl rfl)
  | execute hst | receive hst | expire hst =>
    cases hst
    exact Or.inl (hc.resolve_right (by simp))
  | dispatch | finish | wait | drain => exact hc
  | confirm hst halive =>
    cases hst
    obtain rfl : _ = info := by simpa [Doomed, Stage.info] using hc
    simp [hd] at halive
  | answer hst =>
    cases hst
    obtain rfl : _ = ReplyMsg.lost := by simpa [Doomed, Stage.info] using hc
    exact Or.inr (Or.inr rfl)

/-- A call whose server stays dead is doomed from then on. -/
theorem doomed_of_run {D : Network E S B → Prop} {Q : Event E S B → Prop}
    (hD : ∀ v e v', D v → Q e → v.Steps e v' → D v')
    (hdead : ∀ v, D v → v.isServerDead c.req.endname info.servername info.server = true)
    (hQ : ∀ e ∈ fs, Q e) (h : (network E S B).run rn fs = some rn') (h0 : D rn)
    (hc : rn.calls[k]? = some c) (hi : c.Doomed info) :
    ∃ c', rn'.calls[k]? = some c' ∧ c'.Doomed info := by
  have hinv := System.run_induction (I := fun v => D v ∧
    ∃ d, v.calls[k]? = some d ∧ d.req = c.req ∧ d.Doomed info) (fun v e v' hv hq hs => ?_) h
    (System.meets_of_forall hQ) ⟨h0, c, hc, rfl, hi⟩
  · obtain ⟨-, d, hd, -, hdoom⟩ := hinv
    exact ⟨d, hd, hdoom⟩
  · obtain ⟨hDv, d, hd, hreq, hdoom⟩ := hv
    have hsteps := (Network.step_steps hs).2
    refine ⟨hD v e v' hDv hq hsteps, ?_⟩
    obtain ⟨d', hd', rfl | ⟨a, -, hm⟩⟩ := hsteps.exists_call hd
    · exact ⟨d', hd', hreq, hdoom⟩
    · exact ⟨d', hd', hm.req_eq.trans hreq, hm.doomed hdoom (hreq ▸ hdead v hDv)⟩

/-- Once the server of a waiting call is deleted or replaced and does not come back, or its end is
disabled and not enabled again, the call does not return true. -/
theorem dead_never_confirms (h : (network E S B).run rn fs = some rn')
    (hc : rn.calls[k]? = some c) (hi : c.stage.info = some info)
    (hd : rn.servers info.servername ≠ some info.server ∧
        (∀ e ∈ fs, e ≠ .admin (.addServer info.servername info.server)) ∨
      rn.enabled c.req.endname = false ∧ ∀ e ∈ fs, e ≠ .admin (.enable c.req.endname true))
    (hc' : rn'.calls[k]? = some c') (b : B) : c'.stage ≠ .returned (some b) := by
  have hdoom : ∃ d, rn'.calls[k]? = some d ∧ d.Doomed info := by
    rcases hd with ⟨hs, hfs⟩ | ⟨he, hfs⟩
    · refine doomed_of_run (D := fun v => v.servers info.servername ≠ some info.server)
        (fun v e v' hv hq hstep hs' => ?_) (fun v hv => ?_) hfs h hs hc (Or.inl hi)
      · exact (hstep.servers hs').elim hv hq
      · simp [Network.isServerDead, hv]
    · refine doomed_of_run (D := fun v => v.enabled c.req.endname = false)
        (fun v e v' hv hq hstep => ?_) (fun v hv => ?_) hfs h he hc (Or.inl hi)
      · refine Bool.eq_false_iff.mpr fun he' => ?_
        exact (hstep.enabled he').elim (by simp [hv]) hq
      · simp [Network.isServerDead, hv]
  obtain ⟨d, hk, hdoom⟩ := hdoom
  obtain rfl := Option.some.inj (hk.symm.trans hc')
  rintro hst
  simp [Call.Doomed, hst, Stage.info] at hdoom

end Dead

/-- The server is deleted while its handler runs, and another one takes its place. -/
theorem dead_never_confirms_replaced : ∃ rn rn' c',
    (network ℕ ℕ ℕ).run (network ℕ ℕ ℕ).init (started ++ [.admin (.deleteServer 1)]) = some rn ∧
      (network ℕ ℕ ℕ).run rn (.admin (.addServer 1 6) :: served) = some rn' ∧
      rn'.calls[0]? = some c' ∧ c'.handler.reply = some 8 ∧ c'.stage ≠ .returned (some 8) := by
  have h := (network ℕ ℕ ℕ).run_after (network ℕ ℕ ℕ).init (started ++ [.admin (.deleteServer 1)])
    (by decide +kernel)
  have h' := (network ℕ ℕ ℕ).run_after ((network ℕ ℕ ℕ).after (network ℕ ℕ ℕ).init
    (started ++ [.admin (.deleteServer 1)]) (by decide +kernel))
    (.admin (.addServer 1 6) :: served) (by decide +kernel)
  have hc : ((network ℕ ℕ ℕ).after (network ℕ ℕ ℕ).init (started ++ [.admin (.deleteServer 1)])
      (by decide +kernel)).calls[0]? = some ⟨⟨0, ['R', '.', 'P'], 7⟩, .waiting ⟨1, 5, true, false⟩,
        .spawned ⟨1, 5, true, false⟩, false⟩ := by decide +kernel
  have hc' : ((network ℕ ℕ ℕ).after ((network ℕ ℕ ℕ).after (network ℕ ℕ ℕ).init
      (started ++ [.admin (.deleteServer 1)]) (by decide +kernel))
      (.admin (.addServer 1 6) :: served) (by decide +kernel)).calls[0]? =
        some ⟨⟨0, ['R', '.', 'P'], 7⟩, .returned none, .ended ⟨1, 5, true, false⟩ 8, false⟩ := by
    decide +kernel
  exact ⟨_, _, _, h, h', hc', rfl, dead_never_confirms h' hc rfl
    (Or.inl ⟨by decide +kernel, by decide +kernel⟩) hc' 8⟩

end DistLab.Labrpc
