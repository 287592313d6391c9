import DistLab.Linearizability.Remaining
import Mathlib.Logic.Relation

/-! # The search

The loop of `checkSingle` ends, and its result tells whether the calls of the list can be
linearized. Between taking a call and putting it back the loop explores everything that
remains. When it comes back, all variables are as before, except that the cache has new
configurations, from which no linearization exists.
-/

namespace DistLab.Linearizability

variable {ι ο σ : Type} {model : FullModel ι ο σ} {node : ℕ → Node ι ο} {nodes : List ℕ}
  {words : ℕ}

/-- Equal states accept the same operations and stay equal. -/
def Congruent (model : FullModel ι ο σ) : Prop :=
  ∀ t t' input output, model.equal t t' = true → (model.step t input output).1 = true →
    (model.step t' input output).1 = true ∧
      model.equal (model.step t input output).2 (model.step t' input output).2 = true

def Typed (node : ℕ → Node ι ο) (nodes : List ℕ) : Prop :=
  ∀ a ∈ nodes, ∀ r ∈ (node a).matching, ∃ input output,
    (node a).value = some (.inl input) ∧ (node r).value = some (.inr output)

def callStep (model : FullModel ι ο σ) (node : ℕ → Node ι ο) (t : σ) (a : ℕ) : Option σ :=
  (stepNode model node t a).bind fun x => if x.1 then some x.2 else none

/-- The calls that are left can be linearized. -/
def CanFinish (model : FullModel ι ο σ) (node : ℕ → Node ι ο) (nodes : List ℕ) (b : Bitset)
    (t : σ) : Prop :=
  Linearizable (callStep model node) (Precedes node) t
    ((remaining node nodes b).filter (isCall node))

def Refutes (model : FullModel ι ο σ) (node : ℕ → Node ι ο) (nodes : List ℕ) (b : Bitset) (t : σ)
    (a : ℕ) : Prop :=
  ∀ b' t', (∀ q, b'.Has q ↔ q = (node a).id ∨ b.Has q) → callStep model node t a = some t' →
    ¬ CanFinish model node nodes b' t'

theorem callStep_congr (hc : Congruent model) {t t' u : σ} {a : ℕ} (he : model.equal t t' = true)
    (h : callStep model node t a = some u) :
    ∃ u', callStep model node t' a = some u' ∧ model.equal u u' = true := by
  obtain ⟨x, hx, hsome⟩ := Option.bind_eq_some_iff.mp h
  obtain ⟨hok, hu⟩ := Option.ite_none_right_eq_some.mp hsome
  obtain ⟨r, hr, hx⟩ := Option.bind_eq_some_iff.mp hx
  obtain ⟨input, hin, hx⟩ := Option.bind_eq_some_iff.mp hx
  obtain ⟨output, hout, hx⟩ := Option.bind_eq_some_iff.mp hx
  obtain rfl : model.step t input output = x := Option.some.inj hx
  obtain rfl : (model.step t input output).2 = u := Option.some.inj hu
  obtain ⟨hok', heq⟩ := hc t t' input output he hok
  have hstep : stepNode model node t' a = some (model.step t' input output) := by
    simp only [stepNode, hr, hin, hout, Option.bind_eq_bind, Option.bind_some, Option.pure_def]
  refine ⟨(model.step t' input output).2, ?_, heq⟩
  rw [callStep, hstep, Option.bind_some, if_pos hok']

theorem CanFinish.of_equal (hc : Congruent model) {b : Bitset} {t t' : σ}
    (he : model.equal t t' = true) (h : CanFinish model node nodes b t) :
    CanFinish model node nodes b t' :=
  h.simulate (R := fun t t' => model.equal t t' = true)
    (fun _ _ _ _ _ he hs => callStep_congr hc he hs) he

section Moves

variable {b b' : Bitset} {t t' : σ} {a r : ℕ} {pre todo post : List ℕ}

theorem CanFinish.take (wm : WellMatched node nodes words)
    (hrem : remaining node nodes b = pre ++ a :: post) (hpre : ∀ c ∈ pre, isCall node c)
    (hcall : isCall node a) (hs : callStep model node t a = some t')
    (hb' : ∀ q, b'.Has q ↔ q = (node a).id ∨ b.Has q)
    (h : CanFinish model node nodes b' t') : CanFinish model node nodes b t := by
  obtain ⟨r, hr⟩ := Option.isSome_iff_exists.mp hcall
  have hwm := wm.remaining b
  rw [CanFinish, remaining_set hb'] at h
  rw [CanFinish]
  rw [hrem] at h hwm ⊢
  refine (Linearizable.cons hs ?_ h).perm (hwm.calls_perm (by simp) hr).symm
  intro c hc
  exact hwm.not_precedes hpre (List.mem_filter.mp (List.mem_filter.mp hc).1).1

theorem not_canFinish (wm : WellMatched node nodes words) (hsize : b.words.length = words)
    (hrem : remaining node nodes b = pre ++ r :: post) (hr : isCall node r = false)
    (h : ∀ a ∈ pre, Refutes model node nodes b t a) : ¬ CanFinish model node nodes b t := by
  intro hfin
  have hwm := wm.remaining b
  have hne : (remaining node nodes b).filter (isCall node) ≠ [] := by
    obtain ⟨c, hc, hcr⟩ := hwm.returns r (by simp [hrem]) (by simpa [isCall] using hr)
    exact List.ne_nil_of_mem (List.mem_filter.mpr ⟨hc, by simp [isCall, hcr]⟩)
  obtain ⟨a, rest, t', hperm, hfirst, hs, hrest⟩ := hfin.exists_first hne
  obtain ⟨ha, hcall⟩ := List.mem_filter.mp (hperm.mem_iff.mpr List.mem_cons_self)
  obtain ⟨m, hm⟩ := Option.isSome_iff_exists.mp hcall
  have hpre : a ∈ pre := by
    rw [hrem] at hwm ha
    apply hwm.mem_of_not_precedes hr ha hcall
    intro c hc hca hccall
    rw [← hrem] at hc
    have := hperm.mem_iff.mp (List.mem_filter.mpr ⟨hc, hccall⟩)
    exact hfirst c ((List.mem_cons.mp this).resolve_left hca)
  have hfits := hwm.fits a ha
  rw [← hsize] at hfits
  obtain ⟨b', -, -, hb', -⟩ := Bitset.exists_set hfits (mem_remaining.mp ha).2
  refine h a hpre b' t' hb' hs ?_
  rw [CanFinish, remaining_set hb']
  exact hrest.perm (hperm.symm.trans (hwm.calls_perm ha hm)).cons_inv

end Moves

section Exploration

def Cache.Holds (cache : Cache σ) (x : Bitset × σ) : Prop := ∃ hash, x ∈ cache hash

theorem Cache.holds_add {cache : Cache σ} {b : Bitset} {t : σ} {x : Bitset × σ}
    (h : (cache.add b t).Holds x) : cache.Holds x ∨ x = (b, t) := by
  obtain ⟨hash, hx⟩ := h
  by_cases hb : hash = b.hash
  · subst hb
    rw [Cache.add, Function.update_self, List.mem_append, List.mem_singleton] at hx
    exact hx.imp_left fun hx => ⟨_, hx⟩
  · rw [Cache.add, Function.update_of_ne hb] at hx
    exact .inl ⟨hash, hx⟩

theorem holds_of_cacheContains {cache : Cache σ} {b : Bitset} {t : σ}
    (h : cacheContains model cache b t = true) :
    ∃ t', cache.Holds (b, t') ∧ model.equal t t' = true := by
  obtain ⟨⟨b', t'⟩, hmem, heq⟩ := List.any_eq_true.mp h
  rw [Bool.and_eq_true, Bitset.equals_iff] at heq
  obtain ⟨rfl, heq⟩ := heq
  exact ⟨t', ⟨_, hmem⟩, heq⟩

variable (model node nodes words)

/-- All cached configurations in which less remains lead nowhere. -/
def Known (b : Bitset) (cache : Cache σ) : Prop :=
  ∀ x, cache.Holds x →
    (remaining node nodes x.1).length < (remaining node nodes b).length →
    ¬ CanFinish model node nodes x.1 x.2

/-- New configurations of the cache lead nowhere. -/
def Grows (cache cache' : Cache σ) : Prop :=
  ∀ x, cache'.Holds x → cache.Holds x ∨ ¬ CanFinish model node nodes x.1 x.2

/-- The list holds the nodes that remain, and the cache is right about less of them. -/
structure Fits (s : Search ι ο σ) : Prop where
  linked : s.heap.Linked (s.headEntry :: remaining node nodes s.linearized)
  val : ∀ a, (s.heap a).val = node a
  size : s.linearized.words.length = words
  known : Known model node nodes s.linearized s.cache

def Next (s s' : Search ι ο σ) : Prop := s.finished = false ∧ s.body model = some (.inl s')

def Succeeds (s : Search ι ο σ) : Prop :=
  (∃ s', Relation.ReflTransGen (Next model) s s' ∧ s'.finished = true) ∧
    CanFinish model node nodes s.linearized s.state

def Reaches (s : Search ι ο σ) (entry : Option ℕ) (refuted : List ℕ) : Prop :=
  ∃ cache, Relation.ReflTransGen (Next model) s { s with cache := cache, entry := entry } ∧
    Grows model node nodes s.cache cache ∧
    ∀ a ∈ refuted, Refutes model node nodes s.linearized s.state a

/-- From any call before the first return the loop succeeds or comes to that return. -/
def Explores (n : ℕ) : Prop :=
  ∀ (s : Search ι ο σ) (pre todo : List ℕ) (r : ℕ) (post : List ℕ),
    Fits model node nodes words s → (remaining node nodes s.linearized).length ≤ n →
    remaining node nodes s.linearized = pre ++ (todo ++ r :: post) →
    (∀ a ∈ pre ++ todo, isCall node a) → isCall node r = false →
    s.entry = (todo ++ r :: post).head? →
    Succeeds model node nodes s ∨ Reaches model node nodes s (some r) todo

variable {model node nodes words} {s s' : Search ι ο σ}

theorem Grows.refl (cache : Cache σ) : Grows model node nodes cache cache := fun _ => .inl

theorem Grows.trans {c₁ c₂ c₃ : Cache σ} (h : Grows model node nodes c₁ c₂)
    (h' : Grows model node nodes c₂ c₃) : Grows model node nodes c₁ c₃ := by
  intro x hx
  rcases h' x hx with hx | hx
  · exact h x hx
  · exact .inr hx

theorem Known.grows {b : Bitset} {c c' : Cache σ} (h : Known model node nodes b c)
    (hg : Grows model node nodes c c') : Known model node nodes b c' := by
  intro x hx hlt
  rcases hg x hx with hx | hx
  · exact h x hx hlt
  · exact hx

theorem Fits.goto (h : Fits model node nodes words s) {cache : Cache σ}
    (hg : Grows model node nodes s.cache cache) (entry : Option ℕ) :
    Fits model node nodes words { s with cache := cache, entry := entry } :=
  ⟨h.linked, h.val, h.size, h.known.grows hg⟩

theorem Fits.finished_iff (h : Fits model node nodes words s) :
    s.finished = true ↔ remaining node nodes s.linearized = [] := by
  rw [Search.finished, h.linked.head_next, Option.isNone_iff_eq_none, List.head?_eq_none_iff]

theorem body_call (ht : Typed node nodes) (hv : ∀ a, (s.heap a).val = node a) {a : ℕ}
    (ha : a ∈ nodes) (hcall : isCall node a) (he : s.entry = some a) :
    s.body model = match callStep model node s.state a with
      | none => some (.inl (s.skip a))
      | some t' => (s.linearized.set (node a).id).bind fun b' =>
        if cacheContains model s.cache b' t' then some (.inl (s.skip a))
        else (s.push a b' t').map .inl := by
  obtain ⟨r, hr⟩ := Option.isSome_iff_exists.mp hcall
  obtain ⟨input, output, hin, hout⟩ := ht a ha r hr
  have hstep : stepNode model node s.state a = some (model.step s.state input output) := by
    simp [stepNode, hr, hin, hout]
  simp only [Search.body, he, Option.bind_eq_bind, Option.bind_some, hv, hr, hstep, callStep,
    Option.isSome_some, if_true]
  cases hok : (model.step s.state input output).1
  · simp
  · simp only [if_true]
    congr 1
    funext b'
    cases cacheContains model s.cache b' (model.step s.state input output).2 <;> simp

theorem body_return (hv : ∀ a, (s.heap a).val = node a) {r a : ℕ} {t : σ} {calls : List (ℕ × σ)}
    (hr : isCall node r = false) (he : s.entry = some r) (hcalls : s.calls = (a, t) :: calls) :
    s.body model = (s.pop a t calls).map .inl := by
  have hnone : (node r).matching = none := by simpa [isCall] using hr
  simp [Search.body, he, hv, hnone, hcalls]

theorem body_return_nil (hv : ∀ a, (s.heap a).val = node a) {r : ℕ} (hr : isCall node r = false)
    (he : s.entry = some r) (hcalls : s.calls = []) : s.body model = some (.inr false) := by
  have hnone : (node r).matching = none := by simpa [isCall] using hr
  simp [Search.body, he, hv, hnone, hcalls]

theorem Fits.exists_set (hf : Fits model node nodes words s) (wm : WellMatched node nodes words)
    {a : ℕ} (ha : a ∈ remaining node nodes s.linearized) :
    ∃ b, s.linearized.set (node a).id = some b ∧ b.words.length = words ∧
      b.clear (node a).id = some s.linearized ∧
      (∀ q, b.Has q ↔ q = (node a).id ∨ s.linearized.Has q) ∧
      (remaining node nodes b).length < (remaining node nodes s.linearized).length := by
  obtain ⟨hmem, hn⟩ := mem_remaining.mp ha
  have hfits := wm.fits a hmem
  rw [← hf.size] at hfits
  obtain ⟨b, hset, hlen, hhas, hclear⟩ := Bitset.exists_set hfits hn
  refine ⟨b, hset, hlen.trans hf.size, hclear, hhas, ?_⟩
  rw [remaining_set hhas, List.length_filter_lt_length_iff_exists]
  exact ⟨a, ha, by simp⟩

section Call

variable (hf : Fits model node nodes words s) (ht : Typed node nodes)
  (wm : WellMatched node nodes words) {a : ℕ} (ha : a ∈ remaining node nodes s.linearized)
  (hcall : isCall node a) (he : s.entry = some a)

include hf ht wm ha hcall he

theorem next_skip (hc : Congruent model)
    (h : ∀ b' t', callStep model node s.state a = some t' →
      s.linearized.set (node a).id = some b' → cacheContains model s.cache b' t' = true) :
    Next model s (s.skip a) ∧ Refutes model node nodes s.linearized s.state a := by
  obtain ⟨b, hset, -, -, hhas, hlt⟩ := hf.exists_set wm ha
  constructor
  · constructor
    · rw [← Bool.not_eq_true, hf.finished_iff]
      exact List.ne_nil_of_mem ha
    · rw [body_call ht hf.val (mem_remaining.mp ha).1 hcall he]
      cases hs : callStep model node s.state a with
      | none => rfl
      | some t' => simp [hset, h b t' hs hset]
  · intro b' t' hb' hs hfin
    obtain ⟨u, hu, heq⟩ := holds_of_cacheContains (h b t' hs hset)
    apply hf.known _ hu hlt
    rw [CanFinish, remaining_set hb', ← remaining_set hhas] at hfin
    exact CanFinish.of_equal hc heq hfin

theorem next_push {b' : Bitset} {t' : σ} (hs : callStep model node s.state a = some t')
    (hset : s.linearized.set (node a).id = some b')
    (hnew : cacheContains model s.cache b' t' = false) :
    ∃ s', Next model s s' ∧ Fits model node nodes words s' ∧ s'.linearized = b' ∧ s'.state = t' ∧
      s'.entry = (remaining node nodes b').head? ∧ s'.cache = s.cache.add b' t' ∧
      ∀ r cache, r ∈ remaining node nodes b' → isCall node r = false →
        Next model { s' with cache := cache, entry := some r }
          { s with cache := cache, entry := (s.heap a).next } := by
  obtain ⟨m, hm⟩ := Option.isSome_iff_exists.mp hcall
  obtain ⟨b, hset', hsize, hclear, hhas, hlt⟩ := hf.exists_set wm ha
  obtain rfl : b' = b := Option.some.inj (hset.symm.trans hset')
  obtain ⟨heap', hlift, hlinked, hval, hunlift⟩ :=
    exists_lift (wm.remaining s.linearized) hf.linked hf.val ha hm
  rw [← remaining_set hhas] at hlinked
  let s' : Search ι ο σ :=
    { s with
      cache := s.cache.add b' t', calls := (a, s.state) :: s.calls, state := t', linearized := b',
      heap := heap', entry := (heap' s.headEntry).next }
  have hf' : Fits model node nodes words s' := by
    refine ⟨hlinked, hval, hsize, fun x hx hxlt => ?_⟩
    rcases Cache.holds_add hx with hx | rfl
    · exact hf.known x hx (hxlt.trans hlt)
    · exact absurd hxlt (lt_irrefl _)
  refine ⟨s', ⟨?_, ?_⟩, hf', rfl, rfl, hlinked.head_next, rfl, ?_⟩
  · rw [← Bool.not_eq_true, hf.finished_iff]
    exact List.ne_nil_of_mem ha
  · rw [body_call ht hf.val (mem_remaining.mp ha).1 hcall he]
    simp [hs, hset, hnew, Search.push, hlift, s']
  · intro r cache hr hret
    constructor
    · rw [← Bool.not_eq_true]
      intro hfin
      exact List.ne_nil_of_mem hr (hf'.finished_iff.mp hfin)
    · rw [body_return (s := { s' with cache := cache, entry := some r }) hval hret rfl rfl]
      simp [Search.pop, s', hval, hclear, hunlift]

/-- A call is taken, everything behind it explored, and the call put back. -/
theorem Explores.call {n : ℕ} (ih : Explores model node nodes words n) (hc : Congruent model)
    {pre post : List ℕ} (hlen : (remaining node nodes s.linearized).length ≤ n + 1)
    (hrem : remaining node nodes s.linearized = pre ++ a :: post)
    (hcalls : ∀ c ∈ pre, isCall node c) :
    Succeeds model node nodes s ∨ Reaches model node nodes s post.head? [a] := by
  have hnext : (s.heap a).next = post.head? := by
    have := hf.linked
    rw [hrem, ← List.cons_append] at this
    exact this.next_eq
  by_cases hcached : ∀ b' t', callStep model node s.state a = some t' →
      s.linearized.set (node a).id = some b' → cacheContains model s.cache b' t' = true
  · obtain ⟨hskip, href⟩ := next_skip hf ht wm ha hcall he hc hcached
    rw [Search.skip, hnext] at hskip
    exact .inr ⟨s.cache, .single hskip, .refl _, by simpa using href⟩
  push Not at hcached
  obtain ⟨b', t', hs, hset, hnew⟩ := hcached
  obtain ⟨s', hpush, hf', rfl, rfl, hentry, hcache, hpop⟩ :=
    next_push hf ht wm ha hcall he hs hset (by simpa using hnew)
  obtain ⟨b, hset', -, -, hhas, hlt⟩ := hf.exists_set wm ha
  obtain rfl : s'.linearized = b := Option.some.inj (hset.symm.trans hset')
  by_cases hnil : remaining node nodes s'.linearized = []
  · refine .inl ⟨⟨s', .single hpush, hf'.finished_iff.mpr hnil⟩, ?_⟩
    refine CanFinish.take wm hrem hcalls hcall hs hhas ?_
    rw [CanFinish, hnil]
    exact .nil
  obtain ⟨pre', r, post', hrem', hcalls', hr⟩ := (wm.remaining _).exists_first_return hnil
  rw [hrem'] at hentry
  rcases ih s' [] pre' r post' hf' (by omega) hrem' (by simpa using hcalls') hr hentry with
    ⟨⟨u, hu, hfin⟩, hok⟩ | ⟨cache, hsteps, hgrows, href⟩
  · exact .inl ⟨⟨u, hu.head hpush, hfin⟩, CanFinish.take wm hrem hcalls hcall hs hhas hok⟩
  · have hdead := not_canFinish wm hf'.size hrem' hr href
    have hback := hpop r cache (by simp [hrem']) hr
    rw [hnext] at hback
    refine .inr ⟨cache, (hsteps.head hpush).tail hback, ?_, ?_⟩
    · intro x hx
      rcases hgrows x hx with hx | hx
      · rw [hcache] at hx
        rcases Cache.holds_add hx with hx | rfl
        · exact .inl hx
        · exact .inr hdead
      · exact .inr hx
    · rw [List.forall_mem_singleton]
      intro b t hb hs'
      obtain rfl : t = s'.state := Option.some.inj (hs'.symm.trans hs)
      rw [CanFinish, remaining_set hb, ← remaining_set hhas]
      exact hdead

end Call

/-- The loop explores everything that remains. -/
theorem explores (ht : Typed node nodes) (hc : Congruent model) (wm : WellMatched node nodes words)
    (n : ℕ) : Explores model node nodes words n := by
  induction n with
  | zero =>
    intro s pre todo r post hf hlen hrem
    simp [hrem] at hlen
  | succ n ih =>
    intro s pre todo r post hf hlen hrem hcalls hr he
    induction todo generalizing s pre with
    | nil =>
      refine .inr ⟨s.cache, ?_, .refl _, by simp⟩
      have : s = { s with entry := some r } := by
        rw [← show s.entry = some r from he]
      rw [← this]
    | cons a todo ihtodo =>
      have hcall : isCall node a := hcalls a (by simp)
      have hpre : ∀ c ∈ pre, isCall node c := fun c hc => hcalls c (by simp [hc])
      rcases ih.call hf ht wm (by simp [hrem]) hcall he hc hlen hrem hpre with
        hok | ⟨cache, hsteps, hgrows, href⟩
      · exact .inl hok
      · rcases ihtodo _ (pre ++ [a]) (hf.goto hgrows _) hlen (by simpa using hrem)
          (by simpa using hcalls) rfl with
          ⟨⟨s', hs', hfin⟩, hok⟩ | ⟨cache', hsteps', hgrows', href'⟩
        · exact .inl ⟨⟨s', hsteps.trans hs', hfin⟩, hok⟩
        · refine .inr ⟨cache', hsteps.trans hsteps', hgrows.trans hgrows', ?_⟩
          rw [List.forall_mem_cons]
          exact ⟨href a (by simp), href'⟩

end Exploration

section Ending

/-- The loop goes on for the given number of iterations and then returns the result. -/
def EndsIn (model : FullModel ι ο σ) : ℕ → Search ι ο σ → Bool → Prop
  | 0, s, result => s.tick model false = some (.inr result)
  | n + 1, s, result => ∃ s', s.tick model false = some (.inl s') ∧ EndsIn model n s' result

variable {s s' : Search ι ο σ} {result : Bool} {n : ℕ}

theorem Next.tick (h : Next model s s') : s.tick model false = some (.inl s') := by
  simp [Search.tick, h.1, h.2]

theorem Search.tick_of_finished {kill : Bool} (h : s.finished = true) :
    s.tick model kill = some (.inr true) := by
  rw [Search.tick, if_pos h]

theorem exists_endsIn_of_steps (h : Relation.ReflTransGen (Next model) s s')
    (he : s'.tick model false = some (.inr result)) : ∃ n, EndsIn model n s result := by
  induction h using Relation.ReflTransGen.head_induction_on with
  | refl => exact ⟨0, he⟩
  | head hnext _ ih =>
    obtain ⟨n, hn⟩ := ih
    exact ⟨n + 1, _, hnext.tick, hn⟩

theorem EndsIn.loop (h : EndsIn model n s result) {fuel : ℕ} (hfuel : n < fuel) (i : ℕ) :
    s.loop model (fun _ => false) fuel i = some result := by
  induction n generalizing s fuel i with
  | zero =>
    obtain ⟨fuel, rfl⟩ := Nat.exists_eq_succ_of_ne_zero (Nat.ne_of_gt hfuel)
    rw [Search.loop, show s.tick model false = some (.inr result) from h]
  | succ n ih =>
    obtain ⟨fuel, rfl⟩ := Nat.exists_eq_succ_of_ne_zero (by omega : fuel ≠ 0)
    obtain ⟨s', hs', hend⟩ := h
    rw [Search.loop, hs']
    exact ih hend (by omega) (i + 1)

theorem EndsIn.eq_true (h : EndsIn model n s result) (hf : s.finished = true) : result = true := by
  have ht : s.tick model false = some (.inr true) := Search.tick_of_finished hf
  cases n with
  | zero => exact (Sum.inr.inj (Option.some.inj (ht.symm.trans h))).symm
  | succ n =>
    obtain ⟨s', hs', -⟩ := h
    cases ht.symm.trans hs'

theorem EndsIn.tick {kill : Bool} {x : Search ι ο σ ⊕ Bool} (h : EndsIn model n s result)
    (ht : s.tick model kill = some x) :
    (∃ s' m, x = .inl s' ∧ n = m + 1 ∧ EndsIn model m s' result) ∨
      ∃ r, x = .inr r ∧ (kill = false → r = result) := by
  cases kill with
  | true =>
    refine .inr ?_
    rw [Search.tick] at ht
    split at ht
    · exact ⟨true, (Option.some.inj ht).symm, nofun⟩
    · exact ⟨false, (Option.some.inj ht).symm, nofun⟩
  | false =>
    cases n with
    | zero => exact .inr ⟨result, Option.some.inj (ht.symm.trans h), fun _ => rfl⟩
    | succ m =>
      obtain ⟨s', hs', hend⟩ := h
      exact .inl ⟨s', m, Option.some.inj (ht.symm.trans hs'), rfl, hend⟩

theorem EndsIn.of_loop {kill : ℕ → Bool} {fuel i : ℕ} (h : EndsIn model n s result)
    (hl : s.loop model kill fuel i = some true) : result = true := by
  induction fuel generalizing s n i with
  | zero => cases hl
  | succ fuel ih =>
    rw [Search.loop] at hl
    split at hl
    case h_1 => cases hl
    case h_2 s' ht =>
      rcases h.tick ht with ⟨s₁, m, heq, -, hend⟩ | ⟨r, heq, -⟩
      · obtain rfl := Sum.inl.inj heq
        exact ih hend hl
      · cases heq
    case h_3 r ht =>
      obtain rfl := Option.some.inj hl
      by_cases hf : s.finished = true
      · exact h.eq_true hf
      · rcases h.tick ht with ⟨s₁, m, heq, -, -⟩ | ⟨r, heq, hr⟩
        · cases heq
        · obtain rfl := Sum.inr.inj heq
          cases hk : kill i with
          | false => exact (hr hk).symm
          | true =>
            rw [Search.tick, if_neg hf, hk] at ht
            cases ht

/-- The loop ends, and tells whether the calls can be linearized. -/
theorem exists_endsIn (wm : WellMatched node nodes words) (ht : Typed node nodes)
    (hc : Congruent model) (hf : Fits model node nodes words s) (hcalls : s.calls = [])
    (hentry : s.entry = (remaining node nodes s.linearized).head?) :
    ∃ n result, EndsIn model n s result ∧
      (result = true ↔ CanFinish model node nodes s.linearized s.state) := by
  by_cases hnil : remaining node nodes s.linearized = []
  · refine ⟨0, true, ?_, ?_⟩
    · simp [EndsIn, Search.tick, hf.finished_iff.mpr hnil]
    · simp only [CanFinish, hnil, true_iff]
      exact .nil
  obtain ⟨pre, r, post, hrem, hpre, hr⟩ := (wm.remaining _).exists_first_return hnil
  rw [hrem] at hentry
  rcases explores ht hc wm _ s [] pre r post hf le_rfl hrem (by simpa using hpre) hr hentry with
    ⟨⟨s', hs', hfin⟩, hok⟩ | ⟨cache, hsteps, hgrows, href⟩
  · obtain ⟨n, hn⟩ := exists_endsIn_of_steps hs' (Search.tick_of_finished hfin)
    exact ⟨n, true, hn, by simpa using hok⟩
  · have hf' : Fits model node nodes words { s with cache := cache, entry := some r } :=
      hf.goto hgrows _
    have hend : Search.tick model false { s with cache := cache, entry := some r } =
        some (.inr false) := by
      rw [Search.tick, if_neg (hf'.finished_iff.not.mpr hnil), if_neg Bool.false_ne_true]
      exact body_return_nil hf'.val hr rfl hcalls
    obtain ⟨n, hn⟩ := exists_endsIn_of_steps hsteps hend
    exact ⟨n, false, hn, by simpa using not_canFinish wm hf.size hrem hr href⟩

end Ending

end DistLab.Linearizability
