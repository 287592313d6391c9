import Mathlib.Data.List.TakeWhile
import DistLab.Linearizability.Checker
import DistLab.Systems.Linearization

/-! # What remains to be linearized

The nodes of a history in the order of the list, which is the descending order of their
addresses. Each call has a return behind it with the same id, and no other call has that
id. The nodes whose id is not in a bit set are again such a list. Lifting a call leaves
the nodes with the other ids, and unlifting it restores the heap.
-/

namespace DistLab.Linearizability

variable {ι ο σ : Type}

structure WellMatched (node : ℕ → Node ι ο) (nodes : List ℕ) (words : ℕ) : Prop where
  desc : nodes.Pairwise (· > ·)
  later : ∀ a ∈ nodes, ∀ r ∈ (node a).matching, r ∈ nodes ∧ r < a ∧ (node r).matching = none
  sameId : ∀ a ∈ nodes, ∀ r ∈ (node a).matching, (node r).id = (node a).id
  returns : ∀ r ∈ nodes, (node r).matching = none → ∃ a ∈ nodes, (node a).matching = some r
  distinct : ∀ a ∈ nodes, ∀ b ∈ nodes, (node a).matching.isSome → (node b).matching.isSome →
    (node a).id = (node b).id → a = b
  fits : ∀ a ∈ nodes, (node a).id / 64 < words

def isCall (node : ℕ → Node ι ο) (a : ℕ) : Bool := (node a).matching.isSome

/-- The return of the first call comes before the second call. -/
def Precedes (node : ℕ → Node ι ο) (a b : ℕ) : Prop := ∃ r ∈ (node a).matching, b < r

def remaining (node : ℕ → Node ι ο) (nodes : List ℕ) (b : Bitset) : List ℕ :=
  nodes.filter fun a => ¬ b.Has (node a).id

section Nodes

variable {node : ℕ → Node ι ο} {nodes pre post : List ℕ} {words a r : ℕ} {b b' : Bitset}

theorem mem_remaining : a ∈ remaining node nodes b ↔ a ∈ nodes ∧ ¬ b.Has (node a).id := by
  simp [remaining]

theorem remaining_newBitset (n : ℕ) : remaining node nodes (.newBitset n) = nodes := by
  simp [remaining, Bitset.not_has_newBitset]

theorem remaining_set {i : ℕ} (h : ∀ q, b'.Has q ↔ q = i ∨ b.Has q) :
    remaining node nodes b' = (remaining node nodes b).filter fun a => (node a).id ≠ i := by
  simp [remaining, List.filter_filter, h]

namespace WellMatched

theorem remaining (wm : WellMatched node nodes words) (b : Bitset) :
    WellMatched node (remaining node nodes b) words := by
  constructor
  · exact wm.desc.filter _
  · intro a ha r hr
    rw [mem_remaining] at ha
    have hlater := wm.later a ha.1 r hr
    rw [mem_remaining, wm.sameId a ha.1 r hr]
    exact ⟨⟨hlater.1, ha.2⟩, hlater.2⟩
  · exact fun a ha => wm.sameId a (mem_remaining.mp ha).1
  · intro r hr hnone
    rw [mem_remaining] at hr
    obtain ⟨a, ha, har⟩ := wm.returns r hr.1 hnone
    rw [wm.sameId a ha r har] at hr
    exact ⟨a, mem_remaining.mpr ⟨ha, hr.2⟩, har⟩
  · exact fun a ha c hc => wm.distinct a (mem_remaining.mp ha).1 c (mem_remaining.mp hc).1
  · exact fun a ha => wm.fits a (mem_remaining.mp ha).1

theorem id_eq_iff (wm : WellMatched node nodes words) (ha : a ∈ nodes)
    (hr : (node a).matching = some r) {c : ℕ} (hc : c ∈ nodes) :
    (node c).id = (node a).id ↔ c = a ∨ c = r := by
  constructor
  · intro hid
    cases hm : (node c).matching with
    | some _ => exact .inl (wm.distinct c hc a ha (by simp [hm]) (by simp [hr]) hid)
    | none =>
      obtain ⟨d, hd, hdc⟩ := wm.returns c hc hm
      have hda : d = a := by
        apply wm.distinct d hd a ha (by simp [hdc]) (by simp [hr])
        rw [← hid, wm.sameId d hd c hdc]
      subst hda
      exact .inr (Option.some.inj (hdc.symm.trans hr))
  · rintro (rfl | rfl)
    · rfl
    · exact wm.sameId a ha c hr

theorem exists_split (wm : WellMatched node nodes words) (ha : a ∈ nodes)
    (hr : (node a).matching = some r) :
    ∃ pre mid post, nodes = pre ++ a :: (mid ++ r :: post) ∧
      nodes.filter (fun c => (node c).id ≠ (node a).id) = pre ++ (mid ++ post) := by
  obtain ⟨hrmem, hlt, -⟩ := wm.later a ha r hr
  obtain ⟨pre, rest, rfl⟩ := List.append_of_mem ha
  have hdesc := List.pairwise_append.mp wm.desc
  have hrest : r ∈ rest := by
    rcases List.mem_append.mp hrmem with hpre | hrest
    · have := hdesc.2.2 r hpre a List.mem_cons_self
      omega
    · exact (List.mem_cons.mp hrest).resolve_left (by omega)
  obtain ⟨mid, post, rfl⟩ := List.append_of_mem hrest
  have hnd : (pre ++ a :: (mid ++ r :: post)).Nodup := wm.desc.imp (fun h => ne_of_gt h)
  have hne : ∀ l : List ℕ, (∀ c ∈ l, c ∈ pre ++ a :: (mid ++ r :: post) ∧ c ≠ a ∧ c ≠ r) →
      l.filter (fun c => (node c).id ≠ (node a).id) = l := by
    intro l hl
    rw [List.filter_eq_self]
    intro c hc
    obtain ⟨hmem, hca, hcr⟩ := hl c hc
    simp [wm.id_eq_iff ha hr hmem, hca, hcr]
  have hid : (node r).id = (node a).id := wm.sameId a ha r hr
  refine ⟨pre, mid, post, rfl, ?_⟩
  rw [List.nodup_append, List.nodup_cons, List.nodup_append, List.nodup_cons] at hnd
  rw [List.filter_append, List.filter_cons_of_neg (by simp), List.filter_append,
    List.filter_cons_of_neg (by simp [hid])]
  congr 1
  · refine hne pre fun c hc => ⟨by simp [hc], ?_, ?_⟩
    · exact hnd.2.2 c hc a (by simp)
    · exact hnd.2.2 c hc r (by simp)
  congr 1
  · refine hne mid fun c hc => ⟨by simp [hc], ?_, ?_⟩
    · rintro rfl
      exact hnd.2.1.1 (by simp [hc])
    · exact hnd.2.1.2.2.2 c hc r (by simp)
  · refine hne post fun c hc => ⟨by simp [hc], ?_, ?_⟩
    · rintro rfl
      exact hnd.2.1.1 (by simp [hc])
    · rintro rfl
      exact hnd.2.1.2.2.1.1 hc

theorem calls_perm (wm : WellMatched node nodes words) (ha : a ∈ nodes)
    (hr : (node a).matching = some r) :
    (nodes.filter (isCall node)).Perm
      (a :: (nodes.filter fun c => (node c).id ≠ (node a).id).filter (isCall node)) := by
  have hnone : (node r).matching = none := (wm.later a ha r hr).2.2
  obtain ⟨pre, mid, post, hnodes, hfilter⟩ := wm.exists_split ha hr
  rw [hfilter, hnodes]
  simp only [List.filter_append]
  rw [List.filter_cons_of_pos (by simp [isCall, hr]), List.filter_append,
    List.filter_cons_of_neg (by simp [isCall, hnone])]
  exact List.perm_middle

theorem not_precedes (wm : WellMatched node (pre ++ a :: post) words)
    (hpre : ∀ c ∈ pre, isCall node c) {c : ℕ} (hc : c ∈ pre ++ a :: post) :
    ¬ Precedes node c a := by
  rintro ⟨r, hr, hlt⟩
  obtain ⟨hmem, -, hnone⟩ := wm.later c hc r hr
  have hdesc := (List.pairwise_append.mp wm.desc).2.1
  rcases List.mem_append.mp hmem with hpre' | hpost
  · have := hpre r hpre'
    simp [isCall, hnone] at this
  · rcases List.mem_cons.mp hpost with rfl | hpost
    · exact lt_irrefl r hlt
    · have := (List.pairwise_cons.mp hdesc).1 r hpost
      omega

theorem mem_of_not_precedes (wm : WellMatched node (pre ++ r :: post) words)
    (hr : isCall node r = false) (ha : a ∈ pre ++ r :: post) (hcall : isCall node a)
    (h : ∀ c ∈ pre ++ r :: post, c ≠ a → isCall node c → ¬ Precedes node c a) : a ∈ pre := by
  rcases List.mem_append.mp ha with hpre | hpost
  · exact hpre
  exfalso
  rcases List.mem_cons.mp hpost with rfl | hpost
  · simp [hr] at hcall
  have hra : a < r := (List.pairwise_cons.mp (List.pairwise_append.mp wm.desc).2.1).1 a hpost
  obtain ⟨c, hc, hcr⟩ := wm.returns r (by simp) (by simpa [isCall] using hr)
  have hrc : r < c := (wm.later c hc r hcr).2.1
  exact h c hc (by omega) (by simp [isCall, hcr]) ⟨r, hcr, hra⟩

theorem exists_first_return (wm : WellMatched node nodes words) (hne : nodes ≠ []) :
    ∃ pre r post, nodes = pre ++ r :: post ∧ (∀ c ∈ pre, isCall node c) ∧
      isCall node r = false := by
  obtain ⟨a, ha⟩ := List.exists_mem_of_ne_nil nodes hne
  have hret : ∃ r ∈ nodes, ¬ isCall node r := by
    cases hm : (node a).matching with
    | none => exact ⟨a, ha, by simp [isCall, hm]⟩
    | some r =>
      obtain ⟨hr, -, hnone⟩ := wm.later a ha r hm
      exact ⟨r, hr, by simp [isCall, hnone]⟩
  have hsplit := List.takeWhile_append_dropWhile (p := isCall node) (l := nodes)
  cases hdrop : nodes.dropWhile (isCall node) with
  | nil =>
    obtain ⟨r, hr, hn⟩ := hret
    exact absurd (List.dropWhile_eq_nil_iff.mp hdrop r hr) hn
  | cons r post =>
    rw [hdrop] at hsplit
    refine ⟨_, r, post, hsplit.symm, fun c hc => List.mem_takeWhile_imp hc, ?_⟩
    have := List.head_dropWhile_not (isCall node) (l := nodes) (by simp [hdrop])
    simpa [hdrop] using this

end WellMatched

end Nodes

section Lifting

variable {node : ℕ → Node ι ο} {nodes : List ℕ} {words a r hd : ℕ} {heap : Links (Node ι ο)}

/-- Lifting a call leaves the other ids; unlifting it then restores the heap. -/
theorem exists_lift (wm : WellMatched node nodes words) (hl : heap.Linked (hd :: nodes))
    (hval : ∀ c, (heap c).val = node c) (ha : a ∈ nodes) (hr : (node a).matching = some r) :
    ∃ heap', lift heap a = some heap' ∧
      heap'.Linked (hd :: nodes.filter fun c => (node c).id ≠ (node a).id) ∧
      (∀ c, (heap' c).val = node c) ∧ unlift heap' a = some heap := by
  obtain ⟨pre, mid, post, rfl, hfilter⟩ := wm.exists_split ha hr
  have hnext : ∃ n, (heap a).next = some n := by
    rw [← List.cons_append] at hl
    rw [hl.next_eq]
    cases mid <;> simp
  obtain ⟨n, hn⟩ := hnext
  obtain ⟨h₁, hun₁, hl₁, hre₁, hnext₁, hval₁⟩ := hl.unlink
  rw [← List.append_assoc] at hl₁
  obtain ⟨h₂, hun₂, hl₂, hre₂, -, hval₂⟩ := hl₁.unlink
  refine ⟨h₂, ?_, ?_, ?_, ?_⟩
  · simp [lift, hn, hun₁, hval₁, hval, hr, hun₂]
  · rw [hfilter, ← List.append_assoc]
    exact hl₂
  · exact fun c => (hval₂ c).trans ((hval₁ c).trans (hval c))
  · simp [unlift, hval₂, hval₁, hval, hr, hre₂, hnext₁, hn, hre₁]

end Lifting

end DistLab.Linearizability
