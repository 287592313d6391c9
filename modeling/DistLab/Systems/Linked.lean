import Mathlib.Data.List.Basic
import Mathlib.Data.List.Perm.Subperm
import Mathlib.Logic.Function.Basic

/-! # Singly linked lists

Cells on a heap, each with a value and the address of the next one, behind a head cell whose
value is not used, with a pointer to the last cell. A loop with two pointers looks for the
first cell whose value meets a test; a new cell is linked before it, or it is unlinked.
Every operation is the operation on lists that it stands for.
-/

namespace DistLab

structure ListCell (α : Type*) where
  val : α
  next : Option ℕ

variable {α : Type*}

def Reaches (heap : ℕ → ListCell α) : Option ℕ → List ℕ → Prop
  | p, [] => p = none
  | p, a :: l => p = some a ∧ Reaches heap (heap a).next l

def walk (heap : ℕ → ListCell α) : ℕ → Option ℕ → List ℕ
  | 0, _ => []
  | _ + 1, none => []
  | fuel + 1, some a => a :: walk heap fuel (heap a).next

/-- The loop with two pointers: the cell before the first one that meets the test, and that one. -/
def seek (heap : ℕ → ListCell α) (stop : α → Bool) : ℕ → ℕ → Option ℕ → Option (ℕ × Option ℕ)
  | 0, _, _ => none
  | _ + 1, p, none => some (p, none)
  | fuel + 1, p, some r =>
    if stop (heap r).val then some (p, some r) else seek heap stop fuel r (heap r).next

def setNext (heap : ℕ → ListCell α) (p : ℕ) (r : Option ℕ) : ℕ → ListCell α :=
  Function.update heap p { heap p with next := r }

section Heap

variable {heap heap' : ℕ → ListCell α} {p : Option ℕ} {h new a : ℕ} {pre post nodes : List ℕ}
  {stop : α → Bool} {fuel : ℕ}

theorem Reaches.head (hr : Reaches heap p nodes) : p = nodes.head? := by
  cases nodes with
  | nil => exact hr
  | cons a l => exact hr.1

theorem Reaches.congr (hr : Reaches heap p nodes) (h : ∀ a ∈ nodes, heap' a = heap a) :
    Reaches heap' p nodes := by
  induction nodes generalizing p with
  | nil => exact hr
  | cons a l ih =>
    refine ⟨hr.1, ?_⟩
    rw [h a List.mem_cons_self]
    exact ih hr.2 fun b hb => h b (List.mem_cons_of_mem _ hb)

theorem Reaches.walk (hr : Reaches heap p nodes) (hf : nodes.length ≤ fuel) :
    DistLab.walk heap fuel p = nodes := by
  induction nodes generalizing p fuel with
  | nil =>
    obtain rfl : p = none := hr
    cases fuel <;> rfl
  | cons a l ih =>
    obtain ⟨rfl, hr⟩ := hr
    cases fuel with
    | zero => cases hf
    | succ fuel =>
      rw [DistLab.walk, ih hr (Nat.le_of_succ_le_succ hf)]

theorem Reaches.insert {v : α} (hr : Reaches heap (heap h).next (pre ++ post))
    (hnd : (h :: (pre ++ post)).Nodup) (hnew : new ∉ h :: (pre ++ post))
    (hn : heap' new = ⟨v, post.head?⟩)
    (hp : heap' (pre.getLastD h) = { heap (pre.getLastD h) with next := some new })
    (ho : ∀ a, a ≠ new → a ≠ pre.getLastD h → heap' a = heap a) :
    Reaches heap' (heap' h).next (pre ++ new :: post) := by
  induction pre generalizing h with
  | nil =>
    rw [List.getLastD_nil] at hp ho
    refine ⟨by rw [hp], ?_⟩
    rw [hn, ← List.nil_append post, ← hr.head]
    refine hr.congr fun a ha => ho a ?_ ?_
    · rintro rfl
      exact hnew (List.mem_cons_of_mem _ ha)
    · rintro rfl
      exact (List.nodup_cons.mp hnd).1 ha
  | cons a pre ih =>
    rw [List.getLastD_cons] at hp ho
    obtain ⟨hh, hnd⟩ := List.nodup_cons.mp hnd
    have hne : h ≠ pre.getLastD a := by
      intro he
      refine hh (he ▸ List.mem_append_left post ?_)
      exact List.getLastD_mem_cons
    have hkeep : heap' h = heap h := ho h (fun he => hnew (he ▸ List.mem_cons_self)) hne
    refine ⟨by rw [hkeep]; exact hr.1, ?_⟩
    exact ih hr.2 hnd (fun hm => hnew (List.mem_cons_of_mem _ hm)) hp ho

theorem Reaches.unlink (hr : Reaches heap (heap h).next (pre ++ a :: post))
    (hnd : (h :: (pre ++ a :: post)).Nodup)
    (hp : (heap' (pre.getLastD h)).next = (heap a).next)
    (ho : ∀ b, b ≠ pre.getLastD h → heap' b = heap b) :
    Reaches heap' (heap' h).next (pre ++ post) := by
  induction pre generalizing h with
  | nil =>
    rw [List.getLastD_nil] at hp ho
    rw [hp]
    refine Reaches.congr hr.2 fun b hb => ho b ?_
    rintro rfl
    exact (List.nodup_cons.mp hnd).1 (List.mem_cons_of_mem _ hb)
  | cons b pre ih =>
    rw [List.getLastD_cons] at hp ho
    obtain ⟨hh, hnd⟩ := List.nodup_cons.mp hnd
    have hne : h ≠ pre.getLastD b := by
      intro he
      refine hh (he ▸ List.mem_append_left (a :: post) ?_)
      exact List.getLastD_mem_cons
    refine ⟨by rw [ho h hne]; exact hr.1, ?_⟩
    exact ih hr.2 hnd hp ho

/-- The loop stops between the cells that do not meet the test and the first one that does. -/
theorem seek_spec (hr : Reaches heap (heap h).next nodes) (hf : nodes.length < fuel) :
    ∃ pre post, nodes = pre ++ post ∧
      seek heap stop fuel h (heap h).next = some (pre.getLastD h, post.head?) ∧
      (∀ a ∈ pre, stop (heap a).val = false) ∧ ∀ a ∈ post.head?, stop (heap a).val = true := by
  induction nodes generalizing h fuel with
  | nil =>
    obtain ⟨fuel, rfl⟩ := Nat.exists_eq_succ_of_ne_zero (Nat.ne_of_gt hf)
    have hnil : (heap h).next = none := hr
    exact ⟨[], [], rfl, by rw [hnil]; rfl, by simp, by simp⟩
  | cons a l ih =>
    obtain ⟨fuel, rfl⟩ := Nat.exists_eq_succ_of_ne_zero (Nat.ne_of_gt (Nat.zero_lt_of_lt hf))
    rw [hr.1, seek]
    split_ifs with hs
    · exact ⟨[], a :: l, rfl, rfl, by simp, by simpa using hs⟩
    · obtain ⟨pre, post, rfl, hseek, hpre, hpost⟩ := ih hr.2 (Nat.lt_of_succ_lt_succ hf)
      refine ⟨a :: pre, post, rfl, ?_, ?_, hpost⟩
      · rw [hseek, List.getLastD_cons]
      · simpa [Bool.eq_false_iff.mpr hs] using hpre

theorem getLastD_append (pre post : List ℕ) (h : ℕ) :
    (pre ++ post).getLastD h = post.getLastD (pre.getLastD h) := by
  induction pre generalizing h with
  | nil => rfl
  | cons a pre ih => rw [List.cons_append, List.getLastD_cons, List.getLastD_cons, ih]

theorem last_mem_cons_append (h : ℕ) (pre post : List ℕ) :
    pre.getLastD h ∈ h :: (pre ++ post) :=
  List.cons_subset_cons h (List.subset_append_left pre post) List.getLastD_mem_cons

theorem last_ne_last (hnd : (h :: (pre ++ a :: post)).Nodup) :
    pre.getLastD h ≠ (a :: post).getLastD (pre.getLastD h) := by
  rw [List.getLastD_cons]
  intro he
  refine (List.nodup_append.mp (List.cons_append ▸ hnd)).2.2 _ List.getLastD_mem_cons _ ?_ he
  exact List.getLastD_mem_cons

end Heap

/-- A list of linked cells; the cells from the address `fresh` on have not been used. -/
structure LinkedList (α : Type*) where
  heap : ℕ → ListCell α
  head : ℕ
  tail : ℕ
  fresh : ℕ

namespace LinkedList

def create (mem : ℕ → ListCell α) : LinkedList α where
  heap := setNext mem 0 none
  head := 0
  tail := 0
  fresh := 1

def first (l : LinkedList α) : Option ℕ := (l.heap l.head).next

def front (l : LinkedList α) : Option α := l.first.map fun r => (l.heap r).val

def seek (l : LinkedList α) (stop : α → Bool) : Option (ℕ × Option ℕ) :=
  DistLab.seek l.heap stop l.fresh l.head l.first

/-- Link a new cell between the cells `p` and `r`. -/
def link (l : LinkedList α) (v : α) (p : ℕ) (r : Option ℕ) : LinkedList α :=
  { l with
    heap := setNext (setNext (Function.update l.heap l.fresh ⟨v, none⟩) p (some l.fresh)) l.fresh r
    tail := if p = l.tail then l.fresh else l.tail
    fresh := l.fresh + 1 }

def unlink (l : LinkedList α) (p r : ℕ) : LinkedList α :=
  { l with
    heap := setNext l.heap p (l.heap r).next
    tail := if r = l.tail then p else l.tail }

def nodes (l : LinkedList α) : List ℕ := walk l.heap l.fresh l.first

def toList (l : LinkedList α) : List α := l.nodes.map fun a => (l.heap a).val

structure Holds (l : LinkedList α) (nodes : List ℕ) : Prop where
  reaches : Reaches l.heap l.first nodes
  nodup : (l.head :: nodes).Nodup
  used : ∀ a ∈ l.head :: nodes, a < l.fresh
  tail : l.tail = nodes.getLastD l.head

variable {l : LinkedList α} {v : α} {pre post nodes : List ℕ} {a : ℕ} {stop : α → Bool}
  {xs : List α} {x : α}

theorem holds_create (mem : ℕ → ListCell α) : (create mem).Holds [] where
  reaches := by simp [Reaches, create, first, setNext]
  nodup := List.pairwise_singleton _ _
  used := by simp [create]
  tail := rfl

theorem Holds.length_lt (h : l.Holds nodes) : nodes.length < l.fresh := by
  have hsub : l.head :: nodes ⊆ List.range l.fresh := fun a ha => List.mem_range.mpr (h.used a ha)
  have hle := (List.subperm_of_subset h.nodup hsub).length_le
  rwa [List.length_range] at hle

theorem Holds.nodes_eq (h : l.Holds nodes) : l.nodes = nodes :=
  h.reaches.walk (Nat.le_of_lt h.length_lt)

theorem link_heap_fresh {p : ℕ} {r : Option ℕ} (hp : p ≠ l.fresh) :
    (l.link v p r).heap l.fresh = ⟨v, r⟩ := by
  simp [link, setNext, Function.update_of_ne hp.symm]

theorem link_heap_self {p : ℕ} {r : Option ℕ} (hp : p ≠ l.fresh) :
    (l.link v p r).heap p = { l.heap p with next := some l.fresh } := by
  simp [link, setNext, Function.update_of_ne hp]

theorem link_heap_of_ne {p : ℕ} {r : Option ℕ} (ha : a ≠ l.fresh) (hp : a ≠ p) :
    (l.link v p r).heap a = l.heap a := by
  simp [link, setNext, Function.update_of_ne ha, Function.update_of_ne hp]

theorem link_val {p : ℕ} {r : Option ℕ} (hp : p ≠ l.fresh) (ha : a ≠ l.fresh) :
    ((l.link v p r).heap a).val = (l.heap a).val := by
  by_cases hap : a = p
  · rw [hap, link_heap_self hp]
  · rw [link_heap_of_ne ha hap]

theorem unlink_val (p r : ℕ) : ((l.unlink p r).heap a).val = (l.heap a).val := by
  by_cases hap : a = p
  · simp [unlink, setNext, hap]
  · simp [unlink, setNext, Function.update_of_ne hap]

theorem Holds.link (h : l.Holds (pre ++ post)) :
    (l.link v (pre.getLastD l.head) post.head?).Holds (pre ++ l.fresh :: post) := by
  have hne : pre.getLastD l.head ≠ l.fresh := Nat.ne_of_lt (h.used _ (last_mem_cons_append ..))
  have hnew : l.fresh ∉ l.head :: (pre ++ post) := fun hm => Nat.lt_irrefl _ (h.used _ hm)
  have hperm : (l.head :: (pre ++ l.fresh :: post)).Perm (l.fresh :: l.head :: (pre ++ post)) :=
    (List.perm_middle.cons l.head).trans (List.Perm.swap _ _ _)
  constructor
  · exact h.reaches.insert h.nodup hnew (link_heap_fresh hne) (link_heap_self hne)
      fun b hb hb' => link_heap_of_ne hb hb'
  · exact hperm.nodup_iff.mpr (List.nodup_cons.mpr ⟨hnew, h.nodup⟩)
  · intro b hb
    rcases List.mem_cons.mp (hperm.mem_iff.mp hb) with rfl | hb
    · exact Nat.lt_succ_self _
    · exact Nat.lt_succ_of_lt (h.used b hb)
  · show (if _ = l.tail then l.fresh else l.tail) = (pre ++ l.fresh :: post).getLastD l.head
    rw [h.tail, getLastD_append, getLastD_append, List.getLastD_cons]
    cases post with
    | nil => exact if_pos rfl
    | cons b post => exact if_neg (last_ne_last h.nodup)

theorem Holds.unlink (h : l.Holds (pre ++ a :: post)) :
    (l.unlink (pre.getLastD l.head) a).Holds (pre ++ post) := by
  have hsub : (l.head :: (pre ++ post)).Sublist (l.head :: (pre ++ a :: post)) :=
    ((List.sublist_cons_self a post).append_left pre).cons_cons l.head
  constructor
  · refine h.reaches.unlink h.nodup ?_ ?_
    · simp only [LinkedList.unlink, setNext, Function.update_self]
    · intro b hb
      exact Function.update_of_ne hb _ _
  · exact h.nodup.sublist hsub
  · exact fun b hb => h.used b (hsub.subset hb)
  · show (if a = l.tail then _ else l.tail) = (pre ++ post).getLastD l.head
    rw [h.tail, getLastD_append, getLastD_append, List.getLastD_cons]
    cases post with
    | nil => exact if_pos rfl
    | cons b post =>
      have hnd : (a :: ([] ++ b :: post)).Nodup :=
        h.nodup.sublist ((List.sublist_append_right pre _).cons l.head)
      exact if_neg (last_ne_last hnd)

def Represents (l : LinkedList α) (xs : List α) : Prop :=
  ∃ nodes, l.Holds nodes ∧ nodes.map (fun a => (l.heap a).val) = xs

theorem represents_create (mem : ℕ → ListCell α) : (create mem).Represents [] :=
  ⟨[], holds_create mem, rfl⟩

theorem Represents.holds (h : l.Represents xs) : l.Holds l.nodes := by
  obtain ⟨nodes, hn, -⟩ := h
  rwa [hn.nodes_eq]

theorem Represents.toList_eq (h : l.Represents xs) : l.toList = xs := by
  obtain ⟨nodes, hn, hx⟩ := h
  rw [toList, hn.nodes_eq, hx]

theorem Represents.front_eq (h : l.Represents xs) : l.front = xs.head? := by
  obtain ⟨nodes, hn, rfl⟩ := h
  rw [front, hn.reaches.head, List.head?_map]

theorem Represents.head_eq_tail_iff (h : l.Represents xs) : l.head = l.tail ↔ xs = [] := by
  obtain ⟨nodes, hn, rfl⟩ := h
  rw [hn.tail, List.map_eq_nil_iff]
  cases nodes with
  | nil => simp
  | cons a nodes =>
    have hnd : (l.head :: ([] ++ a :: nodes)).Nodup := hn.nodup
    simpa using last_ne_last hnd

theorem Represents.seek (h : l.Represents xs) (stop : α → Bool) :
    ∃ pre post, l.Holds (pre ++ post) ∧ l.seek stop = some (pre.getLastD l.head, post.head?) ∧
      (pre ++ post).map (fun a => (l.heap a).val) = xs ∧
      (∀ a ∈ pre, stop (l.heap a).val = false) ∧ ∀ a ∈ post.head?, stop (l.heap a).val = true := by
  obtain ⟨nodes, hn, hx⟩ := h
  obtain ⟨pre, post, rfl, hseek, hpre, hpost⟩ := seek_spec hn.reaches hn.length_lt
  exact ⟨pre, post, hn, hseek, hx, hpre, hpost⟩

theorem Represents.insert (h : l.Represents xs) (stop : α → Bool) (v : α) :
    ∃ p r ys zs, l.seek stop = some (p, r) ∧ xs = ys ++ zs ∧ (∀ x ∈ ys, stop x = false) ∧
      (∀ x ∈ zs.head?, stop x = true) ∧ (l.link v p r).Represents (ys ++ v :: zs) := by
  obtain ⟨pre, post, hn, hseek, rfl, hpre, hpost⟩ := h.seek stop
  have hne : pre.getLastD l.head ≠ l.fresh := Nat.ne_of_lt (hn.used _ (last_mem_cons_append ..))
  have hval : ∀ b ∈ pre ++ post,
      ((l.link v (pre.getLastD l.head) post.head?).heap b).val = (l.heap b).val := fun b hb =>
    link_val hne (Nat.ne_of_lt (hn.used b (List.mem_cons_of_mem _ hb)))
  refine ⟨_, _, _, _, hseek, List.map_append, ?_, ?_, _, hn.link, ?_⟩
  · simpa using hpre
  · simpa using hpost
  · rw [List.map_append, List.map_cons, link_heap_fresh hne,
      List.map_congr_left fun b hb => hval b (List.mem_append_left _ hb),
      List.map_congr_left fun b hb => hval b (List.mem_append_right _ hb)]

theorem Represents.remove (h : l.Represents xs) (stop : α → Bool) :
    (∃ p, l.seek stop = some (p, none) ∧ ∀ x ∈ xs, stop x = false) ∨
      ∃ p r ys x zs, l.seek stop = some (p, some r) ∧ xs = ys ++ x :: zs ∧
        (∀ y ∈ ys, stop y = false) ∧ stop x = true ∧ (l.first = some r ↔ ys = []) ∧
        (l.unlink p r).Represents (ys ++ zs) := by
  obtain ⟨pre, post, hn, hseek, rfl, hpre, hpost⟩ := h.seek stop
  cases post with
  | nil => exact Or.inl ⟨_, hseek, by simpa using hpre⟩
  | cons r post =>
    refine Or.inr ⟨_, r, _, _, _, hseek, List.map_append, ?_, hpost r rfl, ?_, _, hn.unlink, ?_⟩
    · simpa using hpre
    · rw [hn.reaches.head, List.map_eq_nil_iff]
      cases pre with
      | nil => simp
      | cons a pre =>
        have hne : a ≠ r := fun he =>
          (List.nodup_cons.mp (List.nodup_cons.mp hn.nodup).2).1 (by simp [he])
        simpa using hne
    · simp only [List.map_append, unlink_val]

theorem Represents.pop (h : l.Represents (x :: xs)) :
    ∃ r, l.first = some r ∧ (l.heap r).val = x ∧ (l.unlink l.head r).Represents xs := by
  obtain ⟨nodes, hn, hx⟩ := h
  cases nodes with
  | nil => cases hx
  | cons r nodes =>
    obtain ⟨rfl, rfl⟩ := List.cons.inj hx
    have hcut : l.Holds ([] ++ r :: nodes) := hn
    refine ⟨r, hn.reaches.1, rfl, nodes, hcut.unlink, ?_⟩
    simp only [unlink_val]

end LinkedList

end DistLab
