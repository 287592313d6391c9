import Mathlib.Data.List.Chain
import Mathlib.Logic.Function.Basic

/-! # Doubly linked lists

Cells on a heap with the addresses of both neighbours. A cell that is unlinked keeps its
own two addresses, so that it can be linked in again where it was. As long as cells come
back in the opposite order, the heap is then what it was before.
-/

namespace DistLab

@[ext]
structure LinkedCell (α : Type*) where
  val : α
  prev : Option ℕ
  next : Option ℕ

abbrev Links (α : Type*) := ℕ → LinkedCell α

namespace Links

variable {α : Type*} (h : Links α)

def setNext (a : ℕ) (p : Option ℕ) : Links α := Function.update h a { h a with next := p }

def setPrev (a : ℕ) (p : Option ℕ) : Links α := Function.update h a { h a with prev := p }

/-- Let the neighbours of a cell pass it by. The cell before it must exist. -/
def unlink (a : ℕ) : Option (Links α) :=
  (h a).prev.map fun p =>
    let h := h.setNext p (h a).next
    match (h a).next with
    | none => h
    | some n => h.setPrev n (h a).prev

def relink (a : ℕ) : Option (Links α) :=
  (h a).prev.map fun p =>
    let h := h.setNext p (some a)
    match (h a).next with
    | none => h
    | some n => h.setPrev n (some a)

def insertBefore (n : ℕ) (mark : Option ℕ) : Links α :=
  match mark with
  | none => h
  | some m =>
    let beforeMark := (h m).prev
    let h := (h.setPrev m (some n)).setNext n (some m)
    match beforeMark with
    | none => h
    | some b => (h.setPrev n (some b)).setNext b (some n)

/-- The cells of a list lead to each other in both directions, up to the last one. -/
structure Linked (h : Links α) (l : List ℕ) : Prop where
  adjacent : l.IsChain fun a b => (h a).next = some b ∧ (h b).prev = some a
  nodup : l.Nodup
  last : ∀ a ∈ l.getLast?, (h a).next = none

section Cells

variable {h} {a b : ℕ} {p : Option ℕ}

@[simp] theorem setNext_val : ((h.setNext a p) b).val = (h b).val := by
  by_cases hb : b = a <;> simp [setNext, hb]

@[simp] theorem setNext_prev : ((h.setNext a p) b).prev = (h b).prev := by
  by_cases hb : b = a <;> simp [setNext, hb]

@[simp] theorem setNext_next : ((h.setNext a p) b).next = if b = a then p else (h b).next := by
  by_cases hb : b = a <;> simp [setNext, hb]

@[simp] theorem setPrev_val : ((h.setPrev a p) b).val = (h b).val := by
  by_cases hb : b = a <;> simp [setPrev, hb]

@[simp] theorem setPrev_prev : ((h.setPrev a p) b).prev = if b = a then p else (h b).prev := by
  by_cases hb : b = a <;> simp [setPrev, hb]

@[simp] theorem setPrev_next : ((h.setPrev a p) b).next = (h b).next := by
  by_cases hb : b = a <;> simp [setPrev, hb]

end Cells

variable {h} {a x hd n : ℕ} {pre post l : List ℕ}

structure Passes (h h' : Links α) (x : ℕ) (post : List ℕ) : Prop where
  val : ∀ b, (h' b).val = (h b).val
  next : ∀ b, (h' b).next = if b = x then post.head? else (h b).next
  prev : ∀ b, (h' b).prev = if some b = post.head? then some x else (h b).prev

namespace Linked

theorem next_eq (hl : h.Linked (pre ++ a :: post)) : (h a).next = post.head? := by
  cases post with
  | nil => exact hl.last a (by simp)
  | cons y post => exact (List.isChain_append_cons_cons.mp hl.adjacent).2.1.1

theorem head_next (hl : h.Linked (a :: l)) : (h a).next = l.head? := by
  rw [← List.nil_append (a :: l)] at hl
  exact hl.next_eq

theorem head_prev (hl : h.Linked (pre ++ a :: post)) : ∀ y ∈ post.head?, (h y).prev = some a := by
  cases post with
  | nil => simp
  | cons y post =>
    rintro _ ⟨⟩
    exact (List.isChain_append_cons_cons.mp hl.adjacent).2.1.2

theorem tail (hl : h.Linked (a :: l)) : h.Linked l := by
  refine ⟨hl.adjacent.tail, hl.nodup.of_cons, fun b hb => hl.last b ?_⟩
  cases l with
  | nil => simp at hb
  | cons c l => simpa using hb

theorem congr {h' : Links α} (hl : h.Linked l) (hh : ∀ a ∈ l, h' a = h a) : h'.Linked l := by
  constructor
  · refine hl.adjacent.imp_of_mem_imp fun a b ha hb hab => ?_
    rwa [hh a ha, hh b hb]
  · exact hl.nodup
  · intro a ha
    rw [hh a (List.mem_of_mem_getLast? ha)]
    exact hl.last a ha

theorem exists_unlink (hl : h.Linked (pre ++ x :: a :: post)) :
    ∃ h', h.unlink a = some h' ∧ Passes h h' x post := by
  have hprev : (h a).prev = some x := (List.isChain_append_cons_cons.mp hl.adjacent).2.1.2
  have hnext : (h a).next = post.head? := by
    rw [List.append_cons] at hl
    exact hl.next_eq
  cases post with
  | nil =>
    refine ⟨h.setNext x none, ?_, ?_⟩
    · simp [unlink, hprev, hnext]
    · constructor <;> simp
  | cons y post =>
    refine ⟨(h.setNext x (some y)).setPrev y (some x), ?_, ?_⟩
    · simp [unlink, hprev, hnext]
    · constructor <;> simp

theorem passes {h' : Links α} (hl : h.Linked (pre ++ x :: a :: post)) (hp : Passes h h' x post) :
    h'.Linked (pre ++ x :: post) := by
  obtain ⟨hpre, ⟨hxa, hax⟩, hrest⟩ := List.isChain_append_cons_cons.mp hl.adjacent
  have hnd : (a :: (pre ++ x :: post)).Nodup := by
    have : (pre ++ x :: a :: post).Perm (a :: (pre ++ x :: post)) := by
      rw [List.append_cons, List.append_cons pre x post]
      exact List.perm_middle
    exact this.nodup_iff.mp hl.nodup
  have hnd' := (List.nodup_append.mp hnd.of_cons).2.2
  have hhead : ∀ y ∈ post.head?, (h y).prev = some a := by
    rw [List.append_cons] at hl
    exact hl.head_prev
  constructor
  · rw [List.isChain_split]
    constructor
    · refine hpre.imp_of_mem_imp fun u v hu hv huv => ?_
      have hux : u ≠ x := by
        rintro rfl
        obtain rfl : a = v := Option.some.inj (hxa.symm.trans huv.1)
        refine (List.nodup_cons.mp hnd).1 ?_
        rw [List.append_cons]
        exact List.mem_append_left _ hv
      have hvy : some v ≠ post.head? := by
        intro hvy
        obtain rfl : a = u := Option.some.inj ((hhead v hvy.symm).symm.trans huv.2)
        refine (List.nodup_cons.mp hnd).1 ?_
        rw [List.append_cons]
        exact List.mem_append_left _ hu
      rw [hp.next, hp.prev, if_neg hux, if_neg hvy]
      exact huv
    · rw [List.isChain_cons]
      constructor
      · intro y hy
        rw [hp.next, hp.prev, if_pos rfl, if_pos hy.symm]
        exact ⟨hy, rfl⟩
      · refine hrest.tail.imp_of_mem_imp fun u v hu hv huv => ?_
        have hux : u ≠ x := by
          rintro rfl
          exact (List.nodup_cons.mp (List.nodup_append.mp hnd.of_cons).2.1).1 hu
        have hvy : some v ≠ post.head? := by
          intro hvy
          obtain rfl : a = u := Option.some.inj ((hhead v hvy.symm).symm.trans huv.2)
          exact (List.nodup_cons.mp hnd).1 (by simp [hu])
        rw [hp.next, hp.prev, if_neg hux, if_neg hvy]
        exact huv
  · exact hnd.of_cons
  · intro b hb
    cases hpost : post with
    | nil =>
      subst hpost
      obtain rfl : x = b := by simpa using hb
      rw [hp.next, if_pos rfl, List.head?_nil]
    | cons y ys =>
      have hbl : b ∈ (pre ++ x :: a :: post).getLast? := by
        rw [hpost] at hb ⊢
        simpa using hb
      have hbx : b ≠ x := by
        rintro rfl
        refine (List.nodup_cons.mp (List.nodup_append.mp hnd.of_cons).2.1).1 ?_
        have : b ∈ (y :: ys).getLast? := by
          rw [hpost] at hb
          simpa using hb
        exact hpost ▸ List.mem_of_mem_getLast? this
      rw [hp.next, if_neg hbx]
      exact hl.last b hbl

theorem relink_passes {h' : Links α} (hl : h.Linked (pre ++ x :: a :: post))
    (hp : Passes h h' x post) : h'.relink a = some h := by
  have hnd := hl.nodup
  have hax : a ≠ x := by
    rintro rfl
    simpa using (List.nodup_append.mp hnd).2.1
  have hay : some a ≠ post.head? := by
    intro hy
    have hmem : a ∈ post := List.mem_of_mem_head? hy.symm
    exact (List.nodup_cons.mp (List.nodup_append.mp hnd).2.1.of_cons).1 hmem
  obtain ⟨-, ⟨hxa, hprev⟩, -⟩ := List.isChain_append_cons_cons.mp hl.adjacent
  rw [List.append_cons] at hl
  have hprev' : (h' a).prev = some x := by rw [hp.prev, if_neg hay, hprev]
  have hnext' : (h' a).next = post.head? := by rw [hp.next, if_neg hax, hl.next_eq]
  have hhead := hl.head_prev
  cases post with
  | nil =>
    have heq : h'.setNext x (some a) = h := by
      funext b
      ext1
      · simp [hp.val]
      · simp [hp.prev]
      · by_cases hb : b = x <;> simp [hp.next, hb, hxa]
    simp [relink, hprev', hnext', hax, heq]
  | cons y post =>
    have heq : (h'.setNext x (some a)).setPrev y (some a) = h := by
      funext b
      ext1
      · simp [hp.val]
      · by_cases hb : b = y <;> simp [hp.prev, hb, hhead y rfl]
      · by_cases hb : b = x <;> simp [hp.next, hb, hxa]
    simp [relink, hprev', hnext', hax, heq]

theorem unlink (hl : h.Linked (hd :: (pre ++ a :: post))) :
    ∃ h', h.unlink a = some h' ∧ h'.Linked (hd :: (pre ++ post)) ∧ h'.relink a = some h ∧
      (h' a).next = (h a).next ∧ ∀ b, (h' b).val = (h b).val := by
  obtain ⟨pre', x, hx⟩ : ∃ pre' x, hd :: pre = pre' ++ [x] :=
    ⟨_, _, (List.dropLast_append_getLast (List.cons_ne_nil hd pre)).symm⟩
  have hsplit : ∀ l, hd :: (pre ++ l) = pre' ++ x :: l := by
    intro l
    rw [← List.cons_append, hx, List.append_assoc]
    rfl
  rw [hsplit] at hl ⊢
  obtain ⟨h', hu, hp⟩ := hl.exists_unlink
  have hax : a ≠ x := by
    rintro rfl
    simpa using (List.nodup_append.mp hl.nodup).2.1
  exact ⟨h', hu, hl.passes hp, hl.relink_passes hp, by rw [hp.next, if_neg hax], hp.val⟩

theorem insertBefore (hl : h.Linked l) (hn : n ∉ l) (hp : ∀ m ∈ l.head?, (h m).prev = none)
    (hnext : (h n).next = none) :
    (h.insertBefore n l.head?).Linked (n :: l) ∧
      ((h.insertBefore n l.head?) n).prev = (h n).prev ∧
      ∀ b, ((h.insertBefore n l.head?) b).val = (h b).val := by
  cases l with
  | nil =>
    refine ⟨⟨.singleton n, by simp, ?_⟩, rfl, fun _ => rfl⟩
    simpa [Links.insertBefore] using hnext
  | cons m l =>
    have hm : (h m).prev = none := hp m rfl
    have hnm : n ≠ m := fun he => hn (he ▸ List.mem_cons_self)
    simp only [List.head?_cons, Links.insertBefore, hm]
    refine ⟨⟨?_, List.nodup_cons.mpr ⟨hn, hl.nodup⟩, ?_⟩, by simp [hnm], by simp⟩
    · rw [List.isChain_cons_cons]
      refine ⟨by simp, hl.adjacent.imp_of_mem_imp fun u v hu hv huv => ?_⟩
      have hun : u ≠ n := fun he => hn (he ▸ hu)
      have hvm : v ≠ m := by
        rintro rfl
        exact nomatch hm.symm.trans huv.2
      simpa [hun, hvm] using huv
    · intro b hb
      have hb' : b ∈ (m :: l).getLast? := by simpa using hb
      have hbn : b ≠ n := fun he => hn (he ▸ List.mem_of_mem_getLast? hb')
      simpa [hbn] using hl.last b hb'

end Linked

end Links

end DistLab
