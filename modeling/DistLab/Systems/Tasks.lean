import DistLab.Systems.Files
import Mathlib.Data.Set.Insert
import Mathlib.Tactic.Tauto

/-! # Tasks that own files

Each of a number of tasks owns files, disjoint from those of the others, and reads only
files that nobody owns. A call of a task may be given up at any time and the task be
started again. Once every task has ended, the files are those of a run in any order.
-/

namespace DistLab

/-- The files at the start, those that each task owns, whether a task can end and what it
leaves in its files when it does. -/
structure Tasks (ν β : Type) where
  start : Files ν β
  count : ℕ
  owns : ℕ → Set ν
  ok : ℕ → Prop
  out : ℕ → Files ν β
  lt_count : ∀ {t n}, n ∈ owns t → t < count
  disjoint : ∀ {t t' n}, n ∈ owns t → n ∈ owns t' → t = t'

namespace Tasks

variable {ν β : Type} (T : Tasks ν β)

def shared : Set ν := {n | ∀ t, n ∉ T.owns t}

/-- What is left of a call of the task: it reads shared files and writes its own. -/
structure Leads [DecidableEq ν] (t : ℕ) (p : Prog ν β Unit) (fs : Files ν β) : Prop where
  reads : p.ReadsIn T.start T.shared
  writes : ∀ w ∈ (p.plan T.start).2, w.name ∈ T.owns t
  ends : (p.plan T.start).1 = some () ↔ T.ok t
  out : T.ok t → ∀ n ∈ T.owns t, Write.applyAll (p.plan T.start).2 fs n = T.out t n

/-- The files when a set of tasks has ended and the others may have been started. -/
structure Holds (D : Set ℕ) (fs : Files ν β) : Prop where
  shared : ∀ n ∈ T.shared, fs n = T.start n
  ok : ∀ t ∈ D, T.ok t
  out : ∀ t ∈ D, ∀ n ∈ T.owns t, fs n = T.out t n

variable {T} {t : ℕ} {p p' : Prog ν β Unit} {fs fs' : Files ν β} {D : Set ℕ}

theorem Holds.start : T.Holds ∅ T.start where
  shared _ _ := rfl
  ok _ h := h.elim
  out _ h := h.elim

theorem Holds.insert (h : T.Holds D fs) (ht : T.ok t) (hs : ∀ n ∉ T.owns t, fs' n = fs n)
    (hout : ∀ n ∈ T.owns t, fs' n = T.out t n) : T.Holds (Insert.insert t D) fs' where
  shared n hn := (hs n (hn t)).trans (h.shared n hn)
  ok := by
    rintro u (rfl | hu)
    · exact ht
    · exact h.ok u hu
  out := by
    rintro u (rfl | hu) n hn
    · exact hout n hn
    · by_cases hnt : n ∈ T.owns t
      · exact T.disjoint hn hnt ▸ hout n hnt
      · exact (hs n hnt).trans (h.out u hu n hn)

theorem Holds.work (h : T.Holds D fs) (ht : t ∉ D) (hs : ∀ n ∉ T.owns t, fs' n = fs n) :
    T.Holds D fs' where
  shared n hn := (hs n (hn t)).trans (h.shared n hn)
  ok := h.ok
  out u hu n hn := (hs n fun hnt => ht (T.disjoint hn hnt ▸ hu)).trans (h.out u hu n hn)

/-- The files are determined when all tasks have ended. -/
theorem Holds.eq (h : T.Holds {t | t < T.count} fs) (h' : T.Holds {t | t < T.count} fs') :
    fs = fs' := by
  funext n
  by_cases hn : n ∈ T.shared
  · rw [h.shared n hn, h'.shared n hn]
  · obtain ⟨t, ht⟩ : ∃ t, n ∈ T.owns t := by simpa [Tasks.shared] using hn
    rw [h.out t (T.lt_count ht) n ht, h'.out t (T.lt_count ht) n ht]

section Calls

variable [DecidableEq ν]

theorem Leads.of_fail (hr : p.ReadsIn T.start T.shared) (hok : ¬ T.ok t)
    (hp : p.plan T.start = (none, [])) : T.Leads t p fs where
  reads := hr
  writes := by simp [hp]
  ends := by simp [hp, hok]
  out h := absurd h hok

theorem Leads.of_writes {ws : List (Write ν β)} (hr : p.ReadsIn T.start T.shared) (hok : T.ok t)
    (hp : p.plan T.start = (some (), ws)) (hw : ∀ w ∈ ws, w.name ∈ T.owns t)
    (hout : ∀ n ∈ T.owns t, Write.applyAll ws fs n = T.out t n) : T.Leads t p fs where
  reads := hr
  writes := by simpa [hp] using hw
  ends := by simp [hp, hok]
  out _ := by simpa [hp] using hout

theorem Leads.congr (h : T.Leads t p fs) (hfs : ∀ n ∈ T.owns t, fs' n = fs n) :
    T.Leads t p fs' where
  reads := h.reads
  writes := h.writes
  ends := h.ends
  out ht n hn := (Write.applyAll_congr (hfs n hn)).trans (h.out ht n hn)

theorem Leads.step (h : T.Leads t p fs) (hs : ∀ n ∈ T.shared, fs n = T.start n)
    (hp : p.step fs = some (p', fs')) :
    T.Leads t p' fs' ∧ ∀ n ∉ T.owns t, fs' n = fs n := by
  obtain ⟨hr, hends, ⟨rfl, hws⟩ | ⟨w, rfl, hws⟩⟩ := Prog.step_plan h.reads hs hp
  · exact ⟨⟨hr, hws ▸ h.writes, hends ▸ h.ends, hws ▸ h.out⟩, fun _ _ => rfl⟩
  · have hw := h.writes
    have hout := h.out
    rw [hws] at hw hout
    rw [List.forall_mem_cons] at hw
    exact ⟨⟨hr, hw.2, hends ▸ h.ends, hout⟩,
      fun n hn => Write.apply_of_ne fun he => hn (he ▸ hw.1)⟩

theorem Leads.pure (h : T.Leads t (.pure ()) fs) :
    T.ok t ∧ ∀ n ∈ T.owns t, fs n = T.out t n := by
  have ht : T.ok t := h.ends.mp rfl
  exact ⟨ht, h.out ht⟩

theorem Leads.run (h : T.Leads t p fs) (hs : ∀ n ∈ T.shared, fs n = T.start n) :
    p.run fs = (p.plan T.start).1.map fun a => (a, Write.applyAll (p.plan T.start).2 fs) :=
  Prog.run_eq_plan h.reads hs fun w hw hsh => hsh t (h.writes w hw)

end Calls

section Sequential

variable [DecidableEq ν] {ι : Type} (idx : ι → ℕ) {prog : ι → Prog ν β Unit} {xs : List ι}

/-- Tasks that run one after the other. -/
theorem Holds.run_forM (hp : ∀ x ∈ xs, ∀ fs, T.Leads (idx x) (prog x) fs) (h : T.Holds D fs)
    (hrun : (forM xs prog).run fs = some ((), fs')) :
    T.Holds (D ∪ {t | t ∈ xs.map idx}) fs' := by
  induction xs generalizing D fs with
  | nil =>
    obtain rfl : fs = fs' := (Prod.mk.inj (Option.some.inj hrun)).2
    simpa using h
  | cons x xs ih =>
    rw [List.forall_mem_cons] at hp
    rw [List.forM_cons, Prog.run_seq_eq_some] at hrun
    obtain ⟨gs, hx, hrun⟩ := hrun
    rw [(hp.1 fs).run h.shared] at hx
    obtain ⟨⟨⟩, hplan, he⟩ := Option.map_eq_some_iff.mp hx
    have hok := (hp.1 fs).ends.mp hplan
    have hins : T.Holds (Insert.insert (idx x) D) gs := by
      refine h.insert hok (fun n hn => ?_) fun n hn => ?_
      · rw [← (Prod.mk.inj he).2]
        exact Write.applyAll_of_forall_ne fun w hw hne => hn (hne ▸ (hp.1 fs).writes w hw)
      · rw [← (Prod.mk.inj he).2]
        exact (hp.1 fs).out hok n hn
    have hset : D ∪ {t | t ∈ (x :: xs).map idx} =
        Insert.insert (idx x) D ∪ {t | t ∈ xs.map idx} := by
      ext t
      simp only [List.map_cons, List.mem_cons, Set.mem_union, Set.mem_ofPred_eq, Set.mem_insert_iff]
      tauto
    rw [hset]
    exact ih hp.2 hins hrun

theorem exists_run_forM (hp : ∀ x ∈ xs, ∀ fs, T.Leads (idx x) (prog x) fs)
    (hs : ∀ n ∈ T.shared, fs n = T.start n) (hok : ∀ x ∈ xs, T.ok (idx x)) :
    ∃ fs', (forM xs prog).run fs = some ((), fs') := by
  induction xs generalizing fs with
  | nil => exact ⟨fs, rfl⟩
  | cons x xs ih =>
    rw [List.forall_mem_cons] at hp hok
    rw [List.forM_cons, Prog.run_bind, (hp.1 fs).run hs, (hp.1 fs).ends.mpr hok.1]
    refine ih hp.2 (fun n hn => ?_) hok.2
    rw [← hs n hn]
    exact Write.applyAll_of_forall_ne fun w hw hne => hn (idx x) (hne ▸ (hp.1 fs).writes w hw)

end Sequential

end Tasks

end DistLab
