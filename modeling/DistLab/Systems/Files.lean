import Mathlib.Data.Set.Basic
import Mathlib.Logic.Function.Basic

/-! # File programs

Programs that read whole files, create files and append to them, over a file system
that maps names to contents, with one name for each file. A program runs at once or step
by step between the steps of others. When nobody changes the files it reads, it is the
list of its writes.
-/

namespace DistLab

abbrev Files (ν β : Type) := ν → Option (List β)

theorem mapM_eq_some {α β : Type} {f : α → Option β} {xs : List α} {ys : List β} :
    xs.mapM f = some ys ↔ xs.map f = ys.map some := by
  induction xs generalizing ys with
  | nil => cases ys <;> simp
  | cons x xs ih =>
    rw [List.mapM_cons, List.map_cons]
    cases ys with
    | nil => cases f x <;> cases xs.mapM f <;> simp
    | cons y ys =>
      rw [List.map_cons, List.cons.injEq, ← ih]
      cases f x <;> cases xs.mapM f <;> simp

inductive Write (ν β : Type) where
  | create (name : ν)
  | append (name : ν) (data : List β)

/-- `fail` is the end of a process by a panic or a fatal error. -/
inductive Prog (ν β : Type) (α : Type) where
  | pure (a : α)
  | fail
  | read (name : ν) (next : Option (List β) → Prog ν β α)
  | write (w : Write ν β) (next : Prog ν β α)

variable {ν β α γ : Type} [DecidableEq ν]

namespace Write

def name : Write ν β → ν
  | .create n => n
  | .append n _ => n

def apply (fs : Files ν β) : Write ν β → Files ν β
  | .create n => Function.update fs n (some [])
  | .append n data => Function.update fs n (some ((fs n).getD [] ++ data))

def applyAll (ws : List (Write ν β)) (fs : Files ν β) : Files ν β := ws.foldl apply fs

variable {fs fs' : Files ν β} {w : Write ν β} {ws ws' : List (Write ν β)} {n : ν}

theorem apply_of_ne (h : n ≠ w.name) : apply fs w n = fs n := by
  cases w <;> exact Function.update_of_ne h ..

theorem apply_congr (h : fs n = fs' n) : apply fs w n = apply fs' w n := by
  rcases eq_or_ne n w.name with rfl | hne
  · cases w
    · simp [apply, name]
    · simp only [name] at h
      simp [apply, name, h]
  · rw [apply_of_ne hne, apply_of_ne hne, h]

@[simp] theorem applyAll_nil : applyAll [] fs = fs := rfl

@[simp] theorem applyAll_cons : applyAll (w :: ws) fs = applyAll ws (apply fs w) := rfl

theorem applyAll_append : applyAll (ws ++ ws') fs = applyAll ws' (applyAll ws fs) :=
  List.foldl_append

theorem applyAll_congr (h : fs n = fs' n) : applyAll ws fs n = applyAll ws fs' n := by
  induction ws generalizing fs fs' with
  | nil => exact h
  | cons w ws ih => exact ih (apply_congr h)

theorem applyAll_of_forall_ne (h : ∀ w ∈ ws, n ≠ w.name) : applyAll ws fs n = fs n := by
  induction ws generalizing fs with
  | nil => rfl
  | cons w ws ih =>
    rw [applyAll_cons, ih fun w hw => h w (List.mem_cons_of_mem _ hw),
      apply_of_ne (h w List.mem_cons_self)]

theorem applyAll_create (fs : Files ν β) (names : List ν) (h : n ∈ names) :
    applyAll (names.map .create) fs n = some ([] : List β) := by
  induction names generalizing fs with
  | nil => simp at h
  | cons a names ih =>
    rw [List.map_cons, applyAll_cons]
    by_cases hn : n ∈ names
    · exact ih _ hn
    · obtain rfl := (List.mem_cons.mp h).resolve_right hn
      rw [applyAll_of_forall_ne]
      · exact Function.update_self ..
      · intro w hw
        obtain ⟨m, hm, rfl⟩ := List.mem_map.mp hw
        exact fun he => hn (he ▸ hm)

theorem applyAll_appends (apps : List (ν × List β)) {data : List β} (h : fs n = some data) :
    applyAll (apps.map fun a => .append a.1 a.2) fs n =
      some (data ++ (apps.filter (·.1 = n)).flatMap (·.2)) := by
  induction apps generalizing fs data with
  | nil => simp [h]
  | cons a apps ih =>
    rw [List.map_cons, applyAll_cons]
    rcases eq_or_ne a.1 n with rfl | hne
    · have happ : apply fs (.append a.1 a.2) a.1 = some (data ++ a.2) := by simp [apply, h]
      rw [ih happ]
      simp
    · have happ : apply fs (.append a.1 a.2) n = some data := by
        rw [apply_of_ne (by exact hne.symm), h]
      rw [ih happ]
      simp [hne]

theorem applyAll_create_appends (xs : List α) (data : α → List β) :
    applyAll (.create n :: xs.map fun x => .append n (data x)) fs n = some (xs.flatMap data) := by
  have hcreate : apply fs (.create n) n = some [] := Function.update_self ..
  have happend := applyAll_appends (xs.map fun x => (n, data x)) hcreate
  rw [List.filter_eq_self.mpr (by simp), List.map_map, List.flatMap_map] at happend
  exact happend

end Write

namespace Prog

def bind : Prog ν β α → (α → Prog ν β γ) → Prog ν β γ
  | .pure a, f => f a
  | .fail, _ => .fail
  | .read n next, f => .read n fun c => (next c).bind f
  | .write w next, f => .write w (next.bind f)

instance : Monad (Prog ν β) where
  pure := .pure
  bind := bind

def openFile (n : ν) : Prog ν β (List β) :=
  .read n fun
    | none => .fail
    | some data => .pure data

def create (n : ν) : Prog ν β Unit := .write (.create n) (.pure ())

def append (n : ν) (data : List β) : Prog ν β Unit := .write (.append n data) (.pure ())

def writes (ws : List (Write ν β)) : Prog ν β Unit := ws.foldr .write (.pure ())

def foldFiles (h : γ → List β → γ) : γ → List ν → Prog ν β γ
  | a, [] => .pure a
  | a, n :: ns => openFile n >>= fun data => foldFiles h (h a data) ns

def isDone : Prog ν β α → Bool
  | .pure _ => true
  | _ => false

def run : Prog ν β α → Files ν β → Option (α × Files ν β)
  | .pure a, fs => some (a, fs)
  | .fail, _ => none
  | .read n next, fs => (next (fs n)).run fs
  | .write w next, fs => next.run (w.apply fs)

def step : Prog ν β α → Files ν β → Option (Prog ν β α × Files ν β)
  | .pure _, _ => none
  | .fail, _ => none
  | .read n next, fs => some (next (fs n), fs)
  | .write w next, fs => some (next, w.apply fs)

/-- How the program ends and what it writes when it reads from a fixed file system. -/
def plan (fs : Files ν β) : Prog ν β α → Option α × List (Write ν β)
  | .pure a => (some a, [])
  | .fail => (none, [])
  | .read n next => (next (fs n)).plan fs
  | .write w next => ((next.plan fs).1, w :: (next.plan fs).2)

def ReadsIn (fs : Files ν β) (S : Set ν) : Prog ν β α → Prop
  | .pure _ => True
  | .fail => True
  | .read n next => n ∈ S ∧ (next (fs n)).ReadsIn fs S
  | .write _ next => next.ReadsIn fs S

variable {fs fs₀ fs' : Files ν β} {p p' : Prog ν β α} {f : α → Prog ν β γ} {S : Set ν}

theorem run_bind : (p >>= f).run fs = (p.run fs).bind fun r => (f r.1).run r.2 := by
  change (p.bind f).run fs = _
  induction p generalizing fs with
  | pure a => rfl
  | fail => rfl
  | read n next ih => exact ih _
  | write w next ih => exact ih

theorem run_seq_eq_some {p : Prog ν β Unit} {q : Prog ν β α} {r : α × Files ν β} :
    (p >>= fun _ => q).run fs = some r ↔
      ∃ gs, p.run fs = some ((), gs) ∧ q.run gs = some r := by
  rw [run_bind, Option.bind_eq_some_iff]
  constructor
  · rintro ⟨⟨⟨⟩, gs⟩, hp, hq⟩
    exact ⟨gs, hp, hq⟩
  · rintro ⟨gs, hp, hq⟩
    exact ⟨((), gs), hp, hq⟩

omit [DecidableEq ν] in
theorem plan_bind : (p >>= f).plan fs = match p.plan fs with
    | (none, ws) => (none, ws)
    | (some a, ws) => (((f a).plan fs).1, ws ++ ((f a).plan fs).2) := by
  change (p.bind f).plan fs = _
  induction p with
  | pure a => rfl
  | fail => rfl
  | read n next ih => exact ih _
  | write w next ih =>
    simp only [bind, plan, ih]
    rcases next.plan fs with ⟨_ | a, ws⟩ <;> rfl

omit [DecidableEq ν] in
theorem readsIn_bind (hp : p.ReadsIn fs S) (hf : ∀ a, (f a).ReadsIn fs S) :
    (p >>= f).ReadsIn fs S := by
  change (p.bind f).ReadsIn fs S
  induction p with
  | pure a => exact hf a
  | fail => trivial
  | read n next ih => exact ⟨hp.1, ih _ hp.2⟩
  | write w next ih => exact ih hp

theorem run_openFile {n : ν} :
    (openFile n).run fs = (fs n).map fun data => (data, fs) := by
  simp only [openFile, run]
  cases fs n <;> rfl

omit [DecidableEq ν] in
theorem plan_openFile {n : ν} : (openFile n).plan fs = (fs n, []) := by
  simp only [openFile, plan]
  cases fs n <;> rfl

omit [DecidableEq ν] in
theorem readsIn_openFile {n : ν} (h : n ∈ S) : (openFile n).ReadsIn fs S := by
  refine ⟨h, ?_⟩
  cases fs n <;> trivial

section Loops

variable {ι : Type} {ws ws' : List (Write ν β)} {h : γ → List β → γ}

theorem run_writes : (writes ws).run fs = some ((), Write.applyAll ws fs) := by
  induction ws generalizing fs with
  | nil => rfl
  | cons w ws ih => exact ih

omit [DecidableEq ν] in
theorem plan_writes : (writes ws).plan fs = (some (), ws) := by
  induction ws with
  | nil => rfl
  | cons w ws ih =>
    change (((writes ws).plan fs).1, w :: ((writes ws).plan fs).2) = _
    rw [ih]

omit [DecidableEq ν] in
theorem readsIn_writes : (writes ws).ReadsIn fs S := by
  induction ws with
  | nil => trivial
  | cons w ws ih => exact ih

omit [DecidableEq ν] in
theorem writes_append : (writes ws >>= fun _ => writes ws') = writes (ws ++ ws') := by
  induction ws with
  | nil => rfl
  | cons w ws ih => exact congrArg (Prog.write w) ih

omit [DecidableEq ν] in
theorem forM_writes (xs : List ι) (g : ι → Write ν β) :
    (forM xs fun x => writes [g x]) = writes (xs.map g) := by
  induction xs with
  | nil => rfl
  | cons x xs ih =>
    rw [List.forM_cons, ih]
    exact writes_append

theorem run_foldFiles {a : γ} {ns : List ν} :
    (foldFiles h a ns).run fs = (ns.mapM fs).map fun cs => (cs.foldl h a, fs) := by
  induction ns generalizing a with
  | nil => rfl
  | cons n ns ih =>
    rw [foldFiles, run_bind, run_openFile, List.mapM_cons]
    cases fs n with
    | none => rfl
    | some data =>
      simp only [Option.map_some, Option.bind_some, ih, Option.bind_eq_bind, Option.pure_def]
      cases ns.mapM fs <;> rfl

omit [DecidableEq ν] in
theorem plan_foldFiles {a : γ} {ns : List ν} :
    (foldFiles h a ns).plan fs = ((ns.mapM fs).map fun cs => cs.foldl h a, []) := by
  induction ns generalizing a with
  | nil => rfl
  | cons n ns ih =>
    rw [foldFiles, plan_bind, plan_openFile, List.mapM_cons]
    cases fs n with
    | none => rfl
    | some data =>
      simp only [ih, Option.bind_eq_bind, Option.bind_some, Option.pure_def]
      cases ns.mapM fs <;> rfl

omit [DecidableEq ν] in
theorem readsIn_foldFiles {a : γ} {ns : List ν} (hn : ∀ n ∈ ns, n ∈ S) :
    (foldFiles h a ns).ReadsIn fs S := by
  induction ns generalizing a with
  | nil => trivial
  | cons n ns ih =>
    rw [List.forall_mem_cons] at hn
    exact readsIn_bind (readsIn_openFile hn.1) fun data => ih hn.2

end Loops

/-- A program whose files nobody changes runs as planned. -/
theorem run_eq_plan (hr : p.ReadsIn fs₀ S) (hs : ∀ n ∈ S, fs n = fs₀ n)
    (hw : ∀ w ∈ (p.plan fs₀).2, w.name ∉ S) :
    p.run fs = (p.plan fs₀).1.map fun a => (a, Write.applyAll (p.plan fs₀).2 fs) := by
  induction p generalizing fs with
  | pure a => rfl
  | fail => rfl
  | read n next ih =>
    simp only [run, plan, hs n hr.1]
    exact ih _ hr.2 hs hw
  | write w next ih =>
    simp only [plan, List.mem_cons, forall_eq_or_imp] at hw
    refine ih hr (fun n hn => ?_) hw.2
    rw [Write.apply_of_ne fun he => hw.1 (he ▸ hn), hs n hn]

theorem step_plan (hr : p.ReadsIn fs₀ S) (hs : ∀ n ∈ S, fs n = fs₀ n)
    (h : p.step fs = some (p', fs')) : p'.ReadsIn fs₀ S ∧ (p'.plan fs₀).1 = (p.plan fs₀).1 ∧
      (fs' = fs ∧ (p'.plan fs₀).2 = (p.plan fs₀).2 ∨
        ∃ w, fs' = w.apply fs ∧ (p.plan fs₀).2 = w :: (p'.plan fs₀).2) := by
  cases p with
  | pure a => exact nomatch h
  | fail => exact nomatch h
  | read n next =>
    obtain ⟨rfl, rfl⟩ := Prod.mk.inj (Option.some.inj h)
    rw [hs n hr.1]
    exact ⟨hr.2, rfl, Or.inl ⟨rfl, rfl⟩⟩
  | write w next =>
    obtain ⟨rfl, rfl⟩ := Prod.mk.inj (Option.some.inj h)
    exact ⟨hr, rfl, Or.inr ⟨w, rfl, rfl⟩⟩

end Prog

end DistLab
