import Mathlib.Data.Nat.Digits.Lemmas
import Mathlib.Data.List.Sort
import Mathlib.Order.Fin.Basic
import Mathlib.Data.Fintype.Defs

/-! # Names, pairs and their encoding

The vocabulary of the map and reduce tasks. Strings are lists of bytes in their
lexicographic order. The files of a job have pairwise different names. The encoding of
pairs and the sorting function are parameters with the contract the code relies on.
-/

namespace DistLab.MapReduce

abbrev Byte := Fin 256

instance neZero_byte : NeZero 256 := ⟨by decide⟩

abbrev Str := List Byte

def str (s : String) : Str := s.toList.map fun c => Fin.ofNat 256 c.toNat

structure KeyValue where
  key : Str
  value : Str
deriving DecidableEq, Repr

/-- An encoder that appends pairs to a file and a decoder that reads them until it fails. Every
encoded pair is decoded, as itself or as another one. -/
structure Codec where
  encode : KeyValue → Str
  decode : Str → List KeyValue
  length_decode : ∀ kvs : List KeyValue, (decode (kvs.flatMap encode)).length = kvs.length

def Codec.Exact (J : Codec) : Prop :=
  ∀ kvs : List KeyValue, J.decode (kvs.flatMap J.encode) = kvs

/-- Sorting by key, in no particular order among equal keys. -/
structure Sorter where
  sort : List KeyValue → List KeyValue
  perm : ∀ kvs, (sort kvs).Perm kvs
  sorted : ∀ kvs, (sort kvs).Pairwise fun a b => ¬ b.key < a.key

def itoa (n : ℕ) : Str :=
  if n = 0 then str "0" else (Nat.digits 10 n).reverse.map fun d => Fin.ofNat 256 (48 + d)

def reduceName (jobName : Str) (mapTask reduceTask : ℕ) : Str :=
  str "mrtmp." ++ jobName ++ str "-" ++ itoa mapTask ++ str "-" ++ itoa reduceTask

def mergeName (jobName : Str) (reduceTask : ℕ) : Str :=
  str "mrtmp." ++ jobName ++ str "-res-" ++ itoa reduceTask

def outputName (jobName : Str) : Str := str "mrtmp." ++ jobName

theorem digit_of_mem_itoa {n : ℕ} {b : Byte} (h : b ∈ itoa n) : 48 ≤ b.val ∧ b.val < 58 := by
  unfold itoa at h
  split_ifs at h
  · obtain rfl : b = 48 := by simpa [str] using h
    decide
  · obtain ⟨d, hd, rfl⟩ := List.mem_map.mp h
    have hlt : d < 10 := Nat.digits_lt_base (by decide) (List.mem_reverse.mp hd)
    simp only [Fin.val_ofNat]
    omega

theorem ofDigits_itoa (n : ℕ) : Nat.ofDigits 10 ((itoa n).reverse.map (·.val - 48)) = n := by
  unfold itoa
  split_ifs with h
  · subst h
    rfl
  · have hid : ∀ d ∈ Nat.digits 10 n,
        ((fun b : Byte => b.val - 48) ∘ fun d => Fin.ofNat 256 (48 + d)) d = d := by
      intro d hd
      have hlt : d < 10 := Nat.digits_lt_base (by decide) hd
      simp only [Function.comp_apply, Fin.val_ofNat]
      omega
    simp only [← List.map_reverse, List.reverse_reverse, List.map_map]
    rw [List.map_congr_left hid, List.map_id', Nat.ofDigits_digits]

theorem itoa_injective : Function.Injective itoa := by
  intro m n h
  rw [← ofDigits_itoa m, h, ofDigits_itoa]

theorem dash_notMem_itoa (n : ℕ) : (45 : Byte) ∉ itoa n := fun h =>
  absurd (digit_of_mem_itoa h).1 (by decide)

variable {job : Str} {m m' r r' : ℕ}

@[simp] theorem str_dash : str "-" = [45] := by decide

@[simp] theorem str_res : str "-res-" = 45 :: (str "res" ++ [45]) := by decide

theorem reduceName_inj (h : reduceName job m r = reduceName job m' r') : m = m' ∧ r = r' := by
  simp only [reduceName, str_dash, List.append_assoc, List.append_cancel_left_eq,
    List.cons_append, List.nil_append, List.cons.injEq, true_and] at h
  obtain ⟨hm, -, hr⟩ :=
    (List.append_cons_inj_of_notMem (dash_notMem_itoa m) (dash_notMem_itoa r)).mp h
  exact ⟨itoa_injective hm, itoa_injective hr⟩

theorem mergeName_inj (h : mergeName job r = mergeName job r') : r = r' := by
  simp only [mergeName, List.append_assoc, List.append_cancel_left_eq] at h
  exact itoa_injective h

theorem reduceName_ne_mergeName : reduceName job m r ≠ mergeName job r' := by
  intro h
  simp only [reduceName, mergeName, str_dash, str_res, List.append_assoc,
    List.append_cancel_left_eq, List.cons_append, List.nil_append, List.cons.injEq,
    true_and] at h
  obtain ⟨hm, -⟩ :=
    (List.append_cons_inj_of_notMem (dash_notMem_itoa m) (dash_notMem_itoa r)).mp h
  have hmem : (114 : Byte) ∈ itoa m := by
    rw [hm]
    decide
  exact absurd (digit_of_mem_itoa hmem).2 (by decide)

def escape (s : Str) : Str := s.flatMap (fun b => [1, b]) ++ [0]

def unescape (key : Option Str) (acc : Str) : Str → List KeyValue
  | 0 :: rest =>
    match key with
    | none => unescape (some acc) [] rest
    | some k => ⟨k, acc⟩ :: unescape none [] rest
  | 1 :: b :: rest => unescape key (acc ++ [b]) rest
  | _ => []

theorem unescape_escape (key : Option Str) (acc s rest : Str) :
    unescape key acc (escape s ++ rest) = unescape key (acc ++ s) (0 :: rest) := by
  induction s generalizing acc with
  | nil => simp [escape]
  | cons b s ih =>
    have h := ih (acc ++ [b])
    simp only [List.append_assoc, List.singleton_append] at h
    rw [← h]
    simp [escape, unescape]

theorem unescape_flatMap (kvs : List KeyValue) :
    unescape none [] (kvs.flatMap fun kv => escape kv.key ++ escape kv.value) = kvs := by
  induction kvs with
  | nil => rfl
  | cons kv kvs ih =>
    rw [List.flatMap_cons, List.append_assoc, unescape_escape]
    simp only [List.nil_append, unescape]
    rw [unescape_escape]
    simpa [unescape] using ih

def escaped : Codec where
  encode kv := escape kv.key ++ escape kv.value
  decode := unescape none []
  length_decode kvs := congrArg List.length (unescape_flatMap kvs)

theorem escaped_exact : escaped.Exact := unescape_flatMap

def insertion : Sorter where
  sort := List.insertionSort fun a b => a.key ≤ b.key
  perm := List.perm_insertionSort _
  sorted kvs := by
    have : Std.Total fun a b : KeyValue => a.key ≤ b.key := ⟨fun a b => le_total a.key b.key⟩
    have : IsTrans KeyValue fun a b => a.key ≤ b.key := ⟨fun a b c => le_trans⟩
    exact (List.pairwise_insertionSort _ kvs).imp not_lt.mpr

end DistLab.MapReduce
