import DistLab.MapReduce.Sequential
import DistLab.MapReduce.Strings
import Mathlib.Algebra.GroupWithZero.Nat

/-! # Word count

The map function counts the words of a file in a map and emits the counts in the order in
which the map is iterated. The reduce function adds up the counts it can parse. The total
for a word is the number of maximal letter runs equal to it in all files, in whatever
order the counts arrive.
-/

namespace DistLab.MapReduce.WordCount

/-- The order in which `range` visits the entries of a map. -/
structure MapOrder where
  range : List ((_ : Str) × Int64) → List ((_ : Str) × Int64)
  perm : ∀ entries, (range entries).Perm entries

def countWord (wordMap : AList fun _ : Str => Int64) (word : Str) : AList fun _ : Str => Int64 :=
  match wordMap.lookup word with
  | some n => wordMap.insert word (n + 1)
  | none => wordMap.insert word 1

def mapF (isLetter : ℕ → Bool) (order : MapOrder) (_filename contents : Str) : List KeyValue :=
  let words := fieldsFunc contents fun c => !isLetter c
  let wordMap := words.foldl countWord ∅
  (order.range wordMap.entries).map fun e => ⟨e.1, itoaInt e.2⟩

def addValue (count : Int64) (v : Str) : Int64 :=
  match atoi v with
  | some cnt => count + cnt
  | none => count

def reduceF (_key : Str) (values : List Str) : Str := itoaInt (values.foldl addValue 0)

/-- The number of maximal letter runs of a text that are equal to a word. -/
def occurrences (isLetter : ℕ → Bool) (w contents : Str) : ℕ :=
  (runStarts (fun r => isLetter r.code) false (runes contents)).countP fun i =>
    (runAt (fun r => isLetter r.code) (runes contents) i).flatMap Rune.bytes = w

variable {isLetter : ℕ → Bool} {order : MapOrder} {w word contents : Str} {words : List Str}
  {wordMap : AList fun _ : Str => Int64}

/-- The words of a text are its maximal letter runs. -/
theorem count_fieldsFunc : (fieldsFunc contents fun c => !isLetter c).count w =
    occurrences isLetter w contents := by
  simp only [fieldsFunc, Bool.not_not, fields_eq, List.map_map, List.count_eq_countP,
    List.countP_map]
  apply List.countP_congr
  intro i _
  simp

theorem lookup_countWord : (countWord wordMap word).lookup w =
    if w = word then some ((wordMap.lookup word).getD 0 + 1) else wordMap.lookup w := by
  unfold countWord
  split
  case h_1 n hn =>
    split
    case isTrue h => rw [h, AList.lookup_insert, hn, Option.getD_some]
    case isFalse h => rw [AList.lookup_insert_ne h]
  case h_2 hn =>
    split
    case isTrue h => rw [h, AList.lookup_insert, hn]; rfl
    case isFalse h => rw [AList.lookup_insert_ne h]

theorem lookup_countWords : (words.foldl countWord ∅).lookup w =
    if w ∈ words then some (Int64.ofNat (words.count w)) else none := by
  induction words using List.reverseRecOn with
  | nil => rfl
  | append_singleton words word ih =>
    rw [List.foldl_append, List.foldl_cons, List.foldl_nil, lookup_countWord]
    by_cases h : w = word
    · subst h
      rw [if_pos rfl, if_pos (by simp), ih, List.count_append, List.count_singleton_self]
      by_cases hw : w ∈ words
      · rw [if_pos hw, Option.getD_some, Int64.ofNat_add]
        rfl
      · rw [if_neg hw, Option.getD_none, List.count_eq_zero_of_not_mem hw]
        rfl
    · have hcount : [word].count w = 0 := List.count_eq_zero_of_not_mem (by simpa using h)
      rw [if_neg h, ih, List.count_append, hcount, Nat.add_zero]
      simp [h]

theorem filter_key_eq_lookupAll (entries : List ((_ : Str) × Int64)) :
    (entries.filter (·.1 = w)).map (·.2) = entries.lookupAll w := by
  induction entries with
  | nil => rfl
  | cons e entries ih =>
    obtain ⟨k, n⟩ := e
    by_cases h : k = w
    · subst h
      rw [List.filter_cons_of_pos (by simp), List.map_cons, ih, List.lookupAll_cons_eq]
    · rw [List.filter_cons_of_neg (by simpa using h), ih, List.lookupAll_cons_ne _ _ (Ne.symm h)]

theorem values_range (order : MapOrder) (w : Str) (wordMap : AList fun _ : Str => Int64) :
    ((((order.range wordMap.entries).map fun e => KeyValue.mk e.1 (itoaInt e.2)).filter
      (·.key = w)).map (·.value)).Perm ((wordMap.lookup w).toList.map itoaInt) := by
  have hvalues := (((order.perm wordMap.entries).filter (·.1 = w)).map (·.2)).map itoaInt
  have hentries : (wordMap.entries.filter (·.1 = w)).map (·.2) = (wordMap.lookup w).toList :=
    (filter_key_eq_lookupAll _).trans (List.lookupAll_eq_dlookup w wordMap.nodupKeys)
  rw [hentries, List.map_map] at hvalues
  rw [List.filter_map, List.map_map]
  exact hvalues

def countsOf (isLetter : ℕ → Bool) (w contents : Str) : List Str :=
  if occurrences isLetter w contents = 0 then []
  else [itoaInt (Int64.ofNat (occurrences isLetter w contents))]

theorem values_mapF (filename : Str) :
    (((mapF isLetter order filename contents).filter (·.key = w)).map (·.value)).Perm
      (countsOf isLetter w contents) := by
  have hvalues := values_range order w
    ((fieldsFunc contents fun c => !isLetter c).foldl countWord ∅)
  have hmem : w ∈ (fieldsFunc contents fun c => !isLetter c) ↔
      occurrences isLetter w contents ≠ 0 := by
    rw [← count_fieldsFunc, Ne, List.count_eq_zero, not_not]
  rw [lookup_countWords, count_fieldsFunc] at hvalues
  unfold countsOf
  split
  case isTrue h =>
    rw [if_neg (fun hw => hmem.mp hw h)] at hvalues
    exact hvalues
  case isFalse h =>
    rw [if_pos (hmem.mpr h)] at hvalues
    exact hvalues

instance rightCommutative_addValue : RightCommutative addValue where
  right_comm count v v' := by
    unfold addValue
    cases atoi v with
    | none => rfl
    | some n =>
      cases atoi v' with
      | none => rfl
      | some n' =>
        change count + n + n' = count + n' + n
        rw [Int64.add_assoc, Int64.add_comm n n', Int64.add_assoc]

/-- A call of the map function: the order in which it iterates its map, and the file. -/
structure MapCall where
  order : MapOrder
  filename : Str
  contents : Str

def emitted (isLetter : ℕ → Bool) (calls : List MapCall) : List KeyValue :=
  calls.flatMap fun c => mapF isLetter c.order c.filename c.contents

def total (isLetter : ℕ → Bool) (w : Str) (calls : List MapCall) : ℕ :=
  (calls.map fun c => occurrences isLetter w c.contents).sum

variable {calls : List MapCall} {n : ℕ}

theorem total_cons (c : MapCall) : total isLetter w (c :: calls) =
    occurrences isLetter w c.contents + total isLetter w calls :=
  List.sum_cons

theorem values_emitted : (((emitted isLetter calls).filter (·.key = w)).map (·.value)).Perm
    (calls.flatMap fun c => countsOf isLetter w c.contents) := by
  rw [emitted, List.filter_flatMap, List.map_flatMap]
  exact List.Perm.flatMap_left calls fun c _ => values_mapF c.filename

theorem foldl_countsOf (n : ℕ) : (countsOf isLetter w contents).foldl addValue (Int64.ofNat n) =
    Int64.ofNat (n + occurrences isLetter w contents) := by
  unfold countsOf
  split
  case isTrue h => rw [h]; rfl
  case isFalse h =>
    rw [List.foldl_cons, List.foldl_nil, addValue, atoi_itoaInt, Int64.ofNat_add]

theorem foldl_counts (n : ℕ) :
    (calls.flatMap fun c => countsOf isLetter w c.contents).foldl addValue (Int64.ofNat n) =
      Int64.ofNat (n + total isLetter w calls) := by
  induction calls generalizing n with
  | nil => rfl
  | cons c calls ih =>
    rw [List.flatMap_cons, List.foldl_append, foldl_countsOf, ih, total_cons, Nat.add_assoc]

theorem itoaInt_ofNat (h : n < 2 ^ 63) : itoaInt (Int64.ofNat n) = itoa n := by
  rw [itoaInt, Int64.toInt_ofNat_of_lt h, if_neg (by omega), Int.natAbs_natCast]

theorem reduceF_eq {vs : List Str} (h : total isLetter w calls < 2 ^ 63)
    (hvs : vs.Perm (((emitted isLetter calls).filter (·.key = w)).map (·.value))) :
    reduceF w vs = itoa (total isLetter w calls) := by
  have hsum : vs.foldl addValue 0 = Int64.ofNat (0 + total isLetter w calls) :=
    ((hvs.trans values_emitted).foldl_eq 0).trans (foldl_counts 0)
  rw [reduceF, hsum, Nat.zero_add, itoaInt_ofNat h]

theorem counts_eq_nil_iff : calls.flatMap (fun c => countsOf isLetter w c.contents) = [] ↔
    total isLetter w calls = 0 := by
  induction calls with
  | nil => exact iff_of_true rfl rfl
  | cons c calls ih =>
    have hhead : countsOf isLetter w c.contents = [] ↔ occurrences isLetter w c.contents = 0 := by
      simp [countsOf]
    rw [List.flatMap_cons, List.append_eq_nil_iff, total_cons, Nat.add_eq_zero_iff, hhead, ih]

theorem exists_emitted_iff :
    (∃ kv ∈ emitted isLetter calls, kv.key = w) ↔ 0 < total isLetter w calls := by
  have hvalues : ((emitted isLetter calls).filter (·.key = w)).map (·.value) = [] ↔
      calls.flatMap (fun c => countsOf isLetter w c.contents) = [] := by
    rw [← List.length_eq_zero_iff, values_emitted.length_eq, List.length_eq_zero_iff]
  rw [Nat.pos_iff_ne_zero, Ne, ← counts_eq_nil_iff, ← hvalues]
  simp [List.filter_eq_nil_iff]

/-- The total for a word is the number of its occurrences in all files, and nothing else is a
key. -/
theorem word_count_total (isLetter : ℕ → Bool) (calls : List MapCall) (w : Str) :
    (total isLetter w calls < 2 ^ 63 → ∀ vs : List Str,
      vs.Perm (((emitted isLetter calls).filter (·.key = w)).map (·.value)) →
      reduceF w vs = itoa (total isLetter w calls)) ∧
    ((∃ kv ∈ emitted isLetter calls, kv.key = w) ↔ 0 < total isLetter w calls) :=
  ⟨fun h _ hvs => reduceF_eq h hvs, exists_emitted_iff⟩

def asciiLetter (c : ℕ) : Bool := (65 ≤ c && c ≤ 90) || (97 ≤ c && c ≤ 122)

def twoTexts : List MapCall :=
  [⟨⟨id, fun _ => .refl _⟩, str "x", str "a b a"⟩,
    ⟨⟨List.reverse, List.reverse_perm⟩, str "y", str "b,a"⟩]

/-- The count of the second text arrives first. -/
theorem word_count_total_twoTexts :
    (∃ kv ∈ emitted asciiLetter twoTexts, kv.key = str "a") ∧
    reduceF (str "a") [str "1", str "2"] = str "3" := by
  have htotal : total asciiLetter (str "a") twoTexts = 3 := by decide +kernel
  obtain ⟨hsum, hkeys⟩ := word_count_total asciiLetter twoTexts (str "a")
  rw [htotal] at hsum hkeys
  exact ⟨hkeys.mpr (by decide), (hsum (by decide) _ (by decide +kernel)).trans (by decide)⟩

section Job

variable {J : Codec} {sorter : Sorter} {orders : Str → Str → MapOrder} {files : List Str}
  {path : Str → Str} {fs fs' : Files Str Byte}

def wcseq (isLetter : ℕ → Bool) (orders : Str → Str → MapOrder) (files : List Str)
    (path : Str → Str) : Job where
  jobName := str "wcseq"
  files := files
  path := path
  nReduce := 3
  mapF filename contents := mapF isLetter (orders filename contents) filename contents
  reduceF := reduceF
  nReduce_pos := by decide

def callsOn (orders : Str → Str → MapOrder) (files : List Str) (path : Str → Str)
    (fs : Files Str Byte) : List MapCall :=
  files.map fun f => ⟨orders f ((fs (path f)).getD []), f, (fs (path f)).getD []⟩

theorem wcseq_emitted
    (hin : ∀ f ∈ files, ∀ i < files.length, ∀ r < 3, path f ≠ reduceName (str "wcseq") i r) :
    (wcseq isLetter orders files path).emitted J fs =
      emitted isLetter (callsOn orders files path fs) := by
  have hne : ∀ x ∈ files.zipIdx, ∀ y ∈ files.zipIdx, ∀ r < 3,
      path x.1 ≠ reduceName (str "wcseq") y.2 r := fun x hx y hy =>
    hin x.1 (List.fst_mem_of_mem_zipIdx hx) y.2 (List.snd_lt_of_mem_zipIdx hy)
  have hfst : files.zipIdx.map Prod.fst = files := List.zipIdx_map_fst 0 files
  rw [Job.emitted, Job.emits_eq hne, emitted, callsOn, List.flatMap_map, List.flatMap_def]
  conv_rhs => rw [← hfst]
  rw [List.map_map]
  rfl

theorem wcseq_output (hJ : J.Exact) (hin : ∀ f ∈ files, ∀ i < files.length, ∀ r < 3,
      path f ≠ reduceName (str "wcseq") i r)
    (hfs : ∀ r < 3, fs (mergeName (str "wcseq") r) = none)
    (hmax : ∀ w, total isLetter w (callsOn orders files path fs) < 2 ^ 63)
    (h : ((wcseq isLetter orders files path).sequential J sorter).run fs = some ((), fs')) :
    ∃ keys : List Str, keys.Pairwise (· < ·) ∧
      (∀ w, w ∈ keys ↔ 0 < total isLetter w (callsOn orders files path fs)) ∧
      fs' (outputName (str "wcseq")) = some (keys.flatMap fun w =>
        Job.line w (itoa (total isLetter w (callsOn orders files path fs)))) := by
  obtain ⟨keys, hlt, hkeys, hout⟩ := Job.sequential_lines hJ hfs h
  rw [wcseq_emitted hin] at hkeys hout
  refine ⟨keys, hlt, fun w => (hkeys w).trans exists_emitted_iff, hout.trans ?_⟩
  refine congrArg some (List.flatMap_congr fun w _ => ?_)
  exact congrArg (Job.line w) (reduceF_eq (hmax w) Job.valuesFor_perm)

end Job

end DistLab.MapReduce.WordCount
