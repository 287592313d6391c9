import DistLab.MapReduce.Common
import DistLab.Systems.Fields

/-! # Strings and numbers

What the word count uses of the standard library. A string is read rune by rune, a byte
that starts no valid UTF-8 sequence as the replacement rune. Integers have 64 bits;
parsing a number fails on anything but digits after a sign, and on numbers out of range.
-/

namespace DistLab.MapReduce

structure Rune where
  code : ℕ
  bytes : Str
deriving DecidableEq, Repr

/-- The number of bytes after the first one of a sequence, and the range of the next one. -/
def utf8Tail (b : ℕ) : Option (ℕ × ℕ × ℕ) :=
  if 0xC2 ≤ b ∧ b ≤ 0xDF then some (1, 0x80, 0xBF)
  else if b = 0xE0 then some (2, 0xA0, 0xBF)
  else if b = 0xED then some (2, 0x80, 0x9F)
  else if 0xE1 ≤ b ∧ b ≤ 0xEF then some (2, 0x80, 0xBF)
  else if b = 0xF0 then some (3, 0x90, 0xBF)
  else if 0xF1 ≤ b ∧ b ≤ 0xF3 then some (3, 0x80, 0xBF)
  else if b = 0xF4 then some (3, 0x80, 0x8F)
  else none

def decodeRune (b : Byte) (rest : Str) : Rune :=
  match utf8Tail b.val with
  | some (n, lo, hi) =>
    let tail := rest.take n
    if tail.length = n ∧ (∀ c ∈ tail.head?, lo ≤ c.val ∧ c.val ≤ hi) ∧
        ∀ c ∈ tail, 0x80 ≤ c.val ∧ c.val ≤ 0xBF then
      -- the first byte has one bit less for the code point for each byte after it
      ⟨tail.foldl (fun code c => 64 * code + c.val % 64) (b.val % 2 ^ (6 - n)), b :: tail⟩
    else ⟨0xFFFD, [b]⟩
  | none => ⟨if b.val < 0x80 then b.val else 0xFFFD, [b]⟩

def runesLoop : ℕ → Str → List Rune
  | 0, _ => []
  | _, [] => []
  | n + 1, b :: rest =>
    decodeRune b rest :: runesLoop n (rest.drop ((decodeRune b rest).bytes.length - 1))

def runes (s : Str) : List Rune := runesLoop s.length s

def fieldsFunc (s : Str) (f : ℕ → Bool) : List Str :=
  (fields (fun r => !f r.code) (runes s)).map (·.flatMap Rune.bytes)

example : runes [0xC3, 0xA9, 0xFF, 0x61] =
    [⟨0xE9, [0xC3, 0xA9]⟩, ⟨0xFFFD, [0xFF]⟩, ⟨0x61, [0x61]⟩] := by
  decide +kernel

def itoaInt (v : Int64) : Str :=
  if v.toInt < 0 then 45 :: itoa v.toInt.natAbs else itoa v.toInt.natAbs

def parseDigits (ds : Str) : Option ℕ :=
  if ds ≠ [] ∧ ∀ b ∈ ds, 48 ≤ b.val ∧ b.val < 58 then
    some (Nat.ofDigits 10 (ds.reverse.map (·.val - 48)))
  else none

def atoi (s : Str) : Option Int64 :=
  (parseDigits (if s.head? = some 45 ∨ s.head? = some 43 then s.tail else s)).bind fun n =>
    if s.head? = some 45 then
      if n ≤ 2 ^ 63 then some (Int64.ofInt (-n)) else none
    else if n < 2 ^ 63 then some (Int64.ofNat n) else none

theorem itoa_ne_nil (n : ℕ) : itoa n ≠ [] := by
  unfold itoa
  split_ifs with h
  · decide
  · rwa [Ne, List.map_eq_nil_iff, List.reverse_eq_nil_iff, Nat.digits_eq_nil_iff_eq_zero]

theorem parseDigits_itoa (n : ℕ) : parseDigits (itoa n) = some n := by
  rw [parseDigits, if_pos ⟨itoa_ne_nil n, fun b => digit_of_mem_itoa⟩, ofDigits_itoa]

theorem head_itoa_ne {n : ℕ} {b : Byte} (hb : b.val < 48) : (itoa n).head? ≠ some b := by
  intro h
  have := (digit_of_mem_itoa (List.mem_of_mem_head? h)).1
  omega

theorem atoi_itoa {n : ℕ} (h : n < 2 ^ 63) : atoi (itoa n) = some (Int64.ofNat n) := by
  have hminus : (itoa n).head? ≠ some 45 := head_itoa_ne (by decide)
  have hplus : (itoa n).head? ≠ some 43 := head_itoa_ne (by decide)
  unfold atoi
  rw [if_neg (not_or.mpr ⟨hminus, hplus⟩), parseDigits_itoa, Option.bind_some, if_neg hminus,
    if_pos h]

theorem atoi_minus_itoa {n : ℕ} (h : n ≤ 2 ^ 63) :
    atoi (45 :: itoa n) = some (Int64.ofInt (-n)) := by
  have hminus : (45 :: itoa n).head? = some 45 := rfl
  unfold atoi
  rw [if_pos (Or.inl hminus), List.tail_cons, parseDigits_itoa, Option.bind_some, if_pos hminus,
    if_pos h]

theorem atoi_itoaInt (v : Int64) : atoi (itoaInt v) = some v := by
  have hlt := v.toInt_lt
  have hle := v.le_toInt
  unfold itoaInt
  split
  case isTrue hneg =>
    have hval : -(v.toInt.natAbs : ℤ) = v.toInt := by omega
    rw [atoi_minus_itoa (by omega), hval, Int64.ofInt_toInt]
  case isFalse hpos =>
    have hval : (v.toInt.natAbs : ℤ) = v.toInt := by omega
    have hrange : v.toInt.natAbs < 2 ^ 63 := by omega
    rw [atoi_itoa hrange, Option.some.injEq, ← Int64.toInt_inj, Int64.toInt_ofNat_of_lt hrange,
      hval]

end DistLab.MapReduce
