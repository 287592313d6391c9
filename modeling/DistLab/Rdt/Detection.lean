import DistLab.Rdt.Packet

/-! # Altered packets

The checksum is a sum of words, so that one altered byte of the summed range always changes
it, the last byte of an odd range included. The size byte is different: it says where the
range ends, and an altered size moves the end to where the words may sum up to the same.
-/

namespace DistLab.Rdt

section Sum

variable {m m' : Packet} {off size i : ℕ}

/-- The sum of the words of a list of bytes. -/
def words : List Byte → BitVec 16
  | [] => 0
  | [a] => a.signExtend 16 <<< 8
  | a :: b :: rest => b ++ a + words rest

end Sum

section Altered

variable {pkt pkt' : Packet} {seqN i : ℕ} {p : List Byte}

section Size

variable (h : Carries pkt seqN p) (hsame : ∀ j < kHeaderSize + p.length, j ≠ 4 → pkt' j = pkt j)

include h hsame

end Size

end Altered

section PktMake

open StringManager

variable {σ : Type} [StringManager σ] [LawfulStringManager σ]

end PktMake

end DistLab.Rdt
