import Mathlib.Data.List.Basic

/-! # Pipes

A pipe hands out, in order, what is put into it. Its input is cut into pieces when it
is sent; a number of them has come out, the rest of the input is not cut yet. What has
come out is always a prefix of what was put in.
-/

namespace DistLab

structure Pipe (α : Type*) where
  pieces : List (List α)
  rest : List α
  out : ℕ
  out_le : out ≤ pieces.length

namespace Pipe

variable {α : Type*} (p : Pipe α)

def given : List α := p.pieces.flatten ++ p.rest

def delivered : List α := (p.pieces.take p.out).flatten

theorem delivered_isPrefix : p.delivered <+: p.given := by
  have h : p.delivered ++ ((p.pieces.drop p.out).flatten ++ p.rest) = p.given := by
    rw [delivered, given, ← List.append_assoc, ← List.flatten_append, List.take_append_drop]
  exact h ▸ List.prefix_append _ _

def send (qs : List (List α)) (rest : List α) : Pipe α where
  pieces := p.pieces ++ qs
  rest := rest
  out := p.out
  out_le := by
    have := p.out_le
    simp only [List.length_append]
    omega

def receive (k : ℕ) (h : p.out + k ≤ p.pieces.length) : Pipe α where
  pieces := p.pieces
  rest := p.rest
  out := p.out + k
  out_le := h

variable {p} {qs : List (List α)} {rest xs : List α} {k : ℕ}

theorem given_send (h : qs.flatten ++ rest = p.rest ++ xs) :
    (p.send qs rest).given = p.given ++ xs := by
  simp [given, send, h]

theorem delivered_send : (p.send qs rest).delivered = p.delivered := by
  simp [delivered, send, List.take_append_of_le_length p.out_le]

theorem delivered_receive (h : p.out + k ≤ p.pieces.length) : (p.receive k h).delivered =
    p.delivered ++ ((p.pieces.drop p.out).take k).flatten := by
  simp [delivered, receive, List.take_add]

end Pipe

end DistLab
