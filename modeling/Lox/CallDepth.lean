/-! # Call depth

A bound on the number of nested calls, with a record of how deep they went and how often the bound
was met.
-/
namespace Lox

structure CallDepth where
  limit : Int
  depth : Nat := 0
  deepest : Nat := 0
  refused : Nat := 0
deriving DecidableEq, Repr

namespace CallDepth

/-- The depth that was asked for beyond the limit. -/
structure Overflow where
  depth : Nat
  limit : Int
deriving DecidableEq, Repr

def Overflow.message (o : Overflow) : String := s!"Stack depth {o.depth} exceeds maximum {o.limit}"

def enter (c : CallDepth) : Option Overflow × CallDepth :=
  if c.limit < c.depth + 1 then
    (some ⟨c.depth + 1,c.limit⟩,{ c with refused := c.refused + 1 })
  else (none,{ c with depth := c.depth + 1, deepest := max c.deepest (c.depth + 1) })

def exit (c : CallDepth) : CallDepth := { c with depth := c.depth - 1 }

def reset (c : CallDepth) : CallDepth := { c with depth := 0 }

theorem exit_enter {c d : CallDepth} (h : c.enter = (none,d)) : d.exit.depth = c.depth := by
  simp only [enter] at h
  split at h
  · exact absurd h (by simp)
  · obtain ⟨-,rfl⟩ := Prod.mk.injEq .. ▸ h
    rfl

theorem depth_le_limit {c d : CallDepth} (h : c.enter = (none,d)) : (d.depth : Int) ≤ c.limit := by
  simp only [enter] at h
  split at h
  · exact absurd h (by simp)
  · next hl =>
    obtain ⟨-,rfl⟩ := Prod.mk.injEq .. ▸ h
    simp only [Int.natCast_add,Int.cast_ofNat_Int]
    omega

end CallDepth
end Lox
