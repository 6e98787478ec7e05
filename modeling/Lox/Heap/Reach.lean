import Lox.Heap.Basic

/-! # Reach

What a list of roots keeps alive: the roots and, from there on, all that a reached object refers
to. Reach grows with the roots, and no matter in which order or how often they are given.
-/
namespace Lox.Heap
variable {ν : Type} [Holder ν]

inductive Reach (h : Heap ν) (roots : List Ref) : Ref → Prop
  | root {r : Ref} : r ∈ roots → Reach h roots r
  | step {r s : Ref} : Reach h roots r → s ∈ h.referencesOf r → Reach h roots s

/-- Everything in reach of the roots is the heap's own. -/
def Sound (h : Heap ν) (roots : List Ref) : Prop := ∀ r, h.Reach roots r → h.isRegistered r

/-- The heap's own objects refer to nothing else. -/
def Closed (h : Heap ν) : Prop :=
  ∀ r, h.isRegistered r → ∀ s ∈ h.referencesOf r, h.isRegistered s

theorem Reach.mono {h : Heap ν} {roots more : List Ref} (sub : ∀ r ∈ roots, r ∈ more) {r : Ref}
    (reach : h.Reach roots r) : h.Reach more r := by
  induction reach with
  | root m => exact .root (sub _ m)
  | step _ m ih => exact .step ih m

theorem reach_congr {h : Heap ν} {roots others : List Ref} (same : ∀ r, r ∈ roots ↔ r ∈ others)
    (r : Ref) : h.Reach roots r ↔ h.Reach others r :=
  ⟨Reach.mono fun r => (same r).mp,Reach.mono fun r => (same r).mpr⟩

theorem not_reach_nil {h : Heap ν} (r : Ref) : ¬h.Reach [] r := by
  intro reach
  induction reach with
  | root m => exact absurd m (by simp)
  | step _ _ ih => exact ih

/-- Registered roots of a closed heap keep alive only what the heap owns. -/
theorem Closed.sound {h : Heap ν} (closed : h.Closed) {roots : List Ref}
    (owned : ∀ r ∈ roots, h.isRegistered r) : h.Sound roots := by
  intro r reach
  induction reach with
  | root m => exact owned _ m
  | step _ m ih => exact closed _ ih _ m

end Lox.Heap
