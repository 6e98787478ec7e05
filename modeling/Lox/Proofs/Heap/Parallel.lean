import Lox.Proofs.Heap.Aligned

/-! # Parallel heaps

Heaps that are the same in all but the positions in their routines. Every operation has the same
result on both and leaves parallel heaps, also when it fails, for no operation of the heap looks
at a position.
-/
namespace Lox.Heap
variable {P : Pos → Pos → Prop}

structure Matches (P : Pos → Pos → Prop) (c d : Cell Value) : Prop extends Cell.Alike P c d where
  marked : d.marked = c.marked

def CellsMatch (P : Pos → Pos → Prop) (cells others : Array (Cell Value)) : Prop :=
  ∀ i : Nat, Option.Rel (Matches P) cells[i]? others[i]?

structure Parallel (P : Pos → Pos → Prop) (h g : Heap Value) : Prop where
  cells : CellsMatch P h.cells g.cells
  rest : g = { h with cells := g.cells }

/-- Objects are the same but for positions. -/
abbrev alikeness (P : Pos → Pos → Prop) : Relation := fun _ _ => Object.Alike P

theorem regular_alikeness (P : Pos → Pos → Prop) : Regular (alikeness P) where
  kind like := like.kind
  references like := like.references
  emptied like := like.emptied

theorem parallel_iff {h g : Heap Value} : Parallel P h g ↔ Aligned (alikeness P) h g := by
  have cells : ∀ {c d : Cell Value}, Matches P c d ↔ CellsAligned (fun _ => Object.Alike P) c d :=
    ⟨fun like => ⟨like.object,like.slot,like.freed,like.marked⟩,
      fun like => ⟨⟨like.object,like.slot,like.freed⟩,like.marked⟩⟩
  constructor
  · exact fun same => ⟨fun i => Option.Rel.imp (fun _ _ => cells.mp) (same.cells i),same.rest⟩
  · exact fun same => ⟨fun i => Option.Rel.imp (fun _ _ => cells.mpr) (same.cells i),same.rest⟩

/-- Parallel heaps compare whatever is held. Neither side breaks off alone. -/
def parallel (P : Pos → Pos → Prop) (refl : ∀ p, P p p) : Comparison where
  pos := P
  heaps _ := Parallel P
  safe := False
  lax := False
  refl
  less same _ := same
  cell {_ h g r} same _ := by
    have like := same.cells r.index
    generalize h.cells[r.index]? = c,g.cells[r.index]? = d at like
    cases like with
    | none => exact .none
    | some like => exact .some like.toAlike
  live safe := safe.elim
  follow same _ := same
  write same _ like _ :=
    parallel_iff.mpr ((parallel_iff.mp same).setObject (fun _ _ _ _ _ => id) fun _ _ => like)
  flush same := parallel_iff.mpr (parallel_iff.mp same).flush
  place {K roots h g o p} same like _ _ := by
    have placed := (parallel_iff.mp same).inStep_place (regular_alikeness P) like roots
    generalize Heap.place o roots h = x,Heap.place p roots g = y at placed
    cases placed with
    | ok same => exact .inl ⟨_,_,_,rfl,rfl,parallel_iff.mpr same⟩
    | error same => exact .inr (.inl ⟨_,_,_,rfl,rfl,False.elim,parallel_iff.mpr same⟩)

end Lox.Heap
