import Lox.Proofs.Heap.Comparison

/-! # Aligned heaps

Heaps that are the same in all but what their objects are, which are related place by place. If
related objects have the same references and stay related when they are released, then collections
and allocations go the same way on both sides, also when they fail, for a collector looks at nothing
else.
-/
namespace Lox.Heap

/-- A relation of the objects at a place, which may depend on whether they have been released. -/
abbrev Relation := Ref → Bool → Object Value → Object Value → Prop

/-- A relation that a collector respects. -/
structure Regular (R : Relation) : Prop where
  kind {r b o p} : R r b o p → p.kind = o.kind
  references {r b o p} : R r b o p → p.references = o.references
  emptied {r b o p} : R r b o p → R r true o.emptied p.emptied

theorem Option.Rel.imp {α : Type} {S T : α → α → Prop} (sub : ∀ a b, S a b → T a b) {x y : Option α}
    (h : Option.Rel S x y) : Option.Rel T x y := by
  cases h with
  | none => exact .none
  | some h => exact .some (sub _ _ h)

structure CellsAligned (R : Bool → Object Value → Object Value → Prop) (c d : Cell Value) : Prop where
  object : R c.freed c.object d.object
  slot : d.slot = c.slot
  freed : d.freed = c.freed
  marked : d.marked = c.marked

def ArraysAligned (R : Relation) (cells others : Array (Cell Value)) : Prop :=
  ∀ i : Nat, Option.Rel (CellsAligned (R ⟨i⟩)) cells[i]? others[i]?

structure Aligned (R : Relation) (h g : Heap Value) : Prop where
  cells : ArraysAligned R h.cells g.cells
  rest : g = { h with cells := g.cells }

/-- The same operation on aligned heaps ends in the same way. -/
inductive InStep {α : Type} (R : Relation) : EStateM.Result Failure (Heap Value) α →
    EStateM.Result Failure (Heap Value) α → Prop
  | ok {a h g} : Aligned R h g → InStep R (.ok a h) (.ok a g)
  | error {f h g} : Aligned R h g → InStep R (.error f h) (.error f g)

variable {R : Relation}

namespace ArraysAligned
variable {cells others : Array (Cell Value)} (same : ArraysAligned R cells others)
include same

theorem size_eq : others.size = cells.size := by
  have less : ∀ i, i < others.size ↔ i < cells.size := by
    intro i
    have like := same i
    rw [← not_iff_not,Nat.not_lt,Nat.not_lt,← Array.getElem?_eq_none_iff,
      ← Array.getElem?_eq_none_iff]
    generalize cells[i]? = c,others[i]? = d at like
    cases like with
    | none => simp
    | some _ => simp
  exact Nat.le_antisymm (Nat.le_of_not_lt fun lt => Nat.lt_irrefl _ ((less _).mp lt))
    (Nat.le_of_not_lt fun lt => Nat.lt_irrefl _ ((less _).mpr lt))

theorem getElem {i : Nat} (h : i < cells.size) (h' : i < others.size) :
    CellsAligned (R ⟨i⟩) cells[i] others[i] := by
  have like := same i
  rw [Array.getElem?_eq_getElem h,Array.getElem?_eq_getElem h'] at like
  cases like with
  | some like => exact like

theorem modify {f g : Cell Value → Cell Value} {j : Nat}
    (h : ∀ c d, CellsAligned (R ⟨j⟩) c d → CellsAligned (R ⟨j⟩) (f c) (g d)) :
    ArraysAligned R (cells.modify j f) (others.modify j g) := by
  intro i
  have like := same i
  simp only [Array.getElem?_modify]
  generalize cells[i]? = c,others[i]? = d at like
  split
  · next e =>
    subst e
    cases like with
    | none => exact .none
    | some like => exact .some (h _ _ like)
  · exact like

theorem foldl_modify {f : Cell Value → Cell Value}
    (h : ∀ r c d, CellsAligned (R r) c d → CellsAligned (R r) (f c) (f d)) (l : List Ref) :
    ArraysAligned R (l.foldl (fun cells r => cells.modify r.index f) cells)
      (l.foldl (fun cells r => cells.modify r.index f) others) := by
  induction l generalizing cells others with
  | nil => exact same
  | cons r l ih => exact ih (same.modify (h r))

theorem set {i : Nat} (h : i < cells.size) (h' : i < others.size) {c d : Cell Value}
    (like : CellsAligned (R ⟨i⟩) c d) : ArraysAligned R (cells.set i c) (others.set i d) := by
  intro j
  have old := same j
  simp only [Array.getElem?_set]
  split
  · next e =>
    subst e
    exact .some like
  · exact old

theorem push {c d : Cell Value} (like : CellsAligned (R ⟨cells.size⟩) c d) :
    ArraysAligned R (cells.push c) (others.push d) := by
  intro j
  have old := same j
  simp only [Array.getElem?_push,same.size_eq]
  split
  · next e =>
    subst e
    exact .some like
  · exact old

omit same in
/-- Marking goes the same way on both sides. -/
theorem mark (regular : Regular R) (cells : Array (Cell Value)) (work : List Ref) :
    ∀ {others : Array (Cell Value)}, ArraysAligned R cells others →
      (Heap.mark others work).1 = (Heap.mark cells work).1 ∧
        ArraysAligned R (Heap.mark cells work).2 (Heap.mark others work).2 := by
  fun_induction Heap.mark cells work with
  | case1 =>
    intro others same
    rw [Heap.mark]
    exact ⟨rfl,same⟩
  | @case2 cells r work h c hm ih =>
    intro others same
    have h' : r.index < others.size := same.size_eq ▸ h
    have like := same.getElem h h'
    rw [Heap.mark,dif_pos h',dif_pos (like.marked.trans hm)]
    exact ih same
  | @case3 cells r work h c hm owned ih =>
    intro others same
    have h' : r.index < others.size := same.size_eq ▸ h
    have like := same.getElem h h'
    have owned' : others[r.index].isRegistered := by
      rw [Cell.isRegistered,like.slot,like.freed]
      exact owned
    rw [Heap.mark,dif_pos h',dif_neg (by rw [like.marked]; exact hm)]
    simp only [owned',if_true,regular.references like.object]
    exact ih (same.set h h' ⟨like.object,like.slot,like.freed,rfl⟩)
  | @case4 cells r work h c hm out =>
    intro others same
    have h' : r.index < others.size := same.size_eq ▸ h
    have like := same.getElem h h'
    have out' : ¬others[r.index].isRegistered := by
      rw [Cell.isRegistered,like.slot,like.freed]
      exact out
    rw [Heap.mark,dif_pos h',dif_neg (by rw [like.marked]; exact hm)]
    simp only [out',regular.kind like.object,like.slot]
    exact ⟨rfl,same⟩
  | case5 cells r work h =>
    intro others same
    rw [Heap.mark,dif_neg (by rw [same.size_eq]; exact h)]
    exact ⟨rfl,same⟩

end ArraysAligned

namespace Aligned
variable {h g : Heap Value} (regular : Regular R) (same : Aligned R h g)

section
include same

theorem isRegistered_eq (r : Ref) : g.isRegistered r = h.isRegistered r := by
  have like := same.cells r.index
  simp only [isRegistered]
  generalize h.cells[r.index]? = c,g.cells[r.index]? = d at like
  cases like with
  | none => rfl
  | some like => simp only [Option.map_some,Cell.isRegistered,like.slot,like.freed]

theorem isMarked_eq (r : Ref) : g.isMarked r = h.isMarked r := by
  have like := same.cells r.index
  simp only [isMarked]
  generalize h.cells[r.index]? = c,g.cells[r.index]? = d at like
  cases like with
  | none => rfl
  | some like => simp only [Option.map_some,like.marked]

theorem slotOf_eq (r : Ref) : g.slotOf r = h.slotOf r := by
  have like := same.cells r.index
  simp only [slotOf]
  generalize h.cells[r.index]? = c,g.cells[r.index]? = d at like
  cases like with
  | none => rfl
  | some like => simp only [Option.bind_some,like.slot]

theorem liveCount_eq : g.liveCount = h.liveCount := by rw [same.rest]; rfl

theorem rules_eq : g.rules = h.rules := by rw [same.rest]

theorem nextSlot_eq : g.nextSlot = h.nextSlot := by rw [same.rest]

theorem due_eq : g.due = h.due := by
  rw [same.rest]
  rfl

theorem unmarkAll : Aligned R h.unmarkAll g.unmarkAll := by
  obtain ⟨cells,rest⟩ := same
  have unmark : ∀ r c d, CellsAligned (R r) c d → CellsAligned (R r) c.unmark d.unmark :=
    fun r c d like => ⟨like.object,like.slot,like.freed,rfl⟩
  rw [rest]
  refine ⟨?_,rfl⟩
  simp only [Heap.unmarkAll,← Array.foldl_toList]
  exact cells.foldl_modify unmark _

theorem complete (freed next : Nat) : Aligned R (h.complete freed next) (g.complete freed next) := by
  obtain ⟨cells,rest⟩ := same
  rw [rest]
  exact ⟨cells,rfl⟩

theorem enroll (r : Ref) : Aligned R (h.enroll r) (g.enroll r) := by
  obtain ⟨cells,rest⟩ := same
  have slot : ∀ n c d, CellsAligned (R r) c d →
      CellsAligned (R r) { c with slot := some n } { d with slot := some n } :=
    fun n c d like => ⟨like.object,rfl,like.freed,like.marked⟩
  rw [rest]
  exact ⟨cells.modify (slot h.nextSlot),rfl⟩

theorem flush : Aligned R { h with journal := [] } { g with journal := [] } := by
  obtain ⟨cells,rest⟩ := same
  rw [rest]
  exact ⟨cells,rfl⟩

theorem create {o p : Object Value} (like : R ⟨h.cells.size⟩ false o p) :
    InStep R (create o h) (create p g) := by
  have size := same.cells.size_eq
  obtain ⟨cells,rest⟩ := same
  rw [Heap.create,Heap.create,size,rest]
  exact .ok ⟨cells.push ⟨like,rfl,rfl,rfl⟩,rfl⟩

theorem imp {S : Relation}
    (sub : ∀ r : Ref, r.index < h.cells.size → ∀ b o p, R r b o p → S r b o p) : Aligned S h g := by
  refine ⟨fun i => ?_,same.rest⟩
  have like := same.cells i
  by_cases lt : i < h.cells.size
  · exact Option.Rel.imp
      (fun c d like => ⟨sub ⟨i⟩ lt _ _ _ like.object,like.slot,like.freed,like.marked⟩) like
  · rw [Array.getElem?_eq_none (Nat.le_of_not_lt lt)] at like ⊢
    generalize g.cells[i]? = d at like
    cases like
    exact .none

/-- More may be known behind a write, as long as it holds of what is written. -/
theorem setObject {S : Relation} {r : Ref} {o p : Object Value}
    (others : ∀ s, s ≠ r → ∀ b o p, R s b o p → S s b o p)
    (here : ∀ c, h.cells[r.index]? = some c → S r c.freed o p) :
    Aligned S (h.setObject r o) (g.setObject r p) := by
  obtain ⟨cells,rest⟩ := same
  rw [rest]
  refine ⟨fun i => ?_,rfl⟩
  have like := cells i
  simp only [Heap.setObject,Array.getElem?_modify]
  by_cases e : r.index = i
  · subst e
    simp only [if_true]
    generalize hc : h.cells[r.index]? = c,g.cells[r.index]? = d at like here
    cases like with
    | none => exact .none
    | @some c d like => exact .some ⟨here c rfl,like.slot,like.freed,like.marked⟩
  · simp only [if_neg e]
    refine Option.Rel.imp (fun c d like => ?_) like
    refine ⟨others ⟨i⟩ ?_ _ _ _ like.object,like.slot,like.freed,like.marked⟩
    rintro rfl
    exact e rfl

end

section
include regular same

theorem kindOf_eq (r : Ref) : g.kindOf r = h.kindOf r := by
  have like := same.cells r.index
  simp only [kindOf]
  generalize h.cells[r.index]? = c,g.cells[r.index]? = d at like
  cases like with
  | none => rfl
  | some like => simp only [Option.map_some,regular.kind like.object]

theorem referencesOf_eq (r : Ref) : g.referencesOf r = h.referencesOf r := by
  have like := same.cells r.index
  simp only [referencesOf]
  generalize h.cells[r.index]? = c,g.cells[r.index]? = d at like
  cases like with
  | none => rfl
  | some like => simp only [Option.map_some,regular.references like.object]

theorem markFrom (roots : List Ref) : (g.markFrom roots).1 = (h.markFrom roots).1 ∧
    Aligned R (h.markFrom roots).2 (g.markFrom roots).2 := by
  have clean := same.unmarkAll
  have marked := ArraysAligned.mark regular _ roots.reverse clean.cells
  refine ⟨marked.1,marked.2,?_⟩
  have rest := clean.rest
  simp only [Heap.markFrom]
  rw [rest]

theorem sweep : Aligned R h.sweep g.sweep := by
  have marked : g.isMarked = h.isMarked := funext same.isMarked_eq
  have kinds : g.kindOf = h.kindOf := funext (same.kindOf_eq regular)
  have slots : g.slotOf = h.slotOf := funext same.slotOf_eq
  obtain ⟨cells,rest⟩ := same
  have registered : g.registered = h.registered := by rw [rest]
  have journal : g.journal = h.journal := by rw [rest]
  have release : ∀ r c d, CellsAligned (R r) c d → CellsAligned (R r) c.release d.release :=
    fun r c d like => ⟨regular.emptied like.object,like.slot,rfl,like.marked⟩
  constructor
  · simp only [Heap.sweep,marked,registered,← Array.foldl_toList]
    exact cells.foldl_modify release _
  · simp only [Heap.sweep,marked,kinds,slots,registered,journal]
    rw [rest]

theorem strayReference?_eq (r : Ref) : g.strayReference? r = h.strayReference? r := by
  simp only [strayReference?,same.referencesOf_eq regular,same.isRegistered_eq,
    same.kindOf_eq regular,same.slotOf_eq]

theorem verify_eq : g.verify = h.verify := by
  have registered : g.registered = h.registered := by rw [same.rest]
  simp only [verify,registered,funext (same.strayReference?_eq regular)]

theorem inStep_audit : InStep R (audit h) (audit g) := by
  have audited : Aligned R { h with audits := h.audits + 1 } { g with audits := g.audits + 1 } := by
    obtain ⟨cells,rest⟩ := same
    rw [rest]
    exact ⟨cells,rfl⟩
  simp only [audit,same.verify_eq regular]
  cases h.verify with
  | some f => exact .error audited
  | none => exact .ok audited

/-- Aligned heaps stay so through a collection, which releases the same number of objects. -/
theorem inStep_collect (roots : List Ref) : InStep R (collect roots h) (collect roots g) := by
  obtain ⟨faults,marked⟩ := same.markFrom regular roots
  simp only [collect]
  generalize h.markFrom roots = x,g.markFrom roots = y at faults marked
  obtain ⟨fault,h⟩ := x
  obtain ⟨fault',g⟩ := y
  obtain rfl : fault' = fault := faults
  cases fault' with
  | some f => exact .error marked
  | none =>
    have swept := marked.sweep regular
    dsimp only
    rw [marked.liveCount_eq,swept.liveCount_eq,swept.rules_eq]
    cases grownThreshold h.sweep.rules h.sweep.liveCount with
    | error e => exact .error swept
    | ok next =>
      have completed := swept.complete (h.liveCount - h.sweep.liveCount) next
      dsimp only
      rw [completed.rules_eq]
      split
      · have audited := completed.inStep_audit regular
        simp only [SeqRight.seqRight,EStateM.seqRight]
        generalize audit (h.sweep.complete _ next) = x,audit (g.sweep.complete _ next) = y
          at audited
        cases audited with
        | ok rest => exact .ok rest
        | error rest => exact .error rest
      · exact .ok completed

theorem inStep_register (r : Ref) (roots : List Ref) :
    InStep R (register r roots h) (register r roots g) := by
  have like := same.cells r.index
  simp only [register]
  generalize h.cells[r.index]? = c,g.cells[r.index]? = d at like
  cases like with
  | none => exact .error same
  | @some c d like =>
    dsimp only
    rw [like.slot,regular.kind like.object,regular.references like.object,same.due_eq]
    cases c.slot with
    | some slot => exact .error same
    | none =>
      dsimp only
      split
      · have collected := same.inStep_collect regular (roots ++ c.object.references)
        generalize collect _ h = x,collect _ g = y at collected
        cases collected with
        | error same => exact .error same
        | ok same =>
          dsimp only
          rw [same.nextSlot_eq]
          exact .ok (same.enroll r)
      · rw [same.nextSlot_eq]
        exact .ok (same.enroll r)

theorem inStep_place {o p : Object Value} (like : R ⟨h.cells.size⟩ false o p) (roots : List Ref) :
    InStep R (place o roots h) (place p roots g) := by
  have created := same.create like
  simp only [place,Bind.bind,EStateM.bind]
  generalize Heap.create o h = x,Heap.create p g = y at created
  cases created with
  | error same => exact .error same
  | @ok r h g same =>
    have registered := same.inStep_register regular r roots
    dsimp only
    generalize register r roots h = x,register r roots g = y at registered
    cases registered with
    | error same => exact .error same
    | ok same => exact .ok same

end
end Aligned
end Lox.Heap
