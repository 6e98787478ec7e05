import Lox.Heap.Basic

/-! # Collection

A collection marks what the roots reach, depth first, and releases the rest. It stops at the first
object in reach that the heap does not own; then some marks are set and nothing else has changed.
After the sweep the next threshold is fixed and the counters move.
-/
namespace Lox.Heap
variable {ν : Type}

/-- How much there is to mark in a cell: itself and its references. -/
def weight [Holder ν] (c : Cell ν) : Nat :=
  if c.marked then 0 else c.object.references.length + 1

/-- How much there is to mark at all. -/
def burden [Holder ν] (cells : Array (Cell ν)) : Nat := (cells.toList.map weight).foldr (· + ·) 0

theorem foldr_set_add {l : List Nat} {i x : Nat} (h : i < l.length) :
    (l.set i x).foldr (· + ·) 0 + l[i] = l.foldr (· + ·) 0 + x := by
  induction l generalizing i with
  | nil => simp at h
  | cons y l ih =>
    cases i with
    | zero => simp only [List.set_cons_zero,List.foldr_cons,List.getElem_cons_zero]; omega
    | succ i =>
      have := ih (Nat.lt_of_succ_lt_succ h)
      simp only [List.set_cons_succ,List.foldr_cons,List.getElem_cons_succ]
      omega

theorem burden_set_mark [Holder ν] {cells : Array (Cell ν)} {i : Nat} (h : i < cells.size)
    (hm : cells[i].marked = false) :
    burden (cells.set i cells[i].mark h) + cells[i].object.references.length + 1 =
      burden cells := by
  have e := foldr_set_add (l := cells.toList.map weight) (i := i) (x := 0) (by simpa using h)
  have zero : weight cells[i].mark = 0 := rfl
  simp only [burden,Array.toList_set,List.map_set,zero]
  simp only [List.getElem_map,Array.getElem_toList] at e
  rw [show weight cells[i] = cells[i].object.references.length + 1 by simp [weight,hm]] at e
  omega

/-- Marks what is reached from a stack of references. -/
def mark [Holder ν] (cells : Array (Cell ν)) : List Ref → Option Fault × Array (Cell ν)
  | [] => (none,cells)
  | r :: work =>
    if h : r.index < cells.size then
      let c := cells[r.index]
      if hm : c.marked then mark cells work
      else if c.isRegistered then
        mark (cells.set r.index c.mark h) (c.object.references.reverse ++ work)
      else (some (.strayReachable c.object.kind c.slot),cells)
    else (some .noObject,cells)
termination_by work => burden cells + work.length
decreasing_by
  · exact Nat.lt_succ_self _
  · have := burden_set_mark h (by simpa using hm)
    simp only [List.length_append,List.length_reverse,List.length_cons]
    omega

def unmarkAll (h : Heap ν) : Heap ν :=
  { h with cells := h.registered.foldl (fun cells r => cells.modify r.index Cell.unmark) h.cells }

/-- The last root is looked at first. -/
def markFrom [Holder ν] (h : Heap ν) (roots : List Ref) : Option Fault × Heap ν :=
  let h := h.unmarkAll
  let (fault,cells) := mark h.cells roots.reverse
  (fault,{ h with cells })

/-- Releases the unmarked objects in the order of their slots. -/
def sweep (h : Heap ν) : Heap ν :=
  let dead := h.registered.filter fun r => !h.isMarked r
  let events := dead.foldl (fun es r => .release (h.kindOf r) (h.slotOf r) :: es) h.journal
  { h with
    registered := h.registered.filter h.isMarked
    cells := dead.foldl (fun cells r => cells.modify r.index Cell.release) h.cells
    journal := events }

/-- The live count times the growth factor, and no less than the first threshold. -/
def grownThreshold (rules : Rules) (live : Nat) : Except Number.NotIntegral Nat := do
  let n ← Number.truncate (Float.ofNat live * rules.growth)
  return max rules.threshold n.toNat

/-- Counts a completed collection. -/
def complete (h : Heap ν) (freed next : Nat) : Heap ν :=
  { h with
    nextThreshold := next
    collections := h.collections + 1
    lastFreed := freed
    freed := h.freed + freed
    journal := .cycle (h.collections + 1) freed h.liveCount next :: h.journal }

def strayReference? [Holder ν] (h : Heap ν) (r : Ref) : Option Fault :=
  ((h.referencesOf r).find? fun s => !h.isRegistered s).map fun s =>
    .strayReference (h.kindOf r) (h.slotOf r) (h.kindOf s)

/-- The first object in slot order that refers to something the heap does not own. -/
def verify [Holder ν] (h : Heap ν) : Option Fault := h.registered.toList.findSome? h.strayReference?

def audit [Holder ν] : HeapM ν Unit := fun h =>
  match h.verify with
  | some f => .error (.fault f) { h with audits := h.audits + 1 }
  | none => .ok () { h with audits := h.audits + 1 }

/-- Runs a collection and returns how many objects it released. -/
def collect [Holder ν] (roots : List Ref) : HeapM ν Nat := fun h =>
  match h.markFrom roots with
  | (some f,h) => .error (.fault f) h
  | (none,h) =>
    let live := h.liveCount
    let h := h.sweep
    let freed := live - h.liveCount
    match grownThreshold h.rules h.liveCount with
    | .error e => .error (.fault (.threshold e)) h
    | .ok next =>
      let h := h.complete freed next
      if h.rules.audited then (audit *> pure freed) h else .ok freed h

/-- Whether an allocation has to collect first. -/
def due (h : Heap ν) : Bool :=
  h.rules.automatic && (h.rules.stress || h.nextThreshold ≤ h.liveCount)

/-- Registers an object and returns its slot. What the object refers to survives the collection
that may come first. -/
def register [Holder ν] (r : Ref) (roots : List Ref) : HeapM ν Nat := fun h =>
  match h.cells[r.index]? with
  | none => .error (.fault .noObject) h
  | some c =>
    match c.slot with
    | some slot => .error (.fault (.alreadyRegistered c.object.kind slot)) h
    | none =>
      if h.due then
        match collect (roots ++ c.object.references) h with
        | .ok _ h => .ok h.nextSlot (h.enroll r)
        | .error f h => .error f h
      else .ok h.nextSlot (h.enroll r)

end Lox.Heap
