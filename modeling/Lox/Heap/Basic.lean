import Lox.Failure

/-! # The heap

Every object has a cell for ever. Registering an object gives its cell the next slot and makes the
heap its owner, until a collection finds it out of reach and releases it. `registered` lists the
objects the heap owns in the order of their slots.
-/
namespace Lox

structure Cell (ν : Type) where
  object : Object ν
  slot : Option Nat := none
  marked : Bool := false
  freed : Bool := false

namespace Cell
variable {ν : Type}

def isRegistered (c : Cell ν) : Bool := c.slot.isSome && !c.freed

def mark (c : Cell ν) : Cell ν := { c with marked := true }

def unmark (c : Cell ν) : Cell ν := { c with marked := false }

/-- A released object keeps its slot and loses its contents. -/
def release (c : Cell ν) : Cell ν := { c with object := c.object.emptied, freed := true }

end Cell

namespace Heap

/-- When to collect. -/
structure Rules where
  /-- The least number of live objects at which an allocation collects first. -/
  threshold : Nat := 256
  /-- After a collection the threshold is the live count times this factor. -/
  growth : Float := 2
  /-- Every allocation collects first. -/
  stress : Bool := false
  /-- Allocations collect at all. -/
  automatic : Bool := true
  /-- Every collection is followed by a check of all references. -/
  audited : Bool := false

inductive RuleError
  | thresholdNotPositive
  | growthNotAboveOne
deriving DecidableEq, Repr

def RuleError.message : RuleError → String
  | thresholdNotPositive => "initial_threshold must be positive"
  | growthNotAboveOne => "growth_factor must be greater than 1"

/-- Rules for a heap, if they make sense. -/
def Rules.check (threshold : Int) (growth : Float) (stress automatic audited : Bool) :
    Except RuleError Rules :=
  if threshold < 1 then .error .thresholdNotPositive
  else if growth ≤ 1 then .error .growthNotAboveOne
  else .ok ⟨threshold.toNat,growth,stress,automatic,audited⟩

/-- What a collection did. -/
inductive Event
  | release (kind : ObjectKind) (slot : Option Nat)
  | cycle (number freed live next : Nat)
deriving DecidableEq, Repr

def Event.message : Event → String
  | release kind slot => s!"gc: releasing {kind.noun} in slot {slotText slot}"
  | cycle number freed live next =>
    s!"gc cycle {number}: freed {freed}, live {live}, next at {next}"

end Heap

structure Heap (ν : Type) where
  rules : Heap.Rules := {}
  cells : Array (Cell ν) := #[]
  registered : Array Ref := #[]
  nextSlot : Nat := 1
  nextThreshold : Nat := rules.threshold
  allocated : Nat := 0
  freed : Nat := 0
  collections : Nat := 0
  lastFreed : Nat := 0
  peakLive : Nat := 0
  audits : Nat := 0
  /-- What collections did, last event first. -/
  journal : List Heap.Event := []

/-- An operation on a heap. The heap it leaves behind matters also when it fails. -/
abbrev HeapM (ν : Type) := EStateM Failure (Heap ν)

namespace Heap
variable {ν : Type}

instance : Inhabited (Heap ν) := ⟨{}⟩

def liveCount (h : Heap ν) : Nat := h.registered.size

def object? (h : Heap ν) (r : Ref) : Option (Object ν) := h.cells[r.index]?.map (·.object)

def isRegistered (h : Heap ν) (r : Ref) : Bool :=
  (h.cells[r.index]?.map (·.isRegistered)).getD false

def isMarked (h : Heap ν) (r : Ref) : Bool := (h.cells[r.index]?.map (·.marked)).getD false

def kindOf (h : Heap ν) (r : Ref) : ObjectKind :=
  (h.cells[r.index]?.map (·.object.kind)).getD .plain

def slotOf (h : Heap ν) (r : Ref) : Option Nat := h.cells[r.index]?.bind (·.slot)

def referencesOf [Holder ν] (h : Heap ν) (r : Ref) : List Ref :=
  (h.cells[r.index]?.map (·.object.references)).getD []

/-- A new object, which the heap does not own yet. -/
def create (o : Object ν) : HeapM ν Ref := fun h =>
  let r := Ref.mk h.cells.size
  .ok r { h with cells := h.cells.push { object := o } }

/-- Makes an object the heap's own, in the next slot. -/
def enroll (h : Heap ν) (r : Ref) : Heap ν :=
  let slot := h.nextSlot
  let cells := h.cells.modify r.index fun c => { c with slot := some slot }
  let registered := h.registered.push r
  { h with
    cells
    registered
    nextSlot := slot + 1
    allocated := h.allocated + 1
    peakLive := max h.peakLive registered.size }

def setObject (h : Heap ν) (r : Ref) (o : Object ν) : Heap ν :=
  { h with cells := h.cells.modify r.index fun c => { c with object := o } }

def kinds : List ObjectKind := [.klass,.environment,.function,.instanceOf,.plain]

/-- How many objects of a kind the heap owns. -/
def countOf (h : Heap ν) (k : ObjectKind) : Nat :=
  h.registered.foldl (fun n r => if h.kindOf r = k then n + 1 else n) 0

/-- The kinds that the heap owns objects of, with their counts, in the order of their names. -/
def kindCounts (h : Heap ν) : List (ObjectKind × Nat) :=
  (kinds.map fun k => (k,h.countOf k)).filter fun (_,n) => 0 < n

end Heap
end Lox
