import Lox.Heap.Basic

/-! # Access to objects

Reading and writing what objects hold. Every operation refuses a released object. A chain of
environments is walked by a number of hops, a chain of classes until one has the method; classes
come after their superclasses, so that the walk ends.
-/
namespace Lox.Heap
variable {ν : Type}

/-- The cell of an object that has not been released. -/
def live (h : Heap ν) (r : Ref) : Except Failure (Cell ν) :=
  match h.cells[r.index]? with
  | none => .error (.fault .noObject)
  | some c => if c.freed then .error (.fault (.released c.object.kind c.slot)) else .ok c

def wrongKind {α : Type} : Except Failure α := .error (.fault .wrongKind)

/-- An operation that reads a heap. -/
def reading {α : Type} (f : Heap ν → Except Failure α) : HeapM ν α := fun h =>
  match f h with
  | .ok x => .ok x h
  | .error e => .error e h

/-! ## Environments -/

def environment (h : Heap ν) (r : Ref) : Except Failure (Bindings ν × Option Ref) := do
  match (← h.live r).object with
  | .environment values enclosing => return (values,enclosing)
  | _ => wrongKind

/-- Binds a name; a name that is bound gets the new value. -/
def define (r : Ref) (name : String) (x : ν) : HeapM ν Unit := fun h =>
  match h.environment r with
  | .error e => .error e h
  | .ok (values,enclosing) =>
    .ok () (h.setObject r (.environment (values.set name x) enclosing))

def assign (r : Ref) (name : String) (x : ν) : HeapM ν Unit := fun h =>
  match h.environment r with
  | .error e => .error e h
  | .ok (values,enclosing) =>
    if values.contains name then
      .ok () (h.setObject r (.environment (values.set name x) enclosing))
    else .error (.cause (.undefinedVariable name)) h

def lookup (h : Heap ν) (r : Ref) (name : String) : Except Failure ν := do
  let (values,_) ← h.environment r
  match values.get? name with
  | some x => return x
  | none => .error (.cause (.undefinedVariable name))

/-- The environment so many hops out, as part of a walk of a whole distance. -/
def hop (h : Heap ν) (distance : Int) : Nat → Ref → Except Failure Ref
  | 0, r => do
    let _ ← h.live r
    return r
  | hops + 1, r => do
    let (_,enclosing) ← h.environment r
    match enclosing with
    | some r => hop h distance hops r
    | none => .error (.fault (.chainTooShort distance))

/-- The environment at a distance. A distance below zero is no hop at all. -/
def ancestor (h : Heap ν) (r : Ref) (distance : Int) : Except Failure Ref :=
  h.hop distance distance.toNat r

def lookupAt (h : Heap ν) (r : Ref) (distance : Int) (name : String) : Except Failure ν := do
  let r ← h.ancestor r distance
  let (values,_) ← h.environment r
  match values.get? name with
  | some x => return x
  | none => .error (.fault (.missingName name distance))

def assignAt (r : Ref) (distance : Int) (name : String) (x : ν) : HeapM ν Unit := fun h =>
  match h.ancestor r distance with
  | .error e => .error e h
  | .ok r => assign r name x h

/-- Gives an environment another link, whatever its state. No other object has such a link. -/
def enclose (r : Ref) (enclosing : Option Ref) : HeapM ν Unit := fun h =>
  match h.object? r with
  | some (.environment values _) => .ok () (h.setObject r (.environment values enclosing))
  | _ => .ok () h

/-! ## Functions, classes and instances -/

/-- The declaration of a function, which outlives its release. -/
def routine (h : Heap ν) (r : Ref) : Except Failure Routine :=
  match h.object? r with
  | some (.function routine _) => .ok routine
  | _ => wrongKind

def function (h : Heap ν) (r : Ref) : Except Failure (Routine × Option Ref) := do
  match (← h.live r).object with
  | .function routine closure => return (routine,closure)
  | _ => wrongKind

/-- The method of the nearest class on the chain that has it. -/
def findMethod (h : Heap ν) (r : Ref) (name : String) : Except Failure (Option Ref) :=
  match h.live r with
  | .error e => .error e
  | .ok c =>
    match c.object with
    | .klass _ superclass methods =>
      match methods.get? name, superclass with
      | some m, _ => .ok (some m)
      | none, none => .ok none
      | none, some s =>
        if s.index < r.index then findMethod h s name else .error (.fault .classOrder)
    | _ => wrongKind
termination_by r.index

/-- What a property of an instance is: a field, or a method of its class. -/
inductive Property (ν : Type)
  | field (x : ν)
  | method (function : Ref)

def property (h : Heap ν) (r : Ref) (name : String) : Except Failure (Property ν) := do
  match (← h.live r).object with
  | .instanceOf base fields =>
    match fields.get? name, base with
    | some x, _ => return .field x
    | none, some c =>
      match ← h.findMethod c name with
      | some m => return .method m
      | none => .error (.cause (.undefinedProperty name))
    | none, none => wrongKind
  | _ => wrongKind

def setField (r : Ref) (name : String) (x : ν) : HeapM ν Unit := fun h =>
  match h.live r with
  | .error e => .error e h
  | .ok c =>
    match c.object with
    | .instanceOf base fields => .ok () (h.setObject r (.instanceOf base (fields.set name x)))
    | _ => .error (.fault .wrongKind) h

/-- The number of arguments a call takes: of a class, what its initializer takes. -/
def arity (h : Heap ν) (r : Ref) : Except Failure Nat :=
  match h.kindOf r with
  | .klass => do
    match ← h.findMethod r "init" with
    | some m => return (← h.routine m).arity
    | none => return 0
  | _ => do return (← h.routine r).arity

/-! ## Texts -/

/-- The name that a function or a class was declared with. -/
def declaredName (h : Heap ν) (r : Ref) : Except Failure String :=
  match h.object? r with
  | some (.function routine _) => .ok routine.name.text
  | some (.klass name _ _) => .ok name
  | _ => wrongKind

/-- How a program prints an object. A released instance has no class to name. -/
def inspect (h : Heap ν) (r : Ref) : Except Failure String :=
  match h.object? r with
  | some (.function routine _) => .ok s!"<fn {routine.name.text}>"
  | some (.klass name _ _) => .ok name
  | some (.instanceOf (some c) _) => (h.declaredName c).map (· ++ " instance")
  | _ => wrongKind

/-- An environment with its slot and the names it binds, sorted. -/
def environmentText (h : Heap ν) (r : Ref) : Except Failure String :=
  match h.object? r with
  | some (.environment values _) =>
    let names := values.names.mergeSort fun a b => !(b < a)
    .ok s!"<Environment slot={slotText (h.slotOf r)} names={Text.quotedList names}>"
  | _ => wrongKind

end Lox.Heap
