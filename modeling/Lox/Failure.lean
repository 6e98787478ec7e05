import Lox.Heap.Object
import Lox.Number.Binary
import Lox.Report

/-! # Failures of running programs

A runtime error is the fault of a program and has a position in its source. A fault is none of a
program's doing: it shows that an invariant of the machine does not hold.
-/
namespace Lox

namespace RuntimeError

inductive Kind
  | typeMismatch
  | undefinedVariable
  | undefinedProperty
  | arityMismatch
  | notCallable
  | divideByZero
  | invalidSuperclass
  | stackOverflow
deriving DecidableEq, Repr

def Kind.label : Kind → String
  | typeMismatch => "TypeMismatch"
  | undefinedVariable => "UndefinedVariable"
  | undefinedProperty => "UndefinedProperty"
  | arityMismatch => "ArityMismatch"
  | notCallable => "NotCallable"
  | divideByZero => "DivideByZero"
  | invalidSuperclass => "InvalidSuperclass"
  | stackOverflow => "StackOverflow"

inductive Cause
  | operandNotNumber
  | operandsNotNumbers
  | operandsNotAddable
  | divisionByZero
  | noProperties
  | noFields
  | superclassNotClass
  | undefinedProperty (name : String)
  | undefinedVariable (name : String)
  | notCallable
  | wrongArity (expected got : Nat)
  | tooDeep
deriving DecidableEq, Repr

def Cause.kind : Cause → Kind
  | operandNotNumber | operandsNotNumbers | operandsNotAddable | noProperties | noFields =>
    .typeMismatch
  | divisionByZero => .divideByZero
  | superclassNotClass => .invalidSuperclass
  | undefinedProperty _ => .undefinedProperty
  | undefinedVariable _ => .undefinedVariable
  | notCallable => .notCallable
  | wrongArity _ _ => .arityMismatch
  | tooDeep => .stackOverflow

def Cause.message : Cause → String
  | operandNotNumber => "Operand must be a number."
  | operandsNotNumbers => "Operands must be numbers."
  | operandsNotAddable => "Operands must be two numbers or two strings."
  | divisionByZero => "Division by zero."
  | noProperties => "Only instances have properties."
  | noFields => "Only instances have fields."
  | superclassNotClass => "Superclass must be a class."
  | undefinedProperty name => s!"Undefined property '{name}'."
  | undefinedVariable name => s!"Undefined variable '{name}'."
  | notCallable => "Can only call functions and classes."
  | wrongArity expected got => s!"Expected {expected} arguments but got {got}."
  | tooDeep => "Stack overflow."

end RuntimeError

structure RuntimeError where
  cause : RuntimeError.Cause
  pos : Pos
deriving DecidableEq, Repr

namespace RuntimeError

def message (e : RuntimeError) : String := e.cause.message

def kind (e : RuntimeError) : Kind := e.cause.kind

/-- The report of an error that names the given file, or none. -/
def report (e : RuntimeError) (file : Option String) : Report :=
  ⟨.runtime e.kind.label,e.message,some e.pos.line,some e.pos.column,file⟩

def description (e : RuntimeError) : String :=
  s!"LoxRuntimeError({e.kind.label}, {Text.quoted e.message}, line={e.pos.line})"

end RuntimeError

inductive Fault
  /-- A released object was used. -/
  | released (kind : ObjectKind) (slot : Option Nat)
  | alreadyRegistered (kind : ObjectKind) (slot : Nat)
  /-- A collection met an object that is not registered. -/
  | strayReachable (kind : ObjectKind) (slot : Option Nat)
  /-- A registered object refers to one that is not. -/
  | strayReference (holder : ObjectKind) (slot : Option Nat) (target : ObjectKind)
  | chainTooShort (distance : Int)
  | missingName (name : String) (distance : Int)
  /-- The next threshold is no integer. -/
  | threshold (e : Number.NotIntegral)
  | wrongKind
  | noObject
  /-- A class comes before its superclass. -/
  | classOrder
  | unresolved
  /-- The bound on nested calls is beyond what a machine can be given. -/
  | callDepth
deriving DecidableEq, Repr

def slotText : Option Nat → String
  | none => "None"
  | some n => toString n

def Fault.message : Fault → String
  | released kind slot => s!"{kind.noun} in slot {slotText slot} used after collection"
  | alreadyRegistered kind slot => s!"{kind.noun} already registered in slot {slot}"
  | strayReachable kind slot =>
    s!"reachable {kind.noun} (slot {slotText slot}) is not a live heap object"
  | strayReference holder slot target =>
    s!"{holder.noun} in slot {slotText slot} points at a dead {target.noun}"
  | chainTooShort distance => s!"environment chain is shorter than {distance} hops"
  | missingName name distance => s!"'{name}' missing at distance {distance}"
  | threshold .nan => "cannot convert float NaN to integer"
  | threshold .infinite => "the next threshold is infinite"
  | wrongKind => "the object has no such operation"
  | noObject => "the reference leads to no object"
  | classOrder => "a class comes before its superclass"
  | unresolved => "a name that needs a depth has none"
  | callDepth => "the bound on nested calls is too large"

/-- Why an operation on the heap does not succeed. -/
inductive Failure
  | fault (f : Fault)
  | cause (c : RuntimeError.Cause)
deriving DecidableEq, Repr

end Lox
