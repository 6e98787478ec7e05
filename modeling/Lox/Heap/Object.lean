import Lox.Ast
import Lox.Bindings

/-! # Objects of the heap

Environments, functions, classes and instances, held by reference. The values they store are a
parameter: all that the heap asks of a value is which objects it keeps alive.
-/
namespace Lox

/-- An object's identity: its place among all objects ever created. -/
structure Ref where
  index : Nat
deriving DecidableEq, Repr

/-- A type of values that keep objects alive. -/
class Holder (ν : Type) where
  refs : ν → List Ref

inductive ObjectKind
  | plain
  | environment
  | function
  | klass
  | instanceOf
deriving DecidableEq, Repr

def ObjectKind.noun : ObjectKind → String
  | plain => "object"
  | environment => "environment"
  | function => "function"
  | klass => "class"
  | instanceOf => "instance"

/-- What an object holds. A link is missing at the end of a chain and after a release. -/
inductive Object (ν : Type)
  | plain
  | environment (values : Bindings ν) (enclosing : Option Ref)
  | function (routine : Routine) (closure : Option Ref)
  | klass (name : String) (superclass : Option Ref) (methods : Bindings Ref)
  | instanceOf (klass : Option Ref) (fields : Bindings ν)

namespace Object
variable {ν : Type}

instance : Inhabited (Object ν) := ⟨plain⟩

def kind : Object ν → ObjectKind
  | plain => .plain
  | environment .. => .environment
  | function .. => .function
  | klass .. => .klass
  | instanceOf .. => .instanceOf

/-- The objects that an object keeps alive, links before contents. -/
def references [Holder ν] : Object ν → List Ref
  | plain => []
  | environment values enclosing => enclosing.toList ++ values.values.flatMap Holder.refs
  | function _ closure => closure.toList
  | klass _ superclass methods => superclass.toList ++ methods.values
  | instanceOf base fields => base.toList ++ fields.values.flatMap Holder.refs

/-- What is left of an object when it is released: nothing that it kept alive. -/
def emptied : Object ν → Object ν
  | plain => plain
  | environment .. => environment {} none
  | function routine _ => function routine none
  | klass name _ _ => klass name none {}
  | instanceOf .. => instanceOf none {}

@[simp] theorem kind_emptied (o : Object ν) : o.emptied.kind = o.kind := by cases o <;> rfl

@[simp] theorem references_emptied [Holder ν] (o : Object ν) : o.emptied.references = [] := by
  cases o <;> rfl

end Object
end Lox
