import Lox.Heap.Access

/-! # Values

What expressions evaluate to. Scalars are compared by value, objects and natives by identity, and
a bound method by its function and its receiver. Doubles are compared by their parts: all
that are not numbers are equal, and so are the two zeros.
-/
namespace Lox

/-- A function that the machine provides. The tag is its identity. -/
structure Native where
  name : String
  arity : Nat
  tag : Nat := 0
deriving DecidableEq, Repr

namespace Native

def clock : Native := ⟨"clock",0,0⟩

/-- The natives that every global environment has. -/
def all : List Native := [clock]

end Native

inductive Value
  | nil
  | bool (b : Bool)
  | number (x : Float)
  | string (s : String)
  | native (f : Native)
  | object (r : Ref)
  | bound (function receiver : Ref)

/-- What a statement asks of the statements around it. -/
inductive Signal
  | leave
  | next
  | return (x : Value)

/-- Whether two doubles are the same number, or neither is one. -/
def Number.Parts.same : Number.Parts → Number.Parts → Bool
  | .nan, .nan => true
  | .infinite m, .infinite n => m = n
  | .finite m a e, .finite n b f => (a = 0 && b = 0) || (m = n && a = b && e = f)
  | _, _ => false

namespace Value

instance : Inhabited Value := ⟨nil⟩

instance : Holder Value where
  refs
    | object r => [r]
    | bound f r => [f,r]
    | _ => []

/-- All but `nil` and `false` count as true. -/
def isTruthy : Value → Bool
  | nil => false
  | bool b => b
  | _ => true

def equal : Value → Value → Bool
  | nil, nil => true
  | bool a, bool b => a = b
  | number x, number y => (Number.Parts.of x).same (Number.Parts.of y)
  | string s, string t => s = t
  | native f, native g => f = g
  | object r, object s => r = s
  | bound f r, bound g s => f = g && r = s
  | _, _ => false

section
variable {ν : Type} (h : Heap ν)

def inspect : Value → Except Failure String
  | nil => .ok "nil"
  | bool true => .ok "true"
  | bool false => .ok "false"
  | number x => .ok (Number.Style.plain.text x)
  | string s => .ok s
  | native _ => .ok "<native fn>"
  | object r => h.inspect r
  | bound f _ => h.inspect f

def typeName : Value → Except Failure String
  | nil => .ok "NIL"
  | bool _ => .ok "BOOLEAN"
  | number _ => .ok "NUMBER"
  | string _ => .ok "STRING"
  | native _ => .ok "NATIVE_FUNCTION"
  | bound _ _ => .ok "BOUND_METHOD"
  | object r =>
    match h.kindOf r with
    | .function => .ok "FUNCTION"
    | .klass => .ok "CLASS"
    | .instanceOf => .ok "INSTANCE"
    | .plain | .environment => Heap.wrongKind

def isCallable : Value → Bool
  | native _ | bound _ _ => true
  | object r => h.kindOf r = .function || h.kindOf r = .klass
  | _ => false

/-- The number of arguments that a callable value takes. -/
def arity : Value → Except Failure Nat
  | native f => .ok f.arity
  | bound f _ => h.arity f
  | object r => h.arity r
  | _ => Heap.wrongKind

end

/-- The exact text of a scalar. -/
def description? : Value → Option String
  | nil => some "NIL"
  | bool true => some "TRUE"
  | bool false => some "FALSE"
  | number x => some s!"Number({Number.Style.exact.text x})"
  | string s => some s!"String({Text.quoted s})"
  | _ => none

end Value

namespace Signal

def typeName : Signal → String
  | leave => "BREAK"
  | next => "CONTINUE"
  | .return _ => "RETURN_VALUE"

end Signal
end Lox
