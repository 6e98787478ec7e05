import Lox.Ast

/-! # Resolution

Each use of a variable, of `this` and of `super` gets its depth: the number of scopes to leave to
reach the innermost one that holds the name. A block, a function with its parameters, the
methods of a class (`this`) and those of a subclass (`super`) each open a scope. Names that no
scope holds are global and keep no depth.
-/
namespace Lox

/-- The names declared so far in each open scope, innermost scope first. -/
abbrev Scopes := List (List String)

namespace Scopes

/-- Global names are in no scope. -/
def declare (scopes : Scopes) (name : String) : Scopes :=
  match scopes with
  | [] => []
  | scope :: outer => (name :: scope) :: outer

def declareAll (scopes : Scopes) (names : List Name) : Scopes :=
  names.foldl (fun s n => s.declare n.text) scopes

/-- The number of scopes between here and the one that holds a name. -/
def depth? : Scopes → String → Option Nat
  | [], _ => none
  | scope :: outer, name => if scope.contains name then some 0 else (depth? outer name).map (· + 1)

end Scopes

/-- The name that a statement declares in the scope it stands in. -/
def Stmt.declared? : Stmt → Option Name
  | .var name _ => some name
  | .function r => some r.name
  | .klass name _ _ => some name
  | _ => none

def Scopes.afterStmt (scopes : Scopes) (s : Stmt) : Scopes :=
  match s.declared? with
  | some name => scopes.declare name.text
  | none => scopes

def Reference.resolve (scopes : Scopes) (r : Reference) : Reference :=
  { r with depth := scopes.depth? r.name.text }

mutual

def Expr.resolve (scopes : Scopes) : Expr → Expr
  | .literal value pos => .literal value pos
  | .grouping paren inner => .grouping paren (inner.resolve scopes)
  | .var r => .var (r.resolve scopes)
  | .assign target value => .assign (target.resolve scopes) (value.resolve scopes)
  | .unary op pos right => .unary op pos (right.resolve scopes)
  | .binary left op pos right => .binary (left.resolve scopes) op pos (right.resolve scopes)
  | .logical left op pos right => .logical (left.resolve scopes) op pos (right.resolve scopes)
  | .call callee paren args => .call (callee.resolve scopes) paren (resolveArguments scopes args)
  | .get object name => .get (object.resolve scopes) name
  | .set object name value => .set (object.resolve scopes) name (value.resolve scopes)
  | .this pos _ => .this pos (scopes.depth? "this")
  | .super pos method _ => .super pos method (scopes.depth? "super")
termination_by structural e => e

def resolveArguments (scopes : Scopes) : List Expr → List Expr
  | [] => []
  | e :: es => e.resolve scopes :: resolveArguments scopes es
termination_by structural es => es

end

/-- The scopes in which the methods of a class stand. -/
def Scopes.ofClass (scopes : Scopes) (superclass : Option Reference) : Scopes :=
  match superclass with
  | some _ => ["this"] :: ["super"] :: scopes
  | none => ["this"] :: scopes

mutual

def Stmt.resolve (scopes : Scopes) : Stmt → Stmt
  | .expression e => .expression (e.resolve scopes)
  | .print pos e => .print pos (e.resolve scopes)
  | .var name init => .var name (init.map (·.resolve (scopes.declare name.text)))
  | .block pos form body => .block pos form (resolveAll ([] :: scopes) body)
  | .branch pos condition yes none =>
    .branch pos (condition.resolve scopes) (yes.resolve scopes) none
  | .branch pos condition yes (some no) =>
    .branch pos (condition.resolve scopes) (yes.resolve scopes) (some (no.resolve scopes))
  | .loop pos form condition body increment =>
    .loop pos form (condition.resolve scopes) (body.resolve scopes)
      (increment.map (·.resolve scopes))
  | .jump pos jump => .jump pos jump
  | .function r => .function (r.resolve (scopes.declare r.name.text))
  | .leave pos value => .leave pos (value.map (·.resolve scopes))
  | .klass name superclass methods =>
    let inner := scopes.declare name.text
    .klass name (superclass.map (·.resolve inner))
      (resolveMethods (inner.ofClass superclass) methods)
termination_by structural s => s

/-- A routine's parameters and the variables of its body share a scope. -/
def Routine.resolve (scopes : Scopes) : Routine → Routine
  | ⟨name,params,body⟩ => ⟨name,params,resolveAll (Scopes.declareAll ([] :: scopes) params) body⟩
termination_by structural r => r

def resolveAll (scopes : Scopes) : List Stmt → List Stmt
  | [] => []
  | s :: rest => s.resolve scopes :: resolveAll (scopes.afterStmt s) rest
termination_by structural ss => ss

def resolveMethods (scopes : Scopes) : List Routine → List Routine
  | [] => []
  | r :: rest => r.resolve scopes :: resolveMethods scopes rest
termination_by structural rs => rs

end

def Program.resolve (p : Program) : Program := resolveAll [] p

end Lox
