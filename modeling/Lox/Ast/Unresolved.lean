import Lox.Ast

/-! # Trees before resolution

A tree without the depths of its variables, as a source is read before its names are resolved.
-/
namespace Lox

def Reference.unresolved (r : Reference) : Reference := { r with depth := none }

mutual

def Expr.unresolved : Expr → Expr
  | .literal value pos => .literal value pos
  | .grouping paren inner => .grouping paren inner.unresolved
  | .var r => .var r.unresolved
  | .assign target value => .assign target.unresolved value.unresolved
  | .unary op pos right => .unary op pos right.unresolved
  | .binary left op pos right => .binary left.unresolved op pos right.unresolved
  | .logical left op pos right => .logical left.unresolved op pos right.unresolved
  | .call callee paren args => .call callee.unresolved paren (unresolvedArguments args)
  | .get object name => .get object.unresolved name
  | .set object name value => .set object.unresolved name value.unresolved
  | .this pos _ => .this pos none
  | .super pos method _ => .super pos method none
termination_by structural e => e

def unresolvedArguments : List Expr → List Expr
  | [] => []
  | e :: es => e.unresolved :: unresolvedArguments es
termination_by structural es => es

end

mutual

def Stmt.unresolved : Stmt → Stmt
  | .expression e => .expression e.unresolved
  | .print pos e => .print pos e.unresolved
  | .var name init => .var name (init.map Expr.unresolved)
  | .block pos form body => .block pos form (unresolvedAll body)
  | .branch pos condition yes none => .branch pos condition.unresolved yes.unresolved none
  | .branch pos condition yes (some no) =>
    .branch pos condition.unresolved yes.unresolved (some no.unresolved)
  | .loop pos form condition body increment =>
    .loop pos form condition.unresolved body.unresolved (increment.map Expr.unresolved)
  | .jump pos jump => .jump pos jump
  | .function r => .function r.unresolved
  | .leave pos value => .leave pos (value.map Expr.unresolved)
  | .klass name superclass methods =>
    .klass name (superclass.map Reference.unresolved) (unresolvedMethods methods)
termination_by structural s => s

def Routine.unresolved : Routine → Routine
  | ⟨name,params,body⟩ => ⟨name,params,unresolvedAll body⟩
termination_by structural r => r

def unresolvedAll : List Stmt → List Stmt
  | [] => []
  | s :: rest => s.unresolved :: unresolvedAll rest
termination_by structural ss => ss

def unresolvedMethods : List Routine → List Routine
  | [] => []
  | r :: rest => r.unresolved :: unresolvedMethods rest
termination_by structural rs => rs

end

def Program.unresolved (p : Program) : Program := unresolvedAll p

end Lox
