import Lox.Ast.Description
import Lox.Text.Styled

/-! # Outlines of syntax trees

An outline shows a tree line by line: each node under its name, each part of a node under the role
it plays there. Positions are left out.
-/
namespace Lox

inductive Outline
  /-- A node, in a role unless it is the whole or a member of a list. -/
  | node (role : Option String) (name : String) (entries : List Outline)
  | list (role : String) (items : List Outline)
  | field (role text : String)
  | item (text : String)

namespace Outline

/-- The line that stands for an outline. -/
def label : Outline → Text.Styled
  | node none name _ => .bold name
  | node (some role) name _ => .bold role ++ .raw s!": {name}"
  | list role items => .bold role ++ .raw s!" ({items.length})"
  | field role text => .raw s!"{role} = {text}"
  | item text => .raw text

def absent (role : String) : Outline := field role "None"

def name (n : Name) : Outline := field "name" n.text

def depth (d : Option Nat) : Outline := field "depth" (depthText d)

def reference (role : Option String) (r : Reference) : Outline :=
  node role "Variable" [name r.name,depth r.depth]

mutual

def expr (role : Option String) (e : Expr) : Outline :=
  node role e.nodeName <| match e with
  | .literal value _ => [field "value" value.description]
  | .grouping _ inner => [expr (some "expression") inner]
  | .var r => [name r.name,depth r.depth]
  | .assign target value => [name target.name,expr (some "value") value,depth target.depth]
  | .unary op _ right => [field "operator" op.symbol,expr (some "right") right]
  | .binary left op _ right =>
    [expr (some "left") left,field "operator" op.symbol,expr (some "right") right]
  | .logical left op _ right =>
    [expr (some "left") left,field "operator" op.symbol,expr (some "right") right]
  | .call callee _ args =>
    [expr (some "callee") callee,field "paren" Token.Kind.rightParen.spelling,
      list "arguments" (exprs args)]
  | .get object property => [expr (some "object") object,name property]
  | .set object property value =>
    [expr (some "object") object,name property,expr (some "value") value]
  | .this _ d => [field "keyword" "this",depth d]
  | .super _ method d => [field "keyword" "super",field "method" method.text,depth d]
termination_by structural e

def exprs : List Expr → List Outline
  | [] => []
  | e :: es => expr none e :: exprs es
termination_by structural es => es

end

def optionalExpr (role : String) : Option Expr → Outline
  | none => absent role
  | some e => expr (some role) e

/-- The step of a loop counts as a statement. -/
def step : Option Expr → Outline
  | none => absent "increment"
  | some e => node (some "increment") "ExpressionStatement" [expr (some "expression") e]

mutual

def stmt (role : Option String) : Stmt → Outline
  | .function r => routine role r
  | .expression e => node role "ExpressionStatement" [expr (some "expression") e]
  | .print _ e => node role "PrintStatement" [expr (some "expression") e]
  | .var n init => node role "VarStatement" [name n,optionalExpr "initializer" init]
  | .block _ _ body => node role "BlockStatement" [list "statements" (stmts body)]
  | .branch _ condition yes none =>
    node role "IfStatement"
      [expr (some "condition") condition,stmt (some "then_branch") yes,absent "else_branch"]
  | .branch _ condition yes (some no) =>
    node role "IfStatement"
      [expr (some "condition") condition,stmt (some "then_branch") yes,stmt (some "else_branch") no]
  | .loop _ _ condition body increment =>
    node role "WhileStatement"
      [expr (some "condition") condition,stmt (some "body") body,step increment]
  | .jump _ .leave => node role "BreakStatement" []
  | .jump _ .next => node role "ContinueStatement" []
  | .leave _ value =>
    node role "ReturnStatement" [field "keyword" "return",optionalExpr "value" value]
  | .klass n superclass methods =>
    let base := match superclass with
      | none => absent "superclass"
      | some r => reference (some "superclass") r
    node role "ClassStatement" [name n,base,list "methods" (routines methods)]
termination_by structural s => s

def routine (role : Option String) : Routine → Outline
  | ⟨n,params,body⟩ =>
    node role "FunctionStatement"
      [name n,list "params" (params.map fun p => item (Text.quoted p.text)),
        list "body" (stmts body)]
termination_by structural r => r

def stmts : List Stmt → List Outline
  | [] => []
  | s :: rest => stmt none s :: stmts rest
termination_by structural ss => ss

def routines : List Routine → List Outline
  | [] => []
  | r :: rest => routine none r :: routines rest
termination_by structural rs => rs

end

end Outline

def Program.outline (p : Program) : Outline :=
  .node none "Program" [.list "statements" (Outline.stmts p)]

end Lox
