import Lox.Ast
import Lox.Number.Layout

/-! # Descriptions of syntax trees

One-line texts for expressions and statements: operands in full, lists by their length.
-/
namespace Lox

def Constant.description : Constant → String
  | nil => "None"
  | bool true | always => "True"
  | bool false => "False"
  | number x _ => Number.Style.exact.text x
  | string s => Text.quoted s

def depthText : Option Nat → String
  | none => "None"
  | some d => toString d

namespace Expr

def description : Expr → String
  | literal value _ => s!"Literal({value.description})"
  | grouping _ inner => s!"Grouping({inner.description})"
  | var r => s!"Variable({r.name.text}, depth={depthText r.depth})"
  | assign r value =>
    s!"Assign({r.name.text}, value={value.description}, depth={depthText r.depth})"
  | unary op _ right => s!"Unary({op.symbol}, {right.description})"
  | binary left op _ right => s!"Binary({left.description} {op.symbol} {right.description})"
  | logical left op _ right => s!"Logical({left.description} {op.symbol} {right.description})"
  | call callee _ arguments => s!"Call({callee.description}, arguments={arguments.length})"
  | get object name => s!"Get({object.description}.{name.text})"
  | set object name value =>
    s!"Set({object.description}.{name.text}, value={value.description})"
  | this _ depth => s!"This(depth={depthText depth})"
  | super _ method depth => s!"Super({method.text}, depth={depthText depth})"

def descriptionOr : Option Expr → String
  | none => "None"
  | some e => e.description

end Expr

def Routine.description (r : Routine) : String :=
  let params := ", ".intercalate (r.params.map (·.text))
  s!"FunctionStatement({r.name.text}({params}))"

def Stmt.description : Stmt → String
  | expression e => s!"ExpressionStatement(expression={e.description})"
  | print _ e => s!"PrintStatement(expression={e.description})"
  | var name init => s!"VarStatement(name={name.text}, initializer={Expr.descriptionOr init})"
  | block _ _ body => s!"BlockStatement(statements={body.length})"
  | branch _ condition _ no =>
    let hasElse := if no.isSome then "True" else "False"
    s!"IfStatement(condition={condition.description}, has_else={hasElse})"
  | loop _ _ condition _ _ => s!"WhileStatement(condition={condition.description})"
  | jump _ .leave => "BreakStatement()"
  | jump _ .next => "ContinueStatement()"
  | function r => r.description
  | leave _ value => s!"ReturnStatement(value={Expr.descriptionOr value})"
  | klass name superclass methods =>
    let base := match superclass with
      | some r => s!" < {r.name.text}"
      | none => ""
    s!"ClassStatement({name.text}{base}, methods={methods.length})"

def Program.description (p : Program) : String := s!"Program(statements={p.length})"

end Lox
