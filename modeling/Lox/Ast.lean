import Lox.Diagnostic
import Lox.Token

/-! # Syntax trees

Expressions, statements and declarations with the positions that errors point at. A variable, a
`this` or a `super` carries its depth: the number of scopes between the use and the declaration,
or `none` for a global name and for one that is not yet resolved.
-/
namespace Lox

structure Name where
  text : String
  pos : Pos
deriving DecidableEq, Repr

/-- A use of a variable. -/
structure Reference where
  name : Name
  depth : Option Nat := none
deriving DecidableEq, Repr

inductive UnaryOp
  | minus
  | not
deriving DecidableEq, Repr

def UnaryOp.kind : UnaryOp → Token.Kind
  | minus => .minus
  | not => .bang

inductive BinaryOp
  | plus | minus | times | divide
  | equal | notEqual | less | lessEqual | greater | greaterEqual
deriving DecidableEq, Repr

def BinaryOp.kind : BinaryOp → Token.Kind
  | plus => .plus | minus => .minus | times => .star | divide => .slash
  | equal => .equalEqual | notEqual => .bangEqual
  | less => .less | lessEqual => .lessEqual | greater => .greater | greaterEqual => .greaterEqual

inductive LogicalOp
  | and
  | or
deriving DecidableEq, Repr

def LogicalOp.kind : LogicalOp → Token.Kind
  | and => .kwAnd
  | or => .kwOr

/-- The text of a kind that is always written alike. -/
def Token.Kind.spelling (k : Token.Kind) : String := k.spelling?.getD ""

def UnaryOp.symbol (op : UnaryOp) : String := op.kind.spelling
def BinaryOp.symbol (op : BinaryOp) : String := op.kind.spelling
def LogicalOp.symbol (op : LogicalOp) : String := op.kind.spelling

inductive Constant
  | nil
  | bool (b : Bool)
  | number (x : Float) (lexeme : String)
  | string (s : String)
  /-- The condition of a `for` loop that writes none: it always holds. -/
  | always

inductive Expr
  | literal (value : Constant) (pos : Pos)
  | grouping (paren : Pos) (inner : Expr)
  | var (ref : Reference)
  | assign (target : Reference) (value : Expr)
  | unary (op : UnaryOp) (pos : Pos) (right : Expr)
  | binary (left : Expr) (op : BinaryOp) (pos : Pos) (right : Expr)
  | logical (left : Expr) (op : LogicalOp) (pos : Pos) (right : Expr)
  | call (callee : Expr) (paren : Pos) (arguments : List Expr)
  | get (object : Expr) (name : Name)
  | set (object : Expr) (name : Name) (value : Expr)
  | this (pos : Pos) (depth : Option Nat)
  | super (pos : Pos) (method : Name) (depth : Option Nat)

namespace Expr

instance : Inhabited Expr := ⟨.literal .nil .start⟩

/-- The position of the token that the expression was built around. -/
def pos : Expr → Pos
  | literal _ p | grouping p _ | unary _ p _ | binary _ _ p _ | logical _ _ p _ | call _ p _
  | this p _ | super p _ _ => p
  | var r | assign r _ => r.name.pos
  | get _ n | set _ n _ => n.pos

def nodeName : Expr → String
  | literal .. => "Literal" | grouping .. => "Grouping" | var .. => "Variable"
  | assign .. => "Assign" | unary .. => "Unary" | binary .. => "Binary"
  | logical .. => "Logical" | call .. => "Call" | get .. => "Get" | set .. => "Set"
  | this .. => "This" | super .. => "Super"

end Expr

/-- Whether a block or loop was written as one, or was made from the clauses of a `for`. -/
inductive Form
  | plain
  | clauses
deriving DecidableEq, Repr

mutual

inductive Stmt
  | expression (e : Expr)
  | print (pos : Pos) (e : Expr)
  | var (name : Name) (init : Option Expr)
  | block (pos : Pos) (form : Form) (body : List Stmt)
  | branch (pos : Pos) (condition : Expr) (yes : Stmt) (no : Option Stmt)
  | loop (pos : Pos) (form : Form) (condition : Expr) (body : Stmt) (increment : Option Expr)
  | jump (pos : Pos) (jump : Jump)
  | function (routine : Routine)
  | leave (pos : Pos) (value : Option Expr)
  | klass (name : Name) (superclass : Option Reference) (methods : List Routine)

/-- A named function or method: its parameters and its body. -/
structure Routine where
  name : Name
  params : List Name
  body : List Stmt

end

namespace Stmt

instance : Inhabited Stmt := ⟨.expression default⟩

def pos : Stmt → Pos
  | expression e => e.pos
  | print p _ | block p _ _ | branch p _ _ _ | loop p _ _ _ _ | jump p _ | leave p _ => p
  | var n _ | klass n _ _ => n.pos
  | function r => r.name.pos

def nodeName : Stmt → String
  | expression .. => "ExpressionStatement" | print .. => "PrintStatement"
  | var .. => "VarStatement" | block .. => "BlockStatement" | branch .. => "IfStatement"
  | loop .. => "WhileStatement" | jump _ .leave => "BreakStatement"
  | jump _ .next => "ContinueStatement" | function .. => "FunctionStatement"
  | leave .. => "ReturnStatement" | klass .. => "ClassStatement"

end Stmt

/-- The statements of a source. -/
abbrev Program := List Stmt

instance : Inhabited Routine := ⟨⟨⟨"",.start⟩,[],[]⟩⟩

/-- The number of arguments a routine takes. -/
def Routine.arity (r : Routine) : Nat := r.params.length

end Lox
