import Lox.Ast

/-! # The grammar of syntax trees

Which trees a program can have. Operators associate to the left and bind by level, assignment to
the right; what would bind otherwise stands in a group. A branch with an `else` has no branch
without one at the end of its first part, and the parts of branches and loops are no declarations.
-/
namespace Lox

/-- How strongly an operator binds its operands. -/
def BinaryOp.level : BinaryOp → Nat
  | equal | notEqual => 4
  | less | lessEqual | greater | greaterEqual => 5
  | plus | minus => 6
  | times | divide => 7

def LogicalOp.level : LogicalOp → Nat
  | or => 2
  | and => 3

namespace Expr

def assignmentLevel : Nat := 1
def unaryLevel : Nat := 8
def callLevel : Nat := 9

/-- How strongly the outermost operator of an expression binds. -/
def level : Expr → Nat
  | assign .. | set .. => assignmentLevel
  | logical _ op _ _ => op.level
  | binary _ op _ _ => op.level
  | unary .. => unaryLevel
  | call .. | get .. => callLevel
  | literal .. | grouping .. | var .. | this .. | super .. => callLevel + 1

mutual

/-- Each operand binds as strongly as its place asks. -/
def Grammatical : Expr → Prop
  | literal value _ =>
    match value with
    | .always => False
    | _ => True
  | grouping _ inner => inner.Grammatical
  | var _ | this _ _ | super _ _ _ => True
  | assign _ value => value.Grammatical
  | unary _ _ right => right.Grammatical ∧ unaryLevel ≤ right.level
  | binary left op _ right =>
    left.Grammatical ∧ right.Grammatical ∧ op.level ≤ left.level ∧ op.level < right.level
  | logical left op _ right =>
    left.Grammatical ∧ right.Grammatical ∧ op.level ≤ left.level ∧ op.level < right.level
  | call callee _ args =>
    callee.Grammatical ∧ callLevel ≤ callee.level ∧ GrammaticalArguments args ∧
      args.length ≤ maxArguments
  | get object _ => object.Grammatical ∧ callLevel ≤ object.level
  | set object _ value =>
    object.Grammatical ∧ callLevel ≤ object.level ∧ value.Grammatical
termination_by structural e => e

def GrammaticalArguments : List Expr → Prop
  | [] => True
  | e :: es => e.Grammatical ∧ GrammaticalArguments es
termination_by structural es => es

end

/-- An expression that may be left out. -/
def GrammaticalOption : Option Expr → Prop
  | none => True
  | some e => e.Grammatical

/-- The condition of a `for` may be left out. -/
def GrammaticalClause : Expr → Prop
  | literal .always _ => True
  | e => e.Grammatical

end Expr

namespace Stmt

def IsDeclaration : Stmt → Prop
  | var .. | function .. | klass .. => True
  | _ => False

/-- What can be the first clause of a `for`. -/
def IsInitializer : Stmt → Prop
  | var .. | expression .. => True
  | _ => False

mutual

/-- Whether a statement ends in a branch that would take an `else` behind it for its own. -/
def TakesElse : Stmt → Prop
  | branch _ _ _ none => True
  | branch _ _ _ (some no) => no.TakesElse
  | loop _ _ _ body _ => body.TakesElse
  | block _ .clauses body => LastTakesElse body
  | _ => False
termination_by structural s => s

def LastTakesElse : List Stmt → Prop
  | [] => False
  | [s] => s.TakesElse
  | _ :: rest => LastTakesElse rest
termination_by structural ss => ss

end

end Stmt

mutual

def Stmt.Grammatical : Stmt → Prop
  | .expression e | .print _ e => e.Grammatical
  | .var _ init => Expr.GrammaticalOption init
  | .block _ .plain body => GrammaticalList body
  | .block _ .clauses body => GrammaticalClauses body
  | .branch _ condition yes none =>
    condition.Grammatical ∧ yes.Grammatical ∧ ¬yes.IsDeclaration
  | .branch _ condition yes (some no) =>
    condition.Grammatical ∧ yes.Grammatical ∧ ¬yes.IsDeclaration ∧ ¬yes.TakesElse ∧
      no.Grammatical ∧ ¬no.IsDeclaration
  | .loop _ .plain condition body increment =>
    condition.Grammatical ∧ body.Grammatical ∧ ¬body.IsDeclaration ∧ increment = none
  | .loop _ .clauses condition body increment =>
    condition.GrammaticalClause ∧ body.Grammatical ∧ ¬body.IsDeclaration ∧
      Expr.GrammaticalOption increment
  | .jump _ _ => True
  | .function r => r.Grammatical
  | .leave _ value => Expr.GrammaticalOption value
  | .klass _ _ methods => GrammaticalMethods methods
termination_by structural s => s

/-- The block of a `for` holds the initializer and the loop. -/
def GrammaticalClauses : List Stmt → Prop
  | [init,.loop _ .clauses condition body increment] =>
    init.Grammatical ∧ init.IsInitializer ∧ condition.GrammaticalClause ∧ body.Grammatical ∧
      ¬body.IsDeclaration ∧ Expr.GrammaticalOption increment
  | _ => False
termination_by structural ss => ss

def GrammaticalList : List Stmt → Prop
  | [] => True
  | s :: rest => s.Grammatical ∧ GrammaticalList rest
termination_by structural ss => ss

def Routine.Grammatical : Routine → Prop
  | ⟨_,params,body⟩ => params.length ≤ maxArguments ∧ GrammaticalList body
termination_by structural r => r

def GrammaticalMethods : List Routine → Prop
  | [] => True
  | r :: rest => r.Grammatical ∧ GrammaticalMethods rest
termination_by structural rs => rs

end

def Program.Grammatical (p : Program) : Prop := GrammaticalList p

theorem grammaticalList_iff (ss : List Stmt) :
    GrammaticalList ss ↔ ∀ s ∈ ss, s.Grammatical := by
  induction ss with
  | nil => simp [GrammaticalList]
  | cons s ss ih => simp [GrammaticalList,ih]

theorem grammaticalArguments_iff (es : List Expr) :
    Expr.GrammaticalArguments es ↔ ∀ e ∈ es, e.Grammatical := by
  induction es with
  | nil => simp [Expr.GrammaticalArguments]
  | cons e es ih => simp [Expr.GrammaticalArguments,ih]

end Lox
