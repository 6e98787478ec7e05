import Lox.Ast
import Lox.Token.Scanner

/-! # Parsing

A parser moves over the tokens one at a time; the token for the end is never used up. Operators
bind by level. An error in a declaration gives that declaration up and goes on behind the next
semicolon or before the next word that starts a statement, so that all errors of a source are
found; three errors leave the parser where it is. The bound on nested calls is chosen from
the number of tokens by `parse`.
-/
namespace Lox

namespace Parser

structure State where
  /-- The token read last. -/
  last : Token
  /-- What follows it, up to the token for the end, which stays. -/
  rest : List Token
  /-- The errors so far, last one first. -/
  errors : List Diagnostic := []

/-- A declaration was given up. Its error has been recorded. -/
inductive Abort
  | abort
deriving DecidableEq, Repr

end Parser

abbrev Parser := EStateM Parser.Abort Parser.State

namespace Parser

def abort {α : Type} : Parser α := throw .abort

def State.peek (s : State) : Token := s.rest.headD s.last

def State.advance (s : State) : State :=
  match s.rest with
  | t :: u :: rest => { s with last := t, rest := u :: rest }
  | [t] => { s with last := t }
  | [] => s

def peek : Parser Token := fun s => .ok s.peek s

/-- Moves on by a token and returns it. -/
def advance : Parser Token := fun s => let s := s.advance; .ok s.last s

def atKind (k : Token.Kind) : Parser Bool := fun s => .ok (s.peek.kind = k) s

def place (t : Token) : Diagnostic.Place := if t.kind = .eof then .finish else .token t.lexeme

def report (t : Token) (e : ParseError) : Parser Unit := fun s =>
  .ok () { s with errors := ⟨.parse e,t.pos,place t⟩ :: s.errors }

def fail {α : Type} (t : Token) (e : ParseError) : Parser α := do
  report t e
  abort

/-- Moves on over a token of a kind, which has to come next. -/
def expect (k : Token.Kind) (e : ParseError) : Parser Token := do
  let t ← peek
  if t.kind = k then advance else fail t e

def expectName (e : ParseError) : Parser Name := do
  let t ← expect .identifier e
  return ⟨t.lexeme,t.pos⟩

/-- How strongly an operator binds its left operand; zero for all that is no operator. -/
def level : Token.Kind → Nat
  | .equal => 1
  | .kwOr => 2
  | .kwAnd => 3
  | .equalEqual | .bangEqual => 4
  | .less | .lessEqual | .greater | .greaterEqual => 5
  | .plus | .minus => 6
  | .star | .slash => 7
  | .leftParen | .dot => 9
  | _ => 0

def lowestLevel : Nat := 0
def unaryLevel : Nat := 8

def binaryOp? : Token.Kind → Option BinaryOp
  | .plus => some .plus | .minus => some .minus | .star => some .times | .slash => some .divide
  | .equalEqual => some .equal | .bangEqual => some .notEqual | .less => some .less
  | .lessEqual => some .lessEqual | .greater => some .greater
  | .greaterEqual => some .greaterEqual | _ => none

def logicalOp? : Token.Kind → Option LogicalOp
  | .kwAnd => some .and | .kwOr => some .or | _ => none

def constant? (t : Token) : Option Constant :=
  match t.kind, t.literal with
  | .number, some (.number x) => some (.number x t.lexeme)
  | .string, some (.string s) => some (.string s)
  | .kwTrue, _ => some (.bool true)
  | .kwFalse, _ => some (.bool false)
  | .kwNil, _ => some .nil
  | _, _ => none

def assignment (equals : Token) (left value : Expr) : Parser Expr :=
  match left with
  | .var r => return .assign r value
  | .get object name => return .set object name value
  | _ => do
    report equals .invalidTarget
    return left

mutual

/-- An expression whose operators all bind more strongly than a level. -/
def expression : Nat → Nat → Parser Expr
  | 0, _ => abort
  | n + 1, lower => do
    let left ← operand n
    operators n lower left
termination_by structural n => n

/-- What can stand on the left of an operator: a literal, a name, a group or a prefix operator. -/
def operand : Nat → Parser Expr
  | 0 => abort
  | n + 1 => do
    let t ← advance
    match t.kind with
    | .identifier => return .var ⟨⟨t.lexeme,t.pos⟩,none⟩
    | .kwThis => return .this t.pos none
    | .kwSuper =>
      let _ ← expect .dot .noDotAfterSuper
      let method ← expectName .noSuperMethodName
      return .super t.pos method none
    | .leftParen =>
      let inner ← expression n lowestLevel
      let _ ← expect .rightParen .unclosedGroup
      return .grouping t.pos inner
    | .bang => return .unary .not t.pos (← expression n unaryLevel)
    | .minus => return .unary .minus t.pos (← expression n unaryLevel)
    | _ =>
      match constant? t with
      | some value => return .literal value t.pos
      | none => fail t .noExpression
termination_by structural n => n

/-- The operators that follow an operand and bind more strongly than a level. -/
def operators : Nat → Nat → Expr → Parser Expr
  | 0, _, _ => abort
  | n + 1, lower, left => do
    let t ← peek
    if lower < level t.kind then
      let _ ← advance
      let left ← extend n t left
      operators n lower left
    else return left
termination_by structural n => n

/-- The expression that an operator makes of its left operand and what follows. -/
def extend : Nat → Token → Expr → Parser Expr
  | 0, _, _ => abort
  | n + 1, t, left => do
    match binaryOp? t.kind, logicalOp? t.kind, t.kind with
    | some op, _, _ => return .binary left op t.pos (← expression n (level t.kind))
    | none, some op, _ => return .logical left op t.pos (← expression n (level t.kind))
    | none, none, .equal => assignment t left (← expression n lowestLevel)
    | none, none, .dot => return .get left (← expectName .noPropertyName)
    | none, none, _ =>
      if ← atKind .rightParen then
        let close ← advance
        return .call left close.pos []
      else
        let head ← expression n lowestLevel
        let others ← arguments n 1
        let close ← expect .rightParen .unclosedArguments
        return .call left close.pos (head :: others)
termination_by structural n => n

/-- The arguments behind the first, each after a comma. -/
def arguments : Nat → Nat → Parser (List Expr)
  | 0, _ => abort
  | n + 1, count => do
    if ← atKind .comma then
      let _ ← advance
      if maxArguments ≤ count then report (← peek) .tooManyArguments
      let head ← expression n lowestLevel
      return head :: (← arguments n (count + 1))
    else return []
termination_by structural n => n

end

/-- The parameters behind an opening parenthesis; there is at least one. -/
def parameters : Nat → Nat → Parser (List Name)
  | 0, _ => abort
  | n + 1, count => do
    if maxArguments ≤ count then report (← peek) .tooManyParameters
    let head ← expectName .noParameterName
    if ← atKind .comma then
      let _ ← advance
      return head :: (← parameters n (count + 1))
    else return [head]

def expressionStatement (n : Nat) : Parser Stmt := do
  let e ← expression n lowestLevel
  let _ ← expect .semicolon .openExpression
  return .expression e

/-- The rest of a variable declaration. -/
def variableDeclaration (n : Nat) : Parser Stmt := do
  let name ← expectName .noVariableName
  let init ← if ← atKind .equal then do
      let _ ← advance
      pure (some (← expression n lowestLevel))
    else pure none
  let _ ← expect .semicolon .openVariable
  return .var name init

def jumpStatement (t : Token) (j : Jump) : Parser Stmt := do
  let _ ← expect .semicolon (.openJump j)
  return .jump t.pos j

def printStatement (n : Nat) (t : Token) : Parser Stmt := do
  let e ← expression n lowestLevel
  let _ ← expect .semicolon .openPrint
  return .print t.pos e

def returnStatement (n : Nat) (t : Token) : Parser Stmt := do
  let value ← if ← atKind .semicolon then pure none
    else some <$> expression n lowestLevel
  let _ ← expect .semicolon .openReturn
  return .leave t.pos value

/-- The first clause of a `for`, with its semicolon. -/
def forInitializer (n : Nat) : Parser (Option Stmt) := do
  match (← peek).kind with
  | .semicolon =>
    let _ ← advance
    return none
  | .kwVar =>
    let _ ← advance
    some <$> variableDeclaration n
  | _ => some <$> expressionStatement n

/-- The second clause of a `for`, with its semicolon. -/
def forCondition (n : Nat) (t : Token) : Parser Expr := do
  if ← atKind .semicolon then
    let _ ← advance
    return .literal .always t.pos
  else
    let e ← expression n lowestLevel
    let _ ← expect .semicolon .openForCondition
    return e

/-- The third clause of a `for`, with the closing parenthesis. -/
def forIncrement (n : Nat) : Parser (Option Expr) := do
  if ← atKind .rightParen then
    let _ ← advance
    return none
  else
    let e ← expression n lowestLevel
    let _ ← expect .rightParen .unclosedForClauses
    return some e

/-- A `for` loop is a loop with an increment, in a block with the initializer if there is one. -/
def forLoop (pos : Pos) (init : Option Stmt) (condition : Expr) (increment : Option Expr)
    (body : Stmt) : Stmt :=
  let loop := .loop pos .clauses condition body increment
  match init with
  | none => loop
  | some s => .block pos .clauses [s,loop]

def startsStatement : Token.Kind → Bool
  | .kwClass | .kwFun | .kwVar | .kwFor | .kwIf | .kwWhile | .kwPrint | .kwReturn | .kwBreak
  | .kwContinue => true
  | _ => false

/-- Skips to where a declaration can start: behind a semicolon or before a statement word. -/
def skip (last : Token) : List Token → Token × List Token
  | [] => (last,[])
  | t :: rest =>
    if last.kind = .eof || last.kind = .semicolon || startsStatement t.kind then (last,t :: rest)
    else if rest.isEmpty then (t,[t])
    else skip t rest

def synchronize : Parser Unit := fun s =>
  let (last,rest) := skip s.last s.rest
  .ok () { s with last, rest }

/-- The outcome of a declaration, or nothing after giving it up. -/
def recovering (p : Parser Stmt) : Parser (Option Stmt) :=
  tryCatch (some <$> p) fun _ => do
    synchronize
    return none

mutual

def declaration : Nat → Parser (Option Stmt)
  | 0 => abort
  | n + 1 => recovering do
    match (← peek).kind with
    | .kwClass =>
      let _ ← advance
      classDeclaration n
    | .kwFun =>
      let _ ← advance
      let name ← expectName .noFunctionName
      .function <$> routine n .function name
    | .kwVar =>
      let _ ← advance
      variableDeclaration n
    | _ => statement n
termination_by structural n => n

/-- Declarations up to the end of the text or, in a block, up to its closing brace. -/
def declarations : Nat → Bool → Parser (List Stmt)
  | 0, _ => abort
  | n + 1, inBlock => do
    let t ← peek
    if t.kind = .eof || (inBlock && t.kind = .rightBrace) then return []
    else
      match ← declaration n with
      | some s => return s :: (← declarations n inBlock)
      | none => declarations n inBlock
termination_by structural n => n

/-- The statements of a block whose opening brace has been read. -/
def block : Nat → Parser (List Stmt)
  | 0 => abort
  | n + 1 => do
    let body ← declarations n true
    let t ← advance
    if t.kind = .rightBrace then return body else fail t .unclosedBlock
termination_by structural n => n

/-- The rest of a function or method. -/
def routine : Nat → RoutineKind → Name → Parser Routine
  | 0, _, _ => abort
  | n + 1, kind, name => do
    let _ ← expect .leftParen (.noParameters kind)
    let params ← if ← atKind .rightParen then pure [] else parameters n 0
    let _ ← expect .rightParen .unclosedParameters
    let _ ← expect .leftBrace (.noBody kind)
    return ⟨name,params,← block n⟩
termination_by structural n => n

def classDeclaration : Nat → Parser Stmt
  | 0 => abort
  | n + 1 => do
    let name ← expectName .noClassName
    let superclass ← if ← atKind .less then do
        let _ ← advance
        let base ← expectName .noSuperclassName
        pure (some ⟨base,none⟩)
      else pure none
    let _ ← expect .leftBrace .noClassBody
    let members ← methods n
    let _ ← expect .rightBrace .unclosedClassBody
    return .klass name superclass members
termination_by structural n => n

def methods : Nat → Parser (List Routine)
  | 0 => abort
  | n + 1 => do
    let t ← peek
    if t.kind = .rightBrace || t.kind = .eof then return []
    else
      let name ← expectName .noMethodName
      let head ← routine n .method name
      return head :: (← methods n)
termination_by structural n => n

def statement : Nat → Parser Stmt
  | 0 => abort
  | n + 1 => do
    let t ← peek
    match t.kind with
    | .kwPrint =>
      let _ ← advance
      printStatement n t
    | .kwReturn =>
      let _ ← advance
      returnStatement n t
    | .kwIf =>
      let _ ← advance
      let _ ← expect .leftParen .noIfCondition
      let condition ← expression n lowestLevel
      let _ ← expect .rightParen .unclosedIfCondition
      let yes ← statement n
      if ← atKind .kwElse then
        let _ ← advance
        let no ← statement n
        return .branch t.pos condition yes (some no)
      else return .branch t.pos condition yes none
    | .kwWhile =>
      let _ ← advance
      let _ ← expect .leftParen .noWhileCondition
      let condition ← expression n lowestLevel
      let _ ← expect .rightParen .unclosedWhileCondition
      let body ← statement n
      return .loop t.pos .plain condition body none
    | .kwFor =>
      let _ ← advance
      let _ ← expect .leftParen .noForClauses
      let init ← forInitializer n
      let condition ← forCondition n t
      let increment ← forIncrement n
      let body ← statement n
      return forLoop t.pos init condition increment body
    | .kwBreak =>
      let _ ← advance
      jumpStatement t .leave
    | .kwContinue =>
      let _ ← advance
      jumpStatement t .next
    | .leftBrace =>
      let _ ← advance
      return .block t.pos .plain (← block n)
    | _ => expressionStatement n
termination_by structural n => n

end

/-- Nested calls enough for any program of so many tokens. -/
def enough (tokens : Nat) : Nat := 8 * (tokens + 2)

end Parser

/-- What parsing a source gives: its program as far as it was understood, and all errors. -/
structure Parsed where
  program : Program
  errors : List Diagnostic

/-- Scan errors come before parse errors at the same position. -/
def parseScan (s : Scan) : Parsed :=
  let start : Parser.State := { last := default, rest := s.tokens }
  let (program,state) := match Parser.declarations (Parser.enough s.tokens.length) false start with
    | .ok program state => (program,state)
    | .error _ state => ([],state)
  ⟨program,Diagnostic.sort (s.errors ++ state.errors.reverse)⟩

def parse (source : String) : Parsed := parseScan (scan source)

end Lox
