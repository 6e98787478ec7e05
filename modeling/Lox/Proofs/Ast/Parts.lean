import Lox.Ast.Parser

/-! # Parts of the parsers

Some parsers have a choice in the middle and go on in the same way behind it. What they go on with has a name
here, so that what is proved of it is said once for both ways.
-/
namespace Lox.Parser

/-- A condition in parentheses, and what is made of it. -/
def conditionThen {α : Type} (n : Nat) (opening closing : ParseError) (next : Expr → Parser α) : Parser α := do
  let _ ← expect .leftParen opening
  let d ← expression n lowestLevel
  let _ ← expect .rightParen closing
  next d

/-- The arguments from one on that stands behind a comma. -/
def furtherArguments (n count : Nat) : Parser (List Expr) := do
  let head ← expression n lowestLevel
  return head :: (← arguments n (count + 1))

/-- What follows the opening parenthesis of a call. -/
def callTail (n : Nat) (callee : Expr) : Parser Expr := do
  if ← atKind .rightParen then
    let close ← advance
    return .call callee close.pos []
  else
    let head ← expression n lowestLevel
    let others ← arguments n 1
    let close ← expect .rightParen .unclosedArguments
    return .call callee close.pos (head :: others)

/-- The parameters from one on. -/
def furtherParameters (n count : Nat) : Parser (List Name) := do
  let head ← expectName .noParameterName
  if ← atKind .comma then
    let _ ← advance
    return head :: (← parameters n (count + 1))
  else return [head]

/-- The end of a variable declaration. -/
def variableTail (name : Name) (init : Option Expr) : Parser Stmt := do
  let _ ← expect .semicolon .openVariable
  return .var name init

/-- The end of a `return` statement. -/
def returnTail (pos : Pos) (value : Option Expr) : Parser Stmt := do
  let _ ← expect .semicolon .openReturn
  return .leave pos value

/-- What follows the parameters of a routine. -/
def routineTail (n : Nat) (kind : RoutineKind) (name : Name) (params : List Name) : Parser Routine := do
  let _ ← expect .rightParen .unclosedParameters
  let _ ← expect .leftBrace (.noBody kind)
  return ⟨name,params,← block n⟩

/-- What follows the name and the superclass of a class. -/
def classTail (n : Nat) (name : Name) (superclass : Option Reference) : Parser Stmt := do
  let _ ← expect .leftBrace .noClassBody
  let members ← methods n
  let _ ← expect .rightBrace .unclosedClassBody
  return .klass name superclass members

/-- What follows the condition of a branch. -/
def branchTail (n : Nat) (pos : Pos) (condition : Expr) : Parser Stmt := do
  let yes ← statement n
  if ← atKind .kwElse then
    let _ ← advance
    let no ← statement n
    return .branch pos condition yes (some no)
  else return .branch pos condition yes none

/-- What follows the word `for`. -/
def forTail (n : Nat) (t : Token) : Parser Stmt := do
  let _ ← expect .leftParen .noForClauses
  let init ← forInitializer n
  let condition ← forCondition n t
  let increment ← forIncrement n
  let body ← statement n
  return forLoop t.pos init condition increment body

/-! ## Parsers put together -/

theorem arguments_eq (n count : Nat) : arguments (n + 1) count = (do
    if ← atKind .comma then
      let _ ← advance
      if maxArguments ≤ count then report (← peek) .tooManyArguments
      furtherArguments n count
    else return []) := by
  rw [arguments]
  rfl

theorem parameters_eq (n count : Nat) : parameters (n + 1) count = (do
    if maxArguments ≤ count then report (← peek) .tooManyParameters
    furtherParameters n count) := by
  rw [parameters]
  rfl

theorem variableDeclaration_eq (n : Nat) : variableDeclaration n = (do
    let name ← expectName .noVariableName
    if ← atKind .equal then
      let _ ← advance
      let value ← expression n lowestLevel
      variableTail name (some value)
    else variableTail name none) := by
  rw [variableDeclaration]
  rfl

theorem returnStatement_eq (n : Nat) (t : Token) : returnStatement n t = (do
    if ← atKind .semicolon then returnTail t.pos none
    else
      let value ← some <$> expression n lowestLevel
      returnTail t.pos value) := by
  rw [returnStatement]
  rfl

theorem routine_eq (n : Nat) (kind : RoutineKind) (name : Name) : routine (n + 1) kind name = (do
    let _ ← expect .leftParen (.noParameters kind)
    if ← atKind .rightParen then routineTail n kind name []
    else
      let params ← parameters n 0
      routineTail n kind name params) := by
  rw [routine]
  rfl

theorem classDeclaration_eq (n : Nat) : classDeclaration (n + 1) = (do
    let name ← expectName .noClassName
    if ← atKind .less then
      let _ ← advance
      let base ← expectName .noSuperclassName
      classTail n name (some ⟨base,none⟩)
    else classTail n name none) := by
  rw [classDeclaration]
  rfl

end Lox.Parser
