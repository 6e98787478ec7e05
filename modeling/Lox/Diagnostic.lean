import Lox.Position

/-! # Static errors

What can be wrong with a source before it runs: text that is no token, tokens that are no program,
and programs that break the rules of scope. Each error knows its cause, its position and the
token it is about; the wording follows from the cause.
-/
namespace Lox

inductive ScanError
  | strayCharacter (c : Char)
  | unterminatedString
deriving DecidableEq, Repr

def ScanError.message : ScanError → String
  | strayCharacter c => s!"Unexpected character '{c}'."
  | unterminatedString => "Unterminated string."

/-- The two forms of a named routine. -/
inductive RoutineKind
  | function
  | method
deriving DecidableEq, Repr

def RoutineKind.noun : RoutineKind → String
  | function => "function"
  | method => "method"

/-- The two statements that leave or repeat a loop early. -/
inductive Jump
  | leave
  | next
deriving DecidableEq, Repr

def Jump.word : Jump → String
  | leave => "break"
  | next => "continue"

/-- The largest number of parameters or arguments. -/
def maxArguments : Nat := 255

inductive ParseError
  | noExpression
  | noFunctionName | noClassName | noSuperclassName | noMethodName | noVariableName
  | noParameterName | noPropertyName | noSuperMethodName
  | noClassBody | unclosedClassBody
  | noParameters (routine : RoutineKind) | unclosedParameters | noBody (routine : RoutineKind)
  | unclosedBlock | unclosedGroup | unclosedArguments | noDotAfterSuper
  | openVariable | openPrint | openReturn | openJump (jump : Jump) | openExpression
  | noIfCondition | unclosedIfCondition | noWhileCondition | unclosedWhileCondition
  | noForClauses | openForCondition | unclosedForClauses
  | invalidTarget | tooManyParameters | tooManyArguments
deriving DecidableEq, Repr

namespace ParseError

def message : ParseError → String
  | noExpression => "Expect expression."
  | noFunctionName => "Expect function name."
  | noClassName => "Expect class name."
  | noSuperclassName => "Expect superclass name."
  | noMethodName => "Expect method name."
  | noVariableName => "Expect variable name."
  | noParameterName => "Expect parameter name."
  | noPropertyName => "Expect property name after '.'."
  | noSuperMethodName => "Expect superclass method name."
  | noClassBody => "Expect '\x7b' before class body."
  | unclosedClassBody => "Expect '\x7d' after class body."
  | noParameters r => s!"Expect '(' after {r.noun} name."
  | unclosedParameters => "Expect ')' after parameters."
  | noBody r => s!"Expect '\x7b' before {r.noun} body."
  | unclosedBlock => "Expect '\x7d' after block."
  | unclosedGroup => "Expect ')' after expression."
  | unclosedArguments => "Expect ')' after arguments."
  | noDotAfterSuper => "Expect '.' after 'super'."
  | openVariable => "Expect ';' after variable declaration."
  | openPrint => "Expect ';' after value."
  | openReturn => "Expect ';' after return value."
  | openJump j => s!"Expect ';' after '{j.word}'."
  | openExpression => "Expect ';' after expression."
  | noIfCondition => "Expect '(' after 'if'."
  | unclosedIfCondition => "Expect ')' after if condition."
  | noWhileCondition => "Expect '(' after 'while'."
  | unclosedWhileCondition => "Expect ')' after condition."
  | noForClauses => "Expect '(' after 'for'."
  | openForCondition => "Expect ';' after loop condition."
  | unclosedForClauses => "Expect ')' after for clauses."
  | invalidTarget => "Invalid assignment target."
  | tooManyParameters => s!"Can't have more than {maxArguments} parameters."
  | tooManyArguments => s!"Can't have more than {maxArguments} arguments."

end ParseError

inductive ScopeError
  | alreadyDeclared
  | ownInitializer
  | topLevelReturn
  | jumpOutsideLoop (jump : Jump)
  | thisOutsideClass
  | superOutsideClass
  | superWithoutSuperclass
  | ownSuperclass
deriving DecidableEq, Repr

def ScopeError.message : ScopeError → String
  | alreadyDeclared => "Already a variable with this name in this scope."
  | ownInitializer => "Can't read local variable in its own initializer."
  | topLevelReturn => "Can't return from top-level code."
  | jumpOutsideLoop j => s!"Can't use '{j.word}' outside of a loop."
  | thisOutsideClass => "Can't use 'this' outside of a class."
  | superOutsideClass => "Can't use 'super' outside of a class."
  | superWithoutSuperclass => "Can't use 'super' in a class with no superclass."
  | ownSuperclass => "A class can't inherit from itself."

namespace Diagnostic

inductive Cause
  | scan (e : ScanError)
  | parse (e : ParseError)
  | scope (e : ScopeError)
deriving DecidableEq, Repr

def Cause.message : Cause → String
  | scan e => e.message
  | parse e => e.message
  | scope e => e.message

/-- The token that an error is about, if it is about one. -/
inductive Place
  | none
  | token (lexeme : String)
  | finish
deriving DecidableEq, Repr

def Place.text : Place → String
  | none => ""
  | token lexeme => s!" at '{lexeme}'"
  | finish => " at end"

end Diagnostic

structure Diagnostic where
  cause : Diagnostic.Cause
  pos : Pos
  place : Diagnostic.Place := .none
deriving DecidableEq, Repr

namespace Diagnostic

def message (d : Diagnostic) : String := d.cause.message

/-- The diagnostics in the order of their positions; those at one position keep their order. -/
def sort (ds : List Diagnostic) : List Diagnostic := ds.mergeSort fun a b => !b.pos.before a.pos

end Diagnostic
end Lox
