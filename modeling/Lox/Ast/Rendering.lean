import Lox.Ast

/-! # Rendering of syntax trees

The words that a tree stands for: its tokens without positions. A loop or block made from the
clauses of a `for` is rendered as that `for`, and a condition that was left out as nothing.
-/
namespace Lox

/-- A token without its position. -/
structure Word where
  kind : Token.Kind
  lexeme : String
  literal : Option Token.Literal := none

def Token.word (t : Token) : Word := ⟨t.kind,t.lexeme,t.literal⟩

def Word.at (w : Word) (pos : Pos) : Token := ⟨w.kind,w.lexeme,w.literal,pos⟩

@[simp] theorem Word.word_at (w : Word) (pos : Pos) : (w.at pos).word = w := rfl

namespace Word

/-- The word of a kind that is always written alike. -/
def fixed (k : Token.Kind) : Word := { kind := k, lexeme := k.spelling }

def identifier (text : String) : Word := { kind := .identifier, lexeme := text }

/-- Lists of words with a comma between each two. -/
def separated : List (List Word) → List Word
  | [] => []
  | [ws] => ws
  | ws :: rest => ws ++ fixed .comma :: separated rest

def parenthesized (ws : List Word) : List Word := fixed .leftParen :: ws ++ [fixed .rightParen]

def braced (ws : List Word) : List Word := fixed .leftBrace :: ws ++ [fixed .rightBrace]

end Word

open Word

def Constant.words : Constant → List Word
  | nil => [fixed .kwNil]
  | bool true => [fixed .kwTrue]
  | bool false => [fixed .kwFalse]
  | number x lexeme => [⟨.number,lexeme,some (.number x)⟩]
  | string s => [⟨.string,"\"" ++ s ++ "\"",some (.string s)⟩]
  | always => []

mutual

def Expr.words : Expr → List Word
  | .literal value _ => value.words
  | .grouping _ inner => parenthesized inner.words
  | .var r => [identifier r.name.text]
  | .assign target value => identifier target.name.text :: fixed .equal :: value.words
  | .unary op _ right => fixed op.kind :: right.words
  | .binary left op _ right => left.words ++ fixed op.kind :: right.words
  | .logical left op _ right => left.words ++ fixed op.kind :: right.words
  | .call callee _ args => callee.words ++ parenthesized (separated (argumentWords args))
  | .get object name => object.words ++ [fixed .dot,identifier name.text]
  | .set object name value =>
    object.words ++ fixed .dot :: identifier name.text :: fixed .equal :: value.words
  | .this _ _ => [fixed .kwThis]
  | .super _ method _ => [fixed .kwSuper,fixed .dot,identifier method.text]
termination_by structural e => e

def argumentWords : List Expr → List (List Word)
  | [] => []
  | e :: es => e.words :: argumentWords es
termination_by structural es => es

end

def Expr.optionWords : Option Expr → List Word
  | none => []
  | some e => e.words

def Jump.kind : Jump → Token.Kind
  | leave => .kwBreak
  | next => .kwContinue

/-- An initializer with the equals sign in front of it. -/
def initializerWords : Option Expr → List Word
  | none => []
  | some e => fixed .equal :: e.words

def superclassWords : Option Reference → List Word
  | none => []
  | some r => [fixed .less,identifier r.name.text]

mutual

def Stmt.words : Stmt → List Word
  | .expression e => e.words ++ [fixed .semicolon]
  | .print _ e => fixed .kwPrint :: e.words ++ [fixed .semicolon]
  | .var name init =>
    fixed .kwVar :: identifier name.text :: initializerWords init ++ [fixed .semicolon]
  | .block _ .plain body => braced (statementWords body)
  | .block _ .clauses body => fixed .kwFor :: fixed .leftParen :: clauseWords body
  | .branch _ condition yes none =>
    fixed .kwIf :: parenthesized condition.words ++ yes.words
  | .branch _ condition yes (some no) =>
    fixed .kwIf :: parenthesized condition.words ++ yes.words ++ fixed .kwElse :: no.words
  | .loop _ .plain condition body _ => fixed .kwWhile :: parenthesized condition.words ++ body.words
  | .loop _ .clauses condition body increment =>
    fixed .kwFor :: fixed .leftParen :: fixed .semicolon :: condition.words ++
      fixed .semicolon :: Expr.optionWords increment ++ fixed .rightParen :: body.words
  | .jump _ j => [fixed j.kind,fixed .semicolon]
  | .function r => fixed .kwFun :: r.words
  | .leave _ value => fixed .kwReturn :: Expr.optionWords value ++ [fixed .semicolon]
  | .klass name superclass methods =>
    fixed .kwClass :: identifier name.text :: superclassWords superclass ++
      braced (methodWords methods)
termination_by structural s => s

/-- The words behind the opening parenthesis of a `for` with an initializer. -/
def clauseWords : List Stmt → List Word
  | [init,.loop _ _ condition body increment] =>
    init.words ++ condition.words ++ fixed .semicolon :: Expr.optionWords increment ++
      fixed .rightParen :: body.words
  | _ => []
termination_by structural ss => ss

def statementWords : List Stmt → List Word
  | [] => []
  | s :: rest => s.words ++ statementWords rest
termination_by structural ss => ss

def Routine.words : Routine → List Word
  | ⟨name,params,body⟩ =>
    identifier name.text :: parenthesized (separated (params.map fun p => [identifier p.text])) ++
      braced (statementWords body)
termination_by structural r => r

def methodWords : List Routine → List Word
  | [] => []
  | r :: rest => r.words ++ methodWords rest
termination_by structural rs => rs

end

def Program.words (p : Program) : List Word := statementWords p

theorem statementWords_append (ss ts : List Stmt) :
    statementWords (ss ++ ts) = statementWords ss ++ statementWords ts := by
  induction ss with
  | nil => rfl
  | cons s ss ih => rw [List.cons_append,statementWords,statementWords,ih,List.append_assoc]

end Lox
