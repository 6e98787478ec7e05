import Lox.Number.Layout
import Lox.Position
import Lox.Text.Quoted

/-! # Tokens

The words of the language: punctuation, literals, identifiers and keywords, each with the text it
was written as and the position where it starts.
-/
namespace Lox

namespace Token

inductive Kind
  | leftParen | rightParen | leftBrace | rightBrace | comma | dot | minus | plus | semicolon
  | slash | star | bang | bangEqual | equal | equalEqual | greater | greaterEqual | less
  | lessEqual | identifier | string | number | kwAnd | kwClass | kwElse | kwFalse | kwFun | kwFor
  | kwIf | kwNil | kwOr | kwPrint | kwReturn | kwSuper | kwThis | kwTrue | kwVar | kwWhile
  | kwBreak | kwContinue | eof
deriving DecidableEq, Repr, Inhabited

namespace Kind

def label : Kind → String
  | leftParen => "LPAREN" | rightParen => "RPAREN" | leftBrace => "LBRACE"
  | rightBrace => "RBRACE" | comma => "COMMA" | dot => "DOT" | minus => "MINUS" | plus => "PLUS"
  | semicolon => "SEMICOLON" | slash => "SLASH" | star => "STAR" | bang => "BANG"
  | bangEqual => "NOT_EQ" | equal => "ASSIGN" | equalEqual => "EQ" | greater => "GT"
  | greaterEqual => "GTE" | less => "LT" | lessEqual => "LTE" | identifier => "IDENT"
  | string => "STRING" | number => "NUMBER" | kwAnd => "AND" | kwClass => "CLASS"
  | kwElse => "ELSE" | kwFalse => "FALSE" | kwFun => "FUN" | kwFor => "FOR" | kwIf => "IF"
  | kwNil => "NIL" | kwOr => "OR" | kwPrint => "PRINT" | kwReturn => "RETURN"
  | kwSuper => "SUPER" | kwThis => "THIS" | kwTrue => "TRUE" | kwVar => "VAR"
  | kwWhile => "WHILE" | kwBreak => "BREAK" | kwContinue => "CONTINUE" | eof => "EOF"

/-- The text of the kinds that are always written alike. -/
def spelling? : Kind → Option String
  | leftParen => "(" | rightParen => ")" | leftBrace => "\x7b" | rightBrace => "\x7d"
  | comma => "," | dot => "." | minus => "-" | plus => "+" | semicolon => ";" | slash => "/"
  | star => "*" | bang => "!" | bangEqual => "!=" | equal => "=" | equalEqual => "=="
  | greater => ">" | greaterEqual => ">=" | less => "<" | lessEqual => "<="
  | kwAnd => "and" | kwClass => "class" | kwElse => "else" | kwFalse => "false"
  | kwFun => "fun" | kwFor => "for" | kwIf => "if" | kwNil => "nil" | kwOr => "or"
  | kwPrint => "print" | kwReturn => "return" | kwSuper => "super" | kwThis => "this"
  | kwTrue => "true" | kwVar => "var" | kwWhile => "while" | kwBreak => "break"
  | kwContinue => "continue" | eof => "" | identifier | string | number => none

def keywords : List Kind :=
  [kwAnd,kwClass,kwElse,kwFalse,kwFor,kwFun,kwIf,kwNil,kwOr,kwPrint,kwReturn,kwSuper,kwThis,kwTrue,
   kwVar,kwWhile,kwBreak,kwContinue]

/-- A word is a keyword or an identifier. -/
def ofWord (word : String) : Kind :=
  (keywords.find? fun k => k.spelling? == some word).getD identifier

end Kind

inductive Literal
  | number (x : Float)
  | string (s : String)

def Literal.same : Literal → Literal → Bool
  | number x, number y => x == y
  | string s, string t => s == t
  | _, _ => false

end Token

structure Token where
  kind : Token.Kind
  lexeme : String
  literal : Option Token.Literal := none
  pos : Pos

namespace Token

instance : Inhabited Token := ⟨.eof,"",none,Pos.start⟩

/-- Tokens are compared without their columns. -/
def same (a b : Token) : Bool :=
  a.kind = b.kind && a.lexeme = b.lexeme && a.pos.line = b.pos.line &&
    match a.literal, b.literal with
    | some x, some y => x.same y
    | none, none => true
    | _, _ => false

def description (t : Token) : String :=
  s!"Token({t.kind.label}, {Text.quoted t.lexeme}, line={t.pos.line}, column={t.pos.column})"

end Token
end Lox
