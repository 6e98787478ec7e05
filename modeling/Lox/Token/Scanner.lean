import Lox.Diagnostic
import Lox.Number.Numeral
import Lox.Token

/-! # Scanning

A text is cut into pieces: tokens and the gaps between them. `text_first` says that a piece is the
start of what was left and `pieces_text` that no character is lost, whatever the text. Tokens and
scan errors are read off the pieces, each at the position where its piece starts.
-/
namespace Lox

inductive Piece
  | blank (c : Char)
  | comment (text : List Char)
  | stray (c : Char)
  /-- A string without its closing quote takes all that follows. -/
  | unterminated (text : List Char)
  | token (kind : Token.Kind) (text : List Char) (literal : Option Token.Literal)

namespace Piece

def text : Piece → List Char
  | blank c => [c]
  | comment cs => cs
  | stray c => [c]
  | unterminated cs => cs
  | token _ cs _ => cs

def isBlank (c : Char) : Bool := c = ' ' || c = '\t' || c = '\r' || c = '\n'

def isLetter (c : Char) : Bool := c.isAlpha || c = '_'

def isWordChar (c : Char) : Bool := isLetter c || c.isDigit

/-- The kinds of a character that means one thing before an equals sign and another alone. -/
def pair? : Char → Option (Token.Kind × Token.Kind)
  | '!' => some (.bangEqual,.bang)
  | '=' => some (.equalEqual,.equal)
  | '<' => some (.lessEqual,.less)
  | '>' => some (.greaterEqual,.greater)
  | _ => none

def single? : Char → Option Token.Kind
  | '(' => some .leftParen
  | ')' => some .rightParen
  | '\x7b' => some .leftBrace
  | '\x7d' => some .rightBrace
  | ',' => some .comma
  | '.' => some .dot
  | '-' => some .minus
  | '+' => some .plus
  | ';' => some .semicolon
  | '*' => some .star
  | _ => none

/-- The string that a quote opens. -/
def string (cs : List Char) : Piece × List Char :=
  let body := cs.takeWhile (· ≠ '"')
  match cs.dropWhile (· ≠ '"') with
  | [] => (unterminated ('"' :: cs),[])
  | close :: rest =>
    (token .string ('"' :: body ++ [close]) (some (.string (String.ofList body))),rest)

/-- The value of a numeral of digits with at most one point. -/
def numeralValue (cs : List Char) : Float :=
  let whole := cs.takeWhile Char.isDigit
  let fraction := (cs.dropWhile Char.isDigit).drop 1
  Number.ofDecimal ⟨Number.digitsValue (whole ++ fraction),-(fraction.length : Int)⟩

def numeral (text rest : List Char) : Piece × List Char :=
  (token .number text (some (.number (numeralValue text))),rest)

/-- A numeral takes a point only when a digit follows it. -/
def number (cs : List Char) : Piece × List Char :=
  let whole := cs.takeWhile Char.isDigit
  match cs.dropWhile Char.isDigit with
  | '.' :: d :: ds =>
    if d.isDigit then
      numeral (whole ++ '.' :: (d :: ds).takeWhile Char.isDigit) ((d :: ds).dropWhile Char.isDigit)
    else numeral whole ('.' :: d :: ds)
  | rest => numeral whole rest

def word (cs : List Char) : Piece × List Char :=
  let text := cs.takeWhile isWordChar
  (token (.ofWord (String.ofList text)) text none,cs.dropWhile isWordChar)

/-- The first piece of a text that is not empty, and the rest. -/
def first (c : Char) (cs : List Char) : Piece × List Char :=
  if isBlank c then (blank c,cs)
  else if c = '/' then
    match cs with
    | '/' :: _ => (comment (c :: cs.takeWhile (· ≠ '\n')),cs.dropWhile (· ≠ '\n'))
    | _ => (token .slash [c] none,cs)
  else if c = '"' then string cs
  else if c.isDigit then number (c :: cs)
  else if isLetter c then word (c :: cs)
  else match pair? c, single? c, cs with
    | some (paired,_), _, '=' :: rest => (token paired [c,'='] none,rest)
    | some (_,alone), _, _ => (token alone [c] none,cs)
    | none, some kind, _ => (token kind [c] none,cs)
    | none, none, _ => (stray c,cs)

theorem text_string (cs : List Char) : (string cs).1.text ++ (string cs).2 = '"' :: cs := by
  have h := List.takeWhile_append_dropWhile (p := (· ≠ '"')) (l := cs)
  simp only [string]
  split
  · simp [text]
  · next hd => rw [hd] at h; simpa [text] using h

theorem text_number (cs : List Char) : (number cs).1.text ++ (number cs).2 = cs := by
  have h := List.takeWhile_append_dropWhile (p := Char.isDigit) (l := cs)
  simp only [number]
  split
  · next d ds hd =>
    have hds := List.takeWhile_append_dropWhile (p := Char.isDigit) (l := d :: ds)
    rw [hd] at h
    split
    · simp only [numeral,text,List.append_assoc,List.cons_append,hds]
      exact h
    · exact h
  · exact h

theorem text_word (cs : List Char) : (word cs).1.text ++ (word cs).2 = cs :=
  List.takeWhile_append_dropWhile

/-- A piece and what follows it make up the text. -/
theorem text_first (c : Char) (cs : List Char) :
    (first c cs).1.text ++ (first c cs).2 = c :: cs := by
  simp only [first]
  split
  · rfl
  split
  · split
    · simp [text,List.takeWhile_append_dropWhile]
    · rfl
  split
  · next h => rw [h]; exact text_string cs
  split
  · exact text_number (c :: cs)
  split
  · exact text_word (c :: cs)
  · split <;> simp [text]

theorem text_number_ne_nil {c : Char} (cs : List Char) (h : c.isDigit) :
    (number (c :: cs)).1.text ≠ [] := by
  simp only [number,List.takeWhile_cons,h,List.dropWhile_cons]
  split
  · split <;> simp [numeral,text]
  · simp [numeral,text]

theorem text_first_ne_nil (c : Char) (cs : List Char) : (first c cs).1.text ≠ [] := by
  simp only [first]
  split
  · simp [text]
  split
  · split <;> simp [text]
  split
  · simp only [string]
    split <;> simp [text]
  split
  · next h => exact text_number_ne_nil cs h
  split
  · next h => simp [word,text,isWordChar,h]
  · split <;> simp [text]

theorem length_first_lt (c : Char) (cs : List Char) : (first c cs).2.length < (c :: cs).length := by
  have h := congrArg List.length (text_first c cs)
  have hn := List.length_pos_iff.mpr (text_first_ne_nil c cs)
  rw [List.length_append] at h
  omega

end Piece

/-- The pieces of a text, in order. -/
def pieces : List Char → List Piece
  | [] => []
  | c :: cs => (Piece.first c cs).1 :: pieces (Piece.first c cs).2
termination_by cs => cs.length
decreasing_by exact Piece.length_first_lt c cs

theorem pieces_cons (c : Char) (cs : List Char) :
    pieces (c :: cs) = (Piece.first c cs).1 :: pieces (Piece.first c cs).2 := by
  rw [pieces]

/-- No character of a text is lost. -/
theorem pieces_text (cs : List Char) : (pieces cs).flatMap Piece.text = cs := by
  fun_induction pieces cs with
  | case1 => rfl
  | case2 c cs ih => rw [List.flatMap_cons,ih,Piece.text_first]

/-- The tokens of some pieces, ended by the token for the end of the text. -/
def tokensFrom (p : Pos) : List Piece → List Token
  | [] => [⟨.eof,"",none,p⟩]
  | piece :: rest =>
    let tokens := tokensFrom (p.after piece.text) rest
    match piece with
    | .token kind text literal => ⟨kind,String.ofList text,literal,p⟩ :: tokens
    | _ => tokens

def scanErrorsFrom (p : Pos) : List Piece → List Diagnostic
  | [] => []
  | piece :: rest =>
    let errors := scanErrorsFrom (p.after piece.text) rest
    match piece with
    | .stray c => ⟨.scan (.strayCharacter c),p,.none⟩ :: errors
    | .unterminated _ => ⟨.scan .unterminatedString,p,.none⟩ :: errors
    | _ => errors

structure Scan where
  tokens : List Token
  errors : List Diagnostic

def scan (source : String) : Scan :=
  let ps := pieces source.toList
  ⟨tokensFrom .start ps,scanErrorsFrom .start ps⟩

end Lox
