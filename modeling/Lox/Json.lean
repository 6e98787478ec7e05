import Lox.Number.Layout
import Lox.Number.Numeral
import Lox.Text.Quoted

/-! # JSON texts

Values, reading and writing. Integers are kept apart from other numbers and have no bound except
the length of their numeral. The names `NaN`, `Infinity` and `-Infinity` are numbers. Written
text is ASCII.
-/
namespace Lox

inductive Json
  | null
  | bool (b : Bool)
  | int (n : Int)
  | float (x : Float)
  | string (s : String)
  | array (items : List Json)
  | object (members : List (String × Json))

namespace Json

instance : Inhabited Json := ⟨null⟩

/-- Of two members with one key the last counts. -/
def member? (key : String) : List (String × Json) → Option Json
  | [] => none
  | (k,v) :: rest =>
    match member? key rest with
    | some w => some w
    | none => if k = key then some v else none

def field? (j : Json) (key : String) : Option Json :=
  match j with
  | object members => member? key members
  | _ => none

/-! ## Reading -/

/-- What a reader makes of the start of a text, and the rest of the text. -/
abbrev Reader (α : Type) := List Char → Option (α × List Char)

def skipBlanks (cs : List Char) : List Char :=
  cs.dropWhile fun c => c = ' ' || c = '\n' || c = '\r' || c = '\t'

def hexValue? (c : Char) : Option Nat :=
  if c.isDigit then some (c.toNat - 48)
  else if 'a' ≤ c && c ≤ 'f' then some (c.toNat - 87)
  else if 'A' ≤ c && c ≤ 'F' then some (c.toNat - 55)
  else none

def readHex : Reader Nat
  | a :: b :: c :: d :: rest => do
    let a ← hexValue? a
    let b ← hexValue? b
    let c ← hexValue? c
    let d ← hexValue? d
    return (((a * 16 + b) * 16 + c) * 16 + d,rest)
  | _ => none

/-- The character of a code unit. A first half takes the second half from the text. -/
def readUnit (cs : List Char) : Option (Char × List Char) := do
  let (high,rest) ← readHex cs
  let lone := (Char.ofNat (if 0xd800 ≤ high && high < 0xe000 then 0xfffd else high),rest)
  if 0xd800 ≤ high && high < 0xdc00 then
    match rest with
    | '\\' :: 'u' :: more =>
      let (low,after) ← readHex more
      if 0xdc00 ≤ low && low < 0xe000 then
        return (Char.ofNat (0x10000 + (high - 0xd800) * 0x400 + (low - 0xdc00)),after)
      else return lone
    | _ => return lone
  else return lone

def escaped? : Char → Option Char
  | '"' => some '"' | '\\' => some '\\' | '/' => some '/' | 'b' => some '\x08'
  | 'f' => some '\x0c' | 'n' => some '\n' | 'r' => some '\r' | 't' => some '\t' | _ => none

/-- The rest of a string behind its opening quote; the characters so far come last one first. -/
def readString : Nat → List Char → Reader String
  | 0, _, _ => none
  | n + 1, read, cs =>
    match cs with
    | [] => none
    | '"' :: rest => some (String.ofList read.reverse,rest)
    | '\\' :: 'u' :: rest => do
      let (c,rest) ← readUnit rest
      readString n (c :: read) rest
    | '\\' :: c :: rest => do
      let c ← escaped? c
      readString n (c :: read) rest
    | c :: rest => if c.toNat < 0x20 then none else readString n (c :: read) rest

def readDigits (cs : List Char) : List Char × List Char :=
  (cs.takeWhile Char.isDigit,cs.dropWhile Char.isDigit)

/-- The fraction of a numeral, which is left alone unless a digit follows its point. -/
def readFraction (cs : List Char) : List Char × List Char :=
  match cs with
  | '.' :: rest =>
    let (ds,after) := readDigits rest
    if ds.isEmpty then ([],cs) else ('.' :: ds,after)
  | _ => ([],cs)

def readPower (cs : List Char) : List Char × List Char :=
  match cs with
  | e :: rest =>
    if e = 'e' || e = 'E' then
      let sign := rest.takeWhile (fun c => c = '-' || c = '+') |>.take 1
      let (ds,after) := readDigits (rest.drop sign.length)
      if ds.isEmpty then ([],cs) else (e :: sign ++ ds,after)
    else ([],cs)
  | [] => ([],cs)

/-- The digits in front of a fraction: a zero alone, or others. -/
def readWhole (cs : List Char) : List Char × List Char :=
  match cs with
  | '0' :: rest => (['0'],rest)
  | _ => readDigits cs

def readNumber (negative : Bool) (cs : List Char) : Option (Json × List Char) := do
  let (whole,rest) := readWhole cs
  if whole.isEmpty then none
  let (fraction,rest) := readFraction rest
  let (power,rest) := readPower rest
  if fraction.isEmpty && power.isEmpty then
    if Number.maxIntegerDigits < whole.length then none
    let n : Int := Number.digitsValue whole
    return (int (if negative then -n else n),rest)
  else
    let x ← Number.readMagnitude (whole ++ fraction ++ power)
    return (float (if negative then -x else x),rest)

mutual

def readValue : Nat → List Char → Option (Json × List Char)
  | 0, _ => none
  | n + 1, cs =>
    match cs with
    | '"' :: rest => (readString (rest.length + 1) [] rest).map fun (s,rest) => (string s,rest)
    | '\x7b' :: rest =>
      match skipBlanks rest with
      | '\x7d' :: rest => some (object [],rest)
      | rest => (readMembers n rest).map fun (ms,rest) => (object ms,rest)
    | '[' :: rest =>
      match skipBlanks rest with
      | ']' :: rest => some (array [],rest)
      | rest => (readItems n rest).map fun (items,rest) => (array items,rest)
    | 'n' :: 'u' :: 'l' :: 'l' :: rest => some (null,rest)
    | 't' :: 'r' :: 'u' :: 'e' :: rest => some (bool true,rest)
    | 'f' :: 'a' :: 'l' :: 's' :: 'e' :: rest => some (bool false,rest)
    | 'N' :: 'a' :: 'N' :: rest => some (float Number.nan,rest)
    | 'I' :: 'n' :: 'f' :: 'i' :: 'n' :: 'i' :: 't' :: 'y' :: rest =>
      some (float Number.infinity,rest)
    | '-' :: 'I' :: 'n' :: 'f' :: 'i' :: 'n' :: 'i' :: 't' :: 'y' :: rest =>
      some (float (-Number.infinity),rest)
    | '-' :: rest => readNumber true rest
    | rest => readNumber false rest
termination_by structural n => n

def readItems : Nat → List Char → Option (List Json × List Char)
  | 0, _ => none
  | n + 1, cs => do
    let (item,rest) ← readValue n cs
    match skipBlanks rest with
    | ',' :: rest =>
      let (items,rest) ← readItems n (skipBlanks rest)
      return (item :: items,rest)
    | ']' :: rest => return ([item],rest)
    | _ => none
termination_by structural n => n

def readMembers : Nat → List Char → Option (List (String × Json) × List Char)
  | 0, _ => none
  | n + 1, cs => do
    let '"' :: rest := cs | none
    let (key,rest) ← readString (rest.length + 1) [] rest
    let ':' :: rest := skipBlanks rest | none
    let (value,rest) ← readValue n (skipBlanks rest)
    match skipBlanks rest with
    | ',' :: rest =>
      let (members,rest) ← readMembers n (skipBlanks rest)
      return ((key,value) :: members,rest)
    | '\x7d' :: rest => return ([(key,value)],rest)
    | _ => none
termination_by structural n => n

end

/-- The value of a whole text. -/
def parse (text : String) : Option Json := do
  let cs := text.toList
  let (value,rest) ← readValue (2 * cs.length + 2) (skipBlanks cs)
  if (skipBlanks rest).isEmpty then some value else none

/-! ## Writing -/

def unitEscape (n : Nat) : List Char := '\\' :: 'u' :: Text.hexDigits 4 n

def escape (c : Char) : List Char :=
  if c = '"' || c = '\\' then ['\\',c]
  else if c = '\n' then ['\\','n']
  else if c = '\r' then ['\\','r']
  else if c = '\t' then ['\\','t']
  else if c = '\x08' then ['\\','b']
  else if c = '\x0c' then ['\\','f']
  else if 0x20 ≤ c.toNat && c.toNat < 0x7f then [c]
  else if c.toNat < 0x10000 then unitEscape c.toNat
  else
    let n := c.toNat - 0x10000
    unitEscape (0xd800 + n / 0x400) ++ unitEscape (0xdc00 + n % 0x400)

def stringText (s : String) : String :=
  String.ofList ('"' :: s.toList.flatMap escape ++ ['"'])

/-- How the parts of arrays and objects are set apart. -/
structure Spacing where
  colon : String
  /-- What starts a part at a depth of nesting. A closing bracket has the depth less one. -/
  line : Nat → String
deriving Inhabited

def Spacing.tight : Spacing := ⟨":",fun _ => ""⟩

/-- Each part on a line of its own, two blanks deeper than what it belongs to. -/
def Spacing.indented : Spacing :=
  ⟨": ",fun depth => "\n" ++ String.ofList (List.replicate (2 * depth) ' ')⟩

mutual

def write (s : Spacing) (depth : Nat) : Json → String
  | null => "null"
  | bool true => "true"
  | bool false => "false"
  | int n => toString n
  | float x => Number.Style.json.text x
  | string t => stringText t
  | array [] => "[]"
  | array items => "[" ++ writeItems s (depth + 1) items ++ s.line depth ++ "]"
  | object [] => "\x7b\x7d"
  | object members => "\x7b" ++ writeMembers s (depth + 1) members ++ s.line depth ++ "\x7d"
termination_by structural j => j

def writeItems (s : Spacing) (depth : Nat) : List Json → String
  | [] => ""
  | item :: rest =>
    let more := if rest.isEmpty then "" else ","
    s.line depth ++ write s depth item ++ more ++ writeItems s depth rest
termination_by structural items => items

def writeMembers (s : Spacing) (depth : Nat) : List (String × Json) → String
  | [] => ""
  | member :: rest =>
    let more := if rest.isEmpty then "" else ","
    s.line depth ++ writeMember s depth member ++ more ++ writeMembers s depth rest
termination_by structural members => members

def writeMember (s : Spacing) (depth : Nat) : String × Json → String
  | (key,value) => stringText key ++ s.colon ++ write s depth value
termination_by structural member => member

end

/-- A text on one line without blanks. -/
def text (j : Json) : String := write .tight 0 j

def indentedText (j : Json) : String := write .indented 0 j

end Json
end Lox
