import Lox.Number.Shortest
import Lox.Text.Blank

/-! # Reading numbers

Numerals are read after their blanks are cut off and their digits, of whatever script, are put
in ASCII. A digit may be followed by one underscore when another digit comes next.
-/
namespace Lox.Number

def infinity : Float := Float.ofBits 0x7ff0000000000000
def nan : Float := Float.ofBits 0x7ff8000000000000

/-- The double nearest to a decimal. Decimals far outside the range of doubles are not expanded. -/
def ofDecimal (d : Decimal) : Float :=
  if d.digits = 0 then 0
  else
    let magnitude := (d.digits.log2 : Int) * 30103 / 100000 + d.exponent
    if magnitude > 330 then infinity
    else if magnitude < -360 then 0
    else Float.ofScientific d.digits (d.exponent < 0) d.exponent.natAbs

/-- The double nearest to an integer. -/
def ofInt (n : Int) : Float :=
  if n < 0 then -ofDecimal ⟨n.natAbs,0⟩ else ofDecimal ⟨n.natAbs,0⟩

def digitsValue (cs : List Char) : Nat := cs.foldl (fun n c => 10 * n + (c.toNat - 48)) 0

@[simp] theorem digitsValue_nil : digitsValue [] = 0 := rfl

/-- The ASCII form of a numeral; a character with no place in numerals becomes a question mark. -/
def plainNumeral (cs : List Char) : List Char :=
  if cs.all (·.toNat < 128) then cs
  else cs.map fun c =>
    if c.toNat < 127 then c
    else if Text.isBlank c then ' '
    else match Text.digitValue? c with
      | some d => Char.ofNat (48 + d)
      | none => '?'

def bareNumeral (s : String) : List Char := Text.trim Text.isNarrowBlank (plainNumeral s.toList)

/-- The sign in front of a numeral, and the rest. -/
def splitSign : List Char → Bool × List Char
  | '-' :: cs => (true,cs)
  | '+' :: cs => (false,cs)
  | cs => (false,cs)

/-- The digits of a numeral whose underscores all stand between two digits. -/
def dropUnderscores (previous : Char) : List Char → Option (List Char)
  | [] => if previous = '_' then none else some []
  | c :: cs =>
    if c = '_' then if previous.isDigit then dropUnderscores c cs else none
    else if previous = '_' && !c.isDigit then none
    else (dropUnderscores c cs).map (c :: ·)

inductive IntegerError
  | malformed
  | tooLong (digits : Nat)
deriving DecidableEq, Repr

/-- Longer integer numerals are refused. -/
def maxIntegerDigits : Nat := 4300

def readInteger (s : String) : Except IntegerError Int :=
  let (negative,body) := splitSign (bareNumeral s)
  let run := body.takeWhile fun c => c.isDigit || c = '_'
  match dropUnderscores ' ' run with
  | none | some [] => .error .malformed
  | some ds =>
    if maxIntegerDigits < ds.length then .error (.tooLong ds.length)
    else if run.length < body.length then .error .malformed
    else .ok (if negative then -(digitsValue ds : Int) else digitsValue ds)

/-- A whole exponent, with an optional sign. -/
def readExponent (cs : List Char) : Option Int :=
  let (negative,ds) := splitSign cs
  if ds.isEmpty || !ds.all Char.isDigit then none
  else some (if negative then -(digitsValue ds : Int) else digitsValue ds)

/-- A numeral of digits, perhaps a fraction, and perhaps an exponent. -/
def readDecimal (cs : List Char) : Option Decimal :=
  let whole := cs.takeWhile Char.isDigit
  let rest := cs.dropWhile Char.isDigit
  let (fraction,rest) := match rest with
    | '.' :: ds => (ds.takeWhile Char.isDigit,ds.dropWhile Char.isDigit)
    | _ => ([],rest)
  if whole.isEmpty && fraction.isEmpty then none
  else
    let exponent := match rest with
      | [] => some 0
      | c :: ds => if c = 'e' || c = 'E' then readExponent ds else none
    exponent.map fun e => ⟨digitsValue (whole ++ fraction),e - fraction.length⟩

def readMagnitude (cs : List Char) : Option Float :=
  let name := String.ofList (cs.map Char.toLower)
  if name = "inf" || name = "infinity" then some infinity
  else if name = "nan" then some nan
  else (readDecimal cs).map ofDecimal

def readDouble (s : String) : Option Float := do
  let cs ← dropUnderscores ' ' (bareNumeral s)
  let (negative,body) := splitSign cs
  let x ← readMagnitude body
  return if negative then -x else x

end Lox.Number
