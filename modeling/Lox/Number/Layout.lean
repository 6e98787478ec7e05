import Lox.Number.Shortest

/-! # Number texts

A double is written with its shortest digits, either positionally or with an exponent. The
three styles differ in the range of the positional form, in a whole number's fraction, and in
the names of the values that have no digits.
-/
namespace Lox.Number

structure Style where
  nan : String
  infinity : String
  /-- Whether a number whose first digit stands for `10 ^ e` is written positionally. -/
  positional : Int → Bool
  /-- Whether a whole number is written with the fraction `.0`. -/
  pointZero : Bool

def zeros (n : Nat) : String := String.ofList (List.replicate n '0')

namespace Decimal

def digitText (d : Decimal) : String := Nat.repr d.digits

/-- The exponent of the first digit. -/
def leading (d : Decimal) : Int := d.exponent + d.digitText.length - 1

def positionalText (d : Decimal) (pointZero : Bool) : String :=
  let ds := d.digitText
  match d.exponent with
  | .ofNat e => ds ++ zeros e ++ (if pointZero then ".0" else "")
  | .negSucc e =>
    let places := e + 1
    if places < ds.length then
      String.ofList (ds.toList.take (ds.length - places)) ++ "." ++
        String.ofList (ds.toList.drop (ds.length - places))
    else "0." ++ zeros (places - ds.length) ++ ds

/-- An exponent with its sign and at least two digits. -/
def exponentText (e : Int) : String :=
  let ds := Nat.repr e.natAbs
  (if e < 0 then "e-" else "e+") ++ zeros (2 - ds.length) ++ ds

def scientificText (d : Decimal) : String :=
  let ds := d.digitText.toList
  let fraction := if ds.length ≤ 1 then "" else "." ++ String.ofList (ds.drop 1)
  String.ofList (ds.take 1) ++ fraction ++ exponentText d.leading

end Decimal

namespace Style

def decimalText (s : Style) (d : Decimal) : String :=
  if s.positional d.leading then d.positionalText s.pointZero else d.scientificText

def text (s : Style) (x : Float) : String :=
  match Parts.of x with
  | .nan => s.nan
  | .infinite negative => (if negative then "-" else "") ++ s.infinity
  | .finite negative mantissa exponent =>
    (if negative then "-" else "") ++ s.decimalText (shortest mantissa exponent)

/-- How programs print numbers: never with an exponent. -/
def plain : Style := ⟨"NaN","inf",fun _ => true,false⟩

/-- How numbers stand in descriptions and settings. -/
def exact : Style := ⟨"nan","inf",fun e => -4 ≤ e && e < 16,true⟩

/-- How numbers stand in JSON texts. -/
def json : Style := { exact with nan := "NaN", infinity := "Infinity" }

end Style

end Lox.Number
