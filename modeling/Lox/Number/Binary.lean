/-! # Doubles as exact fractions

A finite double is a whole number of units `2 ^ exponent`. The parts are read off the 64 bits, so
that its value, its truncation and its comparison with other fractions are exact.
-/
namespace Lox.Number

inductive Parts
  | nan
  | infinite (negative : Bool)
  | finite (negative : Bool) (mantissa : Nat) (exponent : Int)
deriving DecidableEq, Repr

namespace Parts

def ofBits (bits : Nat) : Parts :=
  let negative := bits / Nat.pow 2 63 % 2 == 1
  let exponent : Nat := bits / Nat.pow 2 52 % Nat.pow 2 11
  let fraction := bits % Nat.pow 2 52
  if exponent = 2047 then if fraction = 0 then .infinite negative else .nan
  else if exponent = 0 then .finite negative fraction (-1074)
  else .finite negative (Nat.pow 2 52 + fraction) ((exponent : Int) - 1075)

def of (x : Float) : Parts := ofBits x.toBits.toNat

end Parts

inductive NotIntegral
  | infinite
  | nan
deriving DecidableEq, Repr

/-- The whole part of `mantissa · 2 ^ exponent`. -/
def wholePart (mantissa : Nat) (exponent : Int) : Nat :=
  match exponent with
  | .ofNat e => mantissa * Nat.pow 2 e
  | .negSucc e => mantissa / Nat.pow 2 (e + 1)

theorem wholePart_zero (mantissa : Nat) : wholePart mantissa 0 = mantissa := by
  show mantissa * 1 = mantissa
  rw [Nat.mul_one]

/-- The integer next to a double in the direction of zero. -/
def truncate (x : Float) : Except NotIntegral Int :=
  match Parts.of x with
  | .nan => .error .nan
  | .infinite _ => .error .infinite
  | .finite negative mantissa exponent =>
    let whole : Int := wholePart mantissa exponent
    .ok (if negative then -whole else whole)

end Lox.Number
