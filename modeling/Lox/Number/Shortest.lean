import Lox.Number.Binary

/-! # Shortest decimals

Every real in an interval around a double rounds to that double. Among the decimals in the
interval, `shortest` takes one on the coarsest grid `10 ^ k` that has any; of the two grid points
next to the double it takes the nearer, and the even one when both are equally near.
-/
namespace Lox.Number

/-- The decimal `digits · 10 ^ exponent`. -/
structure Decimal where
  digits : Nat
  exponent : Int
deriving DecidableEq, Repr

/-- A decimal grid `10 ^ k` beside the quarter units `2 ^ (q - 2)` of a double: grid point `c` lies
at `c * step` and `n` quarter units lie at `n * quarter` on one common scale. -/
structure Grid where
  step : Nat
  quarter : Nat

namespace Grid

def of (k q : Int) : Grid where
  step := Nat.pow 10 k.toNat * Nat.pow 2 (2 - q).toNat
  quarter := Nat.pow 2 (q - 2).toNat * Nat.pow 10 (-k).toNat

theorem step_pos (k q : Int) : 0 < (of k q).step :=
  Nat.mul_pos (Nat.pow_pos (by decide)) (Nat.pow_pos (by decide))

theorem quarter_pos (k q : Int) : 0 < (of k q).quarter :=
  Nat.mul_pos (Nat.pow_pos (by decide)) (Nat.pow_pos (by decide))

end Grid

/-- The reals that round to a double, in quarter units; the ends belong to it when `closed`. -/
structure Interval where
  low : Nat
  middle : Nat
  high : Nat
  closed : Bool

namespace Interval

/-- Below a power of two the doubles lie twice as dense, except where the exponent is least. -/
def around (mantissa : Nat) (exponent : Int) : Interval where
  low := if mantissa = Nat.pow 2 52 ∧ exponent ≠ -1074 then 4 * mantissa - 1 else 4 * mantissa - 2
  middle := 4 * mantissa
  high := 4 * mantissa + 2
  closed := mantissa % 2 = 0

def contains (i : Interval) (g : Grid) (c : Nat) : Bool :=
  if i.closed then i.low * g.quarter ≤ c * g.step && c * g.step ≤ i.high * g.quarter
  else i.low * g.quarter < c * g.step && c * g.step < i.high * g.quarter

/-- The grid point for the interval: one of the two neighbours of its middle. -/
def point? (i : Interval) (g : Grid) : Option Nat :=
  let below := i.middle * g.quarter / g.step
  match i.contains g below, i.contains g (below + 1) with
  | false, false => none
  | true, false => some below
  | false, true => some (below + 1)
  | true, true =>
    let middle := 2 * (i.middle * g.quarter)
    let border := (2 * below + 1) * g.step
    if middle < border || (middle = border && below % 2 = 0) then some below else some (below + 1)

theorem contains_of_point? {i : Interval} {g : Grid} {c : Nat} (h : i.point? g = some c) :
    i.contains g c := by
  simp only [point?] at h
  split at h
  · exact absurd h (by simp)
  · next hb _ => exact Option.some.inj h ▸ hb
  · next _ ha => exact Option.some.inj h ▸ ha
  · next hb ha =>
    split at h
    · exact Option.some.inj h ▸ hb
    · exact Option.some.inj h ▸ ha

end Interval

/-- The first grid with a point for the interval, from `10 ^ k` downwards. -/
def coarsest (i : Interval) (q : Int) : Nat → Int → Decimal
  | 0, k => ⟨i.middle * (Grid.of k q).quarter / (Grid.of k q).step,k⟩
  | tries + 1, k =>
    match i.point? (Grid.of k q) with
    | some c => ⟨c,k⟩
    | none => coarsest i q tries (k - 1)

/-- A power of ten that exceeds `mantissa · 2 ^ exponent`. -/
def ceilingExponent (mantissa : Nat) (exponent : Int) : Int :=
  ((mantissa.log2 : Int) + 1 + exponent) * 30103 / 100000 + 2

/-- The shortest decimal that reads back as the positive double `mantissa · 2 ^ exponent`. -/
def shortest (mantissa : Nat) (exponent : Int) : Decimal :=
  if mantissa = 0 then ⟨0,0⟩
  else coarsest (.around mantissa exponent) exponent 32 (ceilingExponent mantissa exponent)

end Lox.Number
