import PathForecast.Binary64
import PathForecast.Json.Value

/-!
# Numerals

What a JSON number literal stands for. An integer is a literal without sign, fraction and exponent.
A float is read from the digits that fit into a 64-bit significand, later ones being dropped, and
scaled by one power of ten; where the power is out of the range of floats, the value is brought
down in several steps, and a value beyond the largest float is refused.
-/

set_option autoImplicit false

namespace PathForecast

/-- The parts of a literal. -/
structure Numeral where
  negative : Bool
  whole : List Nat
  /-- The digits after the point, if there is one. -/
  places : List Nat
  /-- The sign and the digits of the exponent, if there is one. -/
  exponent : Option (Bool × List Nat)

namespace Numeral

open JsonValue (isDigit digitValue)

/-- Splits a literal at its sign, point and exponent. -/
def ofLiteral (literal : Bytes) : Numeral :=
  let negative := literal.head? = some 0x2d
  let unsigned := if negative then literal.drop 1 else literal
  let whole := unsigned.takeWhile isDigit
  let rest := unsigned.drop whole.length
  let places := if rest.head? = some 0x2e then (rest.drop 1).takeWhile isDigit else []
  let rest := if rest.head? = some 0x2e then rest.drop (places.length + 1) else rest
  let power := rest.drop 1
  let sign := power.head?
  let digits := if sign = some 0x2d ∨ sign = some 0x2b then power.drop 1 else power
  { negative, whole := whole.map digitValue, places := places.map digitValue
    exponent := if rest.isEmpty then none else some (sign = some 0x2d, digits.map digitValue) }

def valueOf (digits : List Nat) : Nat := digits.foldl (fun n d => 10 * n + d) 0

/-- The natural that a literal spells, if it spells one. -/
def natural? (literal : Bytes) : Option Nat :=
  if literal ≠ [] ∧ literal.all isDigit then some (valueOf (literal.map digitValue)) else none

/-- Appends digits to a significand as long as it stays a 64-bit word; the answer also tells how
many digits were appended. -/
def absorb (significand : Nat) : List Nat → Nat × Nat
  | [] => (significand, 0)
  | d :: ds =>
      if 10 * significand + d < UInt64.size then
        let (s, n) := absorb (10 * significand + d) ds
        (s, n + 1)
      else (significand, 0)

def powerOfTen (n : Nat) : Float := (Binary64.ofDecimal false 1 n).toFloat

/-- Scales by a power of ten. Far below one, a value is divided by `10 ^ 308` first, at most `fuel`
times. -/
def scale (x : Float) (exponent : Int) : Nat → Option Float
  | 0 => some x
  | fuel + 1 =>
      if exponent.natAbs ≤ 308 then
        if 0 ≤ exponent then
          let y := x * powerOfTen exponent.natAbs
          if y.isInf then none else some y
        else some (x / powerOfTen exponent.natAbs)
      else if x == 0.0 then some x
      else if 0 ≤ exponent then none
      else scale (x / powerOfTen 308) (exponent + 308) fuel

/-- The largest exponent that is counted exactly; a larger one means zero or no number. -/
def maxExponent : Nat := 2147483647

/-- The float that digits are read as, without the sign. -/
def magnitude? (n : Numeral) : Option Float :=
  let (whole, taken) := absorb 0 n.whole
  let (significand, places) := absorb whole n.places
  let shift : Int := (n.whole.length : Int) - taken - places
  let x := significand.toUInt64.toFloat
  match n.exponent with
  | none => scale x shift 4
  | some (down, digits) =>
      let power := valueOf digits
      if maxExponent < power then if significand ≠ 0 ∧ !down then none else some 0.0
      else scale x (if down then shift - power else shift + power) 4

/-- The float that a numeral is read as. -/
def float? (n : Numeral) : Option Float :=
  (magnitude? n).map fun x => if n.negative then -x else x

end Numeral

end PathForecast
