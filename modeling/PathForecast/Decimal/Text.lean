import PathForecast.Decimal.Shortest

/-!
# Decimal text

Three written forms of a binary64 number. `plain` writes the shortest digits without an exponent.
`scientific` writes them in positional form for the middle exponents of a `Format` and with an
exponent outside them. `fixed` rounds the exact value once, to a given number of places.
-/

set_option autoImplicit false

namespace PathForecast

namespace Decimal

def zeros (n : Nat) : List Char := List.replicate n '0'

def sign (negative : Bool) : List Char := if negative then ['-'] else []

/-- Digits with a point after the first `whole` of them. -/
def pointAfter (whole : Nat) (ds : List Char) : List Char :=
  if ds.length ≤ whole then ds else ds.take whole ++ '.' :: ds.drop whole

/-- The positional form: no exponent, no point without a digit after it. -/
def positional (x : Decimal) : List Char :=
  let ds := digitsOf x.digits
  if 0 ≤ x.exponent then ds ++ zeros x.exponent.toNat
  else
    let places := (-x.exponent).toNat
    if places < ds.length then pointAfter (ds.length - places) ds
    else '0' :: '.' :: zeros (places - ds.length) ++ ds

/-- The exponent of the first digit. -/
def firstExponent (x : Decimal) : Int := (digitsOf x.digits).length - 1 + x.exponent

/-- How numbers are written where very large and very small ones take an exponent. -/
structure Format where
  /-- The exponents of the first digit that are written positionally. -/
  least : Int
  most : Int
  tie : Tie

/-- A whole number in positional form keeps one place. -/
def withPlace (text : List Char) : List Char :=
  if '.' ∈ text then text else text ++ ['.', '0']

/-- The exponent of the scientific form always carries its sign. -/
def exponentText (e : Int) : List Char :=
  'e' :: (if 0 ≤ e then '+' else '-') :: digitsOf e.natAbs

def Format.write (f : Format) (x : Decimal) : List Char :=
  let e := x.firstExponent
  if f.least ≤ e ∧ e ≤ f.most then withPlace x.positional
  else pointAfter 1 (digitsOf x.digits) ++ exponentText e

end Decimal

namespace Binary64

open Decimal

/-- The shortest digits that read back, never with an exponent. -/
def plain (x : Binary64) : String :=
  match x.value with
  | .nan => "NaN"
  | .infinite negative => String.ofList (sign negative ++ ['i', 'n', 'f'])
  | .finite negative m e =>
      String.ofList (sign negative ++ if m = 0 then ['0'] else (shortest .up m e).positional)

/-- The shortest digits that read back in a given format; nothing for NaN and the infinities. -/
def scientific (f : Format) (x : Binary64) : Option (List Char) :=
  match x.value with
  | .nan => none
  | .infinite _ => none
  | .finite negative m e =>
      some (sign negative ++ if m = 0 then ['0', '.', '0'] else f.write (shortest f.tie m e))

/-- The exact value rounded to a number of places, a half going to the even digit. -/
def fixed (places : Nat) (x : Binary64) : String :=
  match x.value with
  | .nan => "NaN"
  | .infinite negative => String.ofList (sign negative ++ ['i', 'n', 'f'])
  | .finite negative m e =>
      let n := roundHalfEven ((m * Nat.pow 10 places) <<< e.toNat) (1 <<< (-e).toNat)
      let ds := digitsOf n
      let padded := zeros (places + 1 - ds.length) ++ ds
      String.ofList (sign negative ++ pointAfter (padded.length - places) padded)

end Binary64

end PathForecast
