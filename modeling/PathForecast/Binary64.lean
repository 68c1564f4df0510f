/-!
# Binary64

A binary64 number as its 64 bits, a sign, an 11-bit field and a 52-bit fraction, and its exact
value `± m * 2 ^ e`. `nearest` is the number closest to a ratio of naturals, a half going to the
even neighbour.
-/

set_option autoImplicit false

namespace PathForecast

/-- A binary64 number, by its bits: numbers that differ only in the payload of a NaN differ. -/
structure Binary64 where
  bits : UInt64
deriving DecidableEq, Inhabited

namespace Binary64

/-- What the bits stand for. -/
inductive Value where
  | nan
  | infinite (negative : Bool)
  /-- The number `significand * 2 ^ exponent` with a sign. -/
  | finite (negative : Bool) (significand : Nat) (exponent : Int)
deriving DecidableEq

/-- The number of fractions: `2 ^ 52`. -/
def fractionSize : Nat := 0x10000000000000

/-- The number of fields: `2 ^ 11`. -/
def fieldSize : Nat := 0x800

/-- The bits of an infinity, without its sign: the largest field and no fraction. -/
def infinityBits : Nat := 0x7ff0000000000000

/-- The sign bit alone. -/
def signBit : Nat := 0x8000000000000000

def value (x : Binary64) : Value :=
  let n := x.bits.toNat
  let negative := decide (signBit ≤ n)
  let field : Nat := n / fractionSize % fieldSize
  let fraction := n % fractionSize
  if field + 1 = fieldSize then if fraction = 0 then .infinite negative else .nan
  else if field = 0 then .finite negative fraction (-1074)
  else .finite negative (fractionSize + fraction) ((field : Int) - 1075)

def toFloat (x : Binary64) : Float := Float.ofBits x.bits

def ofFloat (x : Float) : Binary64 := ⟨x.toBits⟩

/-! ## Rounding -/

/-- The natural closest to `n / d`; a half goes to the even neighbour. -/
def roundHalfEven (n d : Nat) : Nat :=
  let q := n / d
  let r := n % d
  if 2 * r < d then q else if d < 2 * r then q + 1 else q + q % 2

/-- A sign bit above a magnitude. -/
def signed (negative : Bool) (magnitude : Nat) : Binary64 :=
  ⟨(magnitude + if negative then signBit else 0).toUInt64⟩

def infinity (negative : Bool) : Binary64 := signed negative infinityBits

/-- The exponent of the last bit of the number closest to `n / d`, at least that of the smallest
number. -/
def lastExponent (n d : Nat) : Int :=
  let e := (n.log2 : Int) - d.log2 - 52
  let below :=
    if 0 ≤ e then n < (d * fractionSize) <<< e.toNat else n <<< (-e).toNat < d * fractionSize
  max (if below then e - 1 else e) (-1074)

/-- The number closest to `n / d`, for `d` above zero. A significand that rounds up to `2 ^ 53`
carries into the field. -/
def nearest (negative : Bool) (n d : Nat) : Binary64 :=
  if n = 0 then signed negative 0
  else
    let e := lastExponent n d
    let m := if 0 ≤ e then roundHalfEven n (d <<< e.toNat) else roundHalfEven (n <<< (-e).toNat) d
    let magnitude :=
      if m < fractionSize then m else (e + 1075).toNat * fractionSize + (m - fractionSize)
    if infinityBits ≤ magnitude then infinity negative else signed negative magnitude

/-- The number closest to `digits * 10 ^ exponent`. Exponents far outside the range of the format
are decided without computing the power. -/
def ofDecimal (negative : Bool) (digits : Nat) (exponent : Int) : Binary64 :=
  if digits = 0 then signed negative 0
  else if 400 < exponent then infinity negative
  else if exponent < -(digits.log2 : Int) - 400 then signed negative 0
  else if 0 ≤ exponent then nearest negative (digits * Nat.pow 10 exponent.toNat) 1
  else nearest negative digits (Nat.pow 10 (-exponent).toNat)

end Binary64

end PathForecast
