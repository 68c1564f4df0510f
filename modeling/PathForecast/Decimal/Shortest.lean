import PathForecast.Binary64

/-!
# Shortest decimals

The fewest decimal digits that read back as a given binary64 number, and of those the closest to
it. A number `m * 2 ^ e` is the nearest of all reals between the midpoints to its two neighbours,
ends included when `m` is even; `shortest` tries one digit, two digits and so on up to seventeen,
and on each grid only the two points next to the number.
-/

set_option autoImplicit false

namespace PathForecast

/-- The number `digits * 10 ^ exponent`. -/
structure Decimal where
  digits : Nat
  exponent : Int
deriving DecidableEq, Inhabited

namespace Decimal

/-- The digits of a natural, most significant first. -/
def digitsOf (n : Nat) : List Char := Nat.toDigits 10 n

/-- Which of two decimals is taken when the number lies exactly between them. -/
inductive Tie where
  | toEven
  | up
deriving DecidableEq

/-- Moves trailing zeros of the digits into the exponent; at most `fuel` of them. -/
def stripZeros : Nat → Decimal → Decimal
  | 0, x => x
  | fuel + 1, x =>
      if x.digits ≠ 0 ∧ x.digits % 10 = 0 then stripZeros fuel ⟨x.digits / 10, x.exponent + 1⟩
      else x

/-- A ratio of naturals times a power of ten, as a ratio of naturals. -/
def scale (n d : Nat) (power : Int) : Nat × Nat :=
  if 0 ≤ power then (n * Nat.pow 10 power.toNat, d) else (n, d * Nat.pow 10 (-power).toNat)

/-- The exponent `p` with `10 ^ p ≤ n / d < 10 ^ (p + 1)`. -/
def magnitude (n d : Nat) : Int :=
  if d ≤ n then (digitsOf (n / d)).length - 1
  else -((digitsOf ((d - 1) / n)).length : Int)

/-- A real interval around `value / unit` with the ends `low / unit` and `high / unit`. -/
structure Interval where
  low : Nat
  value : Nat
  high : Nat
  unit : Nat
  closed : Bool

/-- The reals that round to `m * 2 ^ e`. Below a power of two the lower neighbour is half as far. -/
def Interval.around (m : Nat) (e : Int) : Interval :=
  let low := if m = Binary64.fractionSize ∧ -1074 < e then 4 * m - 1 else 4 * m - 2
  let up := (e - 2).toNat
  let down := (2 - e).toNat
  { low := low <<< up, value := (4 * m) <<< up, high := (4 * m + 2) <<< up
    unit := 1 <<< down, closed := m % 2 == 0 }

/-- Whether the grid point `c * 10 ^ g` lies in the interval. -/
def Interval.contains (i : Interval) (c : Nat) (g : Int) : Bool :=
  let (p, q) := scale c 1 g
  let x := p * i.unit
  if i.closed then i.low * q ≤ x && x ≤ i.high * q else i.low * q < x && x < i.high * q

/-- The point of the grid `10 ^ g` that lies in the interval, of two points the nearer. -/
def Interval.point (i : Interval) (tie : Tie) (g : Int) : Option Decimal :=
  let (n, d) := scale i.value i.unit (-g)
  let c := n / d
  let r := n % d
  match i.contains c g, i.contains (c + 1) g with
  | true, true =>
      if 2 * r < d then some ⟨c, g⟩
      else if d < 2 * r then some ⟨c + 1, g⟩
      else match tie with
        | .toEven => some ⟨c + c % 2, g⟩
        | .up => some ⟨c + 1, g⟩
  | true, false => some ⟨c, g⟩
  | false, true => some ⟨c + 1, g⟩
  | false, false => none

/-- The shortest decimal of `m * 2 ^ e`, for `m` above zero. -/
def shortest (tie : Tie) (m : Nat) (e : Int) : Decimal :=
  let i := Interval.around m e
  let p := magnitude i.value i.unit
  let found := (List.range 17).findSome? fun (k : Nat) => i.point tie (p - (k : Int))
  stripZeros 18 (found.getD ⟨m, e⟩)

end Decimal

end PathForecast
