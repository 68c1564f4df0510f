/-!
# Weights

Probabilities, forecasts and averages are computed over any type of numbers with the operations
of `Weight`. The program runs on `Float`; read over `Rat` the same definitions are exact.
-/

set_option autoImplicit false

namespace PathForecast

/-- Numbers that counts can be turned into, with the arithmetic that forecasts need. -/
class Weight (α : Type) extends Zero α, One α, Add α, Sub α, Mul α, Div α where
  /-- The number of a 64-bit count, rounded where the type cannot hold it. -/
  ofCount : UInt64 → α
  abs : α → α
  /-- The smaller of two numbers; a number that is not a value gives way to the other. -/
  least : α → α → α
  lt : α → α → Bool
  le : α → α → Bool

/-- The smaller of two floats, where a NaN gives way to the other. -/
def leastFloat (a b : Float) : Float := if b < a then b else if a.isNaN then b else a

instance : Weight Float where
  zero := 0.0
  one := 1.0
  ofCount n := n.toFloat
  abs a := a.abs
  least := leastFloat
  lt a b := decide (a < b)
  le a b := decide (a ≤ b)

instance : Weight Rat where
  zero := 0
  one := 1
  ofCount n := (n.toNat : Rat)
  abs a := if a < 0 then -a else a
  least a b := if b < a then b else a
  lt a b := decide (a < b)
  le a b := decide (a ≤ b)

namespace Weight

/-- The quotient of two counts. -/
def ratio {α : Type} [Weight α] (a b : UInt64) : α := ofCount a / ofCount b

end Weight

end PathForecast
