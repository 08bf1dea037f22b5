/-!
# The size of decimal numbers

A number in decimal notation is written with a mantissa and a power of ten. There are
two ways to make a double of it, which differ next to the greatest double: to round
the number itself once, or to keep the leading digits of the mantissa only, and to
round these, the power of ten and the product of both.
-/

namespace ProtocolInference.Decimal

/-- The least number that does not round to a finite double. -/
def doubleLimit : Nat := Nat.pow 2 1024 - Nat.pow 2 970

/-- Whether the product of `mantissa` and a power of ten is finite as a double. Numbers
far from the limit are told by their number of digits alone. -/
def isFinite (mantissa : Nat) (exponent : Int) : Bool :=
  let digits := (toString mantissa).length
  if mantissa = 0 ∨ exponent + digits < 300 then true
  else if 400 < exponent + digits then false
  else if 0 ≤ exponent then mantissa * Nat.pow 10 exponent.toNat < doubleLimit
  else mantissa < doubleLimit * Nat.pow 10 (-exponent).toNat

/-- The most leading digits of a number that fit 64 bits, and how many digits follow. -/
def leading (n : Nat) : Nat × Nat :=
  if n < 0x10000000000000000 then (n, 0)
  else
    let (digits, others) := leading (n / 10)
    (digits, others + 1)
termination_by n
decreasing_by omega

/-- A natural number rounded to 53 binary digits, a half to the even neighbour. -/
def roundedToDouble (n : Nat) : Nat :=
  let step := Nat.pow 2 (n.log2 - 52)
  let (whole, rest) := (n / step, n % step)
  if step < 2 * rest ∨ (step = 2 * rest ∧ whole % 2 = 1) then (whole + 1) * step
  else whole * step

/-- The greatest power of ten that is a finite double. -/
def maxPower : Nat := 308

/-- Whether the product of the leading digits of `mantissa` and a power of ten, each
rounded on its own, is finite as a double. -/
def isFiniteInSteps (mantissa : Nat) (exponent : Int) : Bool :=
  let (digits, others) := leading mantissa
  let power := exponent + others
  if digits = 0 ∨ power < 0 then true
  else if maxPower < power then false
  else roundedToDouble digits * roundedToDouble (Nat.pow 10 power.toNat) < doubleLimit

end ProtocolInference.Decimal
