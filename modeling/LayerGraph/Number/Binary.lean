/-!
# Binary floating point on bit patterns

A format is a fraction width and an exponent width. A bit pattern decodes to a
value `significand * 2 ^ exponent`, and a ratio of naturals is rounded back to
the nearest pattern, a tie going to the even significand. Addition is the exact
sum followed by one rounding, so it needs no machine arithmetic.
-/

set_option autoImplicit false

namespace LayerGraph

/-- Quotient rounded to the nearest natural; a tie goes to the even one. -/
def roundQuotient (numerator denominator : Nat) : Nat :=
  let quotient := numerator / denominator
  let twice := 2 * (numerator % denominator)
  if twice > denominator ∨ (twice = denominator ∧ quotient % 2 = 1) then quotient + 1 else quotient

/-- Largest `l` with `2 ^ l ≤ numerator / denominator`, for positive arguments. -/
def ratioLog2 (numerator denominator : Nat) : Int :=
  let guess : Int := (numerator.log2 : Int) - (denominator.log2 : Int)
  let fits :=
    if 0 ≤ guess then denominator <<< guess.toNat ≤ numerator
    else denominator ≤ numerator <<< (-guess).toNat
  if fits then guess else guess - 1

/-- The naturals `n` and `d` with `significand * 2 ^ exponent = n / d`. -/
def dyadicRatio (significand : Nat) (exponent : Int) : Nat × Nat :=
  if 0 ≤ exponent then (significand <<< exponent.toNat, 1)
  else (significand, 1 <<< (-exponent).toNat)

structure BinaryFormat where
  fractionBits : Nat
  exponentBits : Nat
  deriving DecidableEq, Repr

inductive BinaryValue where
  | nan
  | infinite (negative : Bool)
  | finite (negative : Bool) (significand : Nat) (exponent : Int)
  deriving DecidableEq, Repr

namespace BinaryFormat

def half : BinaryFormat := ⟨10, 5⟩
def single : BinaryFormat := ⟨23, 8⟩
def double : BinaryFormat := ⟨52, 11⟩

def bias (f : BinaryFormat) : Nat := (1 <<< (f.exponentBits - 1)) - 1

/-- Exponent of the last place of the smallest values. -/
def minExponent (f : BinaryFormat) : Int := 1 - (f.bias : Int) - (f.fractionBits : Int)

/-- Exponent field of infinities and of the values that are not numbers. -/
def topField (f : BinaryFormat) : Nat := (1 <<< f.exponentBits) - 1

/-- Magnitude bits of infinity; every larger magnitude is not a number. -/
def infinityBits (f : BinaryFormat) : Nat := f.topField <<< f.fractionBits

def signBit (f : BinaryFormat) : Nat := 1 <<< (f.fractionBits + f.exponentBits)

/-- The pattern given to every result that is not a number. -/
def nanBits (f : BinaryFormat) : Nat := f.infinityBits + (1 <<< (f.fractionBits - 1))

def decode (f : BinaryFormat) (bits : Nat) : BinaryValue :=
  let negative := bits / f.signBit % 2 = 1
  let field := (bits >>> f.fractionBits) % (1 <<< f.exponentBits)
  let fraction := bits % (1 <<< f.fractionBits)
  if field = f.topField then
    if fraction = 0 then .infinite negative else .nan
  else if field = 0 then .finite negative fraction f.minExponent
  else .finite negative ((1 <<< f.fractionBits) + fraction) (f.minExponent + (field : Int) - 1)

/-- Magnitude bits of the nearest value to a ratio. The significand is added to the
shifted exponent, so a carry out of the significand raises the exponent by itself. -/
def roundRatio (f : BinaryFormat) (numerator denominator : Nat) : Nat :=
  if numerator = 0 then 0
  else
    let exponent := max f.minExponent (ratioLog2 numerator denominator - (f.fractionBits : Int))
    let significand :=
      if 0 ≤ exponent then roundQuotient numerator (denominator <<< exponent.toNat)
      else roundQuotient (numerator <<< (-exponent).toNat) denominator
    min f.infinityBits (((exponent - f.minExponent).toNat <<< f.fractionBits) + significand)

def withSign (f : BinaryFormat) (negative : Bool) (magnitude : Nat) : Nat :=
  if negative then f.signBit + magnitude else magnitude

def roundDyadic (f : BinaryFormat) (negative : Bool) (significand : Nat) (exponent : Int) : Nat :=
  let ratio := dyadicRatio significand exponent
  f.withSign negative (f.roundRatio ratio.1 ratio.2)

def ofValue (f : BinaryFormat) : BinaryValue → Nat
  | .nan => f.nanBits
  | .infinite negative => f.withSign negative f.infinityBits
  | .finite negative significand exponent => f.roundDyadic negative significand exponent

def magnitude (f : BinaryFormat) (bits : Nat) : Nat × Int :=
  match f.decode bits with
  | .finite _ significand exponent => (significand, exponent)
  | _ => (0, 0)

def mulMagnitude (f : BinaryFormat) (a b : Nat) : Nat :=
  let (m₁, e₁) := f.magnitude a
  let (m₂, e₂) := f.magnitude b
  f.roundDyadic false (m₁ * m₂) (e₁ + e₂)

def divMagnitude (f : BinaryFormat) (a b : Nat) : Nat :=
  let (m₁, e₁) := f.magnitude a
  let (m₂, e₂) := f.magnitude b
  if e₂ ≤ e₁ then f.roundRatio (m₁ <<< (e₁ - e₂).toNat) m₂
  else f.roundRatio m₁ (m₂ <<< (e₂ - e₁).toNat)

def isNaN (f : BinaryFormat) (bits : Nat) : Bool :=
  f.decode bits = .nan

/-- Exact sum of two finite values, rounded once. A zero sum is negative only when
both operands are. -/
def addFinite (f : BinaryFormat) (n₁ : Bool) (m₁ : Nat) (e₁ : Int)
    (n₂ : Bool) (m₂ : Nat) (e₂ : Int) : Nat :=
  let e := min e₁ e₂
  let scaled (n : Bool) (m : Nat) (k : Int) : Int :=
    let magnitude : Int := ((m <<< (k - e).toNat : Nat) : Int)
    if n then -magnitude else magnitude
  let sum := scaled n₁ m₁ e₁ + scaled n₂ m₂ e₂
  if sum = 0 then f.withSign (n₁ && n₂) 0
  else f.roundDyadic (decide (sum < 0)) sum.natAbs e

def add (f : BinaryFormat) (a b : Nat) : Nat :=
  match f.decode a, f.decode b with
  | .nan, _ => f.nanBits
  | _, .nan => f.nanBits
  | .infinite n₁, .infinite n₂ => if n₁ = n₂ then f.withSign n₁ f.infinityBits else f.nanBits
  | .infinite n₁, .finite _ _ _ => f.withSign n₁ f.infinityBits
  | .finite _ _ _, .infinite n₂ => f.withSign n₂ f.infinityBits
  | .finite n₁ m₁ e₁, .finite n₂ m₂ e₂ => f.addFinite n₁ m₁ e₁ n₂ m₂ e₂

end BinaryFormat

end LayerGraph
