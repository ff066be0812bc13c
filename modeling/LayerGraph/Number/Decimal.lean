import LayerGraph.Number.Binary

/-!
# Decimal text of binary values

The shortest text of a value is found on grids of powers of ten, from coarse to
fine: the first grid with a point among the numbers that round to the value
gives the fewest digits, and of the points of that grid the one nearest to the
value is written. A layout then places the decimal point.
-/

set_option autoImplicit false

namespace LayerGraph

abbrev Digit := Fin 10

def Digit.zero : Digit := 0

def Digit.char (d : Digit) : Char := Char.ofNat (48 + d.val)

def Digit.ofChar? (c : Char) : Option Digit :=
  let n := c.toNat - 48
  if h : 48 ≤ c.toNat ∧ n < 10 then some ⟨n, h.2⟩ else none

/-- Decimal digits, the most significant first. -/
def natDigits (n : Nat) : List Digit :=
  if n < 10 then [Fin.ofNat 10 n] else natDigits (n / 10) ++ [Fin.ofNat 10 n]
termination_by n

def digitsValue (digits : List Digit) : Nat :=
  digits.foldl (fun value d => 10 * value + d.val) 0

def digitsText (digits : List Digit) : String :=
  String.ofList (digits.map Digit.char)

/-- The number `coefficient * 10 ^ exponent`. -/
structure Decimal where
  coefficient : Nat
  exponent : Int
  deriving DecidableEq, Repr

/-- Which of two equally near points is written. -/
inductive DecimalTie where
  | upward
  | toEven
  deriving DecidableEq, Repr

/-- The numbers that round to a binary value, scaled to naturals: with `unit` as one,
the value is `value`, the interval reaches from `low` to `high`, and both ends belong
to it when `closed` holds. -/
structure RoundingInterval where
  unit : Nat
  value : Nat
  low : Nat
  high : Nat
  closed : Bool

/-- Interval of `significand * 2 ^ exponent`. Below a power of two the neighbour is half
as far away, except at the smallest exponent. -/
def BinaryFormat.interval (f : BinaryFormat) (significand : Nat) (exponent : Int) :
    RoundingInterval :=
  let atPower := significand = 1 <<< f.fractionBits ∧ f.minExponent < exponent
  let (factor, unit) := dyadicRatio 1 (exponent - 2)
  { unit := unit
    value := 4 * significand * factor
    low := (4 * significand - (if atPower then 1 else 2)) * factor
    high := (4 * significand + 2) * factor
    closed := significand % 2 = 0 }

namespace RoundingInterval

def contains (i : RoundingInterval) (n : Nat) : Bool :=
  if i.closed then decide (i.low ≤ n ∧ n ≤ i.high) else decide (i.low < n ∧ n < i.high)

/-- The point of the grid `10 ^ exponent` to write, when the grid has one in the interval. -/
def point? (i : RoundingInterval) (tie : DecimalTie) (exponent : Int) : Option Nat :=
  let scale := if exponent < 0 then Nat.pow 10 (-exponent).toNat else 1
  let step := if exponent < 0 then i.unit else i.unit * Nat.pow 10 exponent.toNat
  let scaled : RoundingInterval :=
    { i with low := i.low * scale, high := i.high * scale, value := i.value * scale }
  let below := scaled.value / step
  match scaled.contains (below * step), scaled.contains ((below + 1) * step) with
  | false, false => none
  | true, false => some below
  | false, true => some (below + 1)
  | true, true =>
    let twice := 2 * (scaled.value % step)
    let up := decide (step < twice) ||
      (decide (step = twice) && (tie == .upward || below % 2 == 1))
    some (if up then below + 1 else below)

def firstPoint? (i : RoundingInterval) (tie : DecimalTie) : List Int → Option Decimal
  | [] => none
  | exponent :: rest =>
    match i.point? tie exponent with
    | some coefficient => some ⟨coefficient, exponent⟩
    | none => i.firstPoint? tie rest

end RoundingInterval

def descending (high : Int) : Nat → List Int
  | 0 => []
  | count + 1 => high :: descending (high - 1) count

def shortestSingle (tie : DecimalTie) (significand : Nat) (exponent : Int) : Decimal :=
  let interval := BinaryFormat.single.interval significand exponent
  (interval.firstPoint? tie (descending 40 100)).getD ⟨0, 0⟩

def Decimal.positional (d : Decimal) : List Digit × List Digit :=
  let digits := natDigits d.coefficient
  if 0 ≤ d.exponent then (digits ++ List.replicate d.exponent.toNat .zero, [])
  else
    let places := (-d.exponent).toNat
    let padded := List.replicate (places + 1 - digits.length) .zero ++ digits
    padded.splitAt (padded.length - places)

def Decimal.leadingExponent (d : Decimal) : Int :=
  d.exponent + ((natDigits d.coefficient).length : Int) - 1

/-- Text of a single-precision pattern for messages: always positional, no fraction when
the value is whole. -/
def singleText (bits : Nat) : String :=
  let signed (negative : Bool) (text : String) := if negative then "-" ++ text else text
  match BinaryFormat.single.decode bits with
  | .nan => "NaN"
  | .infinite negative => signed negative "inf"
  | .finite negative significand exponent =>
    let decimal := if significand = 0 then ⟨0, 0⟩ else shortestSingle .upward significand exponent
    let (whole, fraction) := decimal.positional
    signed negative
      (if fraction.isEmpty then digitsText whole
       else digitsText whole ++ "." ++ digitsText fraction)

end LayerGraph
