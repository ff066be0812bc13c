import LayerGraph.Number.Decimal

/-!
# Written numbers

A numeral keeps the digits as they are written, so whether it is an integer, and
which value it rounds to, is decided where it is used. Its value is read in two
roundings: the leading digits that fit in 64 bits are rounded to double precision
and then scaled by a rounded power of ten.
-/

set_option autoImplicit false

namespace LayerGraph

inductive ExponentSign where
  | absent
  | plus
  | minus
  deriving DecidableEq, Repr

structure Numeral where
  negative : Bool
  whole : List Digit
  fraction : List Digit
  exponent : Option (ExponentSign × List Digit)
  deriving DecidableEq, Repr

namespace Numeral

def ofNat (n : Nat) : Numeral := ⟨false, natDigits n, [], none⟩

def ofInt (n : Int) : Numeral := ⟨decide (n < 0), natDigits n.natAbs, [], none⟩

/-- Text layout of a decimal: positional with a fraction while the first digit stands
between the sixth decimal place and 10 ^ 12, in scientific form outside. -/
def ofDecimal (negative : Bool) (d : Decimal) : Numeral :=
  let leading := d.leadingExponent
  if -6 ≤ leading ∧ leading ≤ 12 then
    let (whole, fraction) := d.positional
    ⟨negative, whole, if fraction.isEmpty then [.zero] else fraction, none⟩
  else
    let digits := natDigits d.coefficient
    let sign := if leading < 0 then ExponentSign.minus else ExponentSign.plus
    ⟨negative, digits.take 1, digits.drop 1, some (sign, natDigits leading.natAbs)⟩

def ofSingle? (bits : Nat) : Option Numeral :=
  match BinaryFormat.single.decode bits with
  | .finite negative significand exponent =>
    some (ofDecimal negative
      (if significand = 0 then ⟨0, 0⟩ else shortestSingle .toEven significand exponent))
  | _ => none

def exponentText : Option (ExponentSign × List Digit) → List Char
  | none => []
  | some (.absent, digits) => 'e' :: digits.map Digit.char
  | some (.plus, digits) => 'e' :: '+' :: digits.map Digit.char
  | some (.minus, digits) => 'e' :: '-' :: digits.map Digit.char

def chars (n : Numeral) : List Char :=
  (if n.negative then ['-'] else []) ++ n.whole.map Digit.char ++
    (if n.fraction.isEmpty then [] else '.' :: n.fraction.map Digit.char) ++
    exponentText n.exponent

def takeDigits : List Char → List Digit × List Char
  | [] => ([], [])
  | c :: rest =>
    match Digit.ofChar? c with
    | some d => let (digits, after) := takeDigits rest; (d :: digits, after)
    | none => ([], c :: rest)

def readFraction? : List Char → Option (List Digit × List Char)
  | '.' :: rest =>
    let (digits, after) := takeDigits rest
    if digits.isEmpty then none else some (digits, after)
  | cs => some ([], cs)

def readExponent? : List Char → Option (Option (ExponentSign × List Digit))
  | [] => some none
  | mark :: rest =>
    if mark = 'e' ∨ mark = 'E' then
      let (sign, cs) :=
        match rest with
        | '+' :: more => (ExponentSign.plus, more)
        | '-' :: more => (ExponentSign.minus, more)
        | _ => (ExponentSign.absent, rest)
      let (digits, after) := takeDigits cs
      if digits.isEmpty ∨ ¬ after.isEmpty then none else some (some (sign, digits))
    else none

/-- Reads a whole text as a number. A leading zero stands alone, and a point or an
exponent mark is followed by a digit. -/
def ofChars? (cs : List Char) : Option Numeral := do
  let (negative, cs) :=
    match cs with
    | '-' :: rest => (true, rest)
    | _ => (false, cs)
  let (whole, cs) := takeDigits cs
  guard (¬ whole.isEmpty)
  guard (whole.head? ≠ some .zero ∨ whole.length = 1)
  let (fraction, cs) ← readFraction? cs
  let exponent ← readExponent? cs
  return ⟨negative, whole, fraction, exponent⟩

def isInteger (n : Numeral) : Bool := n.fraction.isEmpty && n.exponent.isNone

/-- Value of an integer. A negative zero is not one. -/
def toInt? (n : Numeral) : Option Int :=
  let magnitude := digitsValue n.whole
  if !n.isInteger || (n.negative && magnitude == 0) then none
  else some (if n.negative then -(magnitude : Int) else (magnitude : Int))

def maxSignificand : Nat := UInt64.size - 1

structure Accumulator where
  significand : Nat
  exponent : Int
  full : Bool

/-- A whole digit that no longer fits, and every one after it, raises the exponent. -/
def Accumulator.pushWhole (a : Accumulator) (d : Digit) : Accumulator :=
  let next := 10 * a.significand + d.val
  if a.full || decide (maxSignificand < next) then
    { a with exponent := a.exponent + 1, full := true }
  else { a with significand := next }

/-- A fraction digit that no longer fits is dropped with every one after it. -/
def Accumulator.pushFraction (a : Accumulator) (d : Digit) : Accumulator :=
  let next := 10 * a.significand + d.val
  if a.full || decide (maxSignificand < next) then { a with full := true }
  else { a with significand := next, exponent := a.exponent - 1 }

def accumulate (n : Numeral) : Accumulator :=
  let whole := n.whole.foldl Accumulator.pushWhole ⟨0, 0, false⟩
  n.fraction.foldl Accumulator.pushFraction { whole with full := false }

def powerOfTen (k : Nat) : Nat := BinaryFormat.double.roundRatio (Nat.pow 10 k) 1

def maxPower : Nat := 308

/-- Double-precision magnitude times `10 ^ exponent`; nothing when it overflows. -/
def scale? (magnitude : Nat) (exponent : Int) : Option Nat :=
  if 0 ≤ exponent then
    if exponent ≤ (maxPower : Int) then
      let product := BinaryFormat.double.mulMagnitude magnitude (powerOfTen exponent.toNat)
      if product < BinaryFormat.double.infinityBits then some product else none
    else if magnitude = 0 then some 0 else none
  else if -(maxPower : Int) ≤ exponent then
    some (BinaryFormat.double.divMagnitude magnitude (powerOfTen (-exponent).toNat))
  else if magnitude = 0 then some 0
  else scale? (BinaryFormat.double.divMagnitude magnitude (powerOfTen maxPower))
    (exponent + (maxPower : Int))
termination_by (-exponent).toNat
decreasing_by simp only [maxPower] at *; omega

def maxExponent : Nat := Int32.maxValue.toNatClampNeg

/-- Double-precision pattern of a numeral; nothing when it is too large. An exponent
beyond the bound gives zero when it is negative or the significand is zero. -/
def toDouble? (n : Numeral) : Option Nat := do
  let a := n.accumulate
  let start := BinaryFormat.double.roundRatio a.significand 1
  let magnitude ←
    match n.exponent with
    | none => scale? start a.exponent
    | some (sign, digits) =>
      let written := digitsValue digits
      if maxExponent < written then
        if a.significand = 0 ∨ sign = .minus then some 0 else none
      else if sign = .minus then scale? start (a.exponent - (written : Int))
      else scale? start (a.exponent + (written : Int))
  return BinaryFormat.double.withSign n.negative magnitude

/-- Single-precision pattern of a numeral; nothing when it is too large for double
precision. An integer of 64 bits is rounded once, all else through double precision. -/
def toSingle? (n : Numeral) : Option Nat :=
  let direct := (n.toInt?).filter fun value =>
    decide (Int64.minValue.toInt ≤ value ∧ value < UInt64.size)
  match direct with
  | some value => some (BinaryFormat.single.roundDyadic (decide (value < 0)) value.natAbs 0)
  | none => (n.toDouble?).map fun bits =>
      BinaryFormat.single.ofValue (BinaryFormat.double.decode bits)

end Numeral

end LayerGraph
