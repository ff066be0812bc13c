import LayerGraph.Json.Numeral
import Mathlib.Data.Option.Basic

/-!
# Numbers as they are written

A numeral is canonical when its text is a number: some digits before the point, of which a
leading zero stands alone, and some digits after an exponent mark. The text of a canonical
numeral reads back as that numeral. The numerals that are made from integers and from
single-precision patterns are canonical, and an integer reads back as itself.
-/

set_option autoImplicit false

namespace LayerGraph

theorem Digit.ofChar?_char (d : Digit) : Digit.ofChar? d.char = some d := by
  revert d
  decide

theorem Digit.char_ne_sign (d : Digit) : d.char ≠ '+' ∧ d.char ≠ '-' := by
  revert d
  decide

theorem natDigits_ne_nil (n : Nat) : natDigits n ≠ [] := by
  rw [natDigits]
  split <;> simp

theorem digitsValue_snoc (digits : List Digit) (d : Digit) :
    digitsValue (digits ++ [d]) = 10 * digitsValue digits + d.val := by
  simp [digitsValue]

theorem digitsValue_natDigits (n : Nat) : digitsValue (natDigits n) = n := by
  induction n using Nat.strongRecOn with
  | ind n ih =>
    rw [natDigits]
    split
    · rw [digitsValue, List.foldl_cons, List.foldl_nil, Fin.val_ofNat]
      omega
    · rw [digitsValue_snoc, ih (n / 10) (by omega), Fin.val_ofNat]
      omega

theorem head?_natDigits {n : Nat} (hn : n ≠ 0) : (natDigits n).head? ≠ some .zero := by
  induction n using Nat.strongRecOn with
  | ind n ih =>
    rw [natDigits]
    split
    · intro h
      have hzero := congrArg Fin.val (Option.some.inj h)
      rw [Fin.val_ofNat, Digit.zero] at hzero
      simp at hzero
      omega
    · have hrest := ih (n / 10) (by omega) (by omega)
      obtain ⟨d, digits, hd⟩ := List.exists_cons_of_ne_nil (natDigits_ne_nil (n / 10))
      rw [hd] at hrest ⊢
      exact hrest

namespace Numeral

def Leading (whole : List Digit) : Prop :=
  whole ≠ [] ∧ (whole.head? ≠ some .zero ∨ whole.length = 1)

structure Canonical (n : Numeral) : Prop where
  whole : Leading n.whole
  exponent : ∀ sign digits, n.exponent = some (sign, digits) → digits ≠ []

section Reading

variable {rest : List Char}

def Stops (rest : List Char) : Prop := ∀ c ∈ rest.head?, Digit.ofChar? c = none

theorem takeDigits_of_stops (hrest : Stops rest) : takeDigits rest = ([], rest) := by
  cases rest with
  | nil => rfl
  | cons c rest => rw [takeDigits, hrest c rfl]

theorem takeDigits_append (digits : List Digit) (hrest : Stops rest) :
    takeDigits (digits.map Digit.char ++ rest) = (digits, rest) := by
  induction digits with
  | nil => exact takeDigits_of_stops hrest
  | cons d digits ih =>
    rw [List.map_cons, List.cons_append, takeDigits, Digit.ofChar?_char, ih]

theorem takeDigits_map (digits : List Digit) :
    takeDigits (digits.map Digit.char) = (digits, []) := by
  simpa using takeDigits_append digits (show Stops [] by simp [Stops])

theorem readExponent?_exponentText {e : Option (ExponentSign × List Digit)}
    (he : ∀ sign digits, e = some (sign, digits) → digits ≠ []) :
    readExponent? (exponentText e) = some e := by
  match e with
  | none => rfl
  | some (.plus, digits) => simp [exponentText, readExponent?, takeDigits_map, he .plus digits rfl]
  | some (.minus, digits) =>
    simp [exponentText, readExponent?, takeDigits_map, he .minus digits rfl]
  | some (.absent, digits) =>
    obtain ⟨d, digits, rfl⟩ := List.exists_cons_of_ne_nil (he .absent digits rfl)
    have hd := d.char_ne_sign
    have hread := takeDigits_map (d :: digits)
    rw [List.map_cons] at hread
    simp [exponentText, readExponent?, hd, hread]

theorem stops_exponentText (e : Option (ExponentSign × List Digit)) : Stops (exponentText e) := by
  match e with
  | none => simp [Stops, exponentText]
  | some (.absent, _) => simp [Stops, exponentText]; decide
  | some (.plus, _) => simp [Stops, exponentText]; decide
  | some (.minus, _) => simp [Stops, exponentText]; decide

def fractionText (fraction : List Digit) : List Char :=
  if fraction.isEmpty then [] else '.' :: fraction.map Digit.char

theorem readFraction?_fractionText (fraction : List Digit)
    (e : Option (ExponentSign × List Digit)) :
    readFraction? (fractionText fraction ++ exponentText e) = some (fraction, exponentText e) := by
  cases fraction with
  | nil =>
    match e with
    | none => rfl
    | some (.absent, _) => rfl
    | some (.plus, _) => rfl
    | some (.minus, _) => rfl
  | cons d fraction =>
    have hread := takeDigits_append (d :: fraction) (stops_exponentText e)
    rw [List.map_cons, List.cons_append] at hread
    simp [fractionText, readFraction?, hread]

theorem stops_fractionText (fraction : List Digit) (e : Option (ExponentSign × List Digit)) :
    Stops (fractionText fraction ++ exponentText e) := by
  cases fraction with
  | nil => exact stops_exponentText e
  | cons d fraction => simp [Stops, fractionText]; decide

/-- The text of a canonical numeral reads back. -/
theorem ofChars?_chars {n : Numeral} (hn : n.Canonical) : ofChars? n.chars = some n := by
  obtain ⟨negative, whole, fraction, exponent⟩ := n
  obtain ⟨⟨hne, hleading⟩, hexponent⟩ := hn
  dsimp only at hne hleading hexponent
  have hchars : chars ⟨negative, whole, fraction, exponent⟩ = (if negative then ['-'] else []) ++
      (whole.map Digit.char ++ (fractionText fraction ++ exponentText exponent)) := by
    simp [chars, fractionText]
  have hwhole := takeDigits_append whole (stops_fractionText fraction exponent)
  have hnonempty := (Option.guard_eq_some' (p := ¬ whole.isEmpty) ()).2 (by simpa using hne)
  have hlead := (Option.guard_eq_some' ()).2 hleading
  have hfraction := readFraction?_fractionText fraction exponent
  have hread := readExponent?_exponentText hexponent
  rw [hchars]
  cases negative with
  | true =>
    rw [if_pos rfl, List.cons_append, List.nil_append, ofChars?, hwhole]
    dsimp only
    rw [hnonempty, hlead, hfraction]
    simp [hread]
  | false =>
    rw [if_neg Bool.false_ne_true, List.nil_append, ofChars?, hwhole]
    · dsimp only
      rw [hnonempty, hlead, hfraction]
      simp [hread]
    · -- no digit is a sign, so the text is not taken for a negative one
      obtain ⟨d, digits, rfl⟩ := List.exists_cons_of_ne_nil hne
      simp [d.char_ne_sign.2]

end Reading

section Integers

theorem leading_natDigits (n : Nat) : Leading (natDigits n) := by
  refine ⟨natDigits_ne_nil n, ?_⟩
  by_cases hn : n = 0
  · right
    rw [hn, natDigits]
    rfl
  · exact .inl (head?_natDigits hn)

theorem canonical_ofNat (n : Nat) : (ofNat n).Canonical := ⟨leading_natDigits n, by simp [ofNat]⟩

theorem canonical_ofInt (n : Int) : (ofInt n).Canonical :=
  ⟨leading_natDigits n.natAbs, by simp [ofInt]⟩

theorem ofInt_natCast (n : Nat) : ofInt n = ofNat n := by
  simp [ofInt, ofNat]

theorem toInt?_ofInt (n : Int) : (ofInt n).toInt? = some n := by
  have hzero : (decide (n < 0) && n.natAbs == 0) = false := by
    simp only [Bool.and_eq_false_iff, decide_eq_false_iff_not, beq_eq_false_iff_ne]
    omega
  rw [toInt?, ofInt]
  simp only [isInteger, digitsValue_natDigits, hzero, List.isEmpty_nil, Option.isNone_none,
    Bool.and_self, Bool.not_true, Bool.or_self, Bool.false_eq_true, if_false, decide_eq_true_eq]
  exact congrArg some (by split <;> omega)

theorem toInt?_ofNat (n : Nat) : (ofNat n).toInt? = some (n : Int) := by
  rw [← ofInt_natCast, toInt?_ofInt]

end Integers

section Singles

/-- Zero, or a decimal whose first digit is none. -/
def Trimmed (d : Decimal) : Prop := d = ⟨0, 0⟩ ∨ d.coefficient ≠ 0

theorem leading_take {digits : List Digit} (hhead : digits.head? ≠ some .zero)
    (hne : digits ≠ []) {k : Nat} (hk : 0 < k) : Leading (digits.take k) := by
  obtain ⟨d, digits, rfl⟩ := List.exists_cons_of_ne_nil hne
  obtain ⟨k, rfl⟩ := Nat.exists_eq_succ_of_ne_zero (Nat.ne_of_gt hk)
  exact ⟨by simp, .inl (by simpa using hhead)⟩

theorem leading_positional {d : Decimal} (hd : Trimmed d) : Leading d.positional.1 := by
  rcases hd with rfl | hd
  · have hzero : natDigits 0 = [.zero] := by
      rw [natDigits]
      rfl
    simp [Decimal.positional, hzero, Leading]
  · have hhead := head?_natDigits hd
    have hne := natDigits_ne_nil d.coefficient
    rw [Decimal.positional]
    generalize natDigits d.coefficient = digits at *
    generalize (-d.exponent).toNat = places
    split
    · obtain ⟨x, digits, rfl⟩ := List.exists_cons_of_ne_nil hne
      exact ⟨by simp, .inl (by simpa using hhead)⟩
    · simp only [List.splitAt_eq, List.length_append, List.length_replicate]
      by_cases hlong : places < digits.length
      · rw [Nat.sub_eq_zero_of_le hlong, List.replicate_zero, List.nil_append]
        exact leading_take hhead hne (by omega)
      · -- all digits stand behind the point, after one zero
        refine ⟨fun hnil => ?_, .inr ?_⟩
        · have hlen := congrArg List.length hnil
          simp only [List.length_take, List.length_append, List.length_replicate,
            List.length_nil] at hlen
          omega
        · simp only [List.length_take, List.length_append, List.length_replicate]
          omega

theorem canonical_ofDecimal (negative : Bool) {d : Decimal} (hd : Trimmed d) :
    (ofDecimal negative d).Canonical := by
  rw [ofDecimal]
  split
  · exact ⟨leading_positional hd, by simp⟩
  · refine ⟨?_, ?_⟩
    · obtain ⟨x, digits, hx⟩ := List.exists_cons_of_ne_nil (natDigits_ne_nil d.coefficient)
      simp [Leading, hx]
    · rintro sign digits h
      obtain ⟨-, rfl⟩ := Prod.mk.inj (Option.some.inj h)
      exact natDigits_ne_nil _

theorem contains_zero {i : RoundingInterval} (hlow : 0 < i.low) : i.contains 0 = false := by
  rw [RoundingInterval.contains]
  split
  · exact decide_eq_false (by omega)
  · exact decide_eq_false (by omega)

theorem coefficient_of_point? {i : RoundingInterval} (hlow : 0 < i.low) {tie : DecimalTie}
    {exponent : Int} {c : Nat} (h : i.point? tie exponent = some c) : c ≠ 0 := by
  have hscale : 0 < if exponent < 0 then Nat.pow 10 (-exponent).toNat else 1 := by
    split
    · exact Nat.pow_pos (by decide)
    · exact Nat.one_pos
  rw [RoundingInterval.point?] at h
  generalize (if exponent < 0 then Nat.pow 10 (-exponent).toNat else 1) = scale at *
  generalize (if exponent < 0 then i.unit else i.unit * Nat.pow 10 exponent.toNat) = step at *
  have hzero := contains_zero (i := { i with
    low := i.low * scale, high := i.high * scale, value := i.value * scale })
    (Nat.mul_pos hlow hscale)
  rintro rfl
  split at h
  · cases h
  · rename_i hbelow _
    rw [Option.some.inj h, Nat.zero_mul, hzero] at hbelow
    cases hbelow
  · cases h
  · rename_i hbelow _
    have hc := Option.some.inj h
    split at hc
    · cases hc
    · rw [hc, Nat.zero_mul, hzero] at hbelow
      cases hbelow

theorem coefficient_of_firstPoint? {i : RoundingInterval} (hlow : 0 < i.low) {tie : DecimalTie}
    {exponents : List Int} {d : Decimal} (h : i.firstPoint? tie exponents = some d) :
    d.coefficient ≠ 0 := by
  induction exponents with
  | nil => cases h
  | cons exponent rest ih =>
    rw [RoundingInterval.firstPoint?] at h
    split at h
    · obtain rfl := Option.some.inj h
      exact coefficient_of_point? hlow ‹_›
    · exact ih h

theorem low_interval (f : BinaryFormat) {significand : Nat} (hs : significand ≠ 0)
    (exponent : Int) : 0 < (f.interval significand exponent).low := by
  have hfactor : 0 < (dyadicRatio 1 (exponent - 2)).1 := by
    rw [dyadicRatio]
    split
    · rw [Nat.one_shiftLeft]
      exact Nat.two_pow_pos _
    · exact Nat.one_pos
  refine Nat.mul_pos ?_ hfactor
  split <;> omega

theorem trimmed_shortestSingle (tie : DecimalTie) {significand : Nat} (hs : significand ≠ 0)
    (exponent : Int) : Trimmed (shortestSingle tie significand exponent) := by
  rw [shortestSingle]
  cases hpoint : (BinaryFormat.single.interval significand exponent).firstPoint? tie
      (descending 40 100) with
  | none => exact .inl rfl
  | some d => exact .inr (coefficient_of_firstPoint? (low_interval _ hs exponent) hpoint)

theorem canonical_ofSingle? {bits : Nat} {n : Numeral} (h : ofSingle? bits = some n) :
    n.Canonical := by
  rw [ofSingle?] at h
  split at h
  · obtain rfl := Option.some.inj h
    refine canonical_ofDecimal _ ?_
    split
    · exact .inl rfl
    · exact trimmed_shortestSingle _ ‹_› _
  · cases h

end Singles

end Numeral

end LayerGraph
