import LayerGraph.Proofs.Numerals

/-!
# Integers in double precision

Rounding a ratio to double precision gives a pattern whose exponent field stays near the
logarithm of the ratio. So an integer of 64 bits, which is rounded and then scaled by the
power of ten with exponent zero, never becomes infinite.
-/

set_option autoImplicit false

namespace LayerGraph

variable {n d a k : Nat}

theorem shiftLeft_lt_of_log2_lt (hd : d ≠ 0) (h : n.log2 + k < d.log2 + a) :
    n <<< k < d <<< a := by
  rw [Nat.shiftLeft_eq, Nat.shiftLeft_eq]
  calc n * 2 ^ k < 2 ^ (n.log2 + 1) * 2 ^ k :=
        Nat.mul_lt_mul_of_pos_right Nat.lt_log2_self (Nat.two_pow_pos k)
    _ = 2 ^ (n.log2 + 1 + k) := (Nat.pow_add ..).symm
    _ ≤ 2 ^ (d.log2 + a) := Nat.pow_le_pow_right (by decide) (by omega)
    _ = 2 ^ d.log2 * 2 ^ a := Nat.pow_add ..
    _ ≤ d * 2 ^ a := Nat.mul_le_mul_right _ (Nat.log2_self_le hd)

theorem roundQuotient_le (h : n < d <<< a) : roundQuotient n d ≤ 1 <<< a := by
  have hq : n / d < 1 <<< a := by
    rw [Nat.shiftLeft_eq] at h ⊢
    rw [Nat.one_mul]
    exact Nat.div_lt_of_lt_mul h
  rw [roundQuotient]
  split <;> omega

theorem ratioLog2_bounds (n d : Nat) : (n.log2 : Int) - d.log2 - 1 ≤ ratioLog2 n d ∧
    ratioLog2 n d ≤ (n.log2 : Int) - d.log2 := by
  rw [ratioLog2]
  split <;> omega

namespace BinaryFormat

theorem double_minExponent : double.minExponent = -1074 := by decide

theorem double_infinityBits : double.infinityBits = 2047 <<< 52 := by decide

/-- The significand has few bits more than the fraction when the exponent is not too small. -/
theorem significand_le (hd : d ≠ 0) {e : Int} (he : (n.log2 : Int) < d.log2 + e + 54) :
    (if 0 ≤ e then roundQuotient n (d <<< e.toNat)
      else roundQuotient (n <<< (-e).toNat) d) ≤ 1 <<< 54 := by
  split
  · refine roundQuotient_le ?_
    rw [← Nat.shiftLeft_add]
    exact shiftLeft_lt_of_log2_lt (k := 0) hd (by omega)
  · exact roundQuotient_le (shiftLeft_lt_of_log2_lt hd (by omega))

/-- The exponent field of a rounded ratio is near the logarithm of the ratio. -/
theorem roundRatio_le (hd : d ≠ 0) (h : n.log2 ≤ d.log2 + k) :
    double.roundRatio n d ≤ (k + 1026) <<< 52 := by
  obtain ⟨hlow, hhigh⟩ := ratioLog2_bounds n d
  have hfraction : double.fractionBits = 52 := rfl
  rw [roundRatio]
  split
  · exact Nat.zero_le _
  · rw [double_minExponent, hfraction]
    generalize he : max (-1074 : Int) (ratioLog2 n d - 52) = e
    have hsignificand := significand_le (n := n) hd (e := e) (by omega)
    have hfield : (e - -1074).toNat ≤ k + 1022 := by omega
    refine Nat.le_trans (Nat.min_le_right _ _) ?_
    simp only [Nat.shiftLeft_eq] at hsignificand ⊢
    omega

theorem magnitude_bounds (bits : Nat) : (double.magnitude bits).1 < 1 <<< 53 ∧
    (double.magnitude bits).2 ≤ max (0 : Int) ((bits >>> 52 : Nat) - 1075) := by
  have hmod : bits % (1 <<< double.fractionBits) < 1 <<< 52 := Nat.mod_lt _ (by decide)
  have hfield : (bits >>> double.fractionBits) % (1 <<< double.exponentBits) ≤ bits >>> 52 :=
    Nat.mod_le _ _
  rw [magnitude]
  split
  · rename_i negative significand exponent hdecode
    rw [decode, double_minExponent] at hdecode
    split at hdecode
    · split at hdecode <;> cases hdecode
    · split at hdecode
      · injection hdecode with _ hs he
        rw [hs] at hmod
        simp only [Nat.shiftLeft_eq] at hmod ⊢
        omega
      · injection hdecode with _ hs he
        have hone : 1 <<< double.fractionBits = 1 <<< 52 := rfl
        rw [hone] at hs
        simp only [Nat.shiftLeft_eq] at hmod hs ⊢
        omega
  · exact ⟨by decide, Int.le_max_left _ _⟩

theorem log2_le_of_lt (h : n < 1 <<< (a + 1)) : n.log2 ≤ a := by
  rcases Nat.eq_zero_or_pos n with rfl | hn
  · simp
  · rw [Nat.one_shiftLeft] at h
    exact Nat.le_of_lt_succ ((Nat.log2_lt (Nat.ne_of_gt hn)).2 h)

theorem roundDyadic_lt {exponent : Int} (hn : n < 1 <<< 105) (he : exponent ≤ -38) :
    double.roundDyadic false n exponent < double.infinityBits := by
  have hlog : n.log2 ≤ (1 <<< (-exponent).toNat).log2 + 66 := by
    rw [Nat.one_shiftLeft, Nat.log2_two_pow]
    have := log2_le_of_lt (a := 104) hn
    omega
  have hle := roundRatio_le (d := 1 <<< (-exponent).toNat) (by simp [Nat.shiftLeft_eq]) hlog
  have hnegative : ¬ 0 ≤ exponent := by omega
  simp only [roundDyadic, dyadicRatio, if_neg hnegative, withSign, Bool.false_eq_true, if_false]
  rw [double_infinityBits]
  simp only [Nat.shiftLeft_eq] at hle ⊢
  omega

theorem magnitude_one : double.magnitude (Numeral.powerOfTen 0) = (1 <<< 52, -52) := by
  decide +kernel

/-- A magnitude with a small exponent stays finite when it is multiplied by one. -/
theorem mulMagnitude_one_lt {bits : Nat} (hbits : bits ≤ 1089 <<< 52) :
    double.mulMagnitude bits (Numeral.powerOfTen 0) < double.infinityBits := by
  obtain ⟨hsignificand, hexponent⟩ := magnitude_bounds bits
  have hfield : bits >>> 52 ≤ 1089 := by
    rw [Nat.shiftRight_eq_div_pow]
    simp only [Nat.shiftLeft_eq] at hbits
    omega
  rcases hm : double.magnitude bits with ⟨significand, exponent⟩
  rw [hm] at hsignificand hexponent
  rw [mulMagnitude, hm, magnitude_one]
  refine roundDyadic_lt ?_ ?_
  · simp only [Nat.shiftLeft_eq] at hsignificand ⊢
    omega
  · omega

end BinaryFormat

namespace Numeral

open BinaryFormat

theorem pushWhole_of_le {d : Digit} (h : 10 * n + d.val ≤ maxSignificand) :
    Accumulator.pushWhole ⟨n, 0, false⟩ d = ⟨10 * n + d.val, 0, false⟩ := by
  simp [Accumulator.pushWhole, Nat.not_lt.2 h]

theorem foldl_pushWhole (h : n ≤ maxSignificand) :
    (natDigits n).foldl Accumulator.pushWhole ⟨0, 0, false⟩ = ⟨n, 0, false⟩ := by
  induction n using Nat.strongRecOn with
  | ind n ih =>
    rw [natDigits]
    split
    · rw [List.foldl_cons, pushWhole_of_le (by rw [Fin.val_ofNat]; omega), Fin.val_ofNat,
        Nat.mod_eq_of_lt ‹_›, Nat.mul_zero, Nat.zero_add, List.foldl_nil]
    · rw [List.foldl_append, ih (n / 10) (by omega) (by omega), List.foldl_cons,
        pushWhole_of_le (by rw [Fin.val_ofNat]; omega), Fin.val_ofNat, Nat.div_add_mod,
        List.foldl_nil]

/-- Integers of 64 bits have a double-precision value. -/
theorem toDouble?_ofInt {i : Int} (h : i.natAbs < UInt64.size) :
    (ofInt i).toDouble?.isSome = true := by
  have hle : i.natAbs ≤ maxSignificand := Nat.le_sub_one_of_lt h
  have hacc : (ofInt i).accumulate = ⟨i.natAbs, 0, false⟩ := by
    simp [accumulate, ofInt, foldl_pushWhole hle]
  have hlog : i.natAbs.log2 ≤ (1 : Nat).log2 + 63 := log2_le_of_lt (a := 63) h
  have hstart := roundRatio_le (by decide : (1 : Nat) ≠ 0) hlog
  have hproduct := mulMagnitude_one_lt hstart
  have hscale : (scale? (double.roundRatio i.natAbs 1) 0).isSome = true := by
    rw [scale?]
    simp [maxPower, hproduct]
  have hexponent : (ofInt i).exponent = none := rfl
  obtain ⟨magnitude, hmagnitude⟩ := Option.isSome_iff_exists.1 hscale
  simp [toDouble?, hacc, hexponent, hmagnitude]

end Numeral

end LayerGraph
