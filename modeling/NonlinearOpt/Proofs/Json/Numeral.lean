import Mathlib
import NonlinearOpt.Json.Write
import NonlinearOpt.Proofs.Arithmetic.Shortest

namespace NonlinearOpt.Json.Numeral

theorem natOf_eq (digits : List Char) : natOf digits = Nat.ofDigitChars 10 digits 0 := rfl

@[simp]
theorem natOf_toDigits (n : ℕ) : natOf (Nat.toDigits 10 n) = n := Nat.ofDigitChars_ten_toDigits

theorem natOf_append_zeros (digits : List Char) (k : ℕ) :
    natOf (digits ++ zeros k) = 10 ^ k * natOf digits := by
  rw [natOf_eq, Nat.ofDigitChars_append, zeros, Nat.ofDigitChars_replicate_zero, natOf_eq]

theorem natOf_zeros_append (digits : List Char) (k : ℕ) :
    natOf (zeros k ++ digits) = natOf digits := by
  rw [natOf_eq, Nat.ofDigitChars_append, zeros, Nat.ofDigitChars_replicate_zero, mul_zero, natOf_eq]

def scale : Option (Bool × List Char) → ℤ
  | none => 0
  | some (true, digits) => -(natOf digits : ℤ)
  | some (false, digits) => natOf digits

@[simp]
theorem scale_toDigits (i : ℤ) :
    scale (some (decide (i < 0), Nat.toDigits 10 i.natAbs)) = i := by
  by_cases hi : i < 0
  · rw [decide_eq_true hi, scale, natOf_toDigits]
    omega
  · rw [decide_eq_false hi, scale, natOf_toDigits]
    omega

theorem decimal_eq {n : Numeral} {d : ℕ} {e : ℤ} (hd : natOf (n.whole ++ n.fraction.getD []) = d)
    (he : scale n.exponent - (n.fraction.getD []).length = e) : n.decimal = ⟨n.negative, d, e⟩ := by
  subst hd he
  rfl

@[simp]
theorem decimal_ofNat (n : ℕ) : (ofNat n).decimal = ⟨false, n, 0⟩ := by
  refine decimal_eq ?_ rfl
  show natOf (Nat.toDigits 10 n ++ []) = n
  rw [List.append_nil, natOf_toDigits]

theorem negative_ofDecimal (d : Decimal) : (ofDecimal d).decimal.negative = d.negative := by
  show (ofDecimal d).negative = d.negative
  unfold ofDecimal
  simp only
  split_ifs <;> rfl

theorem digits_ofDecimal {d : Decimal} (h : d.digits = 0) : (ofDecimal d).decimal.digits = 0 := by
  unfold ofDecimal
  simp only [if_pos h]
  rfl

/-- A decimal is written as a numeral of the same value. -/
theorem magnitude_ofDecimal (d : Decimal) : (ofDecimal d).decimal.magnitude = d.magnitude := by
  obtain ⟨negative, c, e⟩ := d
  have hlen : 0 < (Nat.toDigits 10 c).length := Nat.length_toDigits_pos
  have hdigits := natOf_toDigits c
  unfold ofDecimal
  simp only
  generalize Nat.toDigits 10 c = s at hlen hdigits ⊢
  split_ifs with hzero hwhole hpoint hsmall hone
  · rw [hzero]
    simp [decimal, Decimal.magnitude, natOf]
  · -- an integer, with a zero after its point
    have hd : natOf (s ++ zeros e.toNat ++ zeros 1) = 10 ^ (e.toNat + 1) * c := by
      rw [natOf_append_zeros, natOf_append_zeros, hdigits, pow_succ]
      ring
    rw [decimal_eq hd rfl]
    show ((10 ^ (e.toNat + 1) * c : ℕ) : ℚ) * 10 ^ (-1 : ℤ) = c * 10 ^ e
    have hpow : (10 : ℚ) ^ e = 10 ^ e.toNat := by
      rw [← zpow_natCast, Int.toNat_of_nonneg hwhole.1]
    rw [hpow]
    push_cast
    ring
  · -- the point stands among the digits
    refine congrArg Decimal.magnitude (decimal_eq (d := c) (e := e) ?_ ?_)
    · show natOf (s.take _ ++ s.drop _) = c
      rw [List.take_append_drop, hdigits]
    · show (0 : ℤ) - (s.drop _).length = e
      rw [List.length_drop]
      omega
  · -- zeros stand between the point and the digits
    refine congrArg Decimal.magnitude (decimal_eq (d := c) (e := e) ?_ ?_)
    · show natOf (zeros 1 ++ (zeros _ ++ s)) = c
      rw [natOf_zeros_append, natOf_zeros_append, hdigits]
    · show (0 : ℤ) - (zeros _ ++ s).length = e
      rw [List.length_append, zeros, List.length_replicate]
      omega
  · -- there is one digit, and an exponent follows it
    refine congrArg Decimal.magnitude (decimal_eq (d := c) (e := e) ?_ ?_)
    · show natOf (s.take 1 ++ []) = c
      rw [List.take_of_length_le hone, List.append_nil, hdigits]
    · rw [scale_toDigits]
      show (s.length + e - 1 : ℤ) - 0 = e
      omega
  · -- one digit stands before the point, and an exponent follows
    refine congrArg Decimal.magnitude (decimal_eq (d := c) (e := e) ?_ ?_)
    · show natOf (s.take 1 ++ s.drop 1) = c
      rw [List.take_append_drop, hdigits]
    · rw [scale_toDigits]
      show (s.length + e - 1 : ℤ) - (s.drop 1).length = e
      rw [List.length_drop]
      omega

/-- Finite floats are read back as they were. -/
theorem toFloat?_shortest {x : Float} (hx : x.isFinite = true) :
    (ofDecimal (.shortest x)).toFloat? = some x := by
  have hread : (ofDecimal (.shortest x)).decimal.toFloat = x := by
    refine Decimal.toFloat_eq_self hx ?_ ?_ ?_
    · rw [negative_ofDecimal, Decimal.negative_shortest]
    · exact fun h => digits_ofDecimal (Decimal.digits_shortest h)
    · rw [magnitude_ofDecimal]
      exact Decimal.covers_shortest hx
  unfold toFloat?
  rw [hread]
  exact if_pos hx

theorem toNat?_ofNat (n : ℕ) : (ofNat n).toNat? = some n :=
  congrArg some (natOf_toDigits n)

theorem isSome_toFloat?_ofNat {n : ℕ} (hn : n < 2 ^ 64) : (ofNat n).toFloat?.isSome = true := by
  have hfinite : (ofNat n).decimal.toFloat.isFinite = true := by
    rw [decimal_ofNat]
    rcases Nat.eq_zero_or_pos n with rfl | hpos
    · rw [Decimal.toFloat_of_digits_eq_zero rfl]
      decide
    · have hlog : n.log2 < 64 := (Nat.log2_lt hpos.ne').mpr hn
      have hlow : (2 : ℚ) ^ ((n.log2 : ℤ) - 52 + 52) ≤ n := by
        rw [sub_add_cancel, zpow_natCast]
        exact_mod_cast Nat.log2_self_le hpos.ne'
      have hhigh : (n : ℚ) < 2 ^ ((n.log2 : ℤ) - 52 + 53) := by
        have hexp : (n.log2 : ℤ) - 52 + 53 = (n.log2 + 1 : ℕ) := by push_cast; ring
        rw [hexp, zpow_natCast]
        exact_mod_cast Nat.lt_log2_self
      obtain ⟨b, hb, hq⟩ := Binary.exists_covers (by omega) (by omega) hlow hhigh
      refine Decimal.isFinite_toFloat hb ?_
      rwa [Decimal.magnitude, zpow_zero, mul_one]
  unfold toFloat?
  rw [if_pos hfinite]
  rfl

end NonlinearOpt.Json.Numeral
