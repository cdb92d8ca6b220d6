import Mathlib
import NonlinearOpt.Proofs.Arithmetic.Packing

namespace NonlinearOpt

open Float.Model Float.Model.UnpackedFloat

/-- Comparisons are lawful, and a positive number does not grow by a factor between zero and one. -/
class ContractingScalar (α : Type) [Scalar α] : Prop extends LawfulComparison α where
  mul_le {x y : α} : Scalar.lt 0 x = true → Scalar.lt x 1 = true → Scalar.lt 0 y = true →
    Scalar.le (x * y) y = true

namespace Scalar

variable {α : Type} [Scalar α] [LawfulComparison α]

theorem number_of_pos {x : α} (h : Scalar.lt 0 x = true) : isNaN x = false :=
  (LawfulComparison.number_of_le (le_of_lt h)).2

theorem lt_of_lt_of_le {x y z : α} (hxy : Scalar.lt x y = true) (hyz : Scalar.le y z = true) :
    Scalar.lt x z = true := by
  obtain ⟨hle, hnot⟩ := LawfulComparison.lt_iff.mp hxy
  refine LawfulComparison.lt_iff.mpr ⟨LawfulComparison.le_trans hle hyz, ?_⟩
  by_contra h
  rw [Bool.not_eq_false] at h
  rw [LawfulComparison.le_trans hyz h] at hnot
  cases hnot

end Scalar

namespace Binary64

theorem mantissa_shiftRight (em : ExtendedMantissa) (k : ℕ) :
    (em >>> k).mantissa = em.mantissa / 2 ^ k := by
  show (k.repeat ExtendedMantissa.shiftRightOne em).mantissa = _
  induction k with
  | zero => rw [pow_zero, Nat.div_one]; rfl
  | succ k ih =>
    rw [pow_succ, ← Nat.div_div_eq_div_mul, ← ih]
    rfl

theorem roundedMantissa_between (em : ExtendedMantissa) :
    em.mantissa ≤ em.roundedMantissa ∧ em.roundedMantissa ≤ em.mantissa + 1 := by
  rcases em with ⟨m, _ | _, _ | _⟩
  · exact ⟨le_rfl, Nat.le_succ m⟩
  · exact ⟨le_rfl, Nat.le_succ m⟩
  · show m ≤ m + m % 2 ∧ m + m % 2 ≤ m + 1
    omega
  · exact ⟨Nat.le_succ m, le_rfl⟩

def excess (m : ℕ) (e : ℤ) : ℕ := (max (m.log2 + e - 52) (-1074) - e).toNat

theorem shiftToTargetExponent_excess (m : ℕ) (e : ℤ) :
    shiftToTargetExponent .binary64 m e .exact =
      (ExtendedMantissa.ofMantissaAndAccuracy m .exact >>> excess m e, e + excess m e) :=
  shiftToTargetExponent_eq .exact (targetExponent_eq m e) rfl

theorem canonical_shifted {m : ℕ} {e : ℤ} (h : 2 ^ 52 ≤ m ∨ e ≤ -1074) :
    m / 2 ^ excess m e < 2 ^ 53 ∧ -1074 ≤ e + excess m e ∧
      (-1074 < e + excess m e → 2 ^ 52 ≤ m / 2 ^ excess m e) := by
  have hpow (k : ℕ) : 0 < 2 ^ k := Nat.two_pow_pos k
  obtain ⟨k, hk⟩ : ∃ k, k = excess m e := ⟨_, rfl⟩
  have hshift : (k : ℤ) = max (max (m.log2 + e - 52) (-1074) - e) 0 := by
    rw [hk, excess, Int.toNat_eq_max]
  rw [← hk]
  refine ⟨?_, by omega, fun hnormal => ?_⟩
  · rw [Nat.div_lt_iff_lt_mul (hpow k), ← pow_add]
    exact Nat.lt_log2_self.trans_le (Nat.pow_le_pow_right two_pos (by omega))
  · rw [Nat.le_div_iff_mul_le (hpow k), ← pow_add]
    rcases Nat.eq_zero_or_pos k with rfl | hpos
    · exact h.resolve_right (by omega)
    · have hm : m ≠ 0 := by
        rintro rfl
        rw [Nat.log2_zero] at hshift
        omega
      have hlog : 52 + k = m.log2 := by omega
      rw [hlog]
      exact Nat.log2_self_le hm

section Below

variable {m n : ℕ} {e f : ℤ}

theorem exponent_shifted_le (he : e ≤ f) (hm : m ≤ n * 2 ^ (f - e).toNat) (hn : n < 2 ^ 53)
    (hf : -1074 ≤ f) : e + excess m e ≤ f := by
  have hlog : m ≠ 0 → m.log2 + e ≤ 52 + f := by
    intro hzero
    have hlt : m < 2 ^ (53 + (f - e).toNat) := by
      rw [pow_add]
      exact hm.trans_lt (Nat.mul_lt_mul_of_pos_right hn (Nat.two_pow_pos _))
    have := (Nat.log2_lt hzero).mpr hlt
    omega
  unfold excess
  rcases eq_or_ne m 0 with rfl | hzero
  · rw [Nat.log2_zero]
    omega
  · have := hlog hzero
    omega

theorem split_gap {k : ℕ} (hk : e + k ≤ f) :
    n * 2 ^ (f - e).toNat = n * 2 ^ (f - (e + k)).toNat * 2 ^ k := by
  rw [mul_assoc, ← pow_add]
  congr 2
  omega

end Below

theorem roundWithAccuracy_excess (s : Sign) (m : ℕ) (e : ℤ) : ∃ n : ℕ,
    m / 2 ^ excess m e ≤ n ∧ n ≤ m / 2 ^ excess m e + 1 ∧
      roundWithAccuracy .binary64 s m e .exact =
        let f := e + excess m e
        if h : n / 2 ^ excess n f = 0 then .zero s
        else .finite s (n / 2 ^ excess n f) (f + excess n f) (Nat.pos_of_ne_zero h) := by
  have hshifted (m k : ℕ) :
      (ExtendedMantissa.ofMantissaAndAccuracy m .exact >>> k).mantissa = m / 2 ^ k :=
    mantissa_shiftRight _ k
  obtain ⟨hlow, hhigh⟩ := roundedMantissa_between
    (ExtendedMantissa.ofMantissaAndAccuracy m .exact >>> excess m e)
  rw [hshifted] at hlow hhigh
  refine ⟨_, hlow, hhigh, ?_⟩
  unfold roundWithAccuracy
  simp only [shiftToTargetExponent_excess, hshifted]

/-- What lies below a float is rounded to zero or to a float that is no larger. -/
theorem roundWithAccuracy_below {b : Binary} (hb : b.Canonical) {m : ℕ} {e : ℤ}
    (he : e ≤ b.exponent) (hm : m < b.mantissa * 2 ^ (b.exponent - e).toNat)
    (hlong : 2 ^ 52 ≤ m ∨ e ≤ -1074) (s : Sign) :
    roundWithAccuracy .binary64 s m e .exact = .zero s ∨
      ∃ (c : Binary) (hc : c.Canonical),
        roundWithAccuracy .binary64 s m e .exact = .finite s c.mantissa c.exponent hc.pos ∧
          (c.exponent < b.exponent ∨ c.exponent = b.exponent ∧ c.mantissa ≤ b.mantissa) := by
  obtain ⟨n, hlow, hhigh, hround⟩ := roundWithAccuracy_excess s m e
  obtain ⟨f, hf⟩ : ∃ f, f = e + (excess m e : ℤ) := ⟨_, rfl⟩
  rw [hround, ← hf]
  -- the first shift ends below the float, so that rounding up reaches it at most
  have hfirst : f ≤ b.exponent := hf ▸ exponent_shifted_le he hm.le hb.lt hb.le_exponent
  obtain ⟨-, hmin, hnormal⟩ := canonical_shifted hlong
  rw [split_gap (hf ▸ hfirst), ← Nat.div_lt_iff_lt_mul (Nat.two_pow_pos _), ← hf] at hm
  rw [← hf] at hmin hnormal
  have hn : n ≤ b.mantissa * 2 ^ (b.exponent - f).toNat := by omega
  -- the second one then ends no higher
  have hsecond := exponent_shifted_le hfirst hn hb.lt hb.le_exponent
  obtain ⟨hlt, hmin', hnormal'⟩ := canonical_shifted (m := n) (e := f) (by
    rcases lt_or_ge (-1074) f with h | h
    · exact .inl ((hnormal h).trans hlow)
    · exact .inr h)
  rw [split_gap hsecond] at hn
  by_cases hzero : n / 2 ^ excess n f = 0
  · exact .inl (dif_pos hzero)
  · refine .inr ⟨⟨false, _, _⟩, ⟨Nat.pos_of_ne_zero hzero, hlt, hnormal', hmin',
      hsecond.trans hb.exponent_le⟩, dif_neg hzero, ?_⟩
    rcases hsecond.lt_or_eq with h | h
    · exact .inl h
    · refine .inr ⟨h, Nat.div_le_of_le_mul ?_⟩
      rw [h, sub_self, Int.toNat_zero, pow_zero, mul_one, mul_comm] at hn
      exact hn

theorem unpack_of_pos {x : Float} (hx : Scalar.lt 0 x = true) :
    x.toModel.unpack = .infinity .positive ∨
      ∃ (b : Binary) (hb : b.Canonical),
        x.toModel.unpack = .finite .positive b.mantissa b.exponent hb.pos := by
  obtain ⟨k, hk, l, hl, hlt⟩ := float_lt_iff.mp hx
  have hzero : rank (0 : Float).toModel.unpack = some (toLex (0, toLex (0, 0))) := by decide
  obtain rfl : toLex (0, toLex (0, 0)) = k := Option.some_inj.mp (hzero.symm.trans hk)
  cases hunpack : x.toModel.unpack with
  | notANumber =>
    rw [hunpack] at hl
    cases hl
  | infinity s =>
    cases s with
    | positive => exact .inl rfl
    | negative =>
      rw [hunpack] at hl
      cases hl
      exact absurd hlt (by decide)
  | zero s =>
    rw [hunpack] at hl
    cases hl
    exact absurd hlt (by decide)
  | finite s m e hm =>
    cases s with
    | negative =>
      rw [hunpack] at hl
      cases hl
      exact absurd hlt (by simp [Prod.Lex.lt_iff])
    | positive =>
      have hfinite : x.isFinite = true := by
        show x.toModel.unpack.isFinite = true
        rw [hunpack]
        rfl
      have hmant : (Binary.ofFloat x).mantissa ≠ 0 := by
        intro h
        have hunpack' := Binary.unpack_zero h
        rw [hunpack] at hunpack'
        cases hunpack'
      obtain ⟨hb, hparts⟩ := Binary.unpack_finite hfinite hmant
      refine .inr ⟨Binary.ofFloat x, hb, ?_⟩
      rw [← hunpack, hparts]
      rw [hunpack] at hparts
      injection hparts with hsign
      rw [← hsign]

theorem rank_one : rank (1 : Float).toModel.unpack = some (toLex (1, toLex (-52, 2 ^ 52))) := by
  decide +kernel

theorem rank_infinity :
    rank (UnpackedFloat.unpack .binary64 (UnpackedFloat.pack .binary64 (.infinity .positive))) =
      some (toLex (2, toLex (0, 0))) := by
  decide +kernel

theorem exponent_of_lt_one {x : Float} {b : Binary} (hb : b.Canonical)
    (h : x.toModel.unpack = .finite .positive b.mantissa b.exponent hb.pos)
    (hx : Scalar.lt x 1 = true) : b.exponent ≤ -53 := by
  obtain ⟨k, hk, l, hl, hlt⟩ := float_lt_iff.mp hx
  rw [h] at hk
  rw [rank_one] at hl
  cases hk
  cases hl
  simp only [Prod.Lex.lt_iff, ofLex_toLex] at hlt
  have hnormal := hb.normal
  have hmant : -1074 < b.exponent → (2 ^ 52 : ℤ) ≤ b.mantissa := fun h => by
    exact_mod_cast hnormal h
  omega

theorem unpack_of_lt_one {x : Float} (hx : Scalar.lt 0 x = true) (hlt : Scalar.lt x 1 = true) :
    ∃ (b : Binary) (hb : b.Canonical),
      x.toModel.unpack = .finite .positive b.mantissa b.exponent hb.pos ∧ b.exponent ≤ -53 := by
  rcases unpack_of_pos hx with hinf | ⟨b, hb, hfinite⟩
  · exfalso
    obtain ⟨k, hk, l, hl, hkl⟩ := float_lt_iff.mp hlt
    rw [hinf] at hk
    rw [rank_one] at hl
    cases hk
    cases hl
    exact absurd hkl (by simp [Prod.Lex.lt_iff])
  · exact ⟨b, hb, hfinite, exponent_of_lt_one hb hfinite hlt⟩

/-- A factor below one moves a canonical float below itself, with digits enough to round. -/
theorem product_below {b c : Binary} (hb : b.Canonical) (hc : c.Canonical)
    (hone : b.exponent ≤ -53) :
    b.mantissa * c.mantissa <
        c.mantissa * 2 ^ (c.exponent - (b.exponent + c.exponent)).toNat ∧
      (2 ^ 52 ≤ b.mantissa * c.mantissa ∨ b.exponent + c.exponent ≤ -1074) := by
  constructor
  · rw [mul_comm]
    refine Nat.mul_lt_mul_of_pos_left (hb.lt.trans_le ?_) hc.pos
    exact Nat.pow_le_pow_right two_pos (by omega)
  · rcases lt_or_ge (-1074) c.exponent with h | h
    · exact .inl ((hc.normal h).trans (Nat.le_mul_of_pos_left _ hb.pos))
    · exact .inr (by omega)

theorem mul_le {x y : Float} (hx : Scalar.lt 0 x = true) (hlt : Scalar.lt x 1 = true)
    (hy : Scalar.lt 0 y = true) : Scalar.le (x * y) y = true := by
  obtain ⟨b, hb, hxb, hone⟩ := unpack_of_lt_one hx hlt
  have hmul : (x * y).toModel.unpack = UnpackedFloat.unpack .binary64 (UnpackedFloat.pack .binary64
      (UnpackedFloat.mul .binary64 x.toModel.unpack y.toModel.unpack)) := rfl
  rw [hxb] at hmul
  rcases unpack_of_pos hy with hyinf | ⟨c, hc, hyc⟩
  · rw [hyinf] at hmul
    exact float_le_iff.mpr
      ⟨_, (congrArg rank hmul).trans rank_infinity, _, congrArg rank hyinf, le_rfl⟩
  · obtain ⟨hbelow, hlong⟩ := product_below hb hc hone
    have hrank : toLex (1, toLex (c.exponent, (c.mantissa : ℤ))) ∈ rank y.toModel.unpack := by
      rw [hyc]
      rfl
    rw [hyc] at hmul
    rcases roundWithAccuracy_below hc (by omega) hbelow hlong .positive with
      hzero | ⟨d, hd, hfinite, hle⟩
    · have hprod : (x * y).toModel.unpack = .zero .positive := by
        rw [hmul]
        exact congrArg (fun r => UnpackedFloat.unpack .binary64 (UnpackedFloat.pack .binary64 r))
          hzero
      exact float_le_iff.mpr ⟨_, congrArg rank hprod, _, hrank, by simp [Prod.Lex.le_iff]⟩
    · have hprod : (x * y).toModel.unpack = .finite .positive d.mantissa d.exponent hd.pos := by
        rw [hmul, ← unpack_canonical hd .positive]
        exact congrArg (fun r => UnpackedFloat.unpack .binary64 (UnpackedFloat.pack .binary64 r))
          hfinite
      refine float_le_iff.mpr ⟨_, congrArg rank hprod, _, hrank, ?_⟩
      simpa [Prod.Lex.le_iff] using hle

end Binary64

instance : ContractingScalar Float where
  mul_le := Binary64.mul_le

end NonlinearOpt
