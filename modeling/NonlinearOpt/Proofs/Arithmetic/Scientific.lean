import Mathlib
import NonlinearOpt.Proofs.Arithmetic.Packing

namespace NonlinearOpt

open Float.Model Float.Model.UnpackedFloat

namespace Binary64

variable {b : Binary} {q : ℚ} {m₁ m₂ : ℕ} {e₁ e₂ : ℤ}

theorem log2_mul_two_pow {m : ℕ} (hm : 0 < m) (k : ℕ) : (m * 2 ^ k).log2 = m.log2 + k := by
  have hpos : m * 2 ^ k ≠ 0 := by positivity
  rw [Nat.log2_eq_iff hpos, add_right_comm, pow_add, pow_add _ _ k]
  exact ⟨Nat.mul_le_mul_right _ (Nat.log2_self_le hm.ne'),
    Nat.mul_lt_mul_of_pos_right Nat.lt_log2_self (Nat.two_pow_pos k)⟩

theorem mul_eq (hb : b.Canonical) (h₁ : 0 < m₁) (h₂ : 0 < m₂)
    (hq : b.Covers (m₁ * 2 ^ e₁ * (m₂ * 2 ^ e₂))) (hlog : 52 ≤ (m₁ * m₂).log2) (s₁ s₂ : Sign) :
    UnpackedFloat.mul .binary64 (.finite s₁ m₁ e₁ h₁) (.finite s₂ m₂ e₂ h₂) =
      .finite (s₁ * s₂) b.mantissa b.exponent hb.pos := by
  refine roundWithAccuracy_eq hb hq _ ?_ ?_
  · have hvalue : (m₁ * 2 ^ e₁ * (m₂ * 2 ^ e₂) : ℚ) / 2 ^ (e₁ + e₂) = (m₁ * m₂ : ℕ) := by
      rw [zpow_add₀ two_ne_zero]
      push_cast
      field_simp
    rw [hvalue]
    exact represents_exact _
  · rw [targetExponent_eq]
    omega

theorem div_eq (hb : b.Canonical) (h₁ : 0 < m₁) (h₂ : 0 < m₂)
    (hq : b.Covers (m₁ * 2 ^ e₁ / (m₂ * 2 ^ e₂))) (s₁ s₂ : Sign) :
    UnpackedFloat.div .binary64 (.finite s₁ m₁ e₁ h₁) (.finite s₂ m₂ e₂ h₂) =
      .finite (s₁ / s₂) b.mantissa b.exponent hb.pos := by
  have htarget : Format.binary64.targetExponent (totalExponent m₁ e₁ - totalExponent m₂ e₂) =
      max (m₁.log2 + e₁ - (m₂.log2 + e₂) - 53) (-1074) := by
    unfold totalExponent
    rw [targetExponent_eq_max]
    congr 1
    ring
  obtain ⟨e, he⟩ : ∃ e, e = min (e₁ - e₂) (max (m₁.log2 + e₁ - (m₂.log2 + e₂) - 53) (-1074)) :=
    ⟨_, rfl⟩
  obtain ⟨k, hk⟩ : ∃ k, k = (e₁ - e₂ - e).toNat := ⟨_, rfl⟩
  have hke : (k : ℤ) = e₁ - e₂ - e := by omega
  have hcore : divCore .binary64 m₁ e₁ m₂ e₂ =
      (m₁ <<< k / m₂, e, accuracyOfFraction (m₁ <<< k % m₂) m₂) := by
    unfold divCore
    rw [htarget, ← he, hk]
  unfold UnpackedFloat.div
  simp only [hcore]
  refine roundWithAccuracy_eq hb hq _ ?_ ?_
  · have hvalue : (m₁ * 2 ^ e₁ / (m₂ * 2 ^ e₂) : ℚ) / 2 ^ e =
        (m₁ <<< k / m₂ : ℕ) + (m₁ <<< k % m₂ : ℕ) / m₂ := by
      have hm₂ : (m₂ : ℚ) ≠ 0 := by exact_mod_cast h₂.ne'
      have hdiv : ((m₁ <<< k % m₂ : ℕ) : ℚ) + m₂ * (m₁ <<< k / m₂ : ℕ) = m₁ * 2 ^ (k : ℤ) := by
        rw [zpow_natCast]
        exact_mod_cast (Nat.mod_add_div _ _).trans (Nat.shiftLeft_eq m₁ k)
      rw [hke, zpow_sub₀ two_ne_zero, zpow_sub₀ two_ne_zero] at hdiv
      field_simp at hdiv ⊢
      linarith
    rw [hvalue]
    exact represents_fraction _ (Nat.mod_lt _ h₂)
  · rw [targetExponent_eq]
    rcases le_or_gt e (-1074) with hsmall | hlarge
    · exact hsmall.trans (le_max_right _ _)
    · -- the quotient has all bits of a mantissa
      have hquotient : 2 ^ 52 ≤ m₁ <<< k / m₂ := by
        rw [Nat.le_div_iff_mul_le h₂, Nat.shiftLeft_eq]
        calc 2 ^ 52 * m₂ ≤ 2 ^ 52 * 2 ^ (m₂.log2 + 1) :=
              Nat.mul_le_mul_left _ Nat.lt_log2_self.le
          _ = 2 ^ (52 + (m₂.log2 + 1)) := (pow_add 2 _ _).symm
          _ ≤ 2 ^ (m₁.log2 + k) := Nat.pow_le_pow_right two_pos (by omega)
          _ = 2 ^ m₁.log2 * 2 ^ k := pow_add 2 _ _
          _ ≤ m₁ * 2 ^ k := Nat.mul_le_mul_right _ (Nat.log2_self_le h₁.ne')
      have hlog : 52 ≤ (m₁ <<< k / m₂).log2 :=
        (Nat.le_log2 (by omega)).mpr hquotient
      omega

theorem round_eq (hb : b.Canonical) {m : ℕ} {e : ℤ} (hm : 0 < m) (hq : b.Covers (m * 2 ^ e))
    (s : Sign) :
    UnpackedFloat.round .binary64 s m e = .finite s b.mantissa b.exponent hb.pos := by
  obtain ⟨t, ht⟩ : ∃ t, t = Format.binary64.targetExponent (totalExponent m e) := ⟨_, rfl⟩
  unfold UnpackedFloat.round decreaseExponent
  rw [← ht]
  rw [targetExponent_eq] at ht
  refine roundWithAccuracy_eq hb hq _ ?_ ?_
  · have hvalue : (m * 2 ^ e : ℚ) / 2 ^ (e - ((e - t).toNat : ℤ)) = (m <<< (e - t).toNat : ℕ) := by
      rw [zpow_sub₀ two_ne_zero, zpow_natCast, Nat.shiftLeft_eq]
      push_cast
      field_simp
    rw [hvalue]
    exact represents_exact _
  · rw [targetExponent_eq, Nat.shiftLeft_eq, log2_mul_two_pow hm]
    push_cast
    omega

end Binary64

namespace Binary

theorem covers_self (b : Binary) : b.Covers (b.mantissa * 2 ^ b.exponent) := by
  have hself : (b.mantissa * 2 ^ b.exponent : ℚ) / 2 ^ b.exponent = b.mantissa :=
    mul_div_cancel_right₀ _ (zpow_ne_zero _ two_ne_zero)
  have hgap : (0 : ℚ) < if b.nearBelow then 1 else 2 := by split <;> norm_num
  apply Covers.of_lt <;> rw [hself] <;> linarith

theorem Covers.range {b : Binary} {q : ℚ} (h : b.Covers q) (hb : b.Canonical) :
    2 ^ (-1075 : ℤ) ≤ q ∧ q ≤ 2 ^ (1024 : ℤ) := by
  obtain ⟨hle, hge, -⟩ := h
  have hp : (0 : ℚ) < 2 ^ b.exponent := zpow_pos two_pos _
  have hgap : (if b.nearBelow then 1 else 2 : ℚ) ≤ 2 := by split <;> norm_num
  have hone : (1 : ℚ) ≤ b.mantissa := by exact_mod_cast hb.pos
  have hmax : (b.mantissa : ℚ) + 1 ≤ 2 ^ 53 := by exact_mod_cast hb.lt
  constructor
  · have hhalf : 2 ^ (-1 : ℤ) ≤ q / 2 ^ b.exponent := by
      rw [zpow_neg_one]
      linarith
    calc (2 : ℚ) ^ (-1075 : ℤ) ≤ 2 ^ (-1 + b.exponent) :=
          zpow_le_zpow_right₀ one_le_two (by have := hb.le_exponent; omega)
      _ = 2 ^ (-1 : ℤ) * 2 ^ b.exponent := zpow_add₀ two_ne_zero _ _
      _ ≤ q := (le_div_iff₀ hp).mp hhalf
  · have htop : q / 2 ^ b.exponent ≤ 2 ^ (53 : ℤ) := by
      norm_num at hmax ⊢
      linarith
    calc q ≤ 2 ^ (53 : ℤ) * 2 ^ b.exponent := (div_le_iff₀ hp).mp htop
      _ = 2 ^ (53 + b.exponent) := (zpow_add₀ two_ne_zero _ _).symm
      _ ≤ 2 ^ (1024 : ℤ) := zpow_le_zpow_right₀ one_le_two (by have := hb.exponent_le; omega)

theorem Covers.exponent_between {b : Binary} {m : ℕ} {e : ℤ} (h : b.Covers (m * 10 ^ e))
    (hb : b.Canonical) (hm : 0 < m) : -(m.log2 + 1076 : ℤ) < e ∧ e ≤ 1024 := by
  obtain ⟨hlow, hhigh⟩ := h.range hb
  have hpow {n : ℤ} (hn : 0 ≤ n) : (2 : ℚ) ^ n ≤ 10 ^ n := by
    rw [← Int.toNat_of_nonneg hn, zpow_natCast, zpow_natCast]
    exact pow_le_pow_left₀ two_pos.le (by norm_num) _
  have htwo : (0 : ℚ) < 2 ^ e := zpow_pos two_pos e
  have hten : (0 : ℚ) < 10 ^ e := zpow_pos (by norm_num) e
  constructor
  · by_contra he
    have hinv : (10 : ℚ) ^ e ≤ 2 ^ e := by
      have := hpow (n := -e) (by omega)
      rw [zpow_neg, zpow_neg] at this
      exact (inv_le_inv₀ htwo hten).mp this
    have hlog : (m : ℚ) < 2 ^ ((m.log2 + 1 : ℕ) : ℤ) := by exact_mod_cast Nat.lt_log2_self
    have hlt : (m * 10 ^ e : ℚ) < 2 ^ (-1075 : ℤ) := by
      calc (m * 10 ^ e : ℚ) ≤ m * 2 ^ e := mul_le_mul_of_nonneg_left hinv (by positivity)
        _ < 2 ^ ((m.log2 + 1 : ℕ) : ℤ) * 2 ^ e := mul_lt_mul_of_pos_right hlog htwo
        _ = 2 ^ (((m.log2 + 1 : ℕ) : ℤ) + e) := (zpow_add₀ two_ne_zero _ _).symm
        _ ≤ 2 ^ (-1075 : ℤ) := zpow_le_zpow_right₀ one_le_two (by push_cast; omega)
    exact absurd hlow hlt.not_ge
  · by_contra he
    have hone : (1 : ℚ) ≤ m := by exact_mod_cast hm
    have hlt : (2 : ℚ) ^ (1024 : ℤ) < m * 10 ^ e := by
      calc (2 : ℚ) ^ (1024 : ℤ) < 2 ^ e := zpow_lt_zpow_right₀ one_lt_two (by omega)
        _ ≤ 10 ^ e := hpow (by omega)
        _ ≤ m * 10 ^ e := le_mul_of_one_le_left hten.le hone
    exact absurd hhigh hlt.not_ge

end Binary

namespace Binary64

theorem unpack_toFloat {n : ℕ} (hpos : 0 < n) (hlt : n < 2 ^ 53) :
    ∃ (m : ℕ) (e : ℤ) (h : 0 < m), n.toUInt64.toFloat.toModel.unpack = .finite .positive m e h ∧
      (m * 2 ^ e : ℚ) = n ∧ 2 ^ 52 ≤ m := by
  have hlog : n.log2 < 53 := (Nat.log2_lt hpos.ne').mpr hlt
  let b : Binary := ⟨false, n * 2 ^ (52 - n.log2), n.log2 - 52⟩
  have hvalue : (b.mantissa * 2 ^ b.exponent : ℚ) = n := by
    have hexp : (n.log2 : ℤ) - 52 = -((52 - n.log2 : ℕ) : ℤ) := by omega
    show ((n * 2 ^ (52 - n.log2) : ℕ) : ℚ) * 2 ^ ((n.log2 : ℤ) - 52) = n
    rw [hexp, zpow_neg, zpow_natCast]
    push_cast
    field_simp
  have hbits : (n * 2 ^ (52 - n.log2)).log2 = 52 := by
    rw [log2_mul_two_pow hpos]
    omega
  have hmpos : 0 < n * 2 ^ (52 - n.log2) := by positivity
  obtain ⟨hlow, hhigh⟩ := (Nat.log2_eq_iff hmpos.ne').mp hbits
  have hb : b.Canonical := ⟨hmpos, hhigh, fun _ => hlow, show -1074 ≤ (n.log2 : ℤ) - 52 by omega,
    show (n.log2 : ℤ) - 52 ≤ 971 by omega⟩
  refine ⟨b.mantissa, b.exponent, hb.pos, ?_, hvalue, hlow⟩
  have hq := b.covers_self
  rw [hvalue] at hq
  have hround := round_eq hb (e := 0) hpos (by rwa [zpow_zero, mul_one]) .positive
  have hnat : n.toUInt64.toNat = n := by
    rw [Nat.toUInt64_eq]
    exact UInt64.toNat_ofNat_of_lt' (hlt.trans (by decide))
  show (Float.Model.pack (UnpackedFloat.ofNat .binary64 n.toUInt64.toNat)).unpack = _
  rw [hnat, ← unpack_canonical hb .positive, Binary.Canonical.toFloat, ← hround]
  unfold UnpackedFloat.ofNat UnpackedFloat.ofInt UnpackedFloat.normalize
  rw [Int.compare_eq_gt.mpr (by omega)]
  rfl

theorem zpow_eq_div {x : ℚ} (hx : x ≠ 0) (e : ℤ) : x ^ e = x ^ e.toNat / x ^ (-e).toNat := by
  rw [← zpow_natCast, ← zpow_natCast, ← zpow_sub₀ hx]
  congr 1
  omega

theorem unpack_powerOfTen {k : ℕ} (hk : k ≤ 22)
    (h : k < Float.exactlyRepresentablePowersOfTen.size) :
    ∃ (m : ℕ) (e : ℤ) (hm : 0 < m),
      Float.exactlyRepresentablePowersOfTen[k].toModel.unpack = .finite .positive m e hm ∧
      (m * 2 ^ e : ℚ) = 10 ^ k ∧ 2 ^ 52 ≤ m := by
  have hcheck : ∀ k : Fin 23,
      Float.exactlyRepresentablePowersOfTen[k].isFinite = true ∧
      let b := Binary.ofFloat Float.exactlyRepresentablePowersOfTen[k]
      b.negative = false ∧ 2 ^ 52 ≤ b.mantissa ∧
        b.mantissa * 2 ^ b.exponent.toNat = 10 ^ k.val * 2 ^ (-b.exponent).toNat := by
    decide +kernel
  have hentry := hcheck ⟨k, by omega⟩
  rw [Fin.getElem_fin] at hentry
  generalize Float.exactlyRepresentablePowersOfTen[k] = x at hentry ⊢
  obtain ⟨hfinite, hpositive, hmant, hvalue⟩ := hentry
  obtain ⟨hb, hunpack⟩ := Binary.unpack_finite hfinite (by omega)
  have hsign : (Binary.ofFloat x).sign = .positive := by
    unfold Binary.sign
    rw [hpositive]
    rfl
  refine ⟨_, _, hb.pos, hsign ▸ hunpack, ?_, hmant⟩
  rw [zpow_eq_div two_ne_zero, ← mul_div_assoc, div_eq_iff (by positivity)]
  exact_mod_cast hvalue

theorem unpacked_ofScientific_eq {b : Binary} (hb : b.Canonical) {m : ℕ} (hm : 0 < m) {e : ℤ}
    (hq : b.Covers (m * 10 ^ e)) :
    UnpackedFloat.ofScientific .binary64 m e =
      .finite .positive b.mantissa b.exponent hb.pos := by
  obtain ⟨hlow, hhigh⟩ := hq.exponent_between hb hm
  have hbits : (2 : ℤ) ^ Format.binary64.exponentBits = 2048 := by decide
  have hlarge : ¬ e > 2 ^ Format.binary64.exponentBits := by omega
  have hsmall : ¬ e < -((2 ^ Format.binary64.exponentBits : ℤ) + m.log2) := by omega
  unfold UnpackedFloat.ofScientific
  rw [dif_neg hm.ne', if_neg hlarge, if_neg hsmall]
  by_cases he : 0 ≤ e
  · rw [if_pos he]
    refine mul_eq hb _ _ ?_ ?_ .positive .positive
    · have hcast : ((e.toNat : ℕ) : ℤ) = e := Int.toNat_of_nonneg he
      have hbits : Format.binary64.mantissaBits = 53 := rfl
      have hvalue : ((m <<< Format.binary64.mantissaBits : ℕ) : ℚ) *
          2 ^ (-(Format.binary64.mantissaBits : ℤ)) * ((10 ^ e.toNat : ℕ) * 2 ^ (0 : ℤ)) =
          m * 10 ^ e := by
        rw [Nat.shiftLeft_eq, ← hcast, hbits, zpow_neg, zpow_natCast, zpow_natCast, hcast]
        push_cast
        field_simp
        norm_num
      rwa [hvalue]
    · have hle : 2 ^ 52 ≤ m <<< Format.binary64.mantissaBits * 10 ^ e.toNat := by
        have hbits : Format.binary64.mantissaBits = 53 := rfl
        rw [Nat.shiftLeft_eq, hbits]
        calc 2 ^ 52 ≤ m * 2 ^ 53 := by omega
          _ ≤ m * 2 ^ 53 * 10 ^ e.toNat := Nat.le_mul_of_pos_right _ (by positivity)
      exact (Nat.le_log2 (by omega)).mpr hle
  · rw [if_neg he]
    refine div_eq hb _ _ ?_ .positive .positive
    have hcast : (((-e).toNat : ℕ) : ℤ) = -e := Int.toNat_of_nonneg (by omega)
    have hvalue : ((m : ℕ) : ℚ) * 2 ^ (0 : ℤ) / ((10 ^ (-e).toNat : ℕ) * 2 ^ (0 : ℤ)) =
        m * 10 ^ e := by
      rw [zpow_zero, mul_one, mul_one, Nat.cast_pow, ← zpow_natCast, hcast, zpow_neg,
        div_inv_eq_mul]
      norm_num
    rwa [hvalue]

/-- A decimal other than zero that is near to a float is read as it. -/
theorem ofScientific_eq {b : Binary} (hb : b.Canonical) {m k : ℕ} (hm : 0 < m) (negative : Bool)
    (hq : b.Covers (if negative then m / 10 ^ k else m * 10 ^ k)) :
    Float.ofScientific m negative k = hb.toFloat .positive := by
  unfold Float.ofScientific
  by_cases hfast : m < 2 ^ 53 ∧ k ≤ 22
  · obtain ⟨m₁, e₁, h₁, hunpack₁, hvalue₁, hfull₁⟩ := unpack_toFloat hm hfast.1
    have hindex : k < Float.exactlyRepresentablePowersOfTen.size := Nat.lt_succ_of_le hfast.2
    obtain ⟨m₂, e₂, h₂, hunpack₂, hvalue₂, hfull₂⟩ := unpack_powerOfTen hfast.2 hindex
    rw [dif_pos hfast]
    cases negative with
    | true =>
      rw [if_pos rfl, ← hvalue₁, ← hvalue₂] at hq
      show Float.ofModel (Float.Model.pack (UnpackedFloat.div .binary64 _ _)) = _
      rw [hunpack₁, hunpack₂, div_eq hb h₁ h₂ hq]
      rfl
    | false =>
      rw [if_neg (by decide), ← hvalue₁, ← hvalue₂] at hq
      have hlog : 52 ≤ (m₁ * m₂).log2 :=
        (Nat.le_log2 (by positivity)).mpr (hfull₁.trans (Nat.le_mul_of_pos_right m₁ h₂))
      show Float.ofModel (Float.Model.pack (UnpackedFloat.mul .binary64 _ _)) = _
      rw [hunpack₁, hunpack₂, mul_eq hb h₁ h₂ hq hlog]
      rfl
  · rw [dif_neg hfast]
    have hexp : (m : ℚ) * 10 ^ (if negative then Int.negOfNat k else Int.ofNat k) =
        if negative then (m : ℚ) / 10 ^ k else m * 10 ^ k := by
      cases negative with
      | true => simp [Int.negOfNat_eq, div_eq_mul_inv]
      | false => rfl
    rw [← hexp] at hq
    show Float.ofModel (Float.Model.pack (UnpackedFloat.ofScientific .binary64 m _)) = _
    rw [unpacked_ofScientific_eq hb hm hq]
    rfl

end Binary64

namespace Decimal

def magnitude (d : Decimal) : ℚ := d.digits * 10 ^ d.exponent

theorem pow_length_le {n : ℕ} (hn : 0 < n) : 10 ^ ((toString n).length - 1) ≤ n := by
  by_contra hlt
  rcases Nat.eq_zero_or_pos ((toString n).length - 1) with hzero | hpos
  · rw [hzero] at hlt
    omega
  · have hlen : (toString n).length ≤ (toString n).length - 1 :=
      (Nat.length_repr_le_iff hpos).mpr (not_le.mp hlt)
    have : 0 < (toString n).length := Nat.length_repr_pos
    omega

theorem magnitude_between {d : Decimal} (h : d.digits ≠ 0) :
    (10 : ℚ) ^ (d.exponent + (toString d.digits).length - 1) ≤ d.magnitude ∧
      d.magnitude < 10 ^ (d.exponent + (toString d.digits).length) := by
  obtain ⟨len, hlen⟩ : ∃ len, (toString d.digits).length = len + 1 :=
    Nat.exists_eq_succ_of_ne_zero Nat.length_repr_pos.ne'
  have hp : (0 : ℚ) < 10 ^ d.exponent := zpow_pos (by norm_num) _
  have hhigh : d.digits < 10 ^ (len + 1) :=
    (Nat.length_repr_le_iff (Nat.succ_pos len)).mp hlen.le
  have hlow := pow_length_le (Nat.pos_of_ne_zero h)
  rw [hlen, Nat.add_sub_cancel] at hlow
  unfold magnitude
  rw [hlen]
  constructor
  · have hexp : d.exponent + (len + 1 : ℕ) - 1 = (len : ℤ) + d.exponent := by push_cast; ring
    rw [hexp, zpow_add₀ (by norm_num), zpow_natCast]
    exact mul_le_mul_of_nonneg_right (by exact_mod_cast hlow) hp.le
  · rw [add_comm, zpow_add₀ (by norm_num), zpow_natCast]
    exact mul_lt_mul_of_pos_right (by exact_mod_cast hhigh) hp

/-- A decimal between the midpoints to the neighbours of a float is read as that float. -/
theorem toFloat_eq {d : Decimal} {b : Binary} (hb : b.Canonical) (hq : b.Covers d.magnitude) :
    d.toFloat = hb.toFloat (if d.negative then .negative else .positive) := by
  obtain ⟨hlow, hhigh⟩ := hq.range hb
  have hd : d.digits ≠ 0 := by
    intro hd
    rw [magnitude, hd, Nat.cast_zero, zero_mul] at hlow
    exact absurd (zpow_pos two_pos _) hlow.not_gt
  obtain ⟨hmin, hmax⟩ := magnitude_between hd
  have hsmall : ¬ (d.digits = 0 ∨ d.exponent + (toString d.digits).length < -400) := by
    rintro (hzero | hsize)
    · exact hd hzero
    · have hlt : d.magnitude < 10 ^ (-400 : ℤ) :=
        hmax.trans_le (zpow_le_zpow_right₀ (by norm_num) hsize.le)
      have hpow : (10 : ℚ) ^ (-400 : ℤ) ≤ 2 ^ (-1075 : ℤ) := by
        rw [zpow_neg, zpow_neg, inv_le_inv₀ (by positivity) (by positivity)]
        exact_mod_cast (by decide +kernel : 2 ^ 1075 ≤ 10 ^ 400)
      exact absurd (hlow.trans_lt hlt) hpow.not_gt
  have hlarge : ¬ 400 < d.exponent + (toString d.digits).length := by
    intro hsize
    have hle : (10 : ℚ) ^ (400 : ℤ) ≤ d.magnitude :=
      (zpow_le_zpow_right₀ (by norm_num) (by omega)).trans hmin
    have hpow : (2 : ℚ) ^ (1024 : ℤ) < 10 ^ (400 : ℤ) := by
      exact_mod_cast (by decide +kernel : 2 ^ 1024 < 10 ^ 400)
    exact absurd (hle.trans hhigh) hpow.not_ge
  have hread : Float.ofScientific d.digits (decide (d.exponent < 0)) d.exponent.natAbs =
      hb.toFloat .positive := by
    refine Binary64.ofScientific_eq hb (Nat.pos_of_ne_zero hd) _ ?_
    unfold magnitude at hq
    by_cases he : d.exponent < 0
    · have hcast : ((d.exponent.natAbs : ℕ) : ℤ) = -d.exponent := by omega
      rwa [decide_eq_true he, if_pos rfl, div_eq_mul_inv, ← zpow_natCast, hcast, zpow_neg, inv_inv]
    · have hcast : ((d.exponent.natAbs : ℕ) : ℤ) = d.exponent := by omega
      rwa [decide_eq_false he, if_neg (by decide), ← zpow_natCast, hcast]
  unfold toFloat
  simp only [if_neg hsmall, if_neg hlarge, hread]
  cases d.negative with
  | true =>
    show Float.ofModel (Float.Model.pack (hb.toFloat .positive).toModel.unpack.neg) = _
    rw [Binary64.unpack_canonical hb]
    rfl
  | false => rfl

theorem toFloat_of_digits_eq_zero {d : Decimal} (hd : d.digits = 0) :
    d.toFloat = if d.negative then -0.0 else 0.0 := by
  unfold toFloat
  simp only [if_pos (Or.inl hd)]

theorem toFloat_eq_self {d : Decimal} {x : Float} (hx : x.isFinite = true)
    (hsign : d.negative = (Binary.ofFloat x).negative)
    (hzero : (Binary.ofFloat x).mantissa = 0 → d.digits = 0)
    (hcovers : (Binary.ofFloat x).mantissa ≠ 0 → (Binary.ofFloat x).Covers d.magnitude) :
    d.toFloat = x := by
  apply Binary64.eq_of_unpack_eq
  by_cases hm : (Binary.ofFloat x).mantissa = 0
  · rw [toFloat_of_digits_eq_zero (hzero hm), Binary.unpack_zero hm, Binary.sign, ← hsign]
    cases d.negative <;> rfl
  · obtain ⟨hb, hunpack⟩ := Binary.unpack_finite hx hm
    rw [toFloat_eq hb (hcovers hm), Binary64.unpack_canonical, hunpack, Binary.sign, hsign]

theorem isFinite_toFloat {d : Decimal} {b : Binary} (hb : b.Canonical)
    (hq : b.Covers d.magnitude) : d.toFloat.isFinite = true := by
  rw [toFloat_eq hb hq]
  show UnpackedFloat.isFinite (hb.toFloat _).toModel.unpack = true
  rw [Binary64.unpack_canonical]
  rfl

end Decimal

end NonlinearOpt
