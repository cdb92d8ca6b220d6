import Mathlib
import NonlinearOpt.Proofs.Arithmetic.Scientific

namespace NonlinearOpt

namespace Ratio

def value (r : Ratio) : ℚ := r.num / r.den

variable {r s : Ratio}

theorem le_iff (hr : 0 < r.den) (hs : 0 < s.den) : r.le s = true ↔ r.value ≤ s.value := by
  unfold le value
  rw [decide_eq_true_iff, div_le_div_iff₀ (by exact_mod_cast hr) (by exact_mod_cast hs)]
  norm_cast

theorem lt_iff (hr : 0 < r.den) (hs : 0 < s.den) : r.lt s = true ↔ r.value < s.value := by
  unfold lt value
  rw [decide_eq_true_iff, div_lt_div_iff₀ (by exact_mod_cast hr) (by exact_mod_cast hs)]
  norm_cast

theorem den_binary_pos (k : ℕ) (e : ℤ) : 0 < (binary k e).den := Nat.two_pow_pos _

theorem den_decimal_pos (c : ℕ) (g : ℤ) : 0 < (decimal c g).den := Nat.pow_pos (by decide)

theorem value_binary (k : ℕ) (e : ℤ) : (binary k e).value = k * 2 ^ e := by
  unfold value binary
  simp only [Nat.pow_eq]
  rw [Binary64.zpow_eq_div two_ne_zero, ← mul_div_assoc]
  push_cast
  rfl

theorem value_decimal (c : ℕ) (g : ℤ) : (decimal c g).value = c * 10 ^ g := by
  unfold value decimal
  simp only [Nat.pow_eq]
  rw [Binary64.zpow_eq_div (by norm_num), ← mul_div_assoc]
  push_cast
  rfl

theorem floorAt_eq (r : Ratio) (g : ℤ) : r.floorAt g = ⌊r.value / 10 ^ g⌋₊ := by
  have hten : (10 : ℚ) ≠ 0 := by norm_num
  unfold floorAt value
  rw [← Nat.floor_div_eq_div (K := ℚ), Binary64.zpow_eq_div hten]
  simp only [Nat.pow_eq]
  congr 1
  push_cast
  rw [div_div_div_eq]

theorem floorAt_le (r : Ratio) (g : ℤ) : (r.floorAt g : ℚ) * 10 ^ g ≤ r.value := by
  have hp : (0 : ℚ) < 10 ^ g := zpow_pos (by norm_num) g
  have hvalue : 0 ≤ r.value := div_nonneg (Nat.cast_nonneg _) (Nat.cast_nonneg _)
  rw [← le_div_iff₀ hp, floorAt_eq]
  exact Nat.floor_le (div_nonneg hvalue hp.le)

theorem lt_floorAt_add_one (r : Ratio) (g : ℤ) :
    r.value < ((r.floorAt g : ℚ) + 1) * 10 ^ g := by
  rw [← div_lt_iff₀ (zpow_pos (by norm_num) g), floorAt_eq]
  exact Nat.lt_floor_add_one _

theorem zpow_magnitude_le (hnum : 0 < r.num) (hden : 0 < r.den) :
    (10 : ℚ) ^ r.magnitude ≤ r.value := by
  have hd : (0 : ℚ) < r.den := by exact_mod_cast hden
  unfold magnitude value
  rw [le_div_iff₀ hd]
  split
  next hle =>
    have hlen : 0 < (toString (r.num / r.den)).length := Nat.length_repr_pos
    have hpow := Decimal.pow_length_le (Nat.div_pos hle hden)
    rw [Nat.le_div_iff_mul_le hden] at hpow
    have hexp : ((toString (r.num / r.den)).length : ℤ) - 1 =
        ((toString (r.num / r.den)).length - 1 : ℕ) := by omega
    rw [hexp, zpow_natCast]
    exact_mod_cast hpow
  next hlt =>
    obtain ⟨len, hlen⟩ : ∃ len, (toString (r.den / r.num)).length = len + 1 :=
      Nat.exists_eq_succ_of_ne_zero Nat.length_repr_pos.ne'
    simp only [hlen, Nat.pow_eq, Nat.add_sub_cancel]
    split
    next hle =>
      have hexp : 1 - ((len + 1 : ℕ) : ℤ) = -(len : ℤ) := by push_cast; ring
      rw [hexp, zpow_neg, zpow_natCast, inv_mul_le_iff₀ (by positivity), mul_comm]
      exact_mod_cast hle
    next =>
      have hdiv : r.den < 10 ^ (len + 1) * r.num := by
        rw [← Nat.div_lt_iff_lt_mul hnum]
        exact (Nat.length_repr_le_iff (Nat.succ_pos len)).mp hlen.le
      rw [zpow_neg, zpow_natCast, inv_mul_le_iff₀ (by positivity)]
      exact_mod_cast hdiv.le

end Ratio

namespace Binary

variable {b : Binary}

theorem covers_iff (hpos : 0 < b.mantissa) {r : Ratio} (hr : 0 < r.den) :
    b.covers r = true ↔ b.Covers r.value := by
  have hp : (0 : ℚ) < 2 ^ (b.exponent - 2) := zpow_pos two_pos _
  have hscale : 4 * (r.value / 2 ^ b.exponent) = r.value / 2 ^ (b.exponent - 2) := by
    rw [zpow_sub₀ two_ne_zero]
    field_simp
    ring
  have hlow : ((4 * b.mantissa - if b.nearBelow then 1 else 2 : ℕ) : ℚ) =
      4 * b.mantissa - if b.nearBelow then 1 else 2 := by
    split <;> rw [Nat.cast_sub (by omega)] <;> push_cast <;> rfl
  have hcovers : b.Covers r.value ↔
      (4 * (b.mantissa : ℚ) - if b.nearBelow then 1 else 2) * 2 ^ (b.exponent - 2) ≤ r.value ∧
      r.value ≤ (4 * b.mantissa + 2) * 2 ^ (b.exponent - 2) ∧ (b.mantissa % 2 = 1 →
        (4 * (b.mantissa : ℚ) - if b.nearBelow then 1 else 2) * 2 ^ (b.exponent - 2) < r.value ∧
        r.value < (4 * b.mantissa + 2) * 2 ^ (b.exponent - 2)) := by
    rw [← le_div_iff₀ hp, ← div_le_iff₀ hp, ← lt_div_iff₀ hp, ← div_lt_iff₀ hp, ← hscale]
    exact ⟨fun h => ⟨h.le, h.ge, h.lt⟩, fun h => ⟨h.1, h.2.1, h.2.2⟩⟩
  rw [hcovers]
  unfold covers
  by_cases heven : b.mantissa % 2 = 0
  · rw [if_pos heven, Bool.and_eq_true_iff, Ratio.le_iff (Ratio.den_binary_pos _ _) hr,
      Ratio.le_iff hr (Ratio.den_binary_pos _ _), Ratio.value_binary, Ratio.value_binary, hlow]
    push_cast
    exact ⟨fun h => ⟨h.1, h.2, fun hodd => by omega⟩, fun h => ⟨h.1, h.2.1⟩⟩
  · have hodd : b.mantissa % 2 = 1 := by omega
    rw [if_neg heven, Bool.and_eq_true_iff, Ratio.lt_iff (Ratio.den_binary_pos _ _) hr,
      Ratio.lt_iff hr (Ratio.den_binary_pos _ _), Ratio.value_binary, Ratio.value_binary, hlow]
    push_cast
    exact ⟨fun h => ⟨h.1.le, h.2.le, fun _ => h⟩, fun h => h.2.2 hodd⟩

/-- On a grid of seventeen digits, one of the two neighbours of a float rounds to it. -/
theorem covers_neighbour (hb : b.Canonical) {c : ℕ} {g : ℤ}
    (hgrid : (10 : ℚ) ^ (g + 16) ≤ b.mantissa * 2 ^ b.exponent)
    (hlow : (c : ℚ) * 10 ^ g ≤ b.mantissa * 2 ^ b.exponent)
    (hhigh : b.mantissa * 2 ^ b.exponent < ((c : ℚ) + 1) * 10 ^ g) :
    b.Covers (c * 10 ^ g) ∨ b.Covers ((c + 1 : ℕ) * 10 ^ g) := by
  have hp : (0 : ℚ) < 2 ^ b.exponent := zpow_pos two_pos _
  -- the neighbours in units of the last place, and the width of the grid
  obtain ⟨u, hu⟩ : ∃ u : ℚ, u = c * 10 ^ g / 2 ^ b.exponent := ⟨_, rfl⟩
  obtain ⟨w, hw⟩ : ∃ w : ℚ, w = 10 ^ g / 2 ^ b.exponent := ⟨_, rfl⟩
  have habove : ((c + 1 : ℕ) * 10 ^ g : ℚ) / 2 ^ b.exponent = u + w := by
    rw [hu, hw]
    push_cast
    ring
  have hul : u ≤ b.mantissa := by rwa [hu, div_le_iff₀ hp]
  have huw : b.mantissa < u + w := by
    rw [← habove, lt_div_iff₀ hp]
    push_cast
    exact hhigh
  have hwidth : 10 ^ 16 * w ≤ b.mantissa := by
    rw [hw, ← mul_div_assoc, div_le_iff₀ hp, ← zpow_natCast, ← zpow_add₀ (by norm_num), add_comm]
    exact hgrid
  by_cases hnear : b.nearBelow = true
  · -- the float is a power of two, and the grid is finer
    have hleast : b.mantissa = 2 ^ 52 := by
      unfold nearBelow at hnear
      exact eq_of_beq (Bool.and_eq_true_iff.mp hnear).1
    have hm : (b.mantissa : ℚ) = 2 ^ 52 := by exact_mod_cast hleast
    right
    apply Covers.of_lt <;> rw [habove]
    · rw [if_pos hnear]
      linarith
    · linarith
  · have hm : (b.mantissa : ℚ) < 2 ^ 53 := by exact_mod_cast hb.lt
    rcases lt_or_ge (4 * (b.mantissa : ℚ) - 2) (4 * u) with hclose | hfar
    · left
      apply Covers.of_lt <;> rw [← hu]
      · rwa [if_neg hnear]
      · linarith
    · right
      apply Covers.of_lt <;> rw [habove]
      · rw [if_neg hnear]
        linarith
      · linarith

end Binary

namespace Decimal

theorem covers_search {b : Binary} (hb : b.Canonical) {fuel d : ℕ} (hd : d ≤ 17)
    (hfuel : fuel + d = 18) :
    b.Covers ((shortest.search b b.ratio b.ratio.magnitude fuel d).1 *
      10 ^ (shortest.search b b.ratio b.ratio.magnitude fuel d).2) := by
  induction fuel generalizing d with
  | zero => omega
  | succ fuel ih =>
    obtain ⟨g, hg⟩ : ∃ g, g = b.ratio.magnitude - d + 1 := ⟨_, rfl⟩
    have hcovers (c : ℕ) : b.covers (.decimal c g) = true ↔ b.Covers (c * 10 ^ g) := by
      rw [Binary.covers_iff hb.pos (Ratio.den_decimal_pos c g), Ratio.value_decimal]
    unfold shortest.search
    simp only [← hg]
    split
    next hbelow => exact (hcovers _).mp (Bool.and_eq_true_iff.mp hbelow).1
    next hbelow =>
      split
      next habove => exact (hcovers _).mp habove
      next habove =>
        rcases hd.lt_or_eq with hlt | rfl
        · exact ih hlt (by omega)
        · exfalso
          have hvalue : b.ratio.value = b.mantissa * 2 ^ b.exponent := Ratio.value_binary _ _
          have hgrid : (10 : ℚ) ^ (g + 16) ≤ b.mantissa * 2 ^ b.exponent := by
            have hexp : g + 16 = b.ratio.magnitude := by rw [hg]; push_cast; ring
            rw [hexp, ← hvalue]
            exact Ratio.zpow_magnitude_le (Nat.mul_pos hb.pos (Nat.two_pow_pos _))
              (Ratio.den_binary_pos _ _)
          have hlow := Ratio.floorAt_le b.ratio g
          have hhigh := Ratio.lt_floorAt_add_one b.ratio g
          rw [hvalue] at hlow hhigh
          rcases Binary.covers_neighbour hb hgrid hlow hhigh with h | h
          · apply hbelow
            rw [(hcovers _).mpr h, Bool.eq_false_of_not_eq_true habove, Bool.not_false,
              Bool.or_true]
            rfl
          · exact habove ((hcovers _).mpr h)

theorem magnitude_strip (negative : Bool) (fuel c : ℕ) (g : ℤ) :
    (shortest.strip negative fuel c g).magnitude = c * 10 ^ g := by
  induction fuel generalizing c g with
  | zero => rfl
  | succ fuel ih =>
    unfold shortest.strip
    split
    next hzero =>
      have hc : c = c / 10 * 10 := by omega
      rw [ih, zpow_add_one₀ (by norm_num)]
      conv_rhs => rw [hc]
      push_cast
      ring
    next => rfl

theorem negative_strip (negative : Bool) (fuel c : ℕ) (g : ℤ) :
    (shortest.strip negative fuel c g).negative = negative := by
  induction fuel generalizing c g with
  | zero => rfl
  | succ fuel ih =>
    unfold shortest.strip
    split
    next => exact ih _ _
    next => rfl

theorem negative_shortest (x : Float) : (shortest x).negative = (Binary.ofFloat x).negative := by
  unfold shortest
  by_cases h : (Binary.ofFloat x).mantissa = 0
  · simp only [if_pos h]
  · simp only [if_neg h]
    exact negative_strip _ _ _ _

theorem digits_shortest {x : Float} (h : (Binary.ofFloat x).mantissa = 0) :
    (shortest x).digits = 0 := by
  unfold shortest
  rw [if_pos h]

theorem covers_shortest {x : Float} (hx : x.isFinite = true) (h : (Binary.ofFloat x).mantissa ≠ 0) :
    (Binary.ofFloat x).Covers (shortest x).magnitude := by
  obtain ⟨hb, -⟩ := Binary.unpack_finite hx h
  unfold shortest
  simp only [if_neg h]
  rw [magnitude_strip]
  exact covers_search hb (by decide) rfl

end Decimal

end NonlinearOpt
