import Mathlib
import NonlinearOpt.Proofs.Arithmetic.Binary64
import NonlinearOpt.Text.Decimal

/-!
Correct rounding. A mantissa with a round bit and a sticky bit stands for a rational number, which
tells what it is rounded to: wherever the number lies between the midpoints to the neighbours of a
float, rounding gives that float.
-/

namespace NonlinearOpt

open Float.Model Float.Model.UnpackedFloat

namespace Binary64

/-- What a mantissa stands for together with its two residual bits. -/
def Represents (em : ExtendedMantissa) (y : ℚ) : Prop :=
  match em.roundBit, em.stickyBit with
  | false, false => y = em.mantissa
  | false, true => em.mantissa < y ∧ 2 * y < 2 * em.mantissa + 1
  | true, false => 2 * y = 2 * em.mantissa + 1
  | true, true => 2 * em.mantissa + 1 < 2 * y ∧ y < em.mantissa + 1

theorem mantissa_ofMantissaAndAccuracy (m : ℕ) (acc : Accuracy) :
    (ExtendedMantissa.ofMantissaAndAccuracy m acc).mantissa = m := by
  rcases acc with _ | (_ | _ | _) <;> rfl

theorem represents_exact (m : ℕ) :
    Represents (.ofMantissaAndAccuracy m .exact) m :=
  rfl

theorem represents_fraction (m : ℕ) {num den : ℕ} (h : num < den) :
    Represents (.ofMantissaAndAccuracy m (accuracyOfFraction num den)) (m + num / den) := by
  have hden : (0 : ℚ) < den := by exact_mod_cast Nat.zero_lt_of_lt h
  unfold accuracyOfFraction
  split
  next hzero =>
    rw [hzero, Nat.cast_zero, zero_div, add_zero]
    exact represents_exact m
  next hnum =>
    have hpos : (0 : ℚ) < num / den := div_pos (by exact_mod_cast Nat.pos_of_ne_zero hnum) hden
    have hone : (num : ℚ) / den < 1 := (div_lt_one hden).mpr (by exact_mod_cast h)
    rcases lt_trichotomy (2 * num) den with hhalf | hhalf | hhalf
    · have hbelow : (num : ℚ) / den < 1 / 2 := by
        rw [div_lt_div_iff₀ hden two_pos]
        exact_mod_cast (by omega : num * 2 < 1 * den)
      rw [compare_lt_iff_lt.mpr hhalf]
      exact ⟨show (m : ℚ) < _ by linarith, show 2 * _ < 2 * (m : ℚ) + 1 by linarith⟩
    · have heq : (num : ℚ) / den = 1 / 2 := by
        rw [div_eq_div_iff hden.ne' two_ne_zero]
        exact_mod_cast (by omega : num * 2 = 1 * den)
      rw [compare_eq_iff_eq.mpr hhalf]
      show 2 * ((m : ℚ) + num / den) = 2 * m + 1
      linarith
    · have habove : 1 / 2 < (num : ℚ) / den := by
        rw [div_lt_div_iff₀ two_pos hden]
        exact_mod_cast (by omega : 1 * den < num * 2)
      rw [compare_gt_iff_gt.mpr hhalf]
      exact ⟨show 2 * (m : ℚ) + 1 < _ by linarith, show _ < (m : ℚ) + 1 by linarith⟩

namespace Represents

variable {em : ExtendedMantissa} {y : ℚ}

theorem mantissa_le (h : Represents em y) : em.mantissa ≤ y := by
  rcases em with ⟨m, _ | _, _ | _⟩ <;> simp only [Represents] at h ⊢ <;> linarith

theorem lt_mantissa_add_one (h : Represents em y) : y < em.mantissa + 1 := by
  rcases em with ⟨m, _ | _, _ | _⟩ <;> simp only [Represents] at h ⊢ <;> linarith

theorem two_zpow_le {q : ℚ} {e : ℤ} (h : Represents em (q / 2 ^ e)) (hm : em.mantissa ≠ 0) :
    2 ^ (em.mantissa.log2 + e) ≤ q := by
  have hlog : (2 : ℚ) ^ (em.mantissa.log2 : ℤ) ≤ em.mantissa := by
    exact_mod_cast Nat.log2_self_le hm
  rw [zpow_add₀ two_ne_zero, ← le_div_iff₀ (zpow_pos two_pos e)]
  exact hlog.trans h.mantissa_le

theorem lt_two_zpow {q : ℚ} {e : ℤ} (h : Represents em (q / 2 ^ e)) :
    q < 2 ^ (em.mantissa.log2 + e + 1) := by
  have hlog : (em.mantissa : ℚ) + 1 ≤ 2 ^ ((em.mantissa.log2 : ℤ) + 1) := by
    exact_mod_cast Nat.lt_log2_self
  rw [add_right_comm, zpow_add₀ two_ne_zero, ← div_lt_iff₀ (zpow_pos two_pos e)]
  exact h.lt_mantissa_add_one.trans_le hlog

theorem shiftRightOne (h : Represents em y) : Represents em.shiftRightOne (y / 2) := by
  rcases em with ⟨m, round, sticky⟩
  have hsplit : ((m % 2 : ℕ) : ℚ) + 2 * (m / 2 : ℕ) = m := by
    exact_mod_cast Nat.mod_add_div m 2
  have hone : (1 != 0) = true := rfl
  have hzero : (0 != 0) = false := rfl
  rcases Nat.mod_two_eq_zero_or_one m with hbit | hbit <;> cases round <;> cases sticky <;>
    simp only [Represents, ExtendedMantissa.shiftRightOne, hbit, hone, hzero, Bool.or_true,
      Bool.or_false] at h ⊢ <;>
    rw [hbit] at hsplit <;> push_cast at hsplit
  all_goals first | linarith | exact ⟨by linarith, by linarith⟩

theorem shiftRight (h : Represents em y) (n : ℕ) : Represents (em >>> n) (y / 2 ^ n) := by
  show Represents (n.repeat ExtendedMantissa.shiftRightOne em) _
  induction n with
  | zero => rwa [pow_zero, div_one]
  | succ n ih =>
    rw [pow_succ, ← div_div]
    exact ih.shiftRightOne

end Represents

/-- A whole number that is nearest to a rational one, and even if another is just as near. -/
structure Nearest (n : ℕ) (y : ℚ) : Prop where
  le : 2 * (n : ℚ) - 1 ≤ 2 * y
  ge : 2 * y ≤ 2 * n + 1
  lt : n % 2 = 1 → 2 * (n : ℚ) - 1 < 2 * y ∧ 2 * y < 2 * n + 1

theorem Represents.roundedMantissa_eq {em : ExtendedMantissa} {y : ℚ} (h : Represents em y) {n : ℕ}
    (hn : Nearest n y) : em.roundedMantissa = n := by
  obtain ⟨hle, hge, hodd⟩ := hn
  rcases em with ⟨m, _ | _, _ | _⟩ <;> simp only [Represents] at h
  · have hmn : (2 * n : ℚ) ≤ 2 * m + 1 := by linarith
    have hnm : (2 * m : ℚ) ≤ 2 * n + 1 := by linarith
    norm_cast at hmn hnm
    show m = n
    omega
  · have hmn : (2 * n : ℚ) < 2 * m + 2 := by linarith
    have hnm : (2 * m : ℚ) < 2 * n + 1 := by linarith
    norm_cast at hmn hnm
    show m = n
    omega
  · -- halfway between two numbers, of which one is odd
    have hmn : (2 * n : ℚ) ≤ 2 * m + 2 := by linarith
    have hnm : (2 * m : ℚ) ≤ 2 * n := by linarith
    norm_cast at hmn hnm
    have heven : n % 2 = 0 := by
      refine (Nat.mod_two_eq_zero_or_one n).resolve_right fun hn => ?_
      have hmn' : (2 * n : ℚ) < 2 * m + 2 := by linarith [(hodd hn).1]
      have hnm' : (2 * m : ℚ) < 2 * n := by linarith [(hodd hn).2]
      norm_cast at hmn' hnm'
      omega
    show m + m % 2 = n
    omega
  · have hmn : (2 * n : ℚ) < 2 * m + 3 := by linarith
    have hnm : (2 * m : ℚ) < 2 * n := by linarith
    norm_cast at hmn hnm
    show m + 1 = n
    omega

theorem exists_nearest {y : ℚ} (hy : 0 ≤ y) : ∃ n, Nearest n y := by
  have hfloor := Nat.floor_le hy
  have hnext := Nat.lt_floor_add_one y
  rcases lt_trichotomy (2 * y) (2 * (⌊y⌋₊ : ℚ) + 1) with h | h | h
  · exact ⟨⌊y⌋₊, by linarith, h.le, fun _ => ⟨by linarith, h⟩⟩
  · -- halfway, so to the even one
    rcases Nat.mod_two_eq_zero_or_one ⌊y⌋₊ with heven | hodd
    · exact ⟨⌊y⌋₊, by linarith, h.le, fun hodd => by omega⟩
    · exact ⟨⌊y⌋₊ + 1, by push_cast; linarith, by push_cast; linarith, fun hodd' => by omega⟩
  · exact ⟨⌊y⌋₊ + 1, by push_cast; linarith, by push_cast; linarith,
      fun _ => ⟨by push_cast; linarith, by push_cast; linarith⟩⟩

end Binary64

namespace Binary

/-- The floats other than zero, each written with as large a mantissa as there are bits for. -/
structure Canonical (b : Binary) : Prop where
  pos : 0 < b.mantissa
  lt : b.mantissa < 2 ^ 53
  normal : -1074 < b.exponent → 2 ^ 52 ≤ b.mantissa
  le_exponent : -1074 ≤ b.exponent
  exponent_le : b.exponent ≤ 971

/-- Numbers that round to a float, in quarters of its last place. -/
structure Covers (b : Binary) (q : ℚ) : Prop where
  le : 4 * (b.mantissa : ℚ) - (if b.nearBelow then 1 else 2) ≤ 4 * (q / 2 ^ b.exponent)
  ge : 4 * (q / 2 ^ b.exponent) ≤ 4 * b.mantissa + 2
  lt : b.mantissa % 2 = 1 →
    4 * (b.mantissa : ℚ) - (if b.nearBelow then 1 else 2) < 4 * (q / 2 ^ b.exponent) ∧
      4 * (q / 2 ^ b.exponent) < 4 * b.mantissa + 2

namespace Covers

variable {b : Binary} {q : ℚ}

theorem of_lt
    (hlow : 4 * (b.mantissa : ℚ) - (if b.nearBelow then 1 else 2) < 4 * (q / 2 ^ b.exponent))
    (hhigh : 4 * (q / 2 ^ b.exponent) < 4 * b.mantissa + 2) : b.Covers q :=
  ⟨hlow.le, hhigh.le, fun _ => ⟨hlow, hhigh⟩⟩

theorem nearest (h : b.Covers q) : Binary64.Nearest b.mantissa (q / 2 ^ b.exponent) := by
  have hgap : (if b.nearBelow then 1 else 2 : ℚ) ≤ 2 := by split <;> norm_num
  obtain ⟨hle, hge, hodd⟩ := h
  exact ⟨by linarith, by linarith, fun hn => ⟨by linarith [(hodd hn).1], by linarith [(hodd hn).2]⟩⟩

theorem nearest_of_lt (h : b.Covers q) (hleast : b.mantissa = 2 ^ 52) (hnear : b.nearBelow = true)
    (hq : q < 2 ^ (b.exponent + 52)) : Binary64.Nearest (2 ^ 53) (q / 2 ^ (b.exponent - 1)) := by
  have hle := h.le
  have hlt : q / 2 ^ b.exponent < 2 ^ (52 : ℤ) := by
    rw [div_lt_iff₀ (zpow_pos two_pos _), ← zpow_add₀ two_ne_zero, add_comm]
    exact hq
  have hscale : q / 2 ^ (b.exponent - 1) = 2 * (q / 2 ^ b.exponent) := by
    rw [zpow_sub_one₀ two_ne_zero]
    field_simp
  rw [hnear, if_pos rfl, hleast] at hle
  rw [hscale]
  norm_num at hle hlt
  exact ⟨by norm_num; linarith, by norm_num; linarith, fun hodd => nomatch hodd⟩

theorem exponent_eq (h : b.Covers q) (hb : b.Canonical) {t : ℤ} (ht : -1074 ≤ t)
    (hlow : -1074 < t → 2 ^ (t + 52) ≤ q) (hhigh : q < 2 ^ (t + 53)) :
    t = b.exponent ∨ t = b.exponent - 1 ∧ b.mantissa = 2 ^ 52 ∧ b.nearBelow = true := by
  obtain ⟨hle, hge, hodd⟩ := h
  have hp : (0 : ℚ) < 2 ^ b.exponent := zpow_pos two_pos _
  have hscale (k : ℤ) : (2 : ℚ) ^ (k + b.exponent) = 2 ^ k * 2 ^ b.exponent :=
    zpow_add₀ two_ne_zero k _
  rcases lt_trichotomy t b.exponent with hlt | heq | hgt
  · -- the float is the least one of its binade
    have hfull := hb.normal (lt_of_le_of_lt ht hlt)
    have hq : q / 2 ^ b.exponent < 2 ^ (52 : ℤ) := by
      rw [div_lt_iff₀ hp, ← hscale]
      exact hhigh.trans_le (zpow_le_zpow_right₀ one_le_two (by omega))
    have hmant : b.mantissa = 2 ^ 52 := by
      have hgap : (if b.nearBelow then 1 else 2 : ℚ) ≤ 2 := by split <;> norm_num
      have hm : 4 * (b.mantissa : ℚ) - 2 < 4 * 2 ^ 52 := by
        have : q / 2 ^ b.exponent < 2 ^ 52 := by exact_mod_cast hq
        linarith
      have : 4 * b.mantissa < 4 * 2 ^ 52 + 2 := by
        exact_mod_cast (by linarith : (4 * b.mantissa : ℚ) < 4 * 2 ^ 52 + 2)
      omega
    have hnear : b.nearBelow = true := by
      unfold nearBelow
      rw [hmant, decide_eq_true (lt_of_le_of_lt ht hlt)]
      rfl
    refine .inr ⟨?_, hmant, hnear⟩
    by_contra hne
    have hq' : q / 2 ^ b.exponent < 2 ^ (51 : ℤ) := by
      rw [div_lt_iff₀ hp, ← hscale]
      exact hhigh.trans_le (zpow_le_zpow_right₀ one_le_two (by omega))
    rw [hmant, hnear, if_pos rfl] at hle
    norm_num at hle hq'
    linarith
  · exact .inl heq
  · exfalso
    have hq : 2 ^ (53 : ℤ) ≤ q / 2 ^ b.exponent := by
      rw [le_div_iff₀ hp, ← hscale]
      exact (zpow_le_zpow_right₀ one_le_two (by omega)).trans
        (hlow (lt_of_le_of_lt hb.le_exponent hgt))
    have hm : (b.mantissa : ℚ) ≤ 2 ^ 53 - 1 := by
      have : (b.mantissa : ℚ) + 1 ≤ 2 ^ 53 := by exact_mod_cast hb.lt
      linarith
    norm_num at hq
    linarith

end Covers

theorem exists_covers {q : ℚ} {t : ℤ} (hmin : -1074 ≤ t) (hmax : t ≤ 970) (hlow : 2 ^ (t + 52) ≤ q)
    (hhigh : q < 2 ^ (t + 53)) : ∃ b : Binary, b.Canonical ∧ b.Covers q := by
  have hp : (0 : ℚ) < 2 ^ t := zpow_pos two_pos t
  have hy : (2 : ℚ) ^ 52 ≤ q / 2 ^ t := by
    rw [le_div_iff₀ hp, ← zpow_natCast, ← zpow_add₀ two_ne_zero, add_comm]
    exact hlow
  have hy' : q / 2 ^ t < 2 ^ 53 := by
    rw [div_lt_iff₀ hp, ← zpow_natCast, ← zpow_add₀ two_ne_zero, add_comm]
    exact hhigh
  obtain ⟨n, hle, hge, hodd⟩ := Binary64.exists_nearest (le_trans (by norm_num) hy)
  have hn : 2 ^ 52 ≤ n := by
    have : 2 * 2 ^ 52 < 2 * n + 2 := by
      exact_mod_cast (by linarith : (2 * 2 ^ 52 : ℚ) < 2 * n + 2)
    omega
  have hn' : n ≤ 2 ^ 53 := by
    have : 2 * n < 2 * 2 ^ 53 + 2 := by
      exact_mod_cast (by linarith : (2 * n : ℚ) < 2 * 2 ^ 53 + 2)
    omega
  rcases hn'.lt_or_eq with hlt | rfl
  · refine ⟨⟨false, n, t⟩,
      ⟨by show 0 < n; omega, hlt, fun _ => hn, hmin, by show t ≤ 971; omega⟩, ?_⟩
    by_cases hnear : nearBelow ⟨false, n, t⟩ = true
    · -- the least float of the binade, which the number is not below
      have hleast : n = 2 ^ 52 := by
        unfold nearBelow at hnear
        exact of_decide_eq_true (Bool.and_eq_true_iff.mp hnear).1
      have hn : (n : ℚ) = 2 ^ 52 := by exact_mod_cast hleast
      refine ⟨?_, ?_, fun hodd => by simp only at hodd; omega⟩ <;>
        simp only [hnear, if_true] <;> linarith
    · refine ⟨?_, ?_, fun hn => ⟨?_, ?_⟩⟩ <;> simp only [hnear] <;> norm_num
      · linarith
      · linarith
      · linarith [(hodd hn).1]
      · linarith [(hodd hn).2]
  · refine ⟨⟨false, 2 ^ 52, t + 1⟩, ⟨by norm_num, by norm_num, fun _ => le_rfl,
      by show -1074 ≤ t + 1; omega, by show t + 1 ≤ 971; omega⟩, ?_⟩
    have hnear : nearBelow ⟨false, 2 ^ 52, t + 1⟩ = true := by
      unfold nearBelow
      rw [decide_eq_true (by show -1074 < t + 1; omega)]
      rfl
    have hscale : q / 2 ^ (t + 1) = q / 2 ^ t / 2 := by
      rw [zpow_add_one₀ two_ne_zero, div_div]
    refine ⟨?_, ?_, fun hodd => by norm_num at hodd⟩ <;>
      simp only [hnear, if_true, hscale] <;> push_cast at * <;> linarith

end Binary

namespace Binary64

theorem targetExponent_eq_max (e : ℤ) :
    Format.binary64.targetExponent e = max (e - 53) (-1074) := by
  have hmin : Format.binary64.minExponent = -1074 := by decide
  have hbits : ((Format.binary64.mantissaBits : ℕ) : ℤ) = 53 := rfl
  unfold Format.targetExponent
  rw [hmin, hbits]

theorem targetExponent_eq (m : ℕ) (e : ℤ) :
    Format.binary64.targetExponent (totalExponent m e) = max (m.log2 + e - 52) (-1074) := by
  unfold totalExponent
  rw [targetExponent_eq_max]
  congr 1
  ring

theorem targetExponent_le {b : Binary} (hb : b.Canonical) :
    Format.binary64.targetExponent (totalExponent b.mantissa b.exponent) ≤ b.exponent := by
  have hlog : b.mantissa.log2 < 53 := (Nat.log2_lt hb.pos.ne').mpr hb.lt
  have hmin := hb.le_exponent
  rw [targetExponent_eq]
  omega

theorem shiftToTargetExponent_eq {m : ℕ} {e t : ℤ} {k : ℕ} (acc : Accuracy)
    (ht : Format.binary64.targetExponent (totalExponent m e) = t) (hk : (t - e).toNat = k) :
    shiftToTargetExponent .binary64 m e acc =
      (ExtendedMantissa.ofMantissaAndAccuracy m acc >>> k, e + k) := by
  subst ht hk
  rfl

theorem shiftToTargetExponent_exact {m : ℕ} {e : ℤ}
    (h : Format.binary64.targetExponent (totalExponent m e) ≤ e) :
    shiftToTargetExponent .binary64 m e .exact = (⟨m, false, false⟩, e) := by
  have hzero : (Format.binary64.targetExponent (totalExponent m e) - e).toNat = 0 := by omega
  rw [shiftToTargetExponent_eq .exact rfl hzero, Nat.cast_zero, add_zero]
  rfl

theorem shiftToTargetExponent_overflow {e : ℤ} (he : -1074 ≤ e) :
    shiftToTargetExponent .binary64 (2 ^ 53) e .exact = (⟨2 ^ 52, false, false⟩, e + 1) := by
  have ht : Format.binary64.targetExponent (totalExponent (2 ^ 53) e) = e + 1 := by
    rw [targetExponent_eq, Nat.log2_two_pow]
    push_cast
    omega
  have hone : (e + 1 - e).toNat = 1 := by omega
  rw [shiftToTargetExponent_eq .exact ht hone, Nat.cast_one]
  rfl

/-- Rounding may make the mantissa longer, so that it is shifted a second time. -/
theorem roundWithAccuracy_of_shifts {m n k : ℕ} {e t f : ℤ} {acc : Accuracy} {em : ExtendedMantissa}
    (hfirst : shiftToTargetExponent .binary64 m e acc = (em, t)) (hn : em.roundedMantissa = n)
    (hsecond : shiftToTargetExponent .binary64 n t .exact = (⟨k, false, false⟩, f)) (hk : 0 < k)
    (s : Sign) : roundWithAccuracy .binary64 s m e acc = .finite s k f hk := by
  subst hn
  unfold roundWithAccuracy
  simp only [hfirst, hsecond]
  exact dif_neg hk.ne'

/-- What is not shifted far enough to lose digits is rounded correctly. -/
theorem roundWithAccuracy_eq {b : Binary} (hb : b.Canonical) {q : ℚ} (hq : b.Covers q) (s : Sign)
    {m : ℕ} {e : ℤ} {acc : Accuracy}
    (hrep : Represents (.ofMantissaAndAccuracy m acc) (q / 2 ^ e))
    (he : e ≤ Format.binary64.targetExponent (totalExponent m e)) :
    roundWithAccuracy .binary64 s m e acc = .finite s b.mantissa b.exponent hb.pos := by
  obtain ⟨t, ht⟩ : ∃ t, t = Format.binary64.targetExponent (totalExponent m e) := ⟨_, rfl⟩
  rw [← ht] at he
  have hmax := ht
  rw [targetExponent_eq] at hmax
  -- the first shift takes the number to the last place of its binade
  have hshift : e + ((t - e).toNat : ℤ) = t := by omega
  have hround : shiftToTargetExponent .binary64 m e acc =
      (ExtendedMantissa.ofMantissaAndAccuracy m acc >>> (t - e).toNat, t) := by
    rw [shiftToTargetExponent_eq acc ht.symm rfl, hshift]
  have hfirst := hrep.shiftRight (t - e).toNat
  rw [div_div, ← zpow_natCast, ← zpow_add₀ two_ne_zero, hshift] at hfirst
  have hlow : -1074 < t → 2 ^ (t + 52) ≤ q := by
    intro hnormal
    have hm : m ≠ 0 := by
      rintro rfl
      rw [Nat.log2_zero] at hmax
      omega
    have hbinade := hrep.two_zpow_le (by rwa [mantissa_ofMantissaAndAccuracy])
    rw [mantissa_ofMantissaAndAccuracy] at hbinade
    exact (zpow_le_zpow_right₀ one_le_two (by omega)).trans hbinade
  have hhigh : q < 2 ^ (t + 53) := by
    have hbinade := hrep.lt_two_zpow
    rw [mantissa_ofMantissaAndAccuracy] at hbinade
    exact hbinade.trans_le (zpow_le_zpow_right₀ one_le_two (by omega))
  rcases hq.exponent_eq hb (hmax ▸ le_max_right _ _) hlow hhigh with rfl | ⟨rfl, hleast, hnear⟩
  · exact roundWithAccuracy_of_shifts hround (hfirst.roundedMantissa_eq hq.nearest)
      (shiftToTargetExponent_exact (targetExponent_le hb)) hb.pos s
  · have hnearest := hq.nearest_of_lt hleast hnear (hhigh.trans_eq (by congr 1; ring))
    have hsecond := shiftToTargetExponent_overflow (hmax ▸ le_max_right _ _)
    rw [sub_add_cancel, ← hleast] at hsecond
    exact roundWithAccuracy_of_shifts hround (hfirst.roundedMantissa_eq hnearest) hsecond hb.pos s

end Binary64

end NonlinearOpt
