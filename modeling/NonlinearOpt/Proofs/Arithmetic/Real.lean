import Mathlib
import NonlinearOpt.Proofs.Arithmetic.Exact
import NonlinearOpt.LinearSolver.Dense

namespace NonlinearOpt

noncomputable instance : ExactScalar ℝ where
  toField := inferInstance
  lt x y := decide (x < y)
  le x y := decide (x ≤ y)
  eq x y := decide (x = y)
  abs x := |x|
  sqrt := Real.sqrt
  pow x y := x ^ y
  exp := Real.exp
  ofNat n := n
  isNaN _ := false
  isFinite _ := true
  nan := 0
  infinity := 0
  epsilon := ((2 ^ 52 : Nat) : ℝ)⁻¹
  lt_iff := decide_eq_true_iff
  le_iff := decide_eq_true_iff
  isNaN_eq _ := rfl
  abs_eq _ := rfl
  eq_iff := decide_eq_true_iff
  isFinite_eq _ := rfl

namespace Block

theorem scaled_length (x y : ℝ) {scale : ℝ} (hscale : 0 < scale) :
    √(x * scale * (x * scale) + y * scale * (y * scale)) / scale = √(x * x + y * y) := by
  have hsquares : x * scale * (x * scale) + y * scale * (y * scale) =
      scale ^ 2 * (x * x + y * y) := by ring
  rw [hsquares, Real.sqrt_mul (sq_nonneg scale), Real.sqrt_sq hscale.le,
    mul_div_cancel_left₀ _ hscale.ne']

theorem powerOfTwo_pos (e : Nat) : (0 : ℝ) < powerOfTwo e :=
  Nat.cast_pos.mpr (Nat.pow_pos Nat.two_pos)

theorem hypotenuse_eq (x y : ℝ) : hypotenuse x y = √(x * x + y * y) := by
  unfold hypotenuse
  extract_lets large scale
  have hscale : 0 < scale := by
    unfold scale
    split
    · exact one_div_pos.mpr (powerOfTwo_pos 600)
    · split
      · exact powerOfTwo_pos 600
      · exact one_pos
  exact scaled_length x y hscale

theorem hypotenuse_mul_self (x y : ℝ) : hypotenuse x y * hypotenuse x y = x * x + y * y := by
  rw [hypotenuse_eq]
  exact Real.mul_self_sqrt (add_nonneg (mul_self_nonneg x) (mul_self_nonneg y))

end Block

end NonlinearOpt
