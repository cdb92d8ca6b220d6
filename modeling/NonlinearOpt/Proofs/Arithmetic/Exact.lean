import NonlinearOpt.Proofs.Arithmetic.Extended
import Mathlib

namespace NonlinearOpt

/-- The numbers of an ordered field. Roots, powers and exponentials may be any functions. -/
class ExactScalar (K : Type) [LinearOrder K] extends Field K, Scalar K, OrderedScalar K where
  abs_eq (x : K) : Scalar.abs x = max x (-x)
  eq_iff {x y : K} : Scalar.eq x y = true ↔ x = y
  isFinite_eq (x : K) : Scalar.isFinite x = true

def Exact (K : Type) : Type := K

namespace Exact

variable {K : Type}

instance [LinearOrder K] : LinearOrder (Exact K) := inferInstanceAs (LinearOrder K)

@[reducible]
def field [Field K] : Field (Exact K) := inferInstanceAs (Field K)

instance [Field K] [LinearOrder K] : ExactScalar (Exact K) where
  toField := field
  ofScientific m s e := ((OfScientific.ofScientific m s e : ℚ) : K)
  lt x y := decide (x < y)
  le x y := decide (x ≤ y)
  eq x y := decide (x = y)
  abs x := max x (field.neg x)
  sqrt x := x
  pow x _ := x
  exp x := x
  ofNat n := (n : K)
  isNaN _ := false
  isFinite _ := true
  nan := (0 : K)
  infinity := (0 : K)
  epsilon := (0 : K)
  lt_iff := decide_eq_true_iff
  le_iff := decide_eq_true_iff
  isNaN_eq _ := rfl
  abs_eq _ := rfl
  eq_iff := decide_eq_true_iff
  isFinite_eq _ := rfl

instance [Field K] [LinearOrder K] [IsStrictOrderedRing K] : IsStrictOrderedRing (Exact K) :=
  inferInstanceAs (IsStrictOrderedRing K)

end Exact

/-- Exact numbers between two infinities. The finite scalars are the numbers of an ordered field and
are computed with as there; little is said of the infinities. -/
class NumberLine (α : Type) (K : outParam Type) [LinearOrder α] [Scalar α] [Field K]
    [LinearOrder K] extends OrderedScalar α where
  ofNumber : K → α
  isFinite_iff {x : α} : Scalar.isFinite x = true ↔ ∃ k, x = ofNumber k
  isFinite_of_between {x : α} : -Scalar.infinity < x → x < Scalar.infinity →
    Scalar.isFinite x = true
  negInfinity_lt (a : K) : -Scalar.infinity < ofNumber a
  lt_infinity (a : K) : ofNumber a < Scalar.infinity
  ofNumber_lt {a b : K} : ofNumber a < ofNumber b ↔ a < b
  zero_eq : (0 : α) = ofNumber 0
  one_eq : (1 : α) = ofNumber 1
  two_eq : (Scalar.ofNat 2 : α) = ofNumber 2
  neg_ofNumber (a : K) : -ofNumber a = ofNumber (-a)
  add_ofNumber (a b : K) : ofNumber a + ofNumber b = ofNumber (a + b)
  sub_ofNumber (a b : K) : ofNumber a - ofNumber b = ofNumber (a - b)
  mul_ofNumber (a b : K) : ofNumber a * ofNumber b = ofNumber (a * b)
  div_ofNumber {a b : K} : b ≠ 0 → ofNumber a / ofNumber b = ofNumber (a / b)
  /-- Also where the difference is infinite. -/
  one_sub_lt {x : α} : 0 < x → 1 - x < 1

namespace NumberLine

variable {α K : Type} [LinearOrder α] [Scalar α] [Field K] [LinearOrder K] [NumberLine α K]

attribute [simp] neg_ofNumber add_ofNumber sub_ofNumber mul_ofNumber ofNumber_lt

theorem ofNumber_injective : Function.Injective (ofNumber : K → α) := by
  intro a b hab
  by_contra hne
  rcases lt_or_gt_of_ne hne with h | h
  · exact absurd hab (ofNumber_lt.mpr h).ne
  · exact absurd hab (ofNumber_lt.mpr h).ne'

@[simp]
theorem ofNumber_inj {a b : K} : (ofNumber a : α) = ofNumber b ↔ a = b :=
  ofNumber_injective.eq_iff

@[simp]
theorem ofNumber_le {a b : K} : (ofNumber a : α) ≤ ofNumber b ↔ a ≤ b := by
  rw [← not_lt, ofNumber_lt, not_lt]

@[simp]
theorem isFinite_ofNumber (a : K) : Scalar.isFinite (ofNumber a : α) = true :=
  isFinite_iff.mpr ⟨a, rfl⟩

@[simp]
theorem min_ofNumber (a b : K) : Scalar.min (ofNumber a : α) (ofNumber b) = ofNumber (min a b) := by
  rw [OrderedScalar.min_eq]
  rcases le_total a b with h | h
  · rw [min_eq_left h, min_eq_left (ofNumber_le.mpr h)]
  · rw [min_eq_right h, min_eq_right (ofNumber_le.mpr h)]

@[simp]
theorem lt_ofNumber (a b : K) : Scalar.lt (ofNumber a : α) (ofNumber b) = decide (a < b) := by
  rw [Bool.eq_iff_iff, OrderedScalar.lt_iff, ofNumber_lt, decide_eq_true_iff]

end NumberLine

namespace Extended

variable {K : Type}

theorem isNumber_of_between [LinearOrder K] {x : Extended K} (hbot : ⊥ < x) (htop : x < ⊤) :
    isNumber x = true := by
  induction x using WithBot.recBotCoe with
  | bot => exact absurd hbot (lt_irrefl _)
  | coe x =>
    induction x using WithTop.recTopCoe with
    | top => exact absurd htop (lt_irrefl _)
    | coe k => rfl

variable [Field K] [LinearOrder K] [IsStrictOrderedRing K]

theorem one_sub_lt_one {x : Extended K} (hx : 0 < x) : 1 - x < 1 := by
  induction x using WithBot.recBotCoe with
  | bot => exact absurd hx (not_lt_bot)
  | coe x =>
    induction x using WithTop.recTopCoe with
    | top => exact WithBot.bot_lt_coe (1 : WithTop K)
    | coe k =>
      have hk : 0 < k := WithTop.coe_lt_coe.mp (WithBot.coe_lt_coe.mp hx)
      have hsub : 1 + -k < 1 := by linarith
      exact WithBot.coe_lt_coe.mpr (WithTop.coe_lt_coe.mpr hsub)

instance : NumberLine (Extended K) K where
  ofNumber := ofNumber
  isFinite_iff := isNumber_iff
  isFinite_of_between := isNumber_of_between
  negInfinity_lt a := WithBot.bot_lt_coe _
  lt_infinity a := WithBot.coe_lt_coe.mpr (WithTop.coe_lt_top _)
  ofNumber_lt := WithBot.coe_lt_coe.trans WithTop.coe_lt_coe
  zero_eq := rfl
  one_eq := rfl
  two_eq := by
    show ofNumber ((2 : ℕ) : K) = ofNumber 2
    rw [Nat.cast_ofNat]
  neg_ofNumber _ := rfl
  add_ofNumber _ _ := rfl
  sub_ofNumber a b := by
    show ofNumber a + ofNumber (-b) = ofNumber (a - b)
    rw [sub_eq_add_neg]
    rfl
  mul_ofNumber _ _ := rfl
  div_ofNumber _ := rfl
  one_sub_lt := one_sub_lt_one

end Extended

end NonlinearOpt
