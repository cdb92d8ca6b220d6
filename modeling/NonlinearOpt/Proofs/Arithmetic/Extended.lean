import NonlinearOpt.Scalar
import Mathlib.Algebra.Order.Field.Basic
import Mathlib.Algebra.Order.Monoid.Unbundled.WithTop

namespace NonlinearOpt

class OrderedScalar (α : Type) [LinearOrder α] [Scalar α] : Prop where
  lt_iff {x y : α} : Scalar.lt x y = true ↔ x < y
  le_iff {x y : α} : Scalar.le x y = true ↔ x ≤ y
  isNaN_eq (x : α) : Scalar.isNaN x = false

/-- Exact numbers, with infinities below and above all others. -/
class ExtendedScalar (α : Type) [LinearOrder α] [Scalar α] : Prop extends OrderedScalar α where
  le_infinity (x : α) : x ≤ Scalar.infinity
  negInfinity_le (x : α) : -Scalar.infinity ≤ x
  add_le_add {x y : α} (t : α) : x ≤ y → x + t ≤ y + t
  le_add {t : α} (x : α) : 0 ≤ t → x ≤ x + t
  add_lt_infinity {x t : α} : x < Scalar.infinity → t < Scalar.infinity →
    x + t < Scalar.infinity
  negInfinity_add {t : α} : t < Scalar.infinity → -Scalar.infinity + t = (-Scalar.infinity : α)

namespace OrderedScalar

variable {α : Type} [LinearOrder α] [Scalar α] [OrderedScalar α]

theorem max_eq (x y : α) : Scalar.max x y = max x y := by
  unfold Scalar.max
  simp only [isNaN_eq, Bool.false_eq_true, if_false, lt_iff]
  split
  · next h => exact (max_eq_right h.le).symm
  · next h => exact (max_eq_left (not_lt.mp h)).symm

theorem min_eq (x y : α) : Scalar.min x y = min x y := by
  unfold Scalar.min
  simp only [isNaN_eq, Bool.false_eq_true, if_false, lt_iff]
  split
  · next h => exact (min_eq_right h.le).symm
  · next h => exact (min_eq_left (not_lt.mp h)).symm

end OrderedScalar

abbrev Extended (K : Type) := WithBot (WithTop K)

namespace Extended

variable {K : Type}

def ofNumber (x : K) : Extended K := (x : WithTop K)

def isNumber : Extended K → Bool
  | some (some _) => true
  | _ => false

def negate [Neg K] : Extended K → Extended K
  | none => ⊤
  | some none => ⊥
  | some (some x) => ofNumber (-x)

/-- An operation of numbers. With an infinite operand it is left at infinity. -/
def lift (f : K → K → K) : Extended K → Extended K → Extended K
  | some (some x), some (some y) => ofNumber (f x y)
  | _, _ => ⊤

theorem eq_cases (x : Extended K) : x = ⊥ ∨ x = ⊤ ∨ ∃ k, x = ofNumber k := by
  induction x using WithBot.recBotCoe with
  | bot => exact .inl rfl
  | coe x =>
    induction x using WithTop.recTopCoe with
    | top => exact .inr (.inl rfl)
    | coe k => exact .inr (.inr ⟨k, rfl⟩)

theorem isNumber_iff {x : Extended K} : isNumber x = true ↔ ∃ k, x = ofNumber k := by
  constructor
  · intro h
    obtain rfl | rfl | hk := eq_cases x
    · cases h
    · cases h
    · exact hk
  · rintro ⟨k, rfl⟩
    rfl

variable [Field K] [LinearOrder K]

instance : Scalar (Extended K) where
  add x y := x + y
  sub x y := x + negate y
  mul := lift (· * ·)
  div := lift (· / ·)
  neg := negate
  zero := 0
  one := 1
  ofScientific m s e := ofNumber ((OfScientific.ofScientific m s e : ℚ) : K)
  lt x y := decide (x < y)
  le x y := decide (x ≤ y)
  eq x y := decide (x = y)
  abs x := max x (negate x)
  sqrt x := x
  pow x _ := x
  exp x := x
  ofNat n := ofNumber (n : K)
  isNaN _ := false
  isFinite := isNumber
  nan := 0
  infinity := ⊤
  epsilon := 0

instance [IsStrictOrderedRing K] : ExtendedScalar (Extended K) where
  lt_iff := decide_eq_true_iff
  le_iff := decide_eq_true_iff
  isNaN_eq _ := rfl
  le_infinity _ := le_top
  negInfinity_le _ := bot_le
  add_le_add t h := add_le_add_left (α := Extended K) h t
  le_add := by
    intro t x h
    exact le_add_of_nonneg_right (α := Extended K) h
  add_lt_infinity := by
    intro x t hx ht
    induction x using WithBot.recBotCoe with
    | bot => exact WithBot.bot_lt_coe _
    | coe x =>
      induction t using WithBot.recBotCoe with
      | bot => exact WithBot.bot_lt_coe _
      | coe t =>
        have hsum : x + t < ⊤ :=
          WithTop.add_lt_top.mpr ⟨WithBot.coe_lt_coe.mp hx, WithBot.coe_lt_coe.mp ht⟩
        exact WithBot.coe_lt_coe.mpr hsum
  negInfinity_add _ := WithBot.bot_add _

end Extended

end NonlinearOpt
