import NonlinearOpt.Proofs.Arithmetic.Extended

namespace NonlinearOpt

open Scalar

/-- Negation is a symmetry. Sums with finite numbers are exact. -/
class SymmetricScalar (α : Type) [Scalar α] : Prop where
  neg_neg (x : α) : -(-x) = x
  isNaN_neg (x : α) : isNaN (-x) = isNaN x
  isFinite_neg (x : α) : isFinite (-x) = isFinite x
  lt_neg (x y : α) : Scalar.lt (-x) (-y) = Scalar.lt y x
  le_neg (x y : α) : Scalar.le (-x) (-y) = Scalar.le y x
  le_neg_add {t : α} (x y : α) : isFinite t = true →
    Scalar.le (-x) (-y + t) = Scalar.le y (x + t)

namespace Scalar

variable {α : Type} [Scalar α] [SymmetricScalar α]

theorem max_neg (x y : α) : Scalar.max (-x) (-y) = -Scalar.min x y := by
  unfold Scalar.max Scalar.min
  rw [SymmetricScalar.isNaN_neg, SymmetricScalar.lt_neg]
  split
  · rfl
  · split <;> rfl

theorem min_neg (x y : α) : Scalar.min (-x) (-y) = -Scalar.max x y := by
  unfold Scalar.max Scalar.min
  rw [SymmetricScalar.isNaN_neg, SymmetricScalar.lt_neg]
  split
  · rfl
  · split <;> rfl

theorem foldl_max_neg (xs : List α) (x : α) :
    (xs.map (-·)).foldl Scalar.max (-x) = -xs.foldl Scalar.min x := by
  induction xs generalizing x with
  | nil => rfl
  | cons y ys ih => rw [List.map_cons, List.foldl_cons, max_neg, ih, List.foldl_cons]

theorem foldl_min_neg (xs : List α) (x : α) :
    (xs.map (-·)).foldl Scalar.min (-x) = -xs.foldl Scalar.max x := by
  induction xs generalizing x with
  | nil => rfl
  | cons y ys ih => rw [List.map_cons, List.foldl_cons, min_neg, ih, List.foldl_cons]

end Scalar

namespace Extended

section Order

variable {K : Type} [LinearOrder K]

theorem bot_lt_ofNumber (a : K) : (⊥ : Extended K) < ofNumber a := WithBot.bot_lt_coe _

theorem ofNumber_lt_top (a : K) : ofNumber a < (⊤ : Extended K) :=
  WithBot.coe_lt_coe.mpr (WithTop.coe_lt_top _)

theorem ofNumber_le_ofNumber {a b : K} : ofNumber a ≤ ofNumber b ↔ a ≤ b :=
  WithBot.coe_le_coe.trans WithTop.coe_le_coe

end Order

variable {K : Type} [Field K]

@[simp]
theorem negate_bot : negate (⊥ : Extended K) = ⊤ := rfl

@[simp]
theorem negate_top : negate (⊤ : Extended K) = ⊥ := rfl

@[simp]
theorem negate_ofNumber (a : K) : negate (ofNumber a) = ofNumber (-a) := rfl

theorem negate_negate (x : Extended K) : negate (negate x) = x := by
  obtain rfl | rfl | ⟨k, rfl⟩ := eq_cases x <;> simp

theorem isNumber_negate (x : Extended K) : isNumber (negate x) = isNumber x := by
  obtain rfl | rfl | ⟨k, rfl⟩ := eq_cases x <;> rfl

variable [LinearOrder K] [IsStrictOrderedRing K]

theorem negate_le_negate (x y : Extended K) : negate x ≤ negate y ↔ y ≤ x := by
  obtain rfl | rfl | ⟨a, rfl⟩ := eq_cases x <;> obtain rfl | rfl | ⟨b, rfl⟩ := eq_cases y <;>
    simp [(ofNumber_lt_top _).ne, (bot_lt_ofNumber _).ne', ofNumber_le_ofNumber]

theorem negate_lt_negate (x y : Extended K) : negate x < negate y ↔ y < x := by
  rw [← not_le, negate_le_negate, not_le]

theorem negate_le_negate_add (x y : Extended K) (t : K) :
    negate x ≤ negate y + ofNumber t ↔ y ≤ x + ofNumber t := by
  have hbot : (⊥ : Extended K) + ofNumber t = ⊥ := rfl
  have htop : (⊤ : Extended K) + ofNumber t = ⊤ := rfl
  have hadd (a : K) : ofNumber a + ofNumber t = (ofNumber (a + t) : Extended K) := rfl
  obtain rfl | rfl | ⟨a, rfl⟩ := eq_cases x <;> obtain rfl | rfl | ⟨b, rfl⟩ := eq_cases y <;>
    simp [hbot, htop, hadd, (ofNumber_lt_top _).ne, (bot_lt_ofNumber _).ne',
      ofNumber_le_ofNumber]
  -- two numbers are left
  rw [add_comm]

end Extended

/-- The numbers of an ordered field, two infinities, and a non-number. -/
inductive ExtendedNaN (K : Type) where
  | nan
  | value (x : Extended K)

namespace ExtendedNaN

variable {K : Type}

def map (f : Extended K → Extended K) : ExtendedNaN K → ExtendedNaN K
  | nan => nan
  | value x => value (f x)

def lift (f : Extended K → Extended K → ExtendedNaN K) :
    ExtendedNaN K → ExtendedNaN K → ExtendedNaN K
  | value x, value y => f x y
  | _, _ => nan

def compare (r : Extended K → Extended K → Bool) : ExtendedNaN K → ExtendedNaN K → Bool
  | value x, value y => r x y
  | _, _ => false

variable [Field K] [LinearOrder K]

def sum (x y : Extended K) : ExtendedNaN K :=
  if x = ⊥ ∧ y = ⊤ ∨ x = ⊤ ∧ y = ⊥ then nan else value (x + y)

instance : Scalar (ExtendedNaN K) where
  add := lift sum
  sub := lift fun x y => sum x (Extended.negate y)
  mul := lift fun x y => value (Extended.lift (· * ·) x y)
  div := lift fun x y => value (Extended.lift (· / ·) x y)
  neg := map Extended.negate
  zero := value 0
  one := value 1
  ofScientific m s e := value (OfScientific.ofScientific m s e)
  lt := compare fun x y => decide (x < y)
  le := compare fun x y => decide (x ≤ y)
  eq := compare fun x y => decide (x = y)
  abs := map Scalar.abs
  sqrt x := x
  pow x _ := x
  exp x := x
  ofNat n := value (Scalar.ofNat n)
  isNaN
    | nan => true
    | value _ => false
  isFinite
    | nan => false
    | value x => Extended.isNumber x
  nan := nan
  infinity := value ⊤
  epsilon := value 0

theorem sum_ofNumber (x : Extended K) (t : K) :
    sum x (Extended.ofNumber t) = value (x + Extended.ofNumber t) := by
  unfold sum
  rw [if_neg]
  rintro (⟨-, h⟩ | ⟨-, h⟩)
  · exact (Extended.ofNumber_lt_top t).ne h
  · exact (Extended.bot_lt_ofNumber t).ne' h

instance [IsStrictOrderedRing K] : SymmetricScalar (ExtendedNaN K) where
  neg_neg
    | nan => rfl
    | value x => congrArg value (Extended.negate_negate x)
  isNaN_neg
    | nan => rfl
    | value _ => rfl
  isFinite_neg
    | nan => rfl
    | value x => Extended.isNumber_negate x
  lt_neg
    | nan, nan => rfl
    | nan, value _ => rfl
    | value _, nan => rfl
    | value x, value y => decide_eq_decide.mpr (Extended.negate_lt_negate x y)
  le_neg
    | nan, nan => rfl
    | nan, value _ => rfl
    | value _, nan => rfl
    | value x, value y => decide_eq_decide.mpr (Extended.negate_le_negate x y)
  le_neg_add := by
    rintro (_ | t) x y ht
    · cases ht
    obtain ⟨t, rfl⟩ := Extended.isNumber_iff.mp ht
    have hsum (x : Extended K) : value x + value (Extended.ofNumber t) =
        value (x + Extended.ofNumber t) := sum_ofNumber x t
    cases x with
    | nan => cases y <;> rfl
    | value x =>
      cases y with
      | nan => rfl
      | value y =>
        rw [hsum]
        show Scalar.le _ (value (Extended.negate y) + _) = _
        rw [hsum]
        exact decide_eq_decide.mpr (Extended.negate_le_negate_add x y t)

end ExtendedNaN

end NonlinearOpt
