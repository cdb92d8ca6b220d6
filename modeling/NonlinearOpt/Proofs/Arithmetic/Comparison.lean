import NonlinearOpt.Vector
import Mathlib.Data.List.Basic
import Mathlib.Tactic.Push

/-!
Laws of comparison for scalars with non-numbers. Numbers are preordered, a non-number is comparable
to nothing, and a maximum passes over it. `Float` obeys them.
-/

namespace NonlinearOpt

open Scalar

class LawfulComparison (α : Type) [Scalar α] : Prop where
  isNaN_nan : isNaN (nan : α) = true
  isNaN_zero : isNaN (0 : α) = false
  isNaN_abs (x : α) : isNaN (Scalar.abs x) = isNaN x
  /-- Subtracting zero gives back the same number, negative zero included. -/
  sub_zero (x : α) : x - 0 = x
  number_of_le {x y : α} : Scalar.le x y = true → isNaN x = false ∧ isNaN y = false
  le_trans {x y z : α} : Scalar.le x y = true → Scalar.le y z = true → Scalar.le x z = true
  le_total {x y : α} : isNaN x = false → isNaN y = false →
    Scalar.le x y = true ∨ Scalar.le y x = true
  lt_iff {x y : α} : Scalar.lt x y = true ↔
    Scalar.le x y = true ∧ Scalar.le y x = false

class BoundedComparison (α : Type) [Scalar α] : Prop extends LawfulComparison α where
  le_infinity {x : α} : isNaN x = false → Scalar.le x infinity = true
  negInfinity_le {x : α} : isNaN x = false → Scalar.le (-infinity) x = true

theorem BoundedComparison.number_infinities {α : Type} [Scalar α] [BoundedComparison α] :
    isNaN (-infinity : α) = false ∧ isNaN (infinity : α) = false :=
  ⟨(LawfulComparison.number_of_le (negInfinity_le LawfulComparison.isNaN_zero)).1,
    (LawfulComparison.number_of_le (le_infinity LawfulComparison.isNaN_zero)).2⟩

variable {α : Type} [Scalar α] [LawfulComparison α]

namespace Scalar

theorem le_refl {x : α} (hx : isNaN x = false) : Scalar.le x x = true :=
  or_self_iff.mp (LawfulComparison.le_total hx hx)

def Within (t x : α) : Prop := isNaN x = false ∧ Scalar.le (Scalar.abs x) t = true

/-- At most `t`, if it is a number at all. -/
def AtMost (t x : α) : Prop := isNaN x = true ∨ Scalar.le x t = true

theorem within_iff_le {t x : α} : Within t x ↔ Scalar.le (Scalar.abs x) t = true := by
  constructor
  · exact fun h => h.2
  · intro h
    have hnum := (LawfulComparison.number_of_le h).1
    exact ⟨by rwa [LawfulComparison.isNaN_abs] at hnum, h⟩

theorem le_iff_atMost {t x : α} : Scalar.le x t = true ↔ isNaN x = false ∧ AtMost t x := by
  constructor
  · intro h
    exact ⟨(LawfulComparison.number_of_le h).1, .inr h⟩
  · rintro ⟨hx, hnan | hle⟩
    · rw [hx] at hnan
      cases hnan
    · exact hle

theorem le_of_lt {x y : α} (h : Scalar.lt x y = true) : Scalar.le x y = true :=
  (LawfulComparison.lt_iff.mp h).1

theorem le_of_not_lt {x y : α} (hx : isNaN x = false) (hy : isNaN y = false)
    (h : Scalar.lt x y = false) : Scalar.le y x = true := by
  rcases LawfulComparison.le_total hx hy with hle | hle
  · by_contra hyx
    rw [Bool.not_eq_true] at hyx
    rw [LawfulComparison.lt_iff.mpr ⟨hle, hyx⟩] at h
    cases h
  · exact hle

theorem le_larger_iff {x y t : α} (hx : isNaN x = false) (hy : isNaN y = false) :
    Scalar.le (if Scalar.lt x y then y else x) t = true ↔
      Scalar.le x t = true ∧ Scalar.le y t = true := by
  cases hlt : Scalar.lt x y with
  | true =>
    simp only [if_true]
    exact ⟨fun h => ⟨LawfulComparison.le_trans (le_of_lt hlt) h, h⟩, fun h => h.2⟩
  | false =>
    simp only [Bool.false_eq_true, if_false]
    exact ⟨fun h => ⟨h, LawfulComparison.le_trans (le_of_not_lt hx hy hlt) h⟩, fun h => h.1⟩

theorem le_max_left {x : α} (hx : isNaN x = false) (y : α) :
    Scalar.le x (Scalar.max x y) = true := by
  unfold Scalar.max
  rw [hx, if_neg Bool.false_ne_true]
  split
  next hlt => exact le_of_lt hlt
  next => exact le_refl hx

theorem min_le_left {x : α} (hx : isNaN x = false) (y : α) :
    Scalar.le (Scalar.min x y) x = true := by
  unfold Scalar.min
  rw [hx, if_neg Bool.false_ne_true]
  split
  next hlt => exact le_of_lt hlt
  next => exact le_refl hx

theorem isNaN_max (x y : α) : isNaN (Scalar.max x y) = (isNaN x && isNaN y) := by
  unfold Scalar.max
  cases hx : isNaN x with
  | true => simp
  | false =>
    simp only [Bool.false_eq_true, if_false, Bool.false_and]
    cases hlt : Scalar.lt x y with
    | true => simpa using (LawfulComparison.number_of_le (le_of_lt hlt)).2
    | false => simpa using hx

theorem atMost_max {x y t : α} : AtMost t (Scalar.max x y) ↔ AtMost t x ∧ AtMost t y := by
  unfold AtMost
  cases hx : isNaN x with
  | true => simp [Scalar.max, hx]
  | false =>
    cases hy : isNaN y with
    | true =>
      have hlt : Scalar.lt x y = false := by
        by_contra h
        rw [Bool.not_eq_false] at h
        have := (LawfulComparison.number_of_le (le_of_lt h)).2
        simp [hy] at this
      simp [Scalar.max, hx, hlt]
    | false =>
      have hmax : isNaN (Scalar.max x y) = false := by simp [isNaN_max, hx]
      simp only [hmax, Bool.false_eq_true, false_or]
      simp only [Scalar.max, hx, Bool.false_eq_true, if_false]
      exact le_larger_iff hx hy

theorem isNaN_foldl_max (xs : List α) (m : α) :
    isNaN (xs.foldl Scalar.max m) = (isNaN m && xs.all isNaN) := by
  induction xs generalizing m with
  | nil => simp
  | cons x xs ih => simp [ih, isNaN_max, Bool.and_assoc]

theorem atMost_foldl_max (xs : List α) {m t : α} :
    AtMost t (xs.foldl Scalar.max m) ↔ AtMost t m ∧ ∀ x ∈ xs, AtMost t x := by
  induction xs generalizing m with
  | nil => simp
  | cons x xs ih => simp [ih, atMost_max, and_assoc]

end Scalar

namespace Vec

theorem isNaN_normInf_go (xs : List α) {out : α} (hout : isNaN out = false) :
    isNaN (normInf.go out xs) = xs.any isNaN := by
  induction xs generalizing out with
  | nil => simpa [normInf.go] using hout
  | cons x xs ih =>
    simp only [normInf.go, LawfulComparison.isNaN_abs, List.any_cons]
    cases hx : isNaN x with
    | true => simp [LawfulComparison.isNaN_nan]
    | false =>
      simp only [Bool.false_eq_true, if_false, Bool.false_or]
      apply ih
      split
      · rwa [LawfulComparison.isNaN_abs]
      · exact hout

theorem le_normInf_go (xs : List α) {out t : α} (hout : isNaN out = false)
    (hnum : ∀ x ∈ xs, isNaN x = false) :
    Scalar.le (normInf.go out xs) t = true ↔
      Scalar.le out t = true ∧ ∀ x ∈ xs, Within t x := by
  induction xs generalizing out with
  | nil => simp [normInf.go]
  | cons x xs ih =>
    rw [List.forall_mem_cons] at hnum
    have habs : isNaN (Scalar.abs x) = false := by rw [LawfulComparison.isNaN_abs, hnum.1]
    have hlarger : isNaN (if Scalar.lt out (Scalar.abs x) then Scalar.abs x else out) = false := by
      split
      · exact habs
      · exact hout
    simp only [normInf.go, habs, Bool.false_eq_true, if_false]
    rw [ih hlarger hnum.2, le_larger_iff hout habs, List.forall_mem_cons, within_iff_le, and_assoc]

theorem isNaN_normInf (v : Array α) : isNaN (normInf v) = v.toList.any isNaN :=
  isNaN_normInf_go v.toList LawfulComparison.isNaN_zero

/-- A bound on a norm: some entry is no number, or all are within the bound. -/
theorem atMost_normInf {v : Array α} {t : α} (ht : Scalar.le 0 t = true) :
    AtMost t (normInf v) ↔ (∃ x ∈ v, isNaN x = true) ∨ ∀ x ∈ v, Within t x := by
  unfold AtMost
  rw [isNaN_normInf, List.any_eq_true]
  simp only [Array.mem_toList_iff]
  by_cases hnan : ∃ x ∈ v, isNaN x = true
  · simp only [hnan, true_or]
  · have hnum : ∀ x ∈ v.toList, isNaN x = false := by
      intro x hx
      by_contra h
      exact hnan ⟨x, Array.mem_toList_iff.mp hx, by simpa using h⟩
    simp only [hnan, false_or]
    rw [normInf, le_normInf_go v.toList LawfulComparison.isNaN_zero hnum]
    simp only [ht, true_and, Array.mem_toList_iff]

end Vec

end NonlinearOpt
