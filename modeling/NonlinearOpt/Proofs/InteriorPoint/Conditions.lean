import NonlinearOpt.InteriorPoint.BarrierProblem
import NonlinearOpt.Proofs.Arithmetic.Comparison

/-!
What a bound on the residuals says about the optimality conditions behind them. A maximum passes
over what is not a number, so a bound on it speaks of the numbers only; a norm does not, and then
the whole vector is passed over.
-/

namespace NonlinearOpt.InteriorPoint

open Scalar

variable {α : Type} [Scalar α]

namespace Coordinate

def products (c : Coordinate α) : List α :=
  (c.bound.lower.map fun l => (c.value - l) * c.lowerDual).toList ++
    (c.bound.upper.map fun u => (u - c.value) * c.upperDual).toList

variable [LawfulComparison α]

theorem complementarity_zero (m : α) (c : Coordinate α) :
    c.complementarity 0 m = (c.products.map Scalar.abs).foldl Scalar.max m := by
  unfold complementarity products
  cases c.bound.lower <;> cases c.bound.upper <;> simp [LawfulComparison.sub_zero]

theorem foldl_complementarity_zero (cs : List (Coordinate α)) (m : α) :
    cs.foldl (fun m c => c.complementarity 0 m) m =
      ((cs.flatMap products).map Scalar.abs).foldl Scalar.max m := by
  induction cs generalizing m with
  | nil => rfl
  | cons c cs ih =>
    rw [List.foldl_cons, ih, List.flatMap_cons, List.map_append, List.foldl_append,
      complementarity_zero]

end Coordinate

namespace Barrier

def products (bounds : Array (Interval α)) (v zl zu : Array α) : List α :=
  (Coordinate.all bounds v zl zu).flatMap Coordinate.products

theorem complementarity_zero [LawfulComparison α] (bounds : Array (Interval α))
    (v zl zu : Array α) :
    complementarity 0 bounds v zl zu =
      ((products bounds v zl zu).map Scalar.abs).foldl Scalar.max 0 :=
  Coordinate.foldl_complementarity_zero _ 0

end Barrier

/-- The quantities that vanish at a solution, one for each condition of optimality. -/
structure Conditions (α : Type) where
  equality : Array α
  inequality : Array α
  stationarity : Array α
  slack : List α
  productsX : List α
  productsS : List α

namespace Conditions

def entries (c : Conditions α) : List α :=
  c.equality.toList ++ c.inequality.toList ++ c.stationarity.toList ++ c.slack ++ c.productsX ++
    c.productsS

def residuals (c : Conditions α) : Residuals α :=
  { primal := Scalar.max (Vec.normInf c.equality) (Vec.normInf c.inequality)
    dual := Scalar.max (Vec.normInf c.stationarity) ((c.slack.map Scalar.abs).foldl Scalar.max 0)
    complementarity := Scalar.max ((c.productsX.map Scalar.abs).foldl Scalar.max 0)
      ((c.productsS.map Scalar.abs).foldl Scalar.max 0) }

/-- A vector whose norm is passed over or at most `t`. -/
def VectorPasses (t : α) (v : Array α) : Prop :=
  (∃ x ∈ v, isNaN x = true) ∨ ∀ x ∈ v, Within t x

def ListPasses (t : α) (xs : List α) : Prop := ∀ x ∈ xs, isNaN x = true ∨ Within t x

structure Accepted (t : α) (c : Conditions α) : Prop where
  equality : VectorPasses t c.equality
  inequality : VectorPasses t c.inequality
  stationarity : VectorPasses t c.stationarity
  slack : ListPasses t c.slack
  productsX : ListPasses t c.productsX
  productsS : ListPasses t c.productsS

theorem VectorPasses.within {t : α} {v : Array α} (h : VectorPasses t v)
    (hnum : ∀ x ∈ v, isNaN x = false) : ∀ x ∈ v, Within t x := by
  rcases h with ⟨x, hx, hnan⟩ | hall
  · rw [hnum x hx] at hnan
    cases hnan
  · exact hall

theorem ListPasses.within {t : α} {xs : List α} (h : ListPasses t xs)
    (hnum : ∀ x ∈ xs, isNaN x = false) : ∀ x ∈ xs, Within t x := by
  intro x hx
  rcases h x hx with hnan | hle
  · rw [hnum x hx] at hnan
    cases hnan
  · exact hle

/-- Conditions that are accepted hold within the tolerance just when all of their entries are
numbers. -/
theorem Accepted.forall_within_iff {t : α} {c : Conditions α} (h : c.Accepted t) :
    (∀ x ∈ c.entries, Within t x) ↔ ∀ x ∈ c.entries, isNaN x = false := by
  constructor
  · exact fun hall x hx => (hall x hx).1
  · simp only [entries, List.forall_mem_append, Array.mem_toList_iff]
    rintro ⟨⟨⟨⟨⟨hc, hd⟩, hg⟩, hs⟩, hx⟩, hsl⟩
    exact ⟨⟨⟨⟨⟨h.equality.within hc, h.inequality.within hd⟩, h.stationarity.within hg⟩,
      h.slack.within hs⟩, h.productsX.within hx⟩, h.productsS.within hsl⟩

variable [LawfulComparison α]

theorem atMost_abs_iff {t x : α} : AtMost t (Scalar.abs x) ↔ isNaN x = true ∨ Within t x := by
  rw [within_iff_le, AtMost, LawfulComparison.isNaN_abs]

theorem atMost_foldl_abs {t : α} (ht : Scalar.le 0 t = true) (xs : List α) :
    AtMost t ((xs.map Scalar.abs).foldl Scalar.max 0) ↔ ListPasses t xs := by
  rw [atMost_foldl_max, ListPasses]
  have hzero : AtMost t 0 := .inr ht
  simp only [hzero, true_and, List.forall_mem_map, atMost_abs_iff]

theorem isNaN_foldl_abs (xs : List α) :
    isNaN ((xs.map Scalar.abs).foldl Scalar.max 0) = false := by
  rw [isNaN_foldl_max, LawfulComparison.isNaN_zero, Bool.false_and]

theorem le_residuals_max_iff {t : α} (ht : Scalar.le 0 t = true) (c : Conditions α) :
    Scalar.le c.residuals.max t = true ↔ c.Accepted t := by
  -- complementarity is a number, so the maximum is one, and passes when each of its parts does
  have hnum : isNaN c.residuals.max = false := by
    simp [Residuals.max, residuals, isNaN_max, isNaN_foldl_abs]
  rw [le_iff_atMost, and_iff_right hnum]
  simp only [Residuals.max, residuals, atMost_max, Vec.atMost_normInf ht,
    atMost_foldl_abs ht]
  constructor
  · rintro ⟨⟨hc, hd⟩, ⟨hg, hs⟩, hx, hsl⟩
    exact ⟨hc, hd, hg, hs, hx, hsl⟩
  · intro h
    exact ⟨⟨h.equality, h.inequality⟩, ⟨h.stationarity, h.slack⟩, h.productsX, h.productsS⟩

end Conditions

namespace BarrierProblem

/-- `c(x)`, `d(x) - s`, the gradients of the Lagrangian in `x` and in `s`, and the products of
multipliers and distances to limits. -/
def conditions? (p : BarrierProblem α) : Option (Conditions α) := do
  let t := p.iterate
  let c ← p.equalities?
  let d ← Vec.axpby? (-1) t.s 1 (← p.inequalities?)
  let g ← p.lagrangianGradient? (← p.model.jacobianEq t.x) (← p.model.jacobianIneq t.x)
  let g ← Vec.axpby? (-1) t.zxLower 1 g
  let g ← Vec.axpby? 1 t.zxUpper 1 g
  return {
    equality := c
    inequality := d
    stationarity := g
    slack := (t.yIneq.toList.zip (t.zsLower.toList.zip t.zsUpper.toList)).map
      fun (y, zl, zu) => -y - zl + zu
    productsX := Barrier.products p.xBounds t.x t.zxLower t.zxUpper
    productsS := Barrier.products p.sBounds t.s t.zsLower t.zsUpper }

def Converged (t : α) (p : BarrierProblem α) : Prop :=
  ∃ r, p.residuals? 0 = some r ∧ Scalar.le r.max t = true

theorem residuals?_zero [LawfulComparison α] (p : BarrierProblem α) :
    p.residuals? 0 = p.conditions?.map Conditions.residuals := by
  simp only [residuals?, conditions?, Conditions.residuals, slackGradient,
    Barrier.complementarity_zero, Option.bind_eq_bind, Option.map_bind, Function.comp_def,
    Option.pure_def, Option.map_some, List.map_map]

theorem converged_iff [LawfulComparison α] {t : α} (ht : Scalar.le 0 t = true)
    (p : BarrierProblem α) :
    p.Converged t ↔ ∃ c, p.conditions? = some c ∧ c.Accepted t := by
  unfold Converged
  rw [residuals?_zero]
  cases p.conditions? with
  | none => simp
  | some c => simp [Conditions.le_residuals_max_iff ht]

end BarrierProblem

end NonlinearOpt.InteriorPoint
