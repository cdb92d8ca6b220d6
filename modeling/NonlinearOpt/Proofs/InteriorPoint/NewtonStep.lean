import Mathlib
import NonlinearOpt.Proofs.InteriorPoint.Conditions
import NonlinearOpt.Proofs.InteriorPoint.Interior
import NonlinearOpt.Proofs.Kkt.Equations

/-!
The step that follows from a solution of a condensed Newton system. The system has the multipliers
of the limits eliminated; with the steps that are recovered for them, all optimality conditions hold
to first order.
-/

namespace NonlinearOpt.InteriorPoint

open Barrier

variable {K : Type} [LinearOrder K] [ExactScalar K]

namespace Coordinate

structure Linearized (mu : K) (c : Coordinate K) (dv dl du : K) : Prop where
  lower : ∀ l, c.bound.lower = some l →
    (c.value - l) * dl + c.lowerDual * dv = mu - (c.value - l) * c.lowerDual
  upper : ∀ u, c.bound.upper = some u →
    (u - c.value) * du - c.upperDual * dv = mu - (u - c.value) * c.upperDual
  unlimitedBelow : c.bound.lower = none → dl = 0
  unlimitedAbove : c.bound.upper = none → du = 0

structure Regular (c : Coordinate K) : Prop where
  lower : ∀ l, c.bound.lower = some l → c.value - l ≠ 0
  upper : ∀ u, c.bound.upper = some u → u - c.value ≠ 0
  lowerDual : c.bound.lower = none → c.lowerDual = 0
  upperDual : c.bound.upper = none → c.upperDual = 0

variable {c : Coordinate K}

theorem Regular.linearized (h : c.Regular) (mu d : K) :
    c.Linearized mu d (c.lowerStep mu d) (c.upperStep mu d) := by
  constructor
  · intro l hl
    have hne := h.lower l hl
    simp only [lowerStep, hl]
    field_simp
    ring
  · intro u hu
    have hne := h.upper u hu
    simp only [upperStep, hu]
    field_simp
    ring
  · intro hl
    simp only [lowerStep, hl]
  · intro hu
    simp only [upperStep, hu]

theorem Regular.condensed (h : c.Regular) (mu d g : K) :
    c.sigma * d + addDerivative mu c.value c.bound g =
      g - c.lowerDual + c.upperDual - c.lowerStep mu d + c.upperStep mu d := by
  have hlower := h.lower
  have hupper := h.upper
  have hlowerDual := h.lowerDual
  have hupperDual := h.upperDual
  obtain ⟨⟨lower, upper⟩, v, zl, zu⟩ := c
  cases lower with
  | none =>
    cases upper with
    | none =>
      have hzl : zl = 0 := hlowerDual rfl
      have hzu : zu = 0 := hupperDual rfl
      simp [sigma, addDerivative, lowerStep, upperStep, hzl, hzu]
    | some u =>
      have hzl : zl = 0 := hlowerDual rfl
      have hne : u - v ≠ 0 := hupper u rfl
      simp only [sigma, addDerivative, lowerStep, upperStep, hzl]
      field_simp
      ring
  | some l =>
    have hne : v - l ≠ 0 := hlower l rfl
    cases upper with
    | none =>
      have hzu : zu = 0 := hupperDual rfl
      simp only [sigma, addDerivative, lowerStep, upperStep, hzu]
      field_simp
      ring
    | some u =>
      have hne' : u - v ≠ 0 := hupper u rfl
      simp only [sigma, addDerivative, lowerStep, upperStep]
      field_simp
      ring

end Coordinate

section Vectors

variable {bounds : Array (Interval K)} {v zl zu : Array K} {i : Nat} {c : Coordinate K}

theorem sigma_getD (hc : Coordinate.at? bounds v zl zu i = some c) {n : Nat} (hi : i < n) :
    (Barrier.sigma bounds v zl zu n).getD i 0 = c.sigma := by
  rw [Array.getD_eq_getD_getElem?, Barrier.sigma, overlay_getElem?, hc]
  simp [Vec.zero, hi]

theorem addGradient_getD {mu : K} {g : Array K} (hc : Coordinate.at? bounds v zl zu i = some c)
    (hi : i < g.size) :
    (addGradient mu bounds v g).getD i 0 = addDerivative mu c.value c.bound (g.getD i 0) := by
  obtain ⟨hb, hv, -, -⟩ := Coordinate.at?_eq_some.mp hc
  simp [addGradient, hb, hv, hi]

theorem multipliers_getD (hc : Coordinate.at? bounds v zl zu i = some c) :
    zl.getD i 0 = c.lowerDual ∧ zu.getD i 0 = c.upperDual := by
  obtain ⟨-, -, hzl, hzu⟩ := Coordinate.at?_eq_some.mp hc
  rw [Array.getD_eq_getD_getElem?, hzl, Array.getD_eq_getD_getElem?, hzu]
  exact ⟨rfl, rfl⟩

theorem lowerSteps_getD {mu : K} {dv old : Array K}
    (hc : Coordinate.at? bounds v zl zu i = some c) (hi : i < dv.size) (hold : i < old.size) :
    (lowerSteps mu bounds v dv zl zu old).getD i 0 = c.lowerStep mu (dv.getD i 0) := by
  rw [Array.getD_eq_getD_getElem?, lowerSteps_getElem? hc (Array.getElem?_eq_getElem hi) hold]
  simp [hi]

theorem upperSteps_getD {mu : K} {dv old : Array K}
    (hc : Coordinate.at? bounds v zl zu i = some c) (hi : i < dv.size) (hold : i < old.size) :
    (upperSteps mu bounds v dv zl zu old).getD i 0 = c.upperStep mu (dv.getD i 0) := by
  rw [Array.getD_eq_getD_getElem?, upperSteps_getElem? hc (Array.getElem?_eq_getElem hi) hold]
  simp [hi]

theorem negate_getD (g : Array K) : (Vec.negate g).getD i 0 = -g.getD i 0 := by
  by_cases hi : i < g.size <;> simp [Vec.negate, hi]

theorem axpby?_getD {a b : K} {x y out : Array K} (h : Vec.axpby? a x b y = some out) :
    y.size = x.size ∧ out.size = y.size ∧ ∀ i, out.getD i 0 = a * x.getD i 0 + b * y.getD i 0 := by
  unfold Vec.axpby? at h
  split at h
  · next hsize =>
    cases h
    refine ⟨hsize, by simp [hsize], ?_⟩
    intro i
    by_cases hi : i < x.size
    · simp [hi, hsize]
    · simp [hi, hsize]
  · cases h

theorem getD_append_left {v w : Array K} (hi : i < v.size) : (v ++ w).getD i 0 = v.getD i 0 := by
  rw [Array.getD_eq_getD_getElem?, Array.getElem?_append_left hi, ← Array.getD_eq_getD_getElem?]

theorem getD_append_right (v w : Array K) (i : Nat) :
    (v ++ w).getD (v.size + i) 0 = w.getD i 0 := by
  rw [Array.getD_eq_getD_getElem?, Array.getElem?_append_right (Nat.le_add_right _ _),
    Nat.add_sub_cancel_left, ← Array.getD_eq_getD_getElem?]

theorem getD_extract {v : Array K} {first last : Nat} (hlast : last ≤ v.size)
    (hi : first + i < last) : (v.extract first last).getD i 0 = v.getD (first + i) 0 := by
  have hlt : i < min last v.size - first := by omega
  rw [Array.getD_eq_getD_getElem?, Array.getElem?_extract, if_pos hlt,
    ← Array.getD_eq_getD_getElem?]

end Vectors

namespace BarrierProblem

/-- A well-formed problem at a point apart from its limits, with multipliers only of limits that are
there. -/
structure Regular (p : BarrierProblem K) : Prop where
  shaped : p.Shaped
  x : Separated p.xBounds p.iterate.x
  s : Separated p.sBounds p.iterate.s
  zxLower : Vanishing Interval.lower p.xBounds p.iterate.zxLower
  zxUpper : Vanishing Interval.upper p.xBounds p.iterate.zxUpper
  zsLower : Vanishing Interval.lower p.sBounds p.iterate.zsLower
  zsUpper : Vanishing Interval.upper p.sBounds p.iterate.zsUpper

variable {p : BarrierProblem K}

theorem regular_coordinate {bounds : Array (Interval K)} {v zl zu : Array K} {i : Nat}
    {c : Coordinate K} (hv : Separated bounds v) (hl : Vanishing Interval.lower bounds zl)
    (hu : Vanishing Interval.upper bounds zu) (hc : Coordinate.at? bounds v zl zu i = some c) :
    c.Regular := by
  obtain ⟨hb, hx, hzl, hzu⟩ := Coordinate.at?_eq_some.mp hc
  obtain ⟨hlower, hupper⟩ := hv i _ _ hb hx
  exact ⟨hlower, hupper, hl i _ _ hb hzl, hu i _ _ hb hzu⟩

structure Derivatives (p : BarrierProblem K) (hessian jacEq jacIneq : Csc K)
    (gradient eqs ineqs : Array K) : Prop where
  hessian : p.model.hessian p.iterate.x p.iterate.yEq p.iterate.yIneq = some hessian
  jacEq : p.model.jacobianEq p.iterate.x = some jacEq
  jacIneq : p.model.jacobianIneq p.iterate.x = some jacIneq
  gradient : p.model.gradient p.iterate.x = some gradient
  eqs : p.model.eqConstraints p.iterate.x = some eqs
  ineqs : p.model.ineqConstraints p.iterate.x = some ineqs

omit [LinearOrder K] [ExactScalar K] in
theorem eq_some_of_sized {n : Nat} {v : Option (Array K)} {w : Array K}
    (h : NlpModel.sized n v = some w) : v = some w :=
  (Option.filter_eq_some_iff.mp h).1

theorem lagrangianGradient?_eq_some {jacEq jacIneq : Csc K} {out : Array K}
    (h : p.lagrangianGradient? jacEq jacIneq = some out) :
    ∃ gradient, p.model.gradient p.iterate.x = some gradient ∧ jacEq.InRange ∧ jacIneq.InRange ∧
      jacEq.rows = p.equalities ∧ jacEq.cols = p.primals ∧
      jacIneq.rows = p.iterate.yIneq.size ∧ jacIneq.cols = p.primals ∧ out.size = p.primals ∧
      ∀ i, i < p.primals → out.getD i 0 = gradient.getD i 0 +
        ∑ r ∈ Finset.range p.equalities, jacEq.entryAt r i * p.iterate.yEq.getD r 0 +
        ∑ r ∈ Finset.range p.inequalities, jacIneq.entryAt r i * p.iterate.yIneq.getD r 0 := by
  obtain ⟨gradient, hgradient, h⟩ := Option.bind_eq_some_iff.mp h
  obtain ⟨g, hEq, hIneq⟩ := Option.bind_eq_some_iff.mp h
  obtain ⟨hEqRange, hEqRows, hEqCols, hEqSize, hEqSum⟩ := Csc.adjointMulAdd?_eq_some hEq
  obtain ⟨hIneqRange, hIneqRows, hIneqCols, hIneqSize, hIneqSum⟩ :=
    Csc.adjointMulAdd?_eq_some hIneq
  have hsize : gradient.size = p.primals := NlpModel.size_of_sized hgradient
  have hEqCols' : jacEq.cols = p.primals := hEqCols.symm.trans hsize
  have hIneqCols' : jacIneq.cols = p.primals := hIneqCols.symm.trans (hEqSize.trans hEqCols')
  refine ⟨gradient, eq_some_of_sized hgradient, hEqRange, hIneqRange, hEqRows.symm, hEqCols',
    hIneqRows.symm, hIneqCols', hIneqSize.trans hIneqCols', ?_⟩
  intro i hi
  rw [hIneqSum i (hIneqCols' ▸ hi), hEqSum i (hEqCols' ▸ hi), ← hEqRows, ← hIneqRows]
  rfl

def blocks (p : BarrierProblem K) (hessian jacEq jacIneq : Csc K) : KktBlocks K :=
  { hessian
    jacEq
    jacIneq
    sigmaX := Barrier.sigma p.xBounds p.iterate.x p.iterate.zxLower p.iterate.zxUpper p.primals
    sigmaS := Barrier.sigma p.sBounds p.iterate.s p.iterate.zsLower p.iterate.zsUpper
      p.inequalities }

def rightHandSide (p : BarrierProblem K) (g eqs rIneq : Array K) : Array K :=
  Vec.negate (addGradient p.iterate.mu p.xBounds p.iterate.x g) ++
    Vec.negate (addGradient p.iterate.mu p.sBounds p.iterate.s (Vec.negate p.iterate.yIneq)) ++
    Vec.negate eqs ++ rIneq

theorem kkt?_eq_some {k : KktSystem K} (h : p.kkt? = some k) :
    ∃ hessian jacEq jacIneq g eqs ineqs rIneq,
      p.model.hessian p.iterate.x p.iterate.yEq p.iterate.yIneq = some hessian ∧
      p.model.jacobianEq p.iterate.x = some jacEq ∧
      p.model.jacobianIneq p.iterate.x = some jacIneq ∧
      p.lagrangianGradient? jacEq jacIneq = some g ∧ p.equalities? = some eqs ∧
      p.inequalities? = some ineqs ∧ Vec.axpby? 1 p.iterate.s (-1) ineqs = some rIneq ∧
      (p.blocks hessian jacEq jacIneq).assemble? (p.rightHandSide g eqs rIneq) p.iterate.mu =
        some k := by
  simp only [kkt?, Option.bind_eq_bind, Option.bind_eq_some_iff] at h
  obtain ⟨hessian, hhessian, jacEq, hjacEq, jacIneq, hjacIneq, g, hg, eqs, heqs, ineqs, hineqs,
    rIneq, hrIneq, hk⟩ := h
  exact ⟨hessian, jacEq, jacIneq, g, eqs, ineqs, rIneq, hhessian, hjacEq, hjacIneq, hg, heqs,
    hineqs, hrIneq, hk⟩

/-- The optimality conditions to first order: `dx`, `ds` and so on are the parts of a step, and the
right hand sides are the conditions as the convergence check measures them. -/
structure Linearized (p : BarrierProblem K) (hessian jacEq jacIneq : Csc K) (c : Conditions K)
    (primal dual : K) (d : Iterate K) : Prop where
  stationarity : ∀ i, i < p.primals →
    ∑ j ∈ Finset.range p.primals, hessian.symmetricAt i j * d.x.getD j 0 + primal * d.x.getD i 0 +
        ∑ r ∈ Finset.range p.equalities, jacEq.entryAt r i * d.yEq.getD r 0 +
        ∑ r ∈ Finset.range p.inequalities, jacIneq.entryAt r i * d.yIneq.getD r 0 -
        d.zxLower.getD i 0 + d.zxUpper.getD i 0 =
      -c.stationarity.getD i 0
  slack : ∀ i, i < p.inequalities →
    -d.yIneq.getD i 0 - d.zsLower.getD i 0 + d.zsUpper.getD i 0 = -c.slack.getD i 0
  equality : ∀ r, r < p.equalities →
    ∑ j ∈ Finset.range p.primals, jacEq.entryAt r j * d.x.getD j 0 - dual * d.yEq.getD r 0 =
      -c.equality.getD r 0
  inequality : ∀ r, r < p.inequalities →
    ∑ j ∈ Finset.range p.primals, jacIneq.entryAt r j * d.x.getD j 0 - d.s.getD r 0 -
        dual * d.yIneq.getD r 0 =
      -c.inequality.getD r 0
  x : ∀ i b, Coordinate.at? p.xBounds p.iterate.x p.iterate.zxLower p.iterate.zxUpper i = some b →
    b.Linearized p.iterate.mu (d.x.getD i 0) (d.zxLower.getD i 0) (d.zxUpper.getD i 0)
  s : ∀ i b, Coordinate.at? p.sBounds p.iterate.s p.iterate.zsLower p.iterate.zsUpper i = some b →
    b.Linearized p.iterate.mu (d.s.getD i 0) (d.zsLower.getD i 0) (d.zsUpper.getD i 0)

structure Measured (p : BarrierProblem K) (jacEq jacIneq : Csc K) (gradient eqs ineqs : Array K)
    (c : Conditions K) : Prop where
  conditions : p.conditions? = some c
  stationarity : ∀ i, i < p.primals → c.stationarity.getD i 0 = gradient.getD i 0 +
    ∑ r ∈ Finset.range p.equalities, jacEq.entryAt r i * p.iterate.yEq.getD r 0 +
    ∑ r ∈ Finset.range p.inequalities, jacIneq.entryAt r i * p.iterate.yIneq.getD r 0 -
    p.iterate.zxLower.getD i 0 + p.iterate.zxUpper.getD i 0
  slack : ∀ i, i < p.inequalities → c.slack.getD i 0 =
    -p.iterate.yIneq.getD i 0 - p.iterate.zsLower.getD i 0 + p.iterate.zsUpper.getD i 0
  equality : ∀ i, i < p.equalities → c.equality.getD i 0 = eqs.getD i 0
  inequality : ∀ i, i < p.inequalities →
    c.inequality.getD i 0 = ineqs.getD i 0 - p.iterate.s.getD i 0

theorem exists_measured (hp : p.Shaped) {jacEq jacIneq : Csc K} {g gradient eqs ineqs : Array K}
    (hjacEq : p.model.jacobianEq p.iterate.x = some jacEq)
    (hjacIneq : p.model.jacobianIneq p.iterate.x = some jacIneq)
    (hg : p.lagrangianGradient? jacEq jacIneq = some g) (heqs : p.equalities? = some eqs)
    (hineqs : p.inequalities? = some ineqs) (hsize : g.size = p.primals)
    (hsum : ∀ i, i < p.primals → g.getD i 0 = gradient.getD i 0 +
      ∑ r ∈ Finset.range p.equalities, jacEq.entryAt r i * p.iterate.yEq.getD r 0 +
      ∑ r ∈ Finset.range p.inequalities, jacIneq.entryAt r i * p.iterate.yIneq.getD r 0) :
    ∃ c, p.Measured jacEq jacIneq gradient eqs ineqs c := by
  have ht := hp.iterate
  obtain ⟨d, hd, -⟩ := Vec.exists_axpby? (-1) 1
    ((NlpModel.size_of_sized hineqs).trans ht.s.symm)
  obtain ⟨g₁, hg₁, -⟩ := Vec.exists_axpby? (-1) 1 (hsize.trans ht.zxLower.symm)
  obtain ⟨-, hsize₁, hsum₁⟩ := axpby?_getD hg₁
  obtain ⟨g₂, hg₂, -⟩ := Vec.exists_axpby? 1 1 ((hsize₁.trans hsize).trans ht.zxUpper.symm)
  obtain ⟨-, -, hsum₂⟩ := axpby?_getD hg₂
  obtain ⟨-, -, hdsum⟩ := axpby?_getD hd
  have hconditions : p.conditions? = some
      { equality := eqs
        inequality := d
        stationarity := g₂
        slack := (p.iterate.yIneq.toList.zip
          (p.iterate.zsLower.toList.zip p.iterate.zsUpper.toList)).map
            fun w => -w.1 - w.2.1 + w.2.2
        productsX := products p.xBounds p.iterate.x p.iterate.zxLower p.iterate.zxUpper
        productsS := products p.sBounds p.iterate.s p.iterate.zsLower p.iterate.zsUpper } := by
    simp only [conditions?, heqs, hineqs, hd, hjacEq, hjacIneq, hg, hg₁, hg₂,
      Option.bind_eq_bind, Option.bind_some, Option.pure_def]
  refine ⟨_, hconditions, ?_, ?_, ?_, ?_⟩
  · intro i hi
    simp only [hsum₂, hsum₁, hsum i hi]
    ring
  · intro i hi
    have hy : i < p.iterate.yIneq.size := hi
    have hzl : i < p.iterate.zsLower.size := ht.zsLower ▸ hi
    have hzu : i < p.iterate.zsUpper.size := ht.zsUpper ▸ hi
    simp [List.getD_eq_getElem?_getD, hy, hzl, hzu]
  · intro i _
    rfl
  · intro i _
    simp only [hdsum]
    ring

theorem directed_parts {sol : Array K} (hsize : sol.size = p.kktDim) :
    let d := (p.directed sol).step
    (∀ i, i < p.primals → d.x.getD i 0 = sol.getD i 0) ∧
      (∀ i, i < p.inequalities → d.s.getD i 0 = sol.getD (p.primals + i) 0) ∧
      (∀ i, i < p.equalities → d.yEq.getD i 0 = sol.getD (p.primals + p.inequalities + i) 0) ∧
      ∀ i, i < p.inequalities →
        d.yIneq.getD i 0 = sol.getD (p.primals + p.inequalities + p.equalities + i) 0 := by
  have hdim : sol.size = p.primals + 2 * p.inequalities + p.equalities := hsize
  refine ⟨?_, ?_, ?_, ?_⟩
  · intro i hi
    exact (getD_extract (by omega) (by omega)).trans (by rw [Nat.zero_add])
  · intro i hi
    exact getD_extract (by omega) (by omega)
  · intro i hi
    exact getD_extract (by omega) (by omega)
  · intro i hi
    exact getD_extract (le_refl _) (by omega)

theorem directed_multipliers (hp : p.Shaped) {sol : Array K} (hsize : sol.size = p.kktDim) :
    let d := (p.directed sol).step
    (∀ i c, Coordinate.at? p.xBounds p.iterate.x p.iterate.zxLower p.iterate.zxUpper i = some c →
      d.zxLower.getD i 0 = c.lowerStep p.iterate.mu (d.x.getD i 0) ∧
        d.zxUpper.getD i 0 = c.upperStep p.iterate.mu (d.x.getD i 0)) ∧
    ∀ i c, Coordinate.at? p.sBounds p.iterate.s p.iterate.zsLower p.iterate.zsUpper i = some c →
      d.zsLower.getD i 0 = c.lowerStep p.iterate.mu (d.s.getD i 0) ∧
        d.zsUpper.getD i 0 = c.upperStep p.iterate.mu (d.s.getD i 0) := by
  have hstep := (hp.directed hsize).step
  have hold := hp.step
  constructor
  · intro i c hc
    have hi : i < p.primals := (Array.getElem?_eq_some_iff.mp (Coordinate.at?_eq_some.mp hc).2.1).1
    have hx : i < (p.directed sol).step.x.size := hi.trans_eq hstep.x.symm
    exact ⟨lowerSteps_getD hc hx (hi.trans_eq hold.zxLower.symm),
      upperSteps_getD hc hx (hi.trans_eq hold.zxUpper.symm)⟩
  · intro i c hc
    have hi : i < p.inequalities :=
      hp.iterate.s ▸ (Array.getElem?_eq_some_iff.mp (Coordinate.at?_eq_some.mp hc).2.1).1
    have hs : i < (p.directed sol).step.s.size := hi.trans_eq hstep.s.symm
    exact ⟨lowerSteps_getD hc hs (hi.trans_eq hold.zsLower.symm),
      upperSteps_getD hc hs (hi.trans_eq hold.zsUpper.symm)⟩

theorem rightHandSide_parts {g eqs : Array K} (rIneq : Array K) (hg : g.size = p.primals)
    (heqs : eqs.size = p.equalities) :
    let rhs := p.rightHandSide g eqs rIneq
    (∀ i c, Coordinate.at? p.xBounds p.iterate.x p.iterate.zxLower p.iterate.zxUpper i = some c →
      i < p.primals →
      rhs.getD i 0 = -addDerivative p.iterate.mu c.value c.bound (g.getD i 0)) ∧
    (∀ i c, Coordinate.at? p.sBounds p.iterate.s p.iterate.zsLower p.iterate.zsUpper i = some c →
      i < p.inequalities → rhs.getD (p.primals + i) 0 =
        -addDerivative p.iterate.mu c.value c.bound (-p.iterate.yIneq.getD i 0)) ∧
    (∀ i, i < p.equalities → rhs.getD (p.primals + p.inequalities + i) 0 = -eqs.getD i 0) ∧
    ∀ i, rhs.getD (p.primals + p.inequalities + p.equalities + i) 0 = rIneq.getD i 0 := by
  let rx := Vec.negate (addGradient p.iterate.mu p.xBounds p.iterate.x g)
  let rs := Vec.negate (addGradient p.iterate.mu p.sBounds p.iterate.s (Vec.negate p.iterate.yIneq))
  have hrx : rx.size = p.primals := by simp [rx, Vec.negate, addGradient, hg]
  have hrs : rs.size = p.inequalities := by simp [rs, Vec.negate, addGradient, inequalities]
  have hrEq : (Vec.negate eqs).size = p.equalities := by simp [Vec.negate, heqs]
  have hrxs : (rx ++ rs).size = p.primals + p.inequalities := by
    rw [Array.size_append, hrx, hrs]
  have hall : (rx ++ rs ++ Vec.negate eqs).size = p.primals + p.inequalities + p.equalities := by
    rw [Array.size_append, hrxs, hrEq]
  have hrhs : p.rightHandSide g eqs rIneq = rx ++ rs ++ Vec.negate eqs ++ rIneq := rfl
  simp only [hrhs]
  refine ⟨?_, ?_, ?_, ?_⟩
  · intro i c hc hi
    rw [getD_append_left (by omega), getD_append_left (by omega), getD_append_left (by omega),
      negate_getD, addGradient_getD hc (by omega)]
  · intro i c hc hi
    have hy : i < (Vec.negate p.iterate.yIneq).size := by
      simpa [Vec.negate, inequalities] using hi
    rw [getD_append_left (by omega), getD_append_left (by omega), ← hrx, getD_append_right,
      negate_getD, addGradient_getD hc hy, negate_getD]
  · intro i hi
    rw [getD_append_left (by omega), ← hrxs, getD_append_right, negate_getD]
  · intro i
    rw [← hall, getD_append_right]

theorem blocks_dims {hessian jacEq jacIneq : Csc K} {rhs : Array K} {mu : K} {k : KktSystem K}
    (h : (p.blocks hessian jacEq jacIneq).assemble? rhs mu = some k)
    (hJcRows : jacEq.rows = p.equalities) (hJdRows : jacIneq.rows = p.inequalities) :
    (p.blocks hessian jacEq jacIneq).primals = p.primals ∧
      (p.blocks hessian jacEq jacIneq).equalities = p.equalities ∧
      (p.blocks hessian jacEq jacIneq).inequalities = p.inequalities ∧
      k.dim = p.primals + p.inequalities + p.equalities + p.inequalities ∧ k.rhs = rhs := by
  obtain ⟨ts, hconsistent, -, -, -, rfl⟩ := KktBlocks.assemble?_eq_some h
  simp only [KktBlocks.consistent, Bool.and_eq_true, beq_iff_eq] at hconsistent
  have hsigma : (p.blocks hessian jacEq jacIneq).sigmaX.size = p.primals := by
    simp [blocks, Barrier.sigma, size_overlay, Vec.zero]
  have hbn : (p.blocks hessian jacEq jacIneq).primals = p.primals :=
    hconsistent.1.2.symm.trans hsigma
  refine ⟨hbn, hJcRows, hJdRows, ?_, rfl⟩
  show (p.blocks hessian jacEq jacIneq).primals + jacIneq.rows + jacEq.rows + jacIneq.rows = _
  rw [hbn, hJcRows, hJdRows]

structure Condensed (p : BarrierProblem K) (hessian jacEq jacIneq : Csc K) (g eqs ineqs : Array K)
    (primal dual : K) (d : Iterate K) : Prop where
  stationarity : ∀ i c,
    Coordinate.at? p.xBounds p.iterate.x p.iterate.zxLower p.iterate.zxUpper i = some c →
    i < p.primals →
    ∑ j ∈ Finset.range p.primals, hessian.symmetricAt i j * d.x.getD j 0 + c.sigma * d.x.getD i 0 +
        ∑ r ∈ Finset.range p.equalities, jacEq.entryAt r i * d.yEq.getD r 0 +
        ∑ r ∈ Finset.range p.inequalities, jacIneq.entryAt r i * d.yIneq.getD r 0 +
        primal * d.x.getD i 0 =
      -addDerivative p.iterate.mu c.value c.bound (g.getD i 0)
  slack : ∀ i c,
    Coordinate.at? p.sBounds p.iterate.s p.iterate.zsLower p.iterate.zsUpper i = some c →
    i < p.inequalities →
    c.sigma * d.s.getD i 0 - d.yIneq.getD i 0 =
      -addDerivative p.iterate.mu c.value c.bound (-p.iterate.yIneq.getD i 0)
  equality : ∀ r, r < p.equalities →
    ∑ j ∈ Finset.range p.primals, jacEq.entryAt r j * d.x.getD j 0 - dual * d.yEq.getD r 0 =
      -eqs.getD r 0
  inequality : ∀ r, r < p.inequalities →
    ∑ j ∈ Finset.range p.primals, jacIneq.entryAt r j * d.x.getD j 0 - d.s.getD r 0 -
        dual * d.yIneq.getD r 0 =
      p.iterate.s.getD r 0 - ineqs.getD r 0

theorem condensed_of_solvedBy {hessian jacEq jacIneq : Csc K} {g eqs ineqs rIneq sol : Array K}
    {k : KktSystem K} {primal dual : K}
    (hassemble : (p.blocks hessian jacEq jacIneq).assemble? (p.rightHandSide g eqs rIneq)
      p.iterate.mu = some k)
    (hsound : (p.blocks hessian jacEq jacIneq).Sound k) (hJcRows : jacEq.rows = p.equalities)
    (hJdRows : jacIneq.rows = p.inequalities) (hg : g.size = p.primals)
    (heqs : eqs.size = p.equalities)
    (hrIneq : Vec.axpby? 1 p.iterate.s (-1) ineqs = some rIneq) (hkkt : sol.size = p.kktDim)
    (hsolves : k.SolvedBy primal dual sol) :
    p.Condensed hessian jacEq jacIneq g eqs ineqs primal dual (p.directed sol).step := by
  obtain ⟨hbn, hbe, hbm, hdim, hrhs⟩ := blocks_dims hassemble hJcRows hJdRows
  obtain ⟨hdx, hds, hdyEq, hdyIneq⟩ := directed_parts hkkt
  obtain ⟨hrhsX, hrhsS, hrhsEq, hrhsIneq⟩ := rightHandSide_parts rIneq hg heqs
  obtain ⟨hprimal, hslack, hequality, hinequality⟩ := (KktBlocks.solvedBy_iff hsound).mp hsolves
  simp only [KktBlocks.ineqOffset, KktBlocks.dualOffset, hbn, hbe, hbm, hrhs]
    at hprimal hslack hequality hinequality
  simp only [blocks] at hprimal hslack hequality hinequality
  have hx : ∀ f : Nat → K, ∑ j ∈ Finset.range p.primals, f j * (p.directed sol).step.x.getD j 0 =
      ∑ j ∈ Finset.range p.primals, f j * sol.getD j 0 := by
    intro f
    apply Finset.sum_congr rfl
    intro j hj
    rw [hdx j (Finset.mem_range.mp hj)]
  have hyEq : ∀ f : Nat → K,
      ∑ r ∈ Finset.range p.equalities, f r * (p.directed sol).step.yEq.getD r 0 =
        ∑ r ∈ Finset.range p.equalities,
          f r * sol.getD (p.primals + p.inequalities + r) 0 := by
    intro f
    apply Finset.sum_congr rfl
    intro r hr
    rw [hdyEq r (Finset.mem_range.mp hr)]
  have hyIneq : ∀ f : Nat → K,
      ∑ r ∈ Finset.range p.inequalities, f r * (p.directed sol).step.yIneq.getD r 0 =
        ∑ r ∈ Finset.range p.inequalities,
          f r * sol.getD (p.primals + p.inequalities + p.equalities + r) 0 := by
    intro f
    apply Finset.sum_congr rfl
    intro r hr
    rw [hdyIneq r (Finset.mem_range.mp hr)]
  constructor
  · intro i c hc hi
    rw [hx, hyEq, hyIneq, hdx i hi, ← hrhsX i c hc hi, ← hprimal i hi, sigma_getD hc hi]
  · intro i c hc hi
    rw [hds i hi, hdyIneq i hi, ← hrhsS i c hc hi, ← hslack i hi, sigma_getD hc hi]
  · intro r hr
    rw [hx, hdyEq r hr, hequality r hr, hrhsEq r hr]
  · intro r hr
    rw [hx, hds r hr, hdyIneq r hr, hinequality r hr, hrhsIneq r, (axpby?_getD hrIneq).2.2 r]
    ring

/-- With the recovered steps of the multipliers, the condensed equations are the linearized
conditions. -/
theorem Condensed.linearized (hp : p.Regular) {hessian jacEq jacIneq : Csc K}
    {g gradient eqs ineqs sol : Array K} {c : Conditions K} {primal dual : K}
    (hmeasured : p.Measured jacEq jacIneq gradient eqs ineqs c)
    (hg : ∀ i, i < p.primals → g.getD i 0 = gradient.getD i 0 +
      ∑ r ∈ Finset.range p.equalities, jacEq.entryAt r i * p.iterate.yEq.getD r 0 +
      ∑ r ∈ Finset.range p.inequalities, jacIneq.entryAt r i * p.iterate.yIneq.getD r 0)
    (hkkt : sol.size = p.kktDim)
    (h : p.Condensed hessian jacEq jacIneq g eqs ineqs primal dual (p.directed sol).step) :
    p.Linearized hessian jacEq jacIneq c primal dual (p.directed sol).step := by
  obtain ⟨hstepX, hstepS⟩ := directed_multipliers hp.shaped hkkt
  have ht := hp.shaped.iterate
  constructor
  · intro i hi
    obtain ⟨b, hb⟩ := Coordinate.exists_at? (hp.shaped.xBounds ▸ hi) hi (ht.zxLower ▸ hi)
      (ht.zxUpper ▸ hi)
    obtain ⟨hzl, hzu⟩ := multipliers_getD hb
    have hbarrier := (regular_coordinate hp.x hp.zxLower hp.zxUpper hb).condensed p.iterate.mu
      ((p.directed sol).step.x.getD i 0) (g.getD i 0)
    rw [(hstepX i b hb).1, (hstepX i b hb).2, hmeasured.stationarity i hi, ← hg i hi, hzl, hzu]
    linear_combination h.stationarity i b hb hi - hbarrier
  · intro i hi
    obtain ⟨b, hb⟩ := Coordinate.exists_at? (hp.shaped.sBounds ▸ hi) (ht.s ▸ hi) (ht.zsLower ▸ hi)
      (ht.zsUpper ▸ hi)
    obtain ⟨hzl, hzu⟩ := multipliers_getD hb
    have hbarrier := (regular_coordinate hp.s hp.zsLower hp.zsUpper hb).condensed p.iterate.mu
      ((p.directed sol).step.s.getD i 0) (-p.iterate.yIneq.getD i 0)
    rw [(hstepS i b hb).1, (hstepS i b hb).2, hmeasured.slack i hi, hzl, hzu]
    linear_combination h.slack i b hb hi - hbarrier
  · intro r hr
    rw [h.equality r hr, hmeasured.equality r hr]
  · intro r hr
    rw [h.inequality r hr, hmeasured.inequality r hr]
    ring
  · intro i b hb
    rw [(hstepX i b hb).1, (hstepX i b hb).2]
    exact (regular_coordinate hp.x hp.zxLower hp.zxUpper hb).linearized _ _
  · intro i b hb
    rw [(hstepS i b hb).1, (hstepS i b hb).2]
    exact (regular_coordinate hp.s hp.zsLower hp.zsUpper hb).linearized _ _

/-- The step from a solution of the Newton system solves the linearized optimality conditions, with
the Hessian and the constraints shifted as the system was. -/
theorem setSolution_linearized (hp : p.Regular) {k : KktSystem K} (hk : p.kkt? = some k)
    (hhessian : ∀ a, p.model.hessian p.iterate.x p.iterate.yEq p.iterate.yIneq = some a → a.InRange)
    (primal dual : K) {sol : Array K} (hsize : sol.size = k.dim)
    (hsolves : k.SolvedBy primal dual sol) :
    ∃ hessian jacEq jacIneq gradient eqs ineqs c p',
      p.Derivatives hessian jacEq jacIneq gradient eqs ineqs ∧
        p.Measured jacEq jacIneq gradient eqs ineqs c ∧
        (setSolution sol).run p = (some (), p') ∧ p'.iterate = p.iterate ∧
        p.Linearized hessian jacEq jacIneq c primal dual p'.step := by
  obtain ⟨hessian, jacEq, jacIneq, g, eqs, ineqs, rIneq, hW, hJc, hJd, hg, heqs, hineqs, hrIneq,
    hassemble⟩ := kkt?_eq_some hk
  obtain ⟨gradient, hgradient, hJcRange, hJdRange, hJcRows, -, hJdRows, -, hgSize, hgSum⟩ :=
    lagrangianGradient?_eq_some hg
  obtain ⟨c, hmeasured⟩ := exists_measured hp.shaped hJc hJd hg heqs hineqs hgSize hgSum
  have hsound : (p.blocks hessian jacEq jacIneq).Sound k :=
    ⟨hhessian _ hW, hJcRange, hJdRange, _, _, hassemble⟩
  obtain ⟨-, -, -, hdim, -⟩ := blocks_dims hassemble hJcRows hJdRows
  have hkkt : sol.size = p.kktDim := by
    rw [hsize, hdim, kktDim]
    omega
  have hcondensed := condensed_of_solvedBy hassemble hsound hJcRows hJdRows hgSize
    (NlpModel.size_of_sized heqs) hrIneq hkkt hsolves
  exact ⟨hessian, jacEq, jacIneq, gradient, eqs, ineqs, c, p.directed sol,
    ⟨hW, hJc, hJd, hgradient, eq_some_of_sized heqs, eq_some_of_sized hineqs⟩, hmeasured,
    setSolution_run hp.shaped hkkt, rfl, hcondensed.linearized hp hmeasured hgSum hkkt⟩

end BarrierProblem

def unitMatrix : Csc (Exact ℚ) := ⟨1, 1, #[0, 1], #[0], #[1]⟩

theorem unitMatrix_inRange : unitMatrix.InRange := by
  intro j hj
  have hj : j = 0 := Nat.lt_one_iff.mp hj
  subst hj
  exact ⟨[(0, 1)], rfl, by simp [unitMatrix]⟩

/-- The program to minimize `x` plus half its square, with `x - 1 = 0`, and `x` as an inequality. -/
def unitModel : NlpModel (Exact ℚ) :=
  { primals := 1
    equalities := 1
    inequalities := 1
    xLower := #[]
    xUpper := #[]
    dLower := #[]
    dUpper := #[]
    start := #[]
    startEqDuals := #[]
    startIneqDuals := #[]
    objective := fun _ => none
    gradient := fun x => some (x.map (1 + ·))
    eqConstraints := fun x => some (x.map (· - 1))
    ineqConstraints := fun x => some x
    jacobianEq := fun _ => some unitMatrix
    jacobianIneq := fun _ => some unitMatrix
    hessian := fun _ _ _ => some unitMatrix }

def unitProblem : BarrierProblem (Exact ℚ) :=
  { model := unitModel
    xBounds := #[⟨some 0, none⟩]
    sBounds := #[⟨some 0, some (Scalar.ofNat 3)⟩]
    iterate := ⟨#[1], #[1], #[0], #[0], #[1], #[0], #[1], #[1], 1⟩
    step := .zero 1 1 1 }

def unitSolution : Array (Exact ℚ) :=
  let part := fun k => Scalar.ofNat k / Scalar.ofNat 23
  #[-part 4, part 3, -part 4, -part 7]

theorem unitProblem_regular : unitProblem.Regular := by
  have hsingle : ∀ {α : Type} (a b : α) (i : Nat),
      (#[a] : Array α)[i]? = some b → i = 0 ∧ b = a := by
    intro α a b i h
    have hi : i < 1 := (Array.getElem?_eq_some_iff.mp h).1
    have hi : i = 0 := Nat.lt_one_iff.mp hi
    subst hi
    exact ⟨rfl, (Option.some.inj h).symm⟩
  constructor
  · constructor
    · rfl
    · rfl
    · constructor <;> rfl
    · constructor <;> rfl
  · intro i b x hb hx
    obtain ⟨-, rfl⟩ := hsingle _ _ _ hb
    obtain ⟨-, rfl⟩ := hsingle _ _ _ hx
    simp
  · intro i b x hb hx
    obtain ⟨-, rfl⟩ := hsingle _ _ _ hb
    obtain ⟨-, rfl⟩ := hsingle _ _ _ hx
    simp
    decide +kernel
  all_goals
    intro i b d hb hd hlimit
    obtain ⟨-, rfl⟩ := hsingle _ _ _ hb
    obtain ⟨-, rfl⟩ := hsingle _ _ _ hd
    first
      | rfl
      | cases hlimit

theorem unitProblem_solvedBy {k : KktSystem (Exact ℚ)} (hk : unitProblem.kkt? = some k) :
    unitSolution.size = k.dim ∧ k.SolvedBy 1 1 unitSolution := by
  obtain ⟨hessian, jacEq, jacIneq, g, eqs, ineqs, rIneq, hW, hJc, hJd, hg, heqs, hineqs, hrIneq,
    hassemble⟩ := BarrierProblem.kkt?_eq_some hk
  cases hW
  cases hJc
  cases hJd
  have hg' : unitProblem.lagrangianGradient? unitMatrix unitMatrix = some #[2] := by decide +kernel
  have heqs' : unitProblem.equalities? = some #[0] := by decide +kernel
  have hineqs' : unitProblem.inequalities? = some #[1] := by decide +kernel
  rw [hg, Option.some.injEq] at hg'
  rw [heqs, Option.some.injEq] at heqs'
  rw [hineqs, Option.some.injEq] at hineqs'
  subst hg' heqs' hineqs'
  have hrIneq' : Vec.axpby? 1 #[1] (-1) #[1] = some (#[0] : Array (Exact ℚ)) := by decide +kernel
  have hrIneq' : rIneq = #[0] := Option.some.inj (hrIneq.symm.trans hrIneq')
  subst hrIneq'
  have hsound : (unitProblem.blocks unitMatrix unitMatrix unitMatrix).Sound k :=
    ⟨unitMatrix_inRange, unitMatrix_inRange, unitMatrix_inRange, _, _, hassemble⟩
  obtain ⟨-, -, -, hdim, hrhs⟩ := BarrierProblem.blocks_dims hassemble rfl rfl
  refine ⟨hdim.symm, ?_⟩
  rw [KktBlocks.solvedBy_iff hsound, hrhs]
  unfold KktBlocks.Rows
  decide +kernel

theorem setSolution_linearized_unit :
    unitProblem.Regular ∧ ∃ k, unitProblem.kkt? = some k ∧ unitSolution.size = k.dim ∧
      k.SolvedBy 1 1 unitSolution ∧
      ∃ hessian jacEq jacIneq c p',
        (BarrierProblem.setSolution unitSolution).run unitProblem = (some (), p') ∧
          unitProblem.Linearized hessian jacEq jacIneq c 1 1 p'.step := by
  have hsome : unitProblem.kkt?.isSome = true := by decide +kernel
  obtain ⟨k, hk⟩ := Option.isSome_iff_exists.mp hsome
  obtain ⟨hsize, hsolved⟩ := unitProblem_solvedBy hk
  have hhessian : ∀ a, unitProblem.model.hessian unitProblem.iterate.x unitProblem.iterate.yEq
      unitProblem.iterate.yIneq = some a → a.InRange := by
    rintro a ⟨⟩
    exact unitMatrix_inRange
  obtain ⟨hessian, jacEq, jacIneq, -, -, -, c, p', -, -, hrun, -, hlinearized⟩ :=
    BarrierProblem.setSolution_linearized unitProblem_regular hk hhessian 1 1 hsize hsolved
  exact ⟨unitProblem_regular, k, hk, hsize, hsolved, hessian, jacEq, jacIneq, c, p', hrun,
    hlinearized⟩

end NonlinearOpt.InteriorPoint
