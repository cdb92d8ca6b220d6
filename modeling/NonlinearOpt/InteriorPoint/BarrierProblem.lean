import NonlinearOpt.InteriorPoint.Barrier
import NonlinearOpt.InteriorPoint.Iterate
import NonlinearOpt.Nlp.Model
import NonlinearOpt.Sparse.Product
import NonlinearOpt.Kkt.System

namespace NonlinearOpt.InteriorPoint

inductive BoundsError where
  | primal (index : Nat)
  | inequality (index : Nat)
  deriving DecidableEq, Repr

namespace BoundsError

def message (e : BoundsError) : String :=
  let (kind, index) := match e with
    | primal index => ("primal", index)
    | inequality index => ("inequality", index)
  s!"Invalid {kind} bounds at index {index}: lower bound must be below upper bound"

end BoundsError

structure BarrierProblem (α : Type) where
  model : NlpModel α
  xBounds : Array (Interval α)
  sBounds : Array (Interval α)
  iterate : Iterate α
  step : Iterate α

structure Residuals (α : Type) where
  primal : α
  dual : α
  complementarity : α

namespace Residuals

def max {α : Type} [Scalar α] (r : Residuals α) : α :=
  Scalar.max r.primal (Scalar.max r.dual r.complementarity)

end Residuals

namespace BarrierProblem

variable {α : Type} [Scalar α]

def interior (bounds : Array (Interval α)) (v : Array α) : Array α :=
  Array.zipWith (fun b x => b.interior x) bounds v

def startDuals (limit : Interval α → Option α) (bounds : Array (Interval α)) : Array α :=
  bounds.map fun b => if (limit b).isSome then 1 else 0

/-- A program at the point that its own starting point leads to: the point is moved inside its
limits, and slacks start at the values of the constraints there, moved inside as well. Limits are
looked at before multipliers. -/
def new? (m : NlpModel α) : Option (Except BoundsError (BarrierProblem α)) :=
  if !m.primalsFit then none
  else
    match Interval.all m.xLower m.xUpper with
    | .error index => some (.error (.primal index))
    | .ok xBounds => do
      let x := interior xBounds m.start
      let d ← NlpModel.sized m.inequalities (m.ineqConstraints x)
      match Interval.all m.dLower m.dUpper with
      | .error index => return .error (.inequality index)
      | .ok sBounds =>
        guard m.dualsFit
        let iterate :=
          { x
            s := interior sBounds d
            yEq := m.startEqDuals
            yIneq := m.startIneqDuals
            zxLower := startDuals Interval.lower xBounds
            zxUpper := startDuals Interval.upper xBounds
            zsLower := startDuals Interval.lower sBounds
            zsUpper := startDuals Interval.upper sBounds
            mu := 0 }
        return .ok
          { model := m, xBounds, sBounds, iterate
            step := .zero m.primals m.equalities m.inequalities }

def primals (p : BarrierProblem α) : Nat := p.iterate.x.size

def equalities (p : BarrierProblem α) : Nat := p.iterate.yEq.size

def inequalities (p : BarrierProblem α) : Nat := p.iterate.yIneq.size

def kktDim (p : BarrierProblem α) : Nat := p.primals + 2 * p.inequalities + p.equalities

def setMu (mu : α) (p : BarrierProblem α) : BarrierProblem α :=
  { p with iterate := { p.iterate with mu } }

def objective? (p : BarrierProblem α) : Option α := p.model.objective p.iterate.x

def equalities? (p : BarrierProblem α) : Option (Array α) :=
  NlpModel.sized p.equalities (p.model.eqConstraints p.iterate.x)

def inequalities? (p : BarrierProblem α) : Option (Array α) :=
  NlpModel.sized p.inequalities (p.model.ineqConstraints p.iterate.x)

def lagrangianGradient? (p : BarrierProblem α) (jacEq jacIneq : Csc α) : Option (Array α) := do
  let g ← NlpModel.sized p.primals (p.model.gradient p.iterate.x)
  let g ← jacEq.adjointMulAdd? g p.iterate.yEq 1 1
  jacIneq.adjointMulAdd? g p.iterate.yIneq 1 1

/-- Largest entry of `-y - zl + zu` in size. -/
def slackGradient (t : Iterate α) : α :=
  ((t.yIneq.toList.zip (t.zsLower.toList.zip t.zsUpper.toList)).map fun (y, zl, zu) =>
    Scalar.abs (-y - zl + zu)).foldl Scalar.max 0

/-- Violations of the optimality conditions of the barrier problem with parameter `mu`. With zero
they are those of the program itself. -/
def residuals? (p : BarrierProblem α) (mu : α) : Option (Residuals α) := do
  let t := p.iterate
  let c ← p.equalities?
  let d ← Vec.axpby? (-1) t.s 1 (← p.inequalities?)
  let g ← p.lagrangianGradient? (← p.model.jacobianEq t.x) (← p.model.jacobianIneq t.x)
  let g ← Vec.axpby? (-1) t.zxLower 1 g
  let g ← Vec.axpby? 1 t.zxUpper 1 g
  return {
    primal := Scalar.max (Vec.normInf c) (Vec.normInf d)
    dual := Scalar.max (Vec.normInf g) (slackGradient t)
    complementarity := Scalar.max
      (Barrier.complementarity mu p.xBounds t.x t.zxLower t.zxUpper)
      (Barrier.complementarity mu p.sBounds t.s t.zsLower t.zsUpper) }

/-- The Newton system at the current point. Its right hand side is the negated gradient of the
barrier Lagrangian in `x` and `s`, and the negated constraint values. -/
def kkt? (p : BarrierProblem α) : Option (KktSystem α) := do
  let t := p.iterate
  let blocks : KktBlocks α :=
    { hessian := ← p.model.hessian t.x t.yEq t.yIneq
      jacEq := ← p.model.jacobianEq t.x
      jacIneq := ← p.model.jacobianIneq t.x
      sigmaX := Barrier.sigma p.xBounds t.x t.zxLower t.zxUpper p.primals
      sigmaS := Barrier.sigma p.sBounds t.s t.zsLower t.zsUpper p.inequalities }
  let g ← p.lagrangianGradient? blocks.jacEq blocks.jacIneq
  let rx := Vec.negate (Barrier.addGradient t.mu p.xBounds t.x g)
  let rs := Vec.negate (Barrier.addGradient t.mu p.sBounds t.s (Vec.negate t.yIneq))
  let rEq := Vec.negate (← p.equalities?)
  let rIneq ← Vec.axpby? 1 t.s (-1) (← p.inequalities?)
  blocks.assemble? (rx ++ rs ++ rEq ++ rIneq) t.mu

def withMultiplierSteps (p : BarrierProblem α) : BarrierProblem α :=
  let (t, d) := (p.iterate, p.step)
  { p with step := { d with
    zxLower := Barrier.lowerSteps t.mu p.xBounds t.x d.x t.zxLower t.zxUpper d.zxLower
    zxUpper := Barrier.upperSteps t.mu p.xBounds t.x d.x t.zxLower t.zxUpper d.zxUpper
    zsLower := Barrier.lowerSteps t.mu p.sBounds t.s d.s t.zsLower t.zsUpper d.zsLower
    zsUpper := Barrier.upperSteps t.mu p.sBounds t.s d.s t.zsLower t.zsUpper d.zsUpper } }

def setSolution (solution : Array α) : Attempt (BarrierProblem α) Unit := do
  let p ← get
  if solution.size ≠ p.kktDim then failure
  else
    let s := p.primals
    let yEq := s + p.inequalities
    let yIneq := yEq + p.equalities
    Attempt.on BarrierProblem.step (fun step p => { p with step })
      (Iterate.copyParts (solution.extract 0 s) (solution.extract s yEq)
        (solution.extract yEq yIneq) (solution.extract yIneq solution.size))
    modify withMultiplierSteps

/-- Longest primal and dual steps, up to one, that use up at most the fraction `tau` of all distances
to limits. -/
def stepLengths (p : BarrierProblem α) (tau : α) : α × α :=
  let (t, d) := (p.iterate, p.step)
  (Scalar.min (Barrier.stepToBounds tau p.xBounds t.x d.x)
      (Barrier.stepToBounds tau p.sBounds t.s d.s),
    [Barrier.stepNonneg tau t.zxLower d.zxLower, Barrier.stepNonneg tau t.zxUpper d.zxUpper,
      Barrier.stepNonneg tau t.zsLower d.zsLower,
      Barrier.stepNonneg tau t.zsUpper d.zsUpper].foldl Scalar.min 1)

def takeStep (primal dual : α) : Attempt (BarrierProblem α) Unit := do
  let p ← get
  Attempt.on BarrierProblem.iterate (fun iterate p => { p with iterate })
    (Iterate.addStep p.step primal dual)

end BarrierProblem

end NonlinearOpt.InteriorPoint
