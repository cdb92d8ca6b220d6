import NonlinearOpt.InteriorPoint.BarrierProblem
import NonlinearOpt.InteriorPoint.Settings
import NonlinearOpt.Timing.Clock
import NonlinearOpt.Timing.Timers

namespace NonlinearOpt.InteriorPoint

inductive Status where
  | unsolved
  | optimal
  | maxIterations
  | maxTime
  | regularizationFailure
  | numericalError
  deriving DecidableEq, Repr

namespace Status

def all : List Status :=
  [unsolved, optimal, maxIterations, maxTime, regularizationFailure, numericalError]

def text : Status → String
  | unsolved => "Unsolved"
  | optimal => "Optimal"
  | maxIterations => "MaxIterations"
  | maxTime => "MaxTime"
  | regularizationFailure => "RegularizationFailure"
  | numericalError => "NumericalError"

end Status

structure Info (α : Type) where
  iterations : Nat
  objective : α
  residuals : Residuals α
  mu : α
  stepPrimal : α
  stepDual : α
  regularization : α
  solveTime : α
  status : Status

namespace Info

variable {α : Type} [Scalar α]

def initial : Info α := ⟨0, 0, ⟨0, 0, 0⟩, 0, 0, 0, 0, 0, .unsolved⟩

/-- Forgets the last solve, except for its residuals. -/
def reset (i : Info α) : Info α :=
  { i with
    status := .unsolved
    iterations := 0
    solveTime := 0
    stepPrimal := 0
    stepDual := 0
    regularization := 0 }

end Info

structure Dimensions where
  primals : Nat
  equalities : Nat
  inequalities : Nat

inductive Event (α : Type) where
  | started (dims : Dimensions) (linearSolver : String)
  | checked (info : Info α)
  | regularization (e : RegularizationEvent α)
  | stopped (iteration : Nat) (cause : RegularizationError)
  | finished (info : Info α)

structure Solver (α σ : Type) where
  settings : Settings α
  info : Info α
  /-- Lost if a solve breaks off. -/
  timers : Option (Timers α)
  backend : σ
  /-- Dimension of the Newton systems of the problem at hand, once it is known. -/
  dim : Option Nat
  /-- Coefficient that the last factored system was changed by. -/
  coefficient : α

namespace Solver

variable {α σ : Type} [Scalar α]

def new [Ldl.Ordering] [Decomposer α] (settings : Settings α) :
    Except SettingsError (Solver α (Backend α)) := do
  settings.validate
  match Backend.ofMethod settings.directSolveMethod settings.pivotTolerance with
  | .error e => .error (.linearSolver e)
  | .ok backend =>
    return { settings, info := .initial, timers := some .new, backend, dim := none, coefficient := 0 }

/-- Prepares for the systems of a problem. Systems of another size are refused from then on. -/
def setProblem (p : BarrierProblem α) (s : Solver α σ) : Solver α σ :=
  { s with dim := some p.kktDim }

variable [LinearSolver σ α]

def factorizePlain (k : KktSystem α) (backend : σ) : Regularized α σ :=
  let (answer, backend) := LinearSolver.factorize k.matrix backend
  let result := match answer with
    | .ok inertia =>
      if inertia.isSingular then .error (.linearSolver .singular) else .ok ⟨0, 0, inertia, k⟩
    | .error e => .error (.linearSolver e)
  ⟨result, backend, []⟩

def checkDim (k : KktSystem α) (s : Solver α σ) : Except RegularizationError Unit :=
  match s.dim with
  | some expected =>
    if k.dim = expected then .ok () else .error (.dimensionMismatch expected k.dim)
  | none => .ok ()

def factorize (k : KktSystem α) (s : Solver α σ) : Regularized α (Solver α σ) :=
  match s.checkDim k with
  | .error e => ⟨.error e, s, []⟩
  | .ok () =>
    let r :=
      if s.settings.regularizeKkt then k.factorize s.settings.regularization s.backend
      else factorizePlain k s.backend
    let coefficient := match r.result with
      | .ok reg => reg.coefficient
      | .error _ => s.coefficient
    ⟨r.result, { s with backend := r.solver, coefficient }, r.events⟩

def nextMu (s : Settings α) (mu : α) : α :=
  Scalar.max s.muMin
    (Scalar.min (s.muLinearDecrease * mu) (Scalar.pow mu s.muSuperlinearPower))

end Solver

end NonlinearOpt.InteriorPoint
