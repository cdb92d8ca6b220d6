import NonlinearOpt.Kkt.Regularization
import NonlinearOpt.LinearSolver.Backend

namespace NonlinearOpt.InteriorPoint

structure Settings (α : Type) where
  maxIter : Nat
  timeLimit : α
  verbose : Bool
  /-- Tolerance on infeasibility and on complementarity. -/
  tolerance : α
  muInit : α
  muMin : α
  /-- The barrier parameter shrinks by this factor, or faster. -/
  muLinearDecrease : α
  /-- The barrier parameter shrinks to this power of itself, or slower. -/
  muSuperlinearPower : α
  /-- The barrier parameter shrinks once its problem is solved up to this multiple of it. -/
  barrierTolFactor : α
  /-- The least fraction of the distance to a bound that a step may use up. -/
  tauMin : α
  regularizeKkt : Bool
  computeInertia : Bool
  regularizationInitial : α
  regularizationGrowth : α
  regularizationMaxIter : Nat
  dualRegularizationBase : α
  dualRegularizationExponent : α
  directSolveMethod : String
  /-- Pivots up to this size count as zero. -/
  pivotTolerance : α
  deriving Repr

inductive SettingsError where
  | badFieldValue (field : String)
  | linearSolver (e : LinearSolverError)
  deriving DecidableEq, Repr

namespace SettingsError

def message : SettingsError → String
  | badFieldValue field => s!"Bad value for field \"{field}\""
  | linearSolver e => e.message

end SettingsError

namespace Settings

variable {α : Type} [Scalar α]

def default : Settings α :=
  { maxIter := 1000
    timeLimit := Scalar.infinity
    verbose := true
    tolerance := 1e-8
    muInit := 0.1
    muMin := 1e-9
    muLinearDecrease := 0.2
    muSuperlinearPower := 1.5
    barrierTolFactor := 0.1
    tauMin := 0.9
    regularizeKkt := true
    computeInertia := true
    regularizationInitial := 1e-4
    regularizationGrowth := 100.0
    regularizationMaxIter := 10
    dualRegularizationBase := 1e-8
    dualRegularizationExponent := 0.25
    directSolveMethod := "auto"
    pivotTolerance := 1e-30 }

def isPositive (x : α) : Bool := Scalar.lt 0 x

def inUnitInterval (x : α) : Bool := Scalar.lt 0 x && Scalar.lt x 1

/-- The fields with the conditions that they have to meet, in the order in which they are looked at. -/
def conditions (s : Settings α) : List (String × Bool) :=
  [("tol", isPositive s.tolerance),
    ("mu_init", isPositive s.muInit),
    ("mu_min", isPositive s.muMin),
    ("mu_linear_decrease", inUnitInterval s.muLinearDecrease),
    ("tau_min", inUnitInterval s.tauMin),
    ("regularization_initial", isPositive s.regularizationInitial),
    ("mu_superlinear_power", isPositive (s.muSuperlinearPower - 1)),
    ("regularization_growth", isPositive (s.regularizationGrowth - 1)),
    ("pivot_tolerance", Scalar.le 0 s.pivotTolerance),
    ("time_limit", Scalar.le 0 s.timeLimit)]

def check (conditions : List (String × Bool)) : Except SettingsError Unit :=
  match conditions.find? (!·.2) with
  | some (field, _) => .error (.badFieldValue field)
  | none => .ok ()

def checkMethod (s : Settings α) : Except SettingsError Unit :=
  match Backend.checkMethod s.directSolveMethod with
  | .error e => .error (.linearSolver e)
  | .ok () => .ok ()

def validate (s : Settings α) : Except SettingsError Unit := do
  s.checkMethod
  check s.conditions

def checkChoice (s : Settings α) : Except SettingsError Unit := do
  s.checkMethod
  check [("tau_min", inUnitInterval s.tauMin)]

def regularization (s : Settings α) : RegularizationSettings α :=
  { initialCoefficient := s.regularizationInitial
    growthFactor := s.regularizationGrowth
    maxIter := s.regularizationMaxIter
    dualBase := s.dualRegularizationBase
    dualExponent := s.dualRegularizationExponent
    computeInertia := s.computeInertia }

end Settings

end NonlinearOpt.InteriorPoint
