import NonlinearOpt.Kkt.System
import NonlinearOpt.LinearSolver.Basic

/-!
Factorizations with the right inertia. A system is tried as it is, and then with growing multiples
of the identity added to the diagonal of its variables, until the factored matrix has the inertia
that a descent step needs. The diagonal of the duals is shifted as well if the first matrix was
singular; that shift is decided once and then kept.
-/

namespace NonlinearOpt

structure RegularizationSettings (α : Type) where
  initialCoefficient : α
  growthFactor : α
  maxIter : Nat
  dualBase : α
  dualExponent : α
  computeInertia : Bool
  deriving Repr

namespace RegularizationSettings

variable {α : Type} [Scalar α]

def default : RegularizationSettings α :=
  { initialCoefficient := 1e-4
    growthFactor := 100.0
    maxIter := 10
    dualBase := 1e-8
    dualExponent := 0.25
    computeInertia := true }

def dualCoefficient (s : RegularizationSettings α) (barrier : α) : α :=
  s.dualBase * Scalar.pow barrier s.dualExponent

def accepts (s : RegularizationSettings α) (expected inertia : Inertia) : Bool :=
  if s.computeInertia then inertia == expected else !inertia.isSingular

end RegularizationSettings

inductive RegularizationError where
  | exhausted (attempts : Nat) (last : Option Inertia)
  | dimensionMismatch (expected found : Nat)
  | linearSolver (e : LinearSolverError)
  deriving DecidableEq, Repr

namespace RegularizationError

def message : RegularizationError → String
  | exhausted attempts last =>
    s!"KKT regularization failed after {attempts} attempts (last inertia {Inertia.detailed last})"
  | dimensionMismatch expected found =>
    s!"KKT system has dimension {found}, expected {expected}"
  | linearSolver e => e.message

end RegularizationError

inductive RegularizationEvent (α : Type) where
  /-- An attempt with its coefficients. There is no inertia where the matrix was singular. -/
  | attempt (number : Nat) (primal dual : α) (inertia : Option Inertia)
  | exhausted (attempts : Nat) (expected : Inertia)

structure Regularization (α : Type) where
  coefficient : α
  dualCoefficient : α
  inertia : Inertia
  system : KktSystem α

/-- A result, the solver after it, and what was noted down on the way. -/
structure Regularized (α σ : Type) where
  result : Except RegularizationError (Regularization α)
  solver : σ
  events : List (RegularizationEvent α)

namespace KktSystem

variable {α σ : Type} [Scalar α] [LinearSolver σ α]

/-- Tries coefficient after coefficient, `fuel` times at most. -/
def retry (k : KktSystem α) (s : RegularizationSettings α) (dual : α) :
    (fuel : Nat) → (primal : α) → (last : Option Inertia) → σ → Regularized α σ
  | 0, _, last, solver =>
    ⟨.error (.exhausted s.maxIter last), solver, [.exhausted s.maxIter k.expectedInertia]⟩
  | fuel + 1, primal, _, solver =>
    let number := s.maxIter - fuel
    let candidate := k.regularized primal dual
    let (answer, solver) := LinearSolver.factorize candidate.matrix solver
    match answer with
    | .ok inertia =>
      let event := .attempt number primal dual (some inertia)
      if s.accepts k.expectedInertia inertia then
        ⟨.ok ⟨primal, dual, inertia, candidate⟩, solver, [event]⟩
      else
        let rest := k.retry s dual fuel (primal * s.growthFactor) (some inertia) solver
        { rest with events := event :: rest.events }
    | .error .singular =>
      let event := .attempt number primal dual none
      let rest := k.retry s dual fuel (primal * s.growthFactor) none solver
      { rest with events := event :: rest.events }
    | .error e => ⟨.error (.linearSolver e), solver, []⟩

def factorize (k : KktSystem α) (s : RegularizationSettings α) (solver : σ) : Regularized α σ :=
  let (answer, solver) := LinearSolver.factorize k.matrix solver
  match answer with
  | .ok inertia =>
    if s.accepts k.expectedInertia inertia then ⟨.ok ⟨0, 0, inertia, k⟩, solver, []⟩
    else
      -- zero eigenvalues are treated like a matrix that could not be factored
      let dual := if inertia.isSingular then s.dualCoefficient k.barrier else 0
      k.retry s dual s.maxIter s.initialCoefficient (some inertia) solver
  | .error .singular =>
    k.retry s (s.dualCoefficient k.barrier) s.maxIter s.initialCoefficient none solver
  | .error e => ⟨.error (.linearSolver e), solver, []⟩

end KktSystem

end NonlinearOpt
