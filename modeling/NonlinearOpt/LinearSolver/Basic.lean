import NonlinearOpt.LinearSolver.Inertia
import NonlinearOpt.Ldl.Factorization
import NonlinearOpt.Sparse.Format

namespace NonlinearOpt

inductive Breakdown where
  | format (e : FormatError)
  | notSquare
  | notUpper
  | nonFiniteEntries
  | factorization (e : Ldl.Error)
  | nonFiniteFactors
  | nonFiniteSolution
  deriving DecidableEq, Repr

namespace Breakdown

def message : Breakdown → String
  | format e => e.message
  | notSquare => "matrix is not square"
  | notUpper => "matrix is not upper triangular"
  | nonFiniteEntries => "matrix has non-finite entries"
  | factorization e => e.message
  | nonFiniteFactors => "non-finite factors"
  | nonFiniteSolution => "non-finite solution"

end Breakdown

inductive LinearSolverError where
  | singular
  | unavailable (method : String)
  | breakdown (cause : Breakdown)
  deriving DecidableEq, Repr

namespace LinearSolverError

def message : LinearSolverError → String
  | singular => "Matrix is singular"
  | unavailable method => s!"Linear solver \"{method}\" is not available"
  | breakdown cause => s!"Numerical breakdown in linear solver: {cause.message}"

end LinearSolverError

/-- A solver with states `σ` of systems with symmetric matrices over `α`, given as their upper
triangles. -/
class LinearSolver (σ : Type) (α : outParam Type) where
  name : σ → String
  /-- Factors a matrix. Nothing is remembered of a matrix that could not be factored. -/
  factorize : Csc α → σ → Except LinearSolverError Inertia × σ
  /-- Solves a system with the factored matrix for a given number of unknowns. -/
  solve? : σ → Nat → Array α → Option (Except LinearSolverError (Array α))
  /-- Inertia of the matrix that was factored last, if it could be factored. -/
  inertia : σ → Option Inertia

namespace LinearSolver

variable {α : Type} [Scalar α]

def checkInput (a : Csc α) : Except LinearSolverError Unit :=
  match a.checkFormat with
  | .error e => .error (.breakdown (.format e))
  | .ok () =>
    if !a.isSquare then .error (.breakdown .notSquare)
    else if a.isUpper? ≠ some true then .error (.breakdown .notUpper)
    else if !Vec.allFinite a.values then .error (.breakdown .nonFiniteEntries)
    else .ok ()

def checkSolution (x : Array α) : Except LinearSolverError (Array α) :=
  if Vec.allFinite x then .ok x else .error (.breakdown .nonFiniteSolution)

end LinearSolver

end NonlinearOpt
