import NonlinearOpt.LinearSolver.Basic

/-!
The sparse solver. A matrix with the pattern of the one before it only has its values replaced; its
order and symbolic analysis are those of the first matrix with that pattern.
-/

namespace NonlinearOpt

structure CachedFactors (α : Type) where
  colStart : Array Nat
  rowIndex : Array Nat
  factors : Ldl.Factorization α

structure SparseSolver (α : Type) where
  settings : Ldl.Options α
  cache : Option (CachedFactors α)
  inertia : Option Inertia

namespace SparseSolver

variable {α : Type} [Scalar α]

def new [Ldl.Ordering] (tolerance : α) : SparseSolver α := ⟨⟨1.0, none, tolerance⟩, none, none⟩

def cached? (s : SparseSolver α) (a : Csc α) : Option (Ldl.Factorization α) :=
  match s.cache with
  | some c => if c.colStart = a.colStart ∧ c.rowIndex = a.rowIndex then some c.factors else none
  | none => none

def refresh? (factors : Ldl.Factorization α) (a : Csc α) :
    Option (Except Ldl.Error Unit × Option (CachedFactors α)) := do
  let (result, factors) ← (← factors.updateValues? a.values).refactor?
  return (result, some ⟨a.colStart, a.rowIndex, factors⟩)

def rebuild? (settings : Ldl.Options α) (a : Csc α) :
    Option (Except Ldl.Error Unit × Option (CachedFactors α)) := do
  match ← Ldl.Factorization.new? a settings with
  | .ok factors => return (.ok (), some ⟨a.colStart, a.rowIndex, factors⟩)
  | .error e => return (.error e, none)

def assess (factors : Ldl.Factorization α) : Except LinearSolverError Inertia :=
  if Vec.allFinite factors.invDiag then .ok ⟨factors.positive, factors.negative, 0⟩
  else .error (.breakdown .nonFiniteFactors)

/-- A zero pivot means a singular matrix; any other failure is a breakdown. -/
def failure : Ldl.Error → LinearSolverError
  | .pivot (.zero _) => .singular
  | e => .breakdown (.factorization e)

def conclude (s : SparseSolver α) :
    Except Ldl.Error Unit × Option (CachedFactors α) →
      Except LinearSolverError Inertia × SparseSolver α
  | (.error e, cache) => (.error (failure e), { s with cache, inertia := none })
  | (.ok (), none) => (.error .singular, { s with cache := none, inertia := none })
  | (.ok (), some cache) =>
    let answer := assess cache.factors
    (answer, { s with cache := some cache, inertia := answer.toOption })

def factorize? (a : Csc α) (s : SparseSolver α) :
    Option (Except LinearSolverError Inertia × SparseSolver α) :=
  match LinearSolver.checkInput a with
  | .error e => some (.error e, { s with inertia := none })
  | .ok () =>
    let attempt := match s.cached? a with
      | some factors => refresh? factors a
      | none => rebuild? s.settings a
    attempt.map s.conclude

/-- No factorization breaks off in a solver that has factored matrices only
(`exists_factorize?_after`), so what is answered then does not matter. -/
def factorize (a : Csc α) (s : SparseSolver α) :
    Except LinearSolverError Inertia × SparseSolver α :=
  (s.factorize? a).getD (.error .singular, { s with cache := none, inertia := none })

def solve? (s : SparseSolver α) (size : Nat) (b : Array α) :
    Option (Except LinearSolverError (Array α)) :=
  match s.inertia, s.cache with
  | some _, some cache =>
    if size ≠ b.size then none
    else (cache.factors.solve? b).map LinearSolver.checkSolution
  | _, _ => some (.error .singular)

instance : LinearSolver (SparseSolver α) α where
  name _ := "qdldl"
  factorize := factorize
  solve? := solve?
  inertia := SparseSolver.inertia

end SparseSolver

end NonlinearOpt
