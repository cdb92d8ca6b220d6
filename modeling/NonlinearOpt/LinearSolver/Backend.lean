import NonlinearOpt.LinearSolver.BlockLdl
import NonlinearOpt.LinearSolver.Sparse
import NonlinearOpt.Ordering.MinimumDegree

/-!
The choice of a linear solver by name. `auto` stands for the sparse one. Programs get the ordering
and the decomposer that are imported here; nothing below depends on which ones they are.
-/

namespace NonlinearOpt

inductive Backend (α : Type) where
  | sparse (s : SparseSolver α)
  | dense (s : DenseSolver α)

namespace Backend

variable {α : Type} [Scalar α]

def methods : List String := ["auto", "qdldl", "dense"]

def checkMethod (method : String) : Except LinearSolverError Unit :=
  if methods.contains method then .ok () else .error (.unavailable method)

def ofMethod [Ldl.Ordering] [Decomposer α] (method : String) (tolerance : α) :
    Except LinearSolverError (Backend α) :=
  match checkMethod method with
  | .error e => .error e
  | .ok () =>
    .ok (if method = "dense" then .dense (.new tolerance) else .sparse (.new tolerance))

instance : LinearSolver (Backend α) α where
  name
    | sparse s => LinearSolver.name s
    | dense s => LinearSolver.name s
  factorize a
    | sparse s => (LinearSolver.factorize a s).map id sparse
    | dense s => (LinearSolver.factorize a s).map id dense
  solve?
    | sparse s => LinearSolver.solve? s
    | dense s => LinearSolver.solve? s
  inertia
    | sparse s => LinearSolver.inertia s
    | dense s => LinearSolver.inertia s

end Backend

end NonlinearOpt
