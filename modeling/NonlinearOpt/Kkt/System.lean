import NonlinearOpt.Sparse.Triplets
import NonlinearOpt.LinearSolver.Inertia

/-!
The linear systems whose solutions are Newton steps. The unknowns are steps in the variables `x`, in
the slacks `s` of the inequalities, and in the duals of equalities and inequalities; the matrix

    W + Σx    0    Jcᵀ   Jdᵀ
      0       Σs    0    -I
      Jc      0     0     0
      Jd     -I     0     0

is kept as its upper triangle. All of its diagonal is stored, so changing the diagonal leaves the
pattern as it is.
-/

namespace NonlinearOpt

/-- The blocks that a system is made of. Of the Hessian only one triangle is given, in any mix. -/
structure KktBlocks (α : Type) where
  hessian : Csc α
  jacEq : Csc α
  jacIneq : Csc α
  sigmaX : Array α
  sigmaS : Array α

structure KktSystem (α : Type) where
  matrix : Csc α
  rhs : Array α
  primals : Nat
  equalities : Nat
  inequalities : Nat
  barrier : α

namespace KktBlocks

variable {α : Type} [Scalar α]

def primals (b : KktBlocks α) : Nat := b.hessian.cols

def equalities (b : KktBlocks α) : Nat := b.jacEq.rows

def inequalities (b : KktBlocks α) : Nat := b.jacIneq.rows

def dualOffset (b : KktBlocks α) : Nat := b.primals + b.inequalities

def ineqOffset (b : KktBlocks α) : Nat := b.dualOffset + b.equalities

def dim (b : KktBlocks α) : Nat := b.ineqOffset + b.inequalities

def consistent (b : KktBlocks α) : Bool :=
  b.hessian.rows == b.primals && b.jacEq.cols == b.primals && b.jacIneq.cols == b.primals &&
    b.sigmaX.size == b.primals && b.sigmaS.size == b.inequalities

def upper (row col : Nat) (value : α) : Triplet α := ⟨min row col, max row col, value⟩

def diagonalFrom (first : Nat) (values : Array α) : List (Triplet α) :=
  values.toList.zipIdx.map fun (v, i) => upper (first + i) (first + i) v

def besidePrimals? (offset : Nat) (jacobian : Csc α) : Option (List (Triplet α)) := do
  return (← jacobian.triplets?).map fun t => upper t.col (offset + t.row) t.value

def slackEntries (b : KktBlocks α) : List (Triplet α) :=
  b.sigmaS.toList.zipIdx.flatMap fun (v, i) =>
    [upper (b.primals + i) (b.primals + i) v, upper (b.primals + i) (b.ineqOffset + i) (-1)]

/-- All entries of the upper triangle, zeros on the diagonal of the duals included. -/
def triplets? (b : KktBlocks α) : Option (List (Triplet α)) := do
  let hessian := (← b.hessian.triplets?).map fun t => upper t.row t.col t.value
  let jacEq ← besidePrimals? b.dualOffset b.jacEq
  let jacIneq ← besidePrimals? b.ineqOffset b.jacIneq
  return hessian ++ diagonalFrom 0 b.sigmaX ++ b.slackEntries ++ jacEq ++ jacIneq ++
    diagonalFrom b.dualOffset (Vec.zero (b.equalities + b.inequalities))

def assemble? (b : KktBlocks α) (rhs : Array α) (barrier : α) : Option (KktSystem α) := do
  if !b.consistent || rhs.size != b.dim then none
  else
    let _ ← b.hessian.nnz?
    let _ ← b.jacEq.nnz?
    let _ ← b.jacIneq.nnz?
    let matrix ← Csc.ofTriplets? b.dim b.dim (← b.triplets?)
    return ⟨matrix, rhs, b.primals, b.equalities, b.inequalities, barrier⟩

end KktBlocks

namespace KktSystem

variable {α : Type} [Scalar α]

def dim (k : KktSystem α) : Nat := k.matrix.cols

/-- The inertia with which a Newton step descends: positive on the primal unknowns, negative on the
duals. -/
def expectedInertia (k : KktSystem α) : Inertia :=
  ⟨k.primals + k.inequalities, k.equalities + k.inequalities, 0⟩

def diagonalIndex (k : KktSystem α) (col : Nat) : Nat := k.matrix.colStart.getD (col + 1) 0 - 1

def diagonal (k : KktSystem α) : Array α :=
  ((List.range k.dim).map fun col => k.matrix.values.getD (k.diagonalIndex col) 0).toArray

def shift (k : KktSystem α) (cols : List Nat) (f : α → α) (values : Array α) : Array α :=
  cols.foldl (fun values col => values.modify (k.diagonalIndex col) f) values

/-- The system with `primal` added to the diagonal of `x`, and `dual` taken off the diagonal of the
duals. -/
def regularized (k : KktSystem α) (primal dual : α) : KktSystem α :=
  let duals := k.primals + k.inequalities
  let values := k.shift (List.range k.primals) (· + primal) k.matrix.values
  let values := k.shift (List.range' duals (k.dim - duals)) (· - dual) values
  { k with matrix := { k.matrix with values } }

end KktSystem

end NonlinearOpt
