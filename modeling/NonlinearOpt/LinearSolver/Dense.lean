import NonlinearOpt.LinearSolver.Basic

/-!
The dense solver. It factors every finite symmetric matrix and counts eigenvalues of small magnitude
as zero; it solves systems only with matrices that have none. How a matrix is decomposed is left to
a `Decomposer`.
-/

namespace NonlinearOpt

/-- A dense symmetric matrix, as the rows of its lower triangle. -/
structure Symmetric (α : Type) where
  size : Nat
  rows : Array (Array α)

namespace Symmetric

variable {α : Type} [Scalar α]

def get (a : Symmetric α) (i j : Nat) : α :=
  (a.rows.getD (Nat.max i j) #[]).getD (Nat.min i j) 0

end Symmetric

/-- What is used of a decomposition `P A Pᵀ = L B Lᵀ`: the diagonal of the block diagonal matrix `B`,
the entries beside it, and the solutions with the factors. -/
structure Decomposition (α : Type) where
  diag : List α
  subdiag : List α
  solve : Array α → Array α

class Decomposer (α : Type) where
  decompose : Symmetric α → Decomposition α
  size_solve : ∀ (a : Symmetric α) (b : Array α), b.size = a.size →
    ((decompose a).solve b).size = b.size

inductive Block (α : Type) where
  | single (d : α)
  /-- The block with diagonal `a, c` and the entry `b` beside it. -/
  | double (a b c : α)

namespace Block

variable {α : Type} [Scalar α]

/-- The blocks of a block diagonal matrix with the given diagonal and the given entries beside it. An
entry that is not zero couples its index with the next one. -/
def scan : (diag subdiag : List α) → List (Block α)
  | [], _ => []
  | a :: c :: diag, b :: subdiag =>
    if Scalar.eq b 0 then single a :: scan (c :: diag) subdiag
    else double a b c :: scan diag subdiag.tail
  | a :: diag, subdiag => single a :: scan diag subdiag.tail

def powerOfTwo (e : Nat) : α := Scalar.ofNat (Nat.pow 2 e)

/-- `√(x² + y²)`. Numbers whose squares leave the range are scaled by a power of two first. -/
def hypotenuse (x y : α) : α :=
  let large := Scalar.max (Scalar.abs x) (Scalar.abs y)
  let scale :=
    if Scalar.lt (powerOfTwo 500) large then 1 / powerOfTwo 600
    else if Scalar.lt large (1 / powerOfTwo 500) then powerOfTwo 600
    else 1
  let (x, y) := (x * scale, y * scale)
  Scalar.sqrt (x * x + y * y) / scale

def eigenvalues : Block α → List α
  | single d => [d]
  | double a b c =>
    let half : α := 1 / Scalar.ofNat 2
    let mid := half * (a + c)
    let rad := hypotenuse (half * (a - c)) b
    [mid + rad, mid - rad]

end Block

namespace Inertia

variable {α : Type} [Scalar α]

def count (tolerance : α) (i : Inertia) (eigenvalue : α) : Inertia :=
  if Scalar.le (Scalar.abs eigenvalue) tolerance then { i with null := i.null + 1 }
  else if Scalar.lt 0 eigenvalue then { i with positive := i.positive + 1 }
  else { i with negative := i.negative + 1 }

def ofBlockDiagonal (tolerance : α) (diag subdiag : List α) : Inertia :=
  ((Block.scan diag subdiag).flatMap Block.eigenvalues).foldl (count tolerance) zero

end Inertia

namespace Csc

variable {α : Type} [Scalar α]

def toSymmetric (a : Csc α) : Symmetric α :=
  let n := a.cols
  let rows := (List.range n).foldl (fun rows j =>
    rows.push (((a.column? j).getD []).foldl (fun row (i, v) => row.setIfInBounds i v)
      (Vec.zero (j + 1)))) #[]
  ⟨n, rows⟩

end Csc

structure DenseFactors (α : Type) where
  size : Nat
  decomposition : Decomposition α

structure DenseSolver (α : Type) where
  [decomposer : Decomposer α]
  tolerance : α
  factors : Option (DenseFactors α)
  inertia : Option Inertia

namespace DenseSolver

variable {α : Type} [Scalar α]

def new [Decomposer α] (tolerance : α) : DenseSolver α := ⟨tolerance, none, none⟩

def threshold (tolerance : α) (a : Csc α) : α :=
  Scalar.max tolerance (Scalar.ofNat a.cols * Scalar.epsilon * a.maxAbs)

def factorize (a : Csc α) (s : DenseSolver α) :
    Except LinearSolverError Inertia × DenseSolver α :=
  let forgotten := { s with factors := none, inertia := none }
  match LinearSolver.checkInput a with
  | .error e => (.error e, forgotten)
  | .ok () =>
    let d := s.decomposer.decompose a.toSymmetric
    if d.diag.all Scalar.isFinite && d.subdiag.all Scalar.isFinite then
      let inertia := Inertia.ofBlockDiagonal (threshold s.tolerance a) d.diag d.subdiag
      (.ok inertia, { s with factors := some ⟨a.cols, d⟩, inertia := some inertia })
    else (.error .singular, forgotten)

def solve? (s : DenseSolver α) (size : Nat) (b : Array α) :
    Option (Except LinearSolverError (Array α)) :=
  match s.factors, s.inertia with
  | some f, some inertia =>
    if inertia.isSingular then some (.error .singular)
    else if size ≠ f.size ∨ b.size ≠ f.size then none
    else some (LinearSolver.checkSolution (f.decomposition.solve b))
  | _, _ => some (.error .singular)

instance : LinearSolver (DenseSolver α) α where
  name _ := "dense"
  factorize := factorize
  solve? := solve?
  inertia := DenseSolver.inertia

end DenseSolver

end NonlinearOpt
