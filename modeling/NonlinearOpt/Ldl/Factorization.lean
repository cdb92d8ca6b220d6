import NonlinearOpt.Ldl.Numeric
import NonlinearOpt.Ldl.Permutation
import NonlinearOpt.Sparse.Format

namespace NonlinearOpt

namespace Ldl

inductive Error where
  | dimensions
  | emptyColumn
  | notUpper
  | pivot (e : PivotError)
  | permutation
  | ordering
  deriving DecidableEq, Repr

namespace Error

def message : Error → String
  | dimensions => "Matrix dimension fields are incompatible"
  | emptyColumn => "Matrix has a zero column"
  | notUpper => "Matrix is not upper triangular"
  | pivot (.zero k) => s!"Matrix factorization produced a zero pivot at index {k}"
  | pivot (.nonFinite k) => s!"Matrix factorization produced a non-finite pivot at index {k}"
  | permutation => "Invalid permutation vector"
  | ordering => "AMD ordering failed"

end Error

/-- A fill reducing ordering. It is given the size of a matrix and the pattern of its upper triangle,
and a number that scales the degree above which a variable is ordered last. -/
class Ordering where
  find? : (denseScale : Float) → (size : Nat) → (colStart rowIndex : Array Nat) →
    Option (Array Nat × Array Nat)
  /-- An order that is found has an entry for each row, and comes with its inverse. -/
  inverse_of_find? : ∀ {denseScale size colStart rowIndex order inverse},
    find? denseScale size colStart rowIndex = some (order, inverse) →
      order.size = size ∧ Permutation.inverse? order = some inverse

structure Options (α : Type) where
  [ordering : Ordering]
  denseScale : Float
  /-- The elimination order, one that is found by `ordering` if absent. -/
  order : Option (Array Nat)
  /-- Pivots of at most this magnitude count as zero. -/
  tolerance : α

def Options.standard {α : Type} [Scalar α] [Ordering] : Options α := ⟨1.0, none, 0⟩

/-- A factorization `P A Pᵀ = (I + L) D (I + L)ᵀ`, where row `k` of `P A Pᵀ` is row `order[k]`
of `A`. -/
structure Factorization (α : Type) where
  order : Array Nat
  permuted : Permuted α
  symbolic : Symbolic
  lower : Csc α
  diag : Array α
  invDiag : Array α
  positive : Nat
  negative : Nat
  tolerance : α

variable {α : Type} [Scalar α]

def checkStructure? (a : Csc α) : Option (Except Error Unit) :=
  if !a.isSquare then some (.error .dimensions)
  else do
    if !(← a.isUpper?) then return .error .notUpper
    if !chained (fun x y => decide (x < y)) a.colStart.toList then return .error .emptyColumn
    return .ok ()

def orderOf (a : Csc α) (options : Options α) : Except Error (Array Nat × Array Nat) :=
  match options.order with
  | some p =>
    match Permutation.inverse? p with
    | some inverse => .ok (p, inverse)
    | none => .error .permutation
  | none =>
    match options.ordering.find? options.denseScale a.rows a.colStart a.rowIndex with
    | some found => .ok found
    | none => .error .ordering

/-- Writes the columns of a factor over the storage of an earlier one. -/
def overlay (lower : Csc α) (columns : Array (Array (Nat × α))) : Csc α :=
  let placed := columns.toList.zipIdx.flatMap fun (column, c) =>
    column.toList.zipIdx (lower.colStart.getD c 0)
  { lower with
    rowIndex := placed.foldl (fun rs ((i, _), k) => rs.setIfInBounds k i) lower.rowIndex
    values := placed.foldl (fun vs ((_, v), k) => vs.setIfInBounds k v) lower.values }

namespace Factorization

/-- Factors the stored matrix anew. After a failure the parts that were computed stay, and the
inertia is unknown. -/
def refactor? (f : Factorization α) : Option (Except Error Unit × Factorization α) := do
  let a := f.permuted.matrix
  let columns ← (List.range a.cols).mapM a.column?
  let (rows, failure) ← numeric? f.symbolic.parent f.tolerance columns f.invDiag
  let f := { f with
    lower := overlay f.lower rows.columns, diag := rows.diag, invDiag := rows.invDiag
    positive := 0, negative := 0 }
  match failure with
  | some e => return (.error (.pivot e), f)
  | none => return (.ok (), { f with positive := rows.positive, negative := a.cols - rows.positive })

def new? (a : Csc α) (options : Options α) : Option (Except Error (Factorization α)) := do
  match ← checkStructure? a with
  | .error e => return .error e
  | .ok () =>
    match orderOf a options with
    | .error e => return .error e
    | .ok (order, inverse) =>
      let n := a.rows
      let permuted ← a.permuteSymmetric? inverse
      let symbolic ← Symbolic.ofColumns? (← (List.range n).mapM permuted.matrix.rowsOf?)
      let size := symbolic.count.foldl (· + ·) 0
      let empty : Factorization α :=
        { order, permuted, symbolic
          lower := ⟨n, n, cumulative symbolic.count, Array.replicate size 0, Vec.zero size⟩
          diag := Vec.zero n, invDiag := Vec.zero n, positive := 0, negative := 0
          tolerance := options.tolerance }
      match ← empty.refactor? with
      | (.ok (), f) => return .ok f
      | (.error e, _) => return .error e

/-- Replaces the values of the matrix, given in the order in which the input stored them. -/
def updateValues? (f : Factorization α) (values : Array α) : Option (Factorization α) :=
  if values.size ≠ f.permuted.position.size then none
  else
    let a := f.permuted.matrix
    let updated := (f.permuted.position.toList.zip values.toList).foldl
      (fun vs (k, v) => vs.setIfInBounds k v) a.values
    some { f with permuted := { f.permuted with matrix := { a with values := updated } } }

def forward? (columns : List (List (Nat × α))) (x : Array α) : Option (Array α) :=
  columns.zipIdx.foldlM (fun x (column, i) => do
    let xi ← x[i]?
    column.foldlM (fun x (r, l) => Vec.modify? x r (· - l * xi)) x) x

def backward? (columns : List (List (Nat × α))) (x : Array α) : Option (Array α) :=
  columns.zipIdx.reverse.foldlM (fun x (column, i) => do
    let s ← column.foldlM (fun s (r, l) => do return s + l * (← x[r]?)) (0 : α)
    Vec.modify? x i (· - s)) x

def solve? (f : Factorization α) (b : Array α) : Option (Array α) := do
  if b.size ≠ f.diag.size then none
  let order := f.order.toList.take f.diag.size
  let y ← order.mapM (b[·]?)
  let columns ← (List.range f.lower.cols).mapM f.lower.column?
  let y ← forward? columns y.toArray
  let y ← backward? columns (Array.zipWith (· * ·) y f.invDiag)
  (order.zip y.toList).foldlM (fun x (i, v) => replace? x i v) b

end Factorization

end Ldl

end NonlinearOpt
