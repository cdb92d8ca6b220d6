import NonlinearOpt.Sparse.Csc

namespace NonlinearOpt

inductive FormatError where
  | dimensions
  | rowIndex
  | colStart
  deriving DecidableEq, Repr

namespace FormatError

def message : FormatError → String
  | dimensions => "Matrix dimension fields and/or array lengths are incompatible"
  | rowIndex => "Row value exceeds the matrix row dimension"
  | colStart => "Bad column pointer values"

end FormatError

def chained (r : Nat → Nat → Bool) : List Nat → Bool
  | [] => true
  | [_] => true
  | x :: y :: rest => r x y && chained r (y :: rest)

namespace Csc

variable {α : Type} [Scalar α]

def columnOrdered (a : Csc α) (j : Nat) : Bool :=
  match a.rowsOf? j with
  | some rows => chained (fun x y => decide (x < y)) rows
  | none => false

def checkFormat (a : Csc α) : Except FormatError Unit :=
  if a.rowIndex.size ≠ a.values.size then .error .dimensions
  else if a.colStart.size ≠ a.cols + 1 ∨ a.colStart[a.cols]? ≠ some a.rowIndex.size then
    .error .dimensions
  else if !chained (fun x y => decide (x ≤ y)) a.colStart.toList then .error .colStart
  else if !(List.range a.cols).all a.columnOrdered then .error .rowIndex
  else if !a.rowIndex.all (· < a.rows) then .error .rowIndex
  else .ok ()

end Csc

end NonlinearOpt
