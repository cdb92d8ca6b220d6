import NonlinearOpt.Sparse.Triplets

namespace NonlinearOpt

namespace Permutation

/-- The inverse of a permutation of `0 … size - 1`; other arrays have none. -/
def inverse? (p : Array Nat) : Option (Array Nat) := do
  let slots ← p.toList.zipIdx.foldlM (fun slots (j, i) =>
    match slots[j]? with
    | some none => replace? slots j (some i)
    | _ => none) (Array.replicate p.size none)
  return slots.map (·.getD 0)

end Permutation

structure Moved (α : Type) where
  source : Nat
  row : Nat
  col : Nat
  value : α

structure Permuted (α : Type) where
  matrix : Csc α
  position : Array Nat

namespace Csc

variable {α : Type} [Scalar α]

def moveColumn? (a : Csc α) (inverse : Array Nat) (j : Nat) : Option (List (Moved α)) := do
  let (first, last) ← a.span? j
  let col ← inverse[j]?
  (List.range' first (last - first)).mapM fun k => do
    let row ← inverse[← a.rowIndex[k]?]?
    let value ← a.values[k]?
    if max row col < a.rows then some ⟨k, min row col, max row col, value⟩ else none

/-- The upper triangle of the permuted matrix. Entries of one column keep their order, so its rows
need not increase. -/
def permuteSymmetric? (a : Csc α) (inverse : Array Nat) : Option (Permuted α) := do
  let n := a.rows
  let moved ← (List.range n).mapM (a.moveColumn? inverse)
  let sorted := moved.flatten.mergeSort fun s t => decide (s.col ≤ t.col)
  let position := sorted.zipIdx.foldl (fun ps (e, k) => ps.setIfInBounds e.source k)
    (Array.replicate (← a.nnz?) 0)
  return {
    matrix :=
      { rows := n, cols := n
        colStart := cumulative (tally n (sorted.map (·.col)))
        rowIndex := (sorted.map (·.row)).toArray
        values := (sorted.map (·.value)).toArray }
    position }

end Csc

end NonlinearOpt
