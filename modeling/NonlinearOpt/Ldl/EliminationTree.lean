import NonlinearOpt.Vector

/-!
The elimination tree of a symmetric pattern and the fill of its factor. Column `j` of the upper
triangle reaches a node `i` of the tree when the factor has an entry in row `j` and column `i`; the
nodes reached are those on the ways from the rows of the column up to `j`.
-/

namespace NonlinearOpt

/-- Parents in the elimination tree, and the number of entries below the diagonal in each column of
the factor. -/
structure Symbolic where
  parent : Array (Option Nat)
  count : Array Nat
  deriving DecidableEq, Repr

namespace Symbolic

/-- The analysis of the columns so far. `reached` holds the last column that reached each node. -/
structure Progress extends Symbolic where
  reached : Array Nat

/-- Climbs from node `i` to the first node that column `j` has reached before. A node without parent
gets `j` for its parent. -/
def climb (j : Nat) : Nat → Nat → Progress → Option Progress
  | 0, _, _ => none
  | fuel + 1, i, s => do
    if (← s.reached[i]?) = j then return s
    let up := (← s.parent[i]?).getD j
    let parent ← replace? s.parent i (some up)
    let count ← replace? s.count i ((← s.count[i]?) + 1)
    let reached ← replace? s.reached i j
    climb j fuel up { parent, count, reached }

def ofColumns? (columns : List (List Nat)) : Option Symbolic := do
  let n := columns.length
  let start : Progress :=
    { parent := Array.replicate n none, count := Array.replicate n 0, reached := Array.range n }
  let s ← columns.zipIdx.foldlM (fun s (rows, j) =>
    rows.foldlM (fun s i => climb j (n + 1) i s) s) start
  return s.toSymbolic

end Symbolic

end NonlinearOpt
