import NonlinearOpt.Vector

/-!
Sparse matrices in compressed column form. The record itself promises nothing: its fields may hold
anything, and every operation that walks the columns is undefined where the pointers lead outside
the stored entries.
-/

namespace NonlinearOpt

/-- A sparse matrix. Column `j` owns the stored entries from `colStart[j]` up to `colStart[j + 1]`. -/
structure Csc (α : Type) where
  rows : Nat
  cols : Nat
  colStart : Array Nat
  rowIndex : Array Nat
  values : Array α
  deriving Repr

namespace Csc

variable {α : Type} [Scalar α]

def ofParts? (rows cols : Nat) (colStart rowIndex : Array Nat) (values : Array α) :
    Option (Csc α) :=
  if rowIndex.size = values.size ∧ colStart.size = cols + 1 ∧
      colStart[cols]? = some rowIndex.size then
    some ⟨rows, cols, colStart, rowIndex, values⟩
  else none

/-- Room for `entries` stored zeros, all of them in the last column. -/
def alloc (rows cols entries : Nat) : Csc α :=
  ⟨rows, cols, (Array.replicate cols 0).push entries, Array.replicate entries 0, Vec.zero entries⟩

def zeros (rows cols : Nat) : Csc α := alloc rows cols 0

def nnz? (a : Csc α) : Option Nat := a.colStart[a.cols]?

def span? (a : Csc α) (j : Nat) : Option (Nat × Nat) := do
  let first ← a.colStart[j]?
  let last ← a.colStart[j + 1]?
  return (first, last)

def slice? {β : Type} (xs : Array β) (first last : Nat) : Option (List β) :=
  if first ≤ last ∧ last ≤ xs.size then some (xs.extract first last).toList else none

def rowsOf? (a : Csc α) (j : Nat) : Option (List Nat) := do
  let (first, last) ← a.span? j
  slice? a.rowIndex first last

def column? (a : Csc α) (j : Nat) : Option (List (Nat × α)) := do
  let (first, last) ← a.span? j
  let rows ← slice? a.rowIndex first last
  let values ← slice? a.values first last
  return rows.zip values

/-- The entries that column `j` points to, one by one. A column that ends before it starts has none. -/
def entries? (a : Csc α) (j : Nat) : Option (List (Nat × α)) := do
  let (first, last) ← a.span? j
  (List.range' first (last - first)).mapM fun k => do
    let row ← a.rowIndex[k]?
    let value ← a.values[k]?
    return (row, value)

def isSquare (a : Csc α) : Bool := a.rows == a.cols

/-- Whether no entry is stored below the diagonal, whatever its value. Columns are looked at from
the left, up to the first one that decides. -/
def isUpper? (a : Csc α) : Option Bool :=
  go (List.range a.cols)
where
  go : List Nat → Option Bool
    | [] => some true
    | j :: js => do
      let rows ← a.rowsOf? j
      if rows.all (· ≤ j) then go js else return false

/-- Position of an entry among the stored ones, `some none` if the entry is not stored. Rows of a
column are searched by halving, so they have to be in order to be found. -/
def entryIndex? (a : Csc α) (row col : Nat) : Option (Option Nat) :=
  if row < a.rows ∧ col < a.cols then do
    let (first, _) ← a.span? col
    let rows ← a.rowsOf? col
    return (search rows.toArray row).map (first + ·)
  else none
where
  /-- Keeps the part that can still hold `row`: the last place not above it. -/
  narrow (rows : Array Nat) (row base size : Nat) : Nat :=
    if size ≤ 1 then base
    else
      let half := size / 2
      let base := if row < rows.getD (base + half) 0 then base else base + half
      narrow rows row base (size - half)
  termination_by size
  search (rows : Array Nat) (row : Nat) : Option Nat :=
    let k := narrow rows row 0 rows.size
    if rows[k]? = some row then some k else none

def entry? (a : Csc α) (row col : Nat) : Option (Option α) := do
  match ← a.entryIndex? row col with
  | none => return none
  | some k => return some (← a.values[k]?)

def maxAbs (a : Csc α) : α :=
  a.values.foldl (fun m v => Scalar.max m (Scalar.abs v)) 0

def same (a b : Csc α) : Bool :=
  a.rows == b.rows && a.cols == b.cols && a.colStart == b.colStart && a.rowIndex == b.rowIndex &&
    Vec.same a.values b.values

structure Shape where
  rows : Nat
  cols : Nat
  transposed : Bool

namespace Shape

def isSquare (s : Shape) : Bool := s.rows == s.cols

end Shape

def shape (a : Csc α) : Shape := ⟨a.rows, a.cols, false⟩

def adjointShape (a : Csc α) : Shape := ⟨a.cols, a.rows, true⟩

def symmetricShape (a : Csc α) : Shape := ⟨a.rows, a.cols, false⟩

end Csc

end NonlinearOpt
