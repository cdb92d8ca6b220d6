import NonlinearOpt.Ldl.EliminationTree

/-!
The numeric phase of the factorization `(I + L) D (I + L)ᵀ` of a symmetric matrix without pivoting.
Row `k` of `L` solves a triangular system with the rows above it; its pattern is read off the
elimination tree, and its entries are appended to the columns of `L`.
-/

namespace NonlinearOpt

namespace Ldl

inductive PivotError where
  | zero (k : Nat)
  | nonFinite (k : Nat)
  deriving DecidableEq, Repr

structure Rows (α : Type) where
  /-- Columns of `L`, each with its rows in order. -/
  columns : Array (Array (Nat × α))
  diag : Array α
  invDiag : Array α
  /-- Number of positive pivots. -/
  positive : Nat

def path (parent : Array (Option Nat)) (k : Nat) :
    Nat → Nat → Array Bool → Option (List Nat × Array Bool)
  | 0, _, _ => none
  | fuel + 1, i, marks => do
    let marks ← replace? marks i true
    match ← parent[i]? with
    | none => return ([i], marks)
    | some up =>
      if k ≤ up then return ([i], marks)
      if ← marks[up]? then return ([i], marks)
      let (rest, marks) ← path parent k fuel up marks
      return (i :: rest, marks)

/-- The columns of `L` with an entry in row `k`, in an order in which each comes before those that
its elimination changes. -/
def reach? (parent : Array (Option Nat)) (k : Nat) (rows : List Nat) : Option (List Nat) := do
  let n := parent.size
  let (order, _) ← rows.foldlM (fun (order, marks) i => do
    if i = k then return (order, marks)
    if ← marks[i]? then return (order, marks)
    let (p, marks) ← path parent k (n + 1) i marks
    return (p ++ order, marks)) ([], Array.replicate n false)
  return order

variable {α : Type} [Scalar α]

/-- The right hand side of row `k`: the column above the diagonal, and the diagonal entry. Of
repeated entries the last one counts. -/
def load? (n k : Nat) (column : List (Nat × α)) : Option (Array α × α) :=
  column.foldlM (fun (y, d) (i, v) => do
    if i = k then return (y, v) else return (← replace? y i v, d)) (Vec.zero n, 0)

structure Pending (α : Type) where
  columns : Array (Array (Nat × α))
  rest : Array α
  pivot : α

def eliminate? (k : Nat) (invDiag : Array α) (s : Pending α) (c : Nat) : Option (Pending α) := do
  let y ← s.rest[c]?
  let column ← s.columns[c]?
  let rest ← column.foldlM (fun rest (i, l) => Vec.modify? rest i (· - l * y)) s.rest
  -- what is left of the row at `c` is the entry of `L` times the pivot of column `c`
  let l := y * (← invDiag[c]?)
  let columns ← replace? s.columns c (column.push (k, l))
  return { columns, rest, pivot := s.pivot - y * l }

def checkPivot (tolerance : α) (k : Nat) (d : α) : Option PivotError :=
  if !Scalar.isFinite d then some (.nonFinite k)
  else if Scalar.le (Scalar.abs d) tolerance then some (.zero k)
  else none

/-- Computes row `k`. A bad pivot is kept on the diagonal, without an inverse. -/
def row? (parent : Array (Option Nat)) (tolerance : α) (k : Nat) (column : List (Nat × α))
    (s : Rows α) : Option (Rows α × Option PivotError) := do
  let order ← reach? parent k (column.map (·.1))
  let (y, d) ← load? parent.size k column
  let p ← order.foldlM (eliminate? k s.invDiag) ⟨s.columns, y, d⟩
  let s := { s with columns := p.columns, diag := ← replace? s.diag k p.pivot }
  match checkPivot tolerance k p.pivot with
  | some e => return (s, some e)
  | none =>
    return ({ s with
      invDiag := ← replace? s.invDiag k (1 / p.pivot)
      positive := if Scalar.lt 0 p.pivot then s.positive + 1 else s.positive }, none)

def rows? (parent : Array (Option Nat)) (tolerance : α) :
    List (List (Nat × α) × Nat) → Rows α → Option (Rows α × Option PivotError)
  | [], s => some (s, none)
  | (column, k) :: rest, s => do
    match ← row? parent tolerance k column s with
    | (s, none) => rows? parent tolerance rest s
    | (s, some e) => return (s, some e)

/-- Factors the matrix with the given columns of its upper triangle. Inverse pivots that are not
reached keep the values in `invDiag`. -/
def numeric? (parent : Array (Option Nat)) (tolerance : α) (columns : List (List (Nat × α)))
    (invDiag : Array α) : Option (Rows α × Option PivotError) :=
  let n := columns.length
  rows? parent tolerance columns.zipIdx
    { columns := Array.replicate n #[], diag := Vec.zero n, invDiag, positive := 0 }

end Ldl

end NonlinearOpt
