import NonlinearOpt.Sparse.Csc

namespace NonlinearOpt

structure Triplet (α : Type) where
  row : Nat
  col : Nat
  value : α
  deriving Repr

namespace Triplet

variable {α : Type} [Scalar α]

def before (s t : Triplet α) : Bool :=
  decide (s.col < t.col) || (s.col == t.col && decide (s.row ≤ t.row))

def samePlace (s t : Triplet α) : Bool := s.row == t.row && s.col == t.col

def combine : List (Triplet α) → List (Triplet α)
  | [] => []
  | t :: ts => go t ts
where
  go (t : Triplet α) : List (Triplet α) → List (Triplet α)
    | [] => [t]
    | u :: us =>
      if t.samePlace u then go { t with value := t.value + u.value } us else t :: go u us

end Triplet

namespace Csc

variable {α : Type} [Scalar α]

def tally (n : Nat) (js : List Nat) : Array Nat :=
  js.foldl (fun counts j => counts.modify j (· + 1)) (Array.replicate n 0)

def ofTriplets (rows cols : Nat) (ts : List (Triplet α)) : Csc α :=
  let entries := Triplet.combine (ts.mergeSort Triplet.before)
  { rows, cols
    colStart := cumulative (tally cols (entries.map (·.col)))
    rowIndex := (entries.map (·.row)).toArray
    values := (entries.map (·.value)).toArray }

def ofTriplets? (rows cols : Nat) (ts : List (Triplet α)) : Option (Csc α) :=
  if ts.all fun t => t.row < rows && t.col < cols then some (ofTriplets rows cols ts) else none

def ofCoordinates? (rows cols : Nat) (is js : Array Nat) (vs : Array α) : Option (Csc α) :=
  if is.size = js.size ∧ is.size = vs.size then
    ofTriplets? rows cols
      ((is.toList.zip (js.toList.zip vs.toList)).map fun (i, j, v) => ⟨i, j, v⟩)
  else none

def triplets? (a : Csc α) : Option (List (Triplet α)) := do
  let columns ← (List.range a.cols).mapM fun j => do
    return (← a.entries? j).map fun (i, v) => ⟨i, j, v⟩
  return columns.flatten

end Csc

end NonlinearOpt
