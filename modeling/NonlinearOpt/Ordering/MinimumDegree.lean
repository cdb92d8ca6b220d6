import NonlinearOpt.Ldl.Factorization
import NonlinearOpt.Ordering.QuotientGraph

namespace NonlinearOpt

namespace MinimumDegree

def denseDegree (scale : Float) (n : Nat) : Nat :=
  let limit :=
    if 10.0 * scale < 0.0 then n - 2 else (10.0 * scale * (Float.ofNat n).sqrt).toUInt64.toNat
  Nat.min n (Nat.max 16 limit)

/-- The edges of an upper triangular pattern, column by column. If some column is not in order, row by
row instead, which puts every list in order. -/
def edges (columns : List (List Nat)) : List (Nat × Nat) :=
  if columns.all (chained fun i j => decide (i < j)) then
    (columns.zipIdx.map fun (rows, j) => (rows.filter (· < j)).map fun i => (i, j)).flatten
  else
    (columns.zipIdx.map fun (_, i) =>
      columns.zipIdx.filterMap fun (rows, j) =>
        if rows.contains i && i != j then some (j, i) else none).flatten

def holder (parent : Array (Option Nat)) (weight : Array Nat) : Nat → Option Nat → Option Nat
  | 0, p => p
  | _, none => none
  | fuel + 1, some e =>
    if weight.getD e 0 = 0 then holder parent weight fuel (parent.getD e none) else some e

def largestLast (size : Nat → Nat) (children : List Nat) : List Nat :=
  let most := (children.map size).foldl Nat.max 0
  match (children.zipIdx.filter fun (c, _) => size c == most).getLast? with
  | some (c, k) => children.eraseIdx k ++ [c]
  | none => children

def postorder (children : Array (List Nat)) : Nat → Nat → List Nat
  | 0, r => [r]
  | fuel + 1, r => (children.getD r []).flatMap (postorder children fuel) ++ [r]

/-- The elimination order of a finished quotient graph. Merged variables come right before the element
that holds them, variables that were left out come last. -/
def assemble (g : QuotientGraph) : Array Nat :=
  let n := g.size
  let indices := List.range n
  let live (i : Nat) := 0 < g.weight.getD i 0
  let parent (i : Nat) := holder g.parent g.weight n (g.parent.getD i none)
  let children := indices.foldl (fun cs j =>
    match parent j with
    | some p => if live j then cs.modify p (· ++ [j]) else cs
    | none => cs) (Array.replicate n [])
  let children := children.map (largestLast fun c => g.frontSize.getD c 0)
  let roots := indices.filter fun i => live i && (parent i).isNone
  let (position, k) := (roots.flatMap (postorder children n)).foldl
    (fun (position, k) e => (position.setIfInBounds e k, k + g.weight.getD e 0))
    (Array.replicate n 0, 0)
  let (position, _) := (indices.filter fun i => !live i).foldl (fun (position, k) i =>
    match parent i with
    | some p => ((position.setIfInBounds i (position.getD p 0)).modify p (· + 1), k)
    | none => (position.setIfInBounds i k, k + 1)) (position, k)
  indices.foldl (fun order i => order.setIfInBounds (position.getD i 0) i) (Array.replicate n 0)

def order (dense : Nat) (columns : List (List Nat)) : Array Nat :=
  let n := columns.length
  assemble ((QuotientGraph.ofEdges n dense (edges columns)).eliminateAll n)

def withInverse? (size : Nat) (order : Array Nat) : Option (Array Nat × Array Nat) := do
  let inverse ← Permutation.inverse? order
  if order.size = size then some (order, inverse) else none

def find? (denseScale : Float) (size : Nat) (colStart rowIndex : Array Nat) :
    Option (Array Nat × Array Nat) :=
  if size ≠ 0 ∧ colStart[0]? ≠ some 0 then none
  else do
    let pattern : Csc Unit := ⟨size, size, colStart, rowIndex, #[]⟩
    let columns ← (List.range size).mapM pattern.rowsOf?
    withInverse? size (order (denseDegree denseScale size) columns)

theorem inverse_of_find? {denseScale : Float} {size : Nat}
    {colStart rowIndex order inverse : Array Nat}
    (h : find? denseScale size colStart rowIndex = some (order, inverse)) :
    order.size = size ∧ Permutation.inverse? order = some inverse := by
  unfold find? at h
  split at h
  · cases h
  · obtain ⟨columns, -, h⟩ := Option.bind_eq_some_iff.mp h
    obtain ⟨inverse', hinverse, h⟩ := Option.bind_eq_some_iff.mp h
    split at h
    · next hsize =>
      cases h
      exact ⟨hsize, hinverse⟩
    · cases h

instance ordering : Ldl.Ordering := ⟨find?, inverse_of_find?⟩

end MinimumDegree

end NonlinearOpt
