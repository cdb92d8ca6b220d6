import NonlinearOpt.Sparse.Csc

/-!
Products of sparse matrices with vectors: plain, transposed, and through the symmetric view of an
upper triangle. Each adds `a * A * x` to a multiple `b * y` of a given vector. With `b = 0` the old
contents of `y` have no influence, not even where they are not numbers.
-/

namespace NonlinearOpt

namespace Csc

variable {α : Type} [Scalar α]

def rescale (b : α) (y : Array α) : Array α :=
  if Scalar.eq b 0 then Vec.zero y.size else if Scalar.eq b 1 then y else Vec.scale b y

/-- `b * y + a * A * x`, scattering column after column. -/
def mulAdd? (m : Csc α) (y x : Array α) (a b : α) : Option (Array α) :=
  if x.size ≠ m.cols ∨ y.size ≠ m.rows then none
  else if Scalar.eq a 0 then some (rescale b y)
  else
    (x.toList.zipIdx).foldlM (fun y (xj, j) => do
      (← m.entries? j).foldlM (fun y (i, v) => Vec.modify? y i (· + a * v * xj)) y)
      (rescale b y)

/-- `b * y + a * Aᵀ * x`, gathering each entry from one column. -/
def adjointMulAdd? (m : Csc α) (y x : Array α) (a b : α) : Option (Array α) :=
  if x.size ≠ m.rows ∨ y.size ≠ m.cols then none
  else if Scalar.eq a 0 then some (rescale b y)
  else do
    let out ← ((rescale b y).toList.zipIdx).mapM fun (yj, j) => do
      (← m.entries? j).foldlM (fun s (i, v) => do return s + a * v * (← x[i]?)) yj
    return out.toArray

/-- `b * y + a * S * x`, where `S` is the symmetric matrix with the given upper triangle. An entry
off the diagonal counts twice, once in its row and once in its column. -/
def symMulAdd? (m : Csc α) (y x : Array α) (a b : α) : Option (Array α) := do
  if !(← m.isUpper?) then none
  else if x.size ≠ m.cols ∨ y.size ≠ m.cols ∨ m.cols ≠ m.rows then none
  else
    (x.toList.zipIdx).foldlM (fun y (xj, j) => do
      (← m.column? j).foldlM (fun y (i, v) => do
        let y ← Vec.modify? y i (· + a * v * xj)
        if i = j then return y
        let xi ← x[i]?
        Vec.modify? y j (· + a * v * xi)) y)
      (rescale b y)

end Csc

end NonlinearOpt
