import NonlinearOpt.Scalar

namespace NonlinearOpt

namespace Vec

variable {α : Type} [Scalar α]

def zero (n : Nat) : Array α := Array.replicate n 0

def fill (c : α) (v : Array α) : Array α := v.map fun _ => c

def scale (c : α) (v : Array α) : Array α := v.map (· * c)

def negate (v : Array α) : Array α := v.map (- ·)

def square (v : Array α) : Array α := v.map fun t => t * t

/-- `a * x + b * v`. -/
def axpby? (a : α) (x : Array α) (b : α) (v : Array α) : Option (Array α) :=
  if v.size = x.size then some (Array.zipWith (fun y x => a * x + b * y) v x) else none

def copy? (source v : Array α) : Option (Array α) :=
  if source.size = v.size then some source else none

/-- Largest magnitude of an entry, not a number as soon as one entry is not. -/
def normInf (v : Array α) : α :=
  go 0 v.toList
where
  go (out : α) : List α → α
    | [] => out
    | x :: xs =>
      let m := Scalar.abs x
      if Scalar.isNaN m then Scalar.nan else go (if Scalar.lt out m then m else out) xs

/-- Largest distance of two entries at the same position. Entries without a partner do not count,
nor do distances that are not numbers. -/
def normInfDiff (v w : Array α) : α :=
  (Array.zipWith (fun x y => Scalar.abs (x - y)) v w).foldl Scalar.max 0

def maximum (v : Array α) : α :=
  v.foldl Scalar.max (-Scalar.infinity)

def allFinite (v : Array α) : Bool :=
  v.all Scalar.isFinite

def same (v w : Array α) : Bool :=
  v.size == w.size && (Array.zipWith Scalar.eq v w).all id

def modify? (v : Array α) (i : Nat) (f : α → α) : Option (Array α) :=
  if h : i < v.size then some (v.set i (f v[i])) else none

end Vec

def replace? {β : Type} (xs : Array β) (i : Nat) (b : β) : Option (Array β) :=
  if h : i < xs.size then some (xs.set i b) else none

/-- Running totals `0, c₀, c₀ + c₁, …` of a list of counts. -/
def cumulative (counts : Array Nat) : Array Nat :=
  (counts.foldl (fun (sums, last) c => (sums.push (last + c), last + c)) (#[0], 0)).1

end NonlinearOpt
