import NonlinearOpt.Nlp.Interval
import NonlinearOpt.Vector

namespace NonlinearOpt.InteriorPoint

structure Coordinate (α : Type) where
  bound : Interval α
  value : α
  lowerDual : α
  upperDual : α

namespace Coordinate

variable {α : Type} [Scalar α]

/-- Second derivative of the barrier, `zl / (v - l) + zu / (u - v)`. -/
def sigma (c : Coordinate α) : α :=
  let s := match c.bound.lower with
    | some l => 0 + c.lowerDual / (c.value - l)
    | none => 0
  match c.bound.upper with
  | some u => s + c.upperDual / (u - c.value)
  | none => s

def lowerStep (mu d : α) (c : Coordinate α) : α :=
  match c.bound.lower with
  | some l => mu / (c.value - l) - c.lowerDual - c.lowerDual / (c.value - l) * d
  | none => 0

def upperStep (mu d : α) (c : Coordinate α) : α :=
  match c.bound.upper with
  | some u => mu / (u - c.value) - c.upperDual + c.upperDual / (u - c.value) * d
  | none => 0

/-- The larger of `m` and the distances of the products `(v - l) * zl` and `(u - v) * zu` from the
barrier parameter. -/
def complementarity (mu m : α) (c : Coordinate α) : α :=
  let m := match c.bound.lower with
    | some l => Scalar.max m (Scalar.abs ((c.value - l) * c.lowerDual - mu))
    | none => m
  match c.bound.upper with
  | some u => Scalar.max m (Scalar.abs ((u - c.value) * c.upperDual - mu))
  | none => m

def at? (bounds : Array (Interval α)) (v zl zu : Array α) (i : Nat) : Option (Coordinate α) := do
  return ⟨← bounds[i]?, ← v[i]?, ← zl[i]?, ← zu[i]?⟩

def all (bounds : Array (Interval α)) (v zl zu : Array α) : List (Coordinate α) :=
  (List.range v.size).filterMap (at? bounds v zl zu)

end Coordinate

namespace Barrier

variable {α : Type} [Scalar α]

def overlay (f : Nat → Option α) (v : Array α) : Array α := v.mapIdx fun i x => (f i).getD x

def sigma (bounds : Array (Interval α)) (v zl zu : Array α) (size : Nat) : Array α :=
  overlay (fun i => (Coordinate.at? bounds v zl zu i).map (·.sigma)) (Vec.zero size)

/-- One entry of a gradient with the derivative `-mu / (v - l) + mu / (u - v)` of the barrier added. -/
def addDerivative (mu v : α) (bound : Interval α) (g : α) : α :=
  let g := match bound.lower with
    | some l => g - mu / (v - l)
    | none => g
  match bound.upper with
  | some u => g + mu / (u - v)
  | none => g

def addGradient (mu : α) (bounds : Array (Interval α)) (v g : Array α) : Array α :=
  g.mapIdx fun i gi =>
    match v[i]?, bounds[i]? with
    | some vi, some b => addDerivative mu vi b gi
    | _, _ => gi

def lowerSteps (mu : α) (bounds : Array (Interval α)) (v dv zl zu old : Array α) : Array α :=
  overlay (fun i => do return (← Coordinate.at? bounds v zl zu i).lowerStep mu (← dv[i]?)) old

def upperSteps (mu : α) (bounds : Array (Interval α)) (v dv zl zu old : Array α) : Array α :=
  overlay (fun i => do return (← Coordinate.at? bounds v zl zu i).upperStep mu (← dv[i]?)) old

def complementarity (mu : α) (bounds : Array (Interval α)) (v zl zu : Array α) : α :=
  (Coordinate.all bounds v zl zu).foldl (fun m c => c.complementarity mu m) 0

/-- A step length cut down to one with which `v + a * d` uses up at most the fraction `tau` of the
distance from `v` to its limits. -/
def cutToBound (tau a v d : α) (bound : Interval α) : α :=
  let a := match bound.lower with
    | some l => if Scalar.lt d 0 then Scalar.min a (-tau * (v - l) / d) else a
    | none => a
  match bound.upper with
  | some u => if Scalar.lt 0 d then Scalar.min a (tau * (u - v) / d) else a
  | none => a

def stepToBounds (tau : α) (bounds : Array (Interval α)) (v dv : Array α) : α :=
  (bounds.toList.zip (v.toList.zip dv.toList)).foldl
    (fun a (b, v, d) => cutToBound tau a v d b) 1

def stepNonneg (tau : α) (z dz : Array α) : α :=
  (z.toList.zip dz.toList).foldl
    (fun a (z, d) => if Scalar.lt d 0 then Scalar.min a (-tau * z / d) else a) 1

end Barrier

end NonlinearOpt.InteriorPoint
