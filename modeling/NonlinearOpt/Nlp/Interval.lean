import NonlinearOpt.Scalar

namespace NonlinearOpt

structure Interval (α : Type) where
  lower : Option α
  upper : Option α
  deriving Repr

namespace Interval

variable {α : Type} [Scalar α]

def limit? (x : α) : Option α := if Scalar.isFinite x then some x else none

def ofLimits? (lower upper : α) : Option (Interval α) :=
  if Scalar.lt lower upper then some ⟨limit? lower, limit? upper⟩ else none

def lowerLimit (b : Interval α) : α := b.lower.getD (-Scalar.infinity)

def upperLimit (b : Interval α) : α := b.upper.getD Scalar.infinity

def inside (b : Interval α) (v : α) : Bool :=
  Scalar.lt b.lowerLimit v && Scalar.lt v b.upperLimit

/-- A number inside: itself, or the middle, or one unit away from the only limit. -/
def interior (b : Interval α) (v : α) : α :=
  if b.inside v then v
  else match b.lower, b.upper with
    | some l, some u => (l + u) / Scalar.ofNat 2
    | some l, none => l + 1
    | none, some u => u - 1
    | none, none => v

/-- The intervals between two arrays of limits, or the first position where the limits are in the
wrong order. -/
def all (lower upper : Array α) : Except Nat (Array (Interval α)) :=
  go 0 (lower.toList.zip upper.toList) #[]
where
  go (i : Nat) : List (α × α) → Array (Interval α) → Except Nat (Array (Interval α))
    | [], out => .ok out
    | (l, u) :: rest, out =>
      match ofLimits? l u with
      | some b => go (i + 1) rest (out.push b)
      | none => .error i

end Interval

end NonlinearOpt
