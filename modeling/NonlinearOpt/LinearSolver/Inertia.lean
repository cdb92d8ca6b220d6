
namespace NonlinearOpt

structure Inertia where
  positive : Nat
  negative : Nat
  null : Nat
  deriving DecidableEq, Repr

namespace Inertia

def zero : Inertia := ⟨0, 0, 0⟩

def isSingular (i : Inertia) : Bool := decide (0 < i.null)

def dim (i : Inertia) : Nat := i.positive + i.negative + i.null

def text (i : Inertia) : String := s!"({i.positive}, {i.negative}, {i.null})"

def detailed : Option Inertia → String
  | none => "None"
  | some i =>
    s!"Some(Inertia \x7b positive: {i.positive}, negative: {i.negative}, null: {i.null} \x7d)"

end Inertia

end NonlinearOpt
