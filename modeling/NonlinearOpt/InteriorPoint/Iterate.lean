import NonlinearOpt.Attempt
import NonlinearOpt.Vector

namespace NonlinearOpt.InteriorPoint

/-- A point: variables, slacks of the inequalities, duals of the constraints, and multipliers of the
limits on variables and slacks. Of a step the barrier parameter has no meaning. -/
structure Iterate (α : Type) where
  x : Array α
  s : Array α
  yEq : Array α
  yIneq : Array α
  zxLower : Array α
  zxUpper : Array α
  zsLower : Array α
  zsUpper : Array α
  mu : α

namespace Iterate

variable {α : Type} [Scalar α]

def zero (primals equalities inequalities : Nat) : Iterate α :=
  { x := Vec.zero primals
    s := Vec.zero inequalities
    yEq := Vec.zero equalities
    yIneq := Vec.zero inequalities
    zxLower := Vec.zero primals
    zxUpper := Vec.zero primals
    zsLower := Vec.zero inequalities
    zsUpper := Vec.zero inequalities
    mu := 0 }

/-- Adds a step, times `primal` in variables and slacks and times `dual` in all else. Breaks off at
the first part whose size is not that of the step. -/
def addStep (step : Iterate α) (primal dual : α) : Attempt (Iterate α) Unit := do
  Attempt.change fun t => do return { t with x := ← Vec.axpby? primal step.x 1 t.x }
  Attempt.change fun t => do return { t with s := ← Vec.axpby? primal step.s 1 t.s }
  Attempt.change fun t => do return { t with yEq := ← Vec.axpby? dual step.yEq 1 t.yEq }
  Attempt.change fun t => do return { t with yIneq := ← Vec.axpby? dual step.yIneq 1 t.yIneq }
  Attempt.change fun t => do return { t with zxLower := ← Vec.axpby? dual step.zxLower 1 t.zxLower }
  Attempt.change fun t => do return { t with zxUpper := ← Vec.axpby? dual step.zxUpper 1 t.zxUpper }
  Attempt.change fun t => do return { t with zsLower := ← Vec.axpby? dual step.zsLower 1 t.zsLower }
  Attempt.change fun t => do return { t with zsUpper := ← Vec.axpby? dual step.zsUpper 1 t.zsUpper }

def isFinite (t : Iterate α) : Bool :=
  Vec.allFinite t.x && Vec.allFinite t.s && Vec.allFinite t.yEq && Vec.allFinite t.yIneq &&
    Vec.allFinite t.zxLower && Vec.allFinite t.zxUpper && Vec.allFinite t.zsLower &&
    Vec.allFinite t.zsUpper

def copyParts (x s yEq yIneq : Array α) : Attempt (Iterate α) Unit := do
  Attempt.change fun t => do return { t with x := ← Vec.copy? x t.x }
  Attempt.change fun t => do return { t with s := ← Vec.copy? s t.s }
  Attempt.change fun t => do return { t with yEq := ← Vec.copy? yEq t.yEq }
  Attempt.change fun t => do return { t with yIneq := ← Vec.copy? yIneq t.yIneq }

end Iterate

end NonlinearOpt.InteriorPoint
