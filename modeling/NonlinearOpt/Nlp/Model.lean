import NonlinearOpt.Sparse.Csc

/-!
Nonlinear programs

    minimize f(x)  subject to  c(x) = 0,  dl ≤ d(x) ≤ du,  xl ≤ x ≤ xu,

given by their functions and derivatives. Limits that are not there are infinite.
-/

namespace NonlinearOpt

/-- A nonlinear program. Its functions may be undefined at points of another size than its own. -/
structure NlpModel (α : Type) where
  primals : Nat
  equalities : Nat
  inequalities : Nat
  xLower : Array α
  xUpper : Array α
  dLower : Array α
  dUpper : Array α
  start : Array α
  startEqDuals : Array α
  startIneqDuals : Array α
  objective : (x : Array α) → Option α
  gradient : (x : Array α) → Option (Array α)
  eqConstraints : (x : Array α) → Option (Array α)
  ineqConstraints : (x : Array α) → Option (Array α)
  /-- Derivatives of the equality constraints, one row each. -/
  jacobianEq : (x : Array α) → Option (Csc α)
  /-- Derivatives of the inequality constraints, one row each. -/
  jacobianIneq : (x : Array α) → Option (Csc α)
  /-- Upper triangle of the second derivatives of `f + yEq · c + yIneq · d`. -/
  hessian : (x yEq yIneq : Array α) → Option (Csc α)

namespace NlpModel

variable {α : Type}

def primalsFit (m : NlpModel α) : Bool :=
  m.xLower.size == m.primals && m.xUpper.size == m.primals && m.start.size == m.primals &&
    m.dLower.size == m.inequalities && m.dUpper.size == m.inequalities

def dualsFit (m : NlpModel α) : Bool :=
  m.startEqDuals.size == m.equalities && m.startIneqDuals.size == m.inequalities

def sized (n : Nat) (v : Option (Array α)) : Option (Array α) := v.filter (·.size == n)

end NlpModel

end NonlinearOpt
