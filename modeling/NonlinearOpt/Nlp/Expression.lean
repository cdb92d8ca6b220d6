import NonlinearOpt.Nlp.Model
import NonlinearOpt.Sparse.Triplets

namespace NonlinearOpt

inductive Term (α : Type) where
  /-- `c · ∏ xᵢ ^ k` over pairs of a variable and its power, which is positive. -/
  | monomial (c : α) (powers : List (Nat × Nat))
  /-- `c · exp (∑ a · xᵢ)` over pairs of a variable and its rate. -/
  | exponential (c : α) (rates : List (Nat × α))

namespace Term

variable {α : Type} [Scalar α]

def timesPower? (x : Array α) (t : α) (factor : Nat × Nat) : Option α :=
  if factor.2 = 0 then some t
  else x[factor.1]?.map fun xi => (List.replicate factor.2 xi).foldl (· * ·) t

def product? (x : Array α) (c : α) (powers : List (Nat × Nat)) : Option α :=
  powers.foldlM (timesPower? x) c

def lower (powers : List (Nat × Nat)) (position by_ : Nat) : List (Nat × Nat) :=
  powers.modify position fun (i, k) => (i, k - by_)

def exponent? (x : Array α) (rates : List (Nat × α)) : Option α :=
  rates.foldlM (fun s (i, a) => do return s + a * (← x[i]?)) 0

def value? (x : Array α) : Term α → Option α
  | monomial c powers => product? x c powers
  | exponential c rates => do return c * Scalar.exp (← exponent? x rates)

def derivatives? (x : Array α) : Term α → Option (List (Nat × α))
  | monomial c powers => powers.zipIdx.mapM fun ((i, k), q) => do
    return (i, ← product? x (c * Scalar.ofNat k) (lower powers q 1))
  | exponential c rates => do
    let t := c * Scalar.exp (← exponent? x rates)
    return rates.map fun (i, a) => (i, t * a)

/-- Second derivatives of a monomial by one factor and itself or one of the factors after it. -/
def monomialSecond? (x : Array α) (c : α) (powers : List (Nat × Nat)) (factor : Nat × Nat) (q : Nat) :
    Option (List (Triplet α)) := do
  let (i, k) := factor
  let own ←
    if 2 ≤ k then do
      let h ← product? x (c * Scalar.ofNat (k * (k - 1))) (lower powers q 2)
      pure [⟨i, i, h⟩]
    else pure []
  let mixed ← (powers.zipIdx.drop (q + 1)).mapM fun ((j, l), r) => do
    let h ← product? x (c * Scalar.ofNat (k * l)) (lower (lower powers q 1) r 1)
    return ⟨i, j, h⟩
  return own ++ mixed

def secondDerivatives? (x : Array α) : Term α → Option (List (Triplet α))
  | monomial c powers => do
    let parts ← powers.zipIdx.mapM fun (factor, q) => monomialSecond? x c powers factor q
    return parts.flatten
  | exponential c rates => do
    let t := c * Scalar.exp (← exponent? x rates)
    return rates.zipIdx.flatMap fun ((i, a), q) =>
      (rates.drop q).map fun (j, b) => ⟨i, j, t * a * b⟩

end Term

abbrev Expression (α : Type) := List (Term α)

namespace Expression

variable {α : Type} [Scalar α]

def value? (x : Array α) (f : Expression α) : Option α :=
  f.foldlM (fun s t => do return s + (← t.value? x)) 0

def derivatives? (x : Array α) (f : Expression α) : Option (List (Nat × α)) := do
  return (← f.mapM (·.derivatives? x)).flatten

def secondDerivatives? (x : Array α) (weight : α) (f : Expression α) :
    Option (List (Triplet α)) := do
  let parts ← f.mapM (·.secondDerivatives? x)
  return parts.flatten.map fun t => { t with value := weight * t.value }

def gradient? (x : Array α) (f : Expression α) : Option (Array α) := do
  (← f.derivatives? x).foldlM (fun g (i, d) => Vec.modify? g i (· + d)) (Vec.zero x.size)

def values? (x : Array α) (fs : List (Expression α)) : Option (Array α) := do
  return (← fs.mapM (·.value? x)).toArray

def jacobian? (cols : Nat) (x : Array α) (fs : List (Expression α)) : Option (Csc α) := do
  let rows ← fs.zipIdx.mapM fun (f, row) => do
    return (← f.derivatives? x).map fun (i, d) => ⟨row, i, d⟩
  Csc.ofTriplets? fs.length cols rows.flatten

def weighted? (x weights : Array α) (fs : List (Expression α)) : Option (List (Triplet α)) := do
  let parts ← fs.zipIdx.mapM fun (f, j) => do f.secondDerivatives? x (← weights[j]?)
  return parts.flatten

end Expression

structure Formulation (α : Type) where
  start : Array α
  xLower : Array α
  xUpper : Array α
  dLower : Array α
  dUpper : Array α
  eqDuals : Array α
  ineqDuals : Array α
  objective : Expression α
  equalities : List (Expression α)
  inequalities : List (Expression α)

namespace Formulation

variable {α : Type} [Scalar α]

def hessian? (p : Formulation α) (x yEq yIneq : Array α) : Option (Csc α) := do
  let f ← p.objective.secondDerivatives? x 1
  let c ← Expression.weighted? x yEq p.equalities
  let d ← Expression.weighted? x yIneq p.inequalities
  Csc.ofTriplets? p.start.size p.start.size (f ++ c ++ d)

def model (p : Formulation α) : NlpModel α :=
  { primals := p.start.size
    equalities := p.equalities.length
    inequalities := p.inequalities.length
    xLower := p.xLower
    xUpper := p.xUpper
    dLower := p.dLower
    dUpper := p.dUpper
    start := p.start
    startEqDuals := p.eqDuals
    startIneqDuals := p.ineqDuals
    objective := fun x => p.objective.value? x
    gradient := fun x => p.objective.gradient? x
    eqConstraints := fun x => Expression.values? x p.equalities
    ineqConstraints := fun x => Expression.values? x p.inequalities
    jacobianEq := fun x => Expression.jacobian? p.start.size x p.equalities
    jacobianIneq := fun x => Expression.jacobian? p.start.size x p.inequalities
    hessian := p.hessian? }

end Formulation

end NonlinearOpt
