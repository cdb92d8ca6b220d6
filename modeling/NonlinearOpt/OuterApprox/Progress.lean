import NonlinearOpt.OuterApprox.Config

/-!
The state of an outer approximation: bounds on the optimal objective with their history, the integer
assignments seen last, and the best point found so far. The recorded bounds never get worse: a bound
that would be is recorded as the one before it.
-/

namespace NonlinearOpt.OuterApprox

structure SubproblemResult (α : Type) where
  condition : Termination
  lower : α
  upper : α
  objective : α
  /-- Values of all variables, none if there is no point. -/
  solution : Array α

namespace SubproblemResult

def ofCondition {α : Type} [Scalar α] (condition : Termination) : SubproblemResult α :=
  ⟨condition, -Scalar.infinity, Scalar.infinity, Scalar.nan, #[]⟩

end SubproblemResult

structure Results (α : Type) where
  condition : Termination
  lower : α
  upper : α
  iterations : Nat
  solveTime : α
  bestObjective : Option α
  bestSolution : Option (Array α)

namespace Results

def initial {α : Type} [Scalar α] : Results α :=
  ⟨.unknown, -Scalar.infinity, Scalar.infinity, 0, 0, none, none⟩

end Results

structure Progress (α : Type) where
  sense : Sense
  lower : α
  upper : α
  lowerHistory : List α
  upperHistory : List α
  masterIter : Nat
  /-- Counts within a master iteration, from zero. -/
  subIter : Nat
  previousAssignment : Option (List Int)
  assignment : List Int
  bestObjective : Option α
  bestSolution : Option (Array α)
  results : Results α

namespace Progress

variable {α : Type} [Scalar α]

def new (sense : Sense) : Progress α :=
  { sense
    lower := -Scalar.infinity
    upper := Scalar.infinity
    lowerHistory := [-Scalar.infinity]
    upperHistory := [Scalar.infinity]
    masterIter := 0
    subIter := 0
    previousAssignment := none
    assignment := []
    bestObjective := none
    bestSolution := none
    results := .initial }

/-- A bound as it is recorded after a given history: itself, unless the last bound is better. -/
def record (better : α → α → Bool) (history : List α) (bound : α) : α :=
  match history.getLast? with
  | some last => if better last bound then bound else last
  | none => bound

def pushLower (bound : α) (p : Progress α) : α × Progress α :=
  let bound := record Scalar.le p.lowerHistory bound
  (bound, { p with lowerHistory := p.lowerHistory ++ [bound] })

def pushUpper (bound : α) (p : Progress α) : α × Progress α :=
  let bound := record (fun last bound => Scalar.le bound last) p.upperHistory bound
  (bound, { p with upperHistory := p.upperHistory ++ [bound] })

def setLower (bound : α) (p : Progress α) : Progress α :=
  (pushLower bound { p with lower := bound }).2

def setUpper (bound : α) (p : Progress α) : Progress α :=
  (pushUpper bound { p with upper := bound }).2

def raiseLower (bound : α) (p : Progress α) : Progress α := p.setLower (Scalar.max p.lower bound)

def cutUpper (bound : α) (p : Progress α) : Progress α := p.setUpper (Scalar.min p.upper bound)

def boundsConverged (tolerance : α) (p : Progress α) : Bool :=
  Scalar.le p.upper (p.lower + tolerance)

def improves (objective : α) (p : Progress α) : Bool :=
  match p.bestObjective, p.sense with
  | none, _ => true
  | some best, .minimize => Scalar.lt objective best
  | some best, .maximize => Scalar.lt best objective

def offer (objective : α) (solution : Array α) (p : Progress α) : Bool × Progress α :=
  if p.improves objective then
    (true, { p with bestObjective := some objective, bestSolution := some solution })
  else (false, p)

def conclude (condition : Termination) (p : Progress α) : Progress α :=
  { p with results := { p.results with condition } }

def afterMasterOptimal (master : SubproblemResult α) (p : Progress α) : Progress α :=
  match p.sense with
  | .minimize => p.raiseLower master.lower
  | .maximize => p.cutUpper master.upper

/-- No assignment is left, so the bound of the master problem passes the one of the best point. -/
def afterMasterInfeasible (p : Progress α) : Progress α :=
  let p := match p.sense with
    | .minimize => (pushLower p.upper { p with lower := Scalar.infinity }).2
    | .maximize => (pushUpper p.lower { p with upper := -Scalar.infinity }).2
  p.conclude (if p.bestObjective.isSome then .optimal else .infeasible)

def afterMasterOther (master : SubproblemResult α) (p : Progress α) : Progress α :=
  match master.condition with
  | .maxTimeLimit | .maxIterations | .feasible =>
    match p.sense with
    | .minimize => if Scalar.isFinite master.lower then p.raiseLower master.lower else p
    | .maximize => if Scalar.isFinite master.upper then p.cutUpper master.upper else p
  | _ => p

def improvesBound (objective : α) (p : Progress α) : Bool :=
  match p.sense with
  | .minimize => Scalar.lt objective p.upper
  | .maximize => Scalar.lt p.lower objective

def afterFeasible (objective : α) (p : Progress α) : Progress α :=
  match p.sense with
  | .minimize => p.cutUpper objective
  | .maximize => p.raiseLower objective

/-- The bound of the master problem, computed anew from a solve without the last no-good cut and
from all recorded bounds but the last. -/
def correctBound (master : SubproblemResult α) (p : Progress α) : Progress α :=
  match p.sense with
  | .minimize => p.setLower (p.lowerHistory.dropLast.foldl Scalar.max master.lower)
  | .maximize => p.setUpper (p.upperHistory.dropLast.foldl Scalar.min master.upper)

def finalize (solveTime : α) (p : Progress α) : Results α :=
  { condition := p.results.condition
    lower := p.lower
    upper := p.upper
    iterations := p.masterIter
    solveTime
    bestObjective := p.bestObjective
    bestSolution := p.bestSolution }

end Progress

end NonlinearOpt.OuterApprox
