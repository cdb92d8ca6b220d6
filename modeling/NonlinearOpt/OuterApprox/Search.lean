import NonlinearOpt.OuterApprox.Phases

/-!
Outer approximation. The master problem gives an integer assignment and a bound; the subproblem at
that assignment gives a feasible point, the other bound, and cuts for the master problem. This goes
on until the bounds meet, no assignment is left, or a limit is reached. If assignments were excluded
from the master problem, its last bound is corrected at the end.
-/

namespace NonlinearOpt.OuterApprox

namespace Run

variable {π α : Type} [Scalar α] [Rounding α] [MinlpProblem π α]

/-- Time since the run was started, zero if its timer was not. -/
def elapsed : Run π α α := do
  let t ← now
  return (← get).timers.elapsed t "main"

def repeatsAssignment : Run π α Bool := do
  let values ← ask fun _ problem => (MinlpProblem.integers problem).map .ok id
  let assignment := values.toList.map Rounding.round
  update fun p => { p with assignment }
  if (← progress).previousAssignment = some assignment then return true
  update fun p => { p with previousAssignment := some assignment }
  return false

def shouldTerminate (checkCycling : Bool) : Run π α Bool := do
  let c ← config
  let p ← progress
  if p.boundsConverged c.boundTolerance then
    note (.converged p.lower c.boundTolerance p.upper)
    update (·.conclude .optimal)
    return true
  else if c.iterationLimit ≤ p.masterIter then
    note (.iterationLimit p.masterIter p.lower p.upper)
    update (·.conclude .maxIterations)
    return true
  else
    let t ← elapsed
    if Scalar.le c.timeLimit t then
      note (.timeLimit c.timeLimit t p.lower p.upper)
      update (·.conclude .maxTimeLimit)
      return true
    else if c.cyclingCheck && decide (1 ≤ p.masterIter) && checkCycling then
      if ← repeatsAssignment then
        note (.cycling p.masterIter p.lower p.upper)
        update (·.conclude .feasible)
        return true
      else return false
    else return false

def nlpPhase (callbacks : Callbacks π α) : Run π α Unit := do
  let c ← config
  if !c.singleTree then
    onNlp (← ask (MinlpProblem.solveNlp · c))
    call callbacks.afterNlp

/-- One iteration. If it is the last one, the answer tells whether the current assignment has been
dealt with, by cuts or because there is none. -/
def iteration (callbacks : Callbacks π α) : Run π α (Option Bool) := do
  note (.iteration (← progress).masterIter)
  if ← shouldTerminate false then return some true
  else
    update fun p => { p with subIter := 0, masterIter := p.masterIter + 1 }
    let options := (← config).masterOptions
    let master ← ask (MinlpProblem.solveMaster · options)
    if master.condition = .infeasible then
      onMasterInfeasible
      return some true
    else
      if master.condition = .optimal then onMasterOptimal master else onMasterOther master
      call callbacks.afterMaster
      if ← shouldTerminate true then return some false
      else
        nlpPhase callbacks
        return none

/-- Iterates at most `fuel` times. Without fuel the iteration limit has been reached. -/
def iterate (callbacks : Callbacks π α) : (fuel : Nat) → Run π α Bool
  | 0 => do
    note (.iteration (← progress).masterIter)
    let _ ← shouldTerminate false
    return true
  | fuel + 1 => do
    match ← iteration callbacks with
    | some settled => return settled
    | none => iterate callbacks fuel

def correctionOptions (c : Config α) : MasterOptions :=
  if c.mipSolver = "gams" then
    { c.masterOptions with statements := c.masterOptions.statements ++ ["option optcr=0.0;"] }
  else c.masterOptions

/-- Solves the master problem once more without the last no-good cut, which may exclude the optimal
assignment, and corrects the bound. -/
def correctBound (settled : Bool) : Run π α Unit := do
  modify fun s => { s with config := { s.config with zeroTolerance := 1e-4 } }
  let c ← config
  -- the run may have ended between a master problem and its subproblem
  if !settled then onNlp (← ask (MinlpProblem.solveNlp · c))
  ask fun _ problem => MinlpProblem.dropLastNoGoodCut problem
  if MinlpProblem.isPersistent (← get).problem then
    ask fun _ problem => MinlpProblem.reload problem
  let master ← ask (MinlpProblem.solveMaster · (correctionOptions c))
  note (.corrected master.condition)
  update (·.correctBound master)
  if (← progress).boundsConverged c.boundTolerance then update (·.conclude .optimal)

def loop (callbacks : Callbacks π α) : Run π α Unit := do
  let c ← config
  if !c.strategy.isImplemented then throw (.notImplemented c.strategy)
  else
    let settled ← iterate callbacks (c.iterationLimit - (← progress).masterIter)
    if c.addNoGoodCuts && decide (0 < (← progress).masterIter) then correctBound settled

def solve (callbacks : Callbacks π α) : Run π α (Results α) := do
  let t ← now
  updateTimers (·.start t "main")
  loop callbacks
  let t ← now
  updateTimers (·.stop t)
  let t ← elapsed
  update fun p => { p with results := p.finalize t }
  let r := (← progress).results
  note (.finished r.condition r.iterations r.lower r.upper)
  return r

end Run

end NonlinearOpt.OuterApprox
