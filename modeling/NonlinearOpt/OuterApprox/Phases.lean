import NonlinearOpt.OuterApprox.Problem

namespace NonlinearOpt.OuterApprox.Run

variable {π α : Type} [Scalar α] [MinlpProblem π α]

def onMasterOptimal (master : SubproblemResult α) : Run π α Unit := do
  update (·.afterMasterOptimal master)
  let p ← progress
  note (.masterOptimal p.masterIter master.objective p.lower p.upper)

def onMasterInfeasible : Run π α Unit := do
  note .masterInfeasible
  if (← progress).masterIter = 1 then note .firstMasterInfeasible
  update (·.afterMasterInfeasible)

def onMasterOther (master : SubproblemResult α) : Run π α Unit := do
  note (.masterOther master.condition (← progress).masterIter)
  update (·.afterMasterOther master)

def excludeAssignment : Run π α Unit := do
  if (← config).addNoGoodCuts then ask MinlpProblem.addNoGoodCut

def onNlpOptimal (nlp : SubproblemResult α) : Run π α Unit := do
  let improved := (← progress).improvesBound nlp.objective
  update (·.afterFeasible nlp.objective)
  if improved then
    update fun p => (p.offer nlp.objective nlp.solution).2
    note (.incumbent nlp.objective)
  let p ← progress
  note (.nlpOptimal p.masterIter nlp.objective p.lower p.upper)
  let zeroTolerance := (← config).zeroTolerance
  ask (MinlpProblem.addCuts · zeroTolerance)
  excludeAssignment

def onNlpInfeasible : Run π α Unit := do
  note .nlpInfeasible
  let zeroTolerance := (← config).zeroTolerance
  ask (MinlpProblem.addFeasibilityCut · zeroTolerance)
  excludeAssignment

def onNlpOther (condition : Termination) : Run π α Unit := do
  note (.nlpOther condition (← progress).masterIter)
  excludeAssignment

def onNlp (nlp : SubproblemResult α) : Run π α Unit :=
  match nlp.condition with
  | .optimal | .locallyOptimal => onNlpOptimal nlp
  | .infeasible => onNlpInfeasible
  | condition => onNlpOther condition

end NonlinearOpt.OuterApprox.Run
