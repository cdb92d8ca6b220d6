import NonlinearOpt.Proofs.OuterApprox.Run

namespace NonlinearOpt.OuterApprox

theorem Strategy.isImplemented_iff {strategy : Strategy} :
    strategy.isImplemented = true ↔ strategy = .oa ∨ strategy = .goa := by
  cases strategy <;> decide

namespace Run

variable {π α : Type}

def compareAssignment (assignment : List Int) : Run π α Bool := do
  update fun p => { p with assignment }
  if (← progress).previousAssignment = some assignment then return true
  update fun p => { p with previousAssignment := some assignment }
  return false

def stop (e : Event α) (condition : Termination) : Run π α Bool := do
  note e
  update (·.conclude condition)
  return true

variable [MinlpProblem π α]

theorem repeatsAssignment_eq [Rounding α] :
    (repeatsAssignment : Run π α Bool) = (do
      let values ← ask fun _ problem => (MinlpProblem.integers problem).map .ok id
      compareAssignment (values.toList.map Rounding.round)) :=
  rfl

def nextMaster : Run π α (SubproblemResult α) := do
  update fun p => { p with subIter := 0, masterIter := p.masterIter + 1 }
  let options := (← config).masterOptions
  ask (MinlpProblem.solveMaster · options)

def linearize (nlp : SubproblemResult α) : Run π α Unit := do
  let p ← progress
  note (.nlpOptimal p.masterIter nlp.objective p.lower p.upper)
  let zeroTolerance := (← config).zeroTolerance
  ask (MinlpProblem.addCuts · zeroTolerance)
  excludeAssignment

variable [Scalar α]

theorem onNlpOptimal_eq (nlp : SubproblemResult α) :
    (onNlpOptimal nlp : Run π α Unit) = (do
      let improved := (← progress).improvesBound nlp.objective
      update (·.afterFeasible nlp.objective)
      if improved then
        update fun p => (p.offer nlp.objective nlp.solution).2
        note (.incumbent nlp.objective)
      linearize nlp) :=
  rfl

def takeCorrection (c : Config α) (master : SubproblemResult α) : Run π α Unit := do
  note (.corrected master.condition)
  update (·.correctBound master)
  if (← progress).boundsConverged c.boundTolerance then update (·.conclude .optimal)

def dropLast : Run π α Bool := do
  ask fun _ problem => MinlpProblem.dropLastNoGoodCut problem
  return MinlpProblem.isPersistent (← get).problem

def resolve (c : Config α) : Run π α Unit := do
  if ← dropLast then ask fun _ problem => MinlpProblem.reload problem
  takeCorrection c (← ask (MinlpProblem.solveMaster · (correctionOptions c)))

def amend (settled : Bool) (c : Config α) : Run π α Unit := do
  if !settled then onNlp (← ask (MinlpProblem.solveNlp · c))
  resolve c

theorem correctBound_eq (settled : Bool) :
    (correctBound settled : Run π α Unit) = (do
      modify fun s => { s with config := { s.config with zeroTolerance := 1e-4 } }
      amend settled (← config)) := by
  unfold correctBound amend resolve dropLast
  simp only [bind_assoc, pure_bind]
  rfl

theorem correctBound_run (settled : Bool) (s : State π α) :
    (correctBound settled).run.run s =
      (amend settled { s.config with zeroTolerance := 1e-4 }).run.run
        { s with config := { s.config with zeroTolerance := 1e-4 } } := by
  rw [correctBound_eq]
  rfl

variable [Rounding α]

def stopIfCycling (c : Config α) (p : Progress α) (checkCycling : Bool) : Run π α Bool := do
  if c.cyclingCheck && decide (1 ≤ p.masterIter) && checkCycling then
    if ← repeatsAssignment then stop (.cycling p.masterIter p.lower p.upper) .feasible
    else return false
  else return false

theorem shouldTerminate_eq (checkCycling : Bool) :
    (shouldTerminate checkCycling : Run π α Bool) = (do
      let c ← config
      let p ← progress
      if p.boundsConverged c.boundTolerance then
        stop (.converged p.lower c.boundTolerance p.upper) .optimal
      else if c.iterationLimit ≤ p.masterIter then
        stop (.iterationLimit p.masterIter p.lower p.upper) .maxIterations
      else
        let t ← elapsed
        if Scalar.le c.timeLimit t then
          stop (.timeLimit c.timeLimit t p.lower p.upper) .maxTimeLimit
        else stopIfCycling c p checkCycling) :=
  rfl

def tryAssignment (callbacks : Callbacks π α) : Run π α (Option Bool) := do
  call callbacks.afterMaster
  if ← shouldTerminate true then return some false
  else
    nlpPhase callbacks
    return none

theorem iteration_eq (callbacks : Callbacks π α) :
    (iteration callbacks : Run π α (Option Bool)) = (do
      note (.iteration (← progress).masterIter)
      if ← shouldTerminate false then return some true
      else
        let master ← nextMaster
        if master.condition = .infeasible then
          onMasterInfeasible
          return some true
        else
          if master.condition = .optimal then onMasterOptimal master else onMasterOther master
          tryAssignment callbacks) :=
  rfl

def search (callbacks : Callbacks π α) : Run π α Bool := do
  let c ← config
  if !c.strategy.isImplemented then throw (.notImplemented c.strategy)
  else iterate callbacks (c.iterationLimit - (← progress).masterIter)

def correctIfExcluded (c : Config α) (settled : Bool) : Run π α Unit := do
  if c.addNoGoodCuts && decide (0 < (← progress).masterIter) then correctBound settled

theorem search_run (callbacks : Callbacks π α) (s : State π α)
    (h : s.config.strategy.isImplemented = true) :
    (search callbacks).run.run s =
      (iterate callbacks (s.config.iterationLimit - s.progress.masterIter)).run.run s := by
  unfold search
  rw [run_bind]
  show (if !s.config.strategy.isImplemented then _ else _ : Run π α Bool).run.run s = _
  rw [h, if_neg (by decide)]
  rfl

theorem search_run_of_not_implemented (callbacks : Callbacks π α) (s : State π α)
    (h : s.config.strategy.isImplemented = false) :
    (search callbacks).run.run s = (.error (.notImplemented s.config.strategy), s) := by
  unfold search
  rw [run_bind]
  show (if !s.config.strategy.isImplemented then _ else _ : Run π α Bool).run.run s = _
  rw [h, if_pos (by decide)]
  rfl

/-- A loop is a search with a correction after it. -/
theorem loop_run_eq_search (callbacks : Callbacks π α) (s : State π α) :
    (loop callbacks).run.run s =
      (search callbacks >>= correctIfExcluded s.config).run.run s := by
  unfold loop
  rw [run_bind, run_bind]
  show (if !s.config.strategy.isImplemented then _ else _ : Run π α Unit).run.run s = _
  cases himplemented : s.config.strategy.isImplemented with
  | false =>
    rw [search_run_of_not_implemented callbacks s himplemented, if_pos (by decide)]
    rfl
  | true =>
    rw [search_run callbacks s himplemented, if_neg (by decide), run_bind]
    exact run_bind _ _ s

theorem loop_run (callbacks : Callbacks π α) (s : State π α)
    (h : s.config.strategy.isImplemented = true) :
    (loop callbacks).run.run s =
      match (iterate callbacks (s.config.iterationLimit - s.progress.masterIter)).run.run s with
      | (.ok settled, t) =>
        if s.config.addNoGoodCuts && decide (0 < t.progress.masterIter) then
          (correctBound settled).run.run t
        else (.ok (), t)
      | (.error e, t) => (.error e, t) := by
  rw [loop_run_eq_search, run_bind, search_run callbacks s h]
  cases (iterate callbacks (s.config.iterationLimit - s.progress.masterIter)).run.run s with
  | mk r t =>
    cases r with
    | error e => rfl
    | ok settled =>
      show (if s.config.addNoGoodCuts && decide (0 < t.progress.masterIter) then
          correctBound settled else pure ()).run.run t =
        if s.config.addNoGoodCuts && decide (0 < t.progress.masterIter) then
          (correctBound settled).run.run t
        else (.ok (), t)
      split <;> rfl

theorem loop_run_of_not_implemented (callbacks : Callbacks π α) (s : State π α)
    (h : s.config.strategy.isImplemented = false) :
    (loop callbacks).run.run s = (.error (.notImplemented s.config.strategy), s) := by
  rw [loop_run_eq_search, run_bind, search_run_of_not_implemented callbacks s h]

end Run

end NonlinearOpt.OuterApprox
