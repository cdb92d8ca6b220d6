import NonlinearOpt.InteriorPoint.Solver

namespace NonlinearOpt.InteriorPoint

structure Session (α σ : Type) where
  solver : Solver α σ
  problem : BarrierProblem α
  timers : Timers α
  clock : Clock α
  events : List (Event α)

/-- A part of a solve. It breaks off where the program is undefined. -/
abbrev Work (α σ β : Type) := Attempt (Session α σ) β

namespace Work

variable {α σ β : Type} [Scalar α]

def settings : Work α σ (Settings α) := do return (← get).solver.settings

def note (e : Event α) : Work α σ Unit := modify fun s => { s with events := s.events ++ [e] }

def onProblem (a : Attempt (BarrierProblem α) β) : Work α σ β :=
  Attempt.on Session.problem (fun problem s => { s with problem }) a

def eval (f : BarrierProblem α → Option β) : Work α σ β := do
  Attempt.ofOption (f (← get).problem)

def updateInfo (f : Info α → Info α) : Work α σ Unit :=
  modify fun s => { s with solver := { s.solver with info := f s.solver.info } }

def now : Work α σ α := do
  let s ← get
  set { s with clock := s.clock.tick }
  return s.clock.now

def updateTimers (f : Timers α → Timers α) : Work α σ Unit :=
  modify fun s => { s with timers := f s.timers }

def timed (name : String) (part : Work α σ β) : Work α σ β := do
  let t ← now
  updateTimers (·.start t name)
  let x ← part
  let t ← now
  updateTimers (·.stop t)
  return x

def untimed (part : Work α σ β) : Work α σ β := do
  let t ← now
  updateTimers (·.suspend t)
  let x ← part
  let t ← now
  updateTimers (·.resume t)
  return x

def elapsed : Work α σ α := do
  let t ← now
  return (← get).timers.elapsed t "solve"

def checkConvergence (iteration : Nat) (mu : α) : Work α σ Bool := do
  let residuals ← eval (·.residuals? 0)
  let objective ← eval (·.objective?)
  updateInfo fun i => { i with objective, residuals, iterations := iteration, mu }
  untimed (do note (.checked (← get).solver.info))
  return Scalar.le residuals.max (← settings).tolerance

def reduceBarrier (mu : α) : Work α σ α := do
  let s ← settings
  let residuals ← eval (·.residuals? mu)
  if Scalar.le residuals.max (s.barrierTolFactor * mu) then
    let mu := Solver.nextMu s mu
    onProblem (modify (·.setMu mu))
    return mu
  else return mu

variable [LinearSolver σ α]

def factorize (k : KktSystem α) : Work α σ (Except RegularizationError (Regularization α)) := do
  let s ← get
  let r := s.solver.factorize k
  set { s with solver := r.solver, events := s.events ++ r.events.map Event.regularization }
  return r.result

def backSolve (size : Nat) (rhs : Array α) :
    Work α σ (Except LinearSolverError (Array α)) := do
  Attempt.ofOption (LinearSolver.solve? (← get).solver.backend size rhs)

def failureStatus : RegularizationError → Status
  | .exhausted .. => .regularizationFailure
  | _ => .numericalError

def move (mu coefficient : α) : Work α σ Unit := do
  let tau := Scalar.max (← settings).tauMin (1 - mu)
  let (primal, dual) := (← get).problem.stepLengths tau
  onProblem (BarrierProblem.takeStep primal dual)
  updateInfo fun i =>
    { i with stepPrimal := primal, stepDual := dual, regularization := coefficient }

/-- One Newton step. The answer says how the solve ends, if it cannot go on. -/
def newtonStep (iteration : Nat) (mu : α) : Work α σ (Option Status) := do
  let k ← timed "kkt assembly" (eval (·.kkt?))
  match ← timed "kkt factor" (factorize k) with
  | .error e =>
    note (.stopped iteration e)
    return some (failureStatus e)
  | .ok reg =>
    match ← timed "kkt solve" (backSolve k.dim reg.system.rhs) with
    | .error e =>
      note (.stopped iteration (.linearSolver e))
      return some .numericalError
    | .ok solution =>
      onProblem (BarrierProblem.setSolution solution)
      if (← get).problem.step.isFinite then
        move mu reg.coefficient
        return none
      else return some .numericalError

def iterate : (remaining : Nat) → (mu : α) → Work α σ Status
  | 0, mu => do
    if ← checkConvergence (← settings).maxIter mu then return .optimal else return .maxIterations
  | remaining + 1, mu => do
    let s ← settings
    if ← checkConvergence (s.maxIter - (remaining + 1)) mu then return .optimal
    else if Scalar.le s.timeLimit (← elapsed) then return .maxTime
    else
      let mu ← reduceBarrier mu
      match ← newtonStep (s.maxIter - remaining) mu with
      | some status => return status
      | none => iterate remaining mu

def start : Work α σ Unit :=
  modify fun s =>
    let solver := s.solver.setProblem s.problem
    { s with
      solver := { solver with info := solver.info.reset, timers := none }
      timers := (solver.timers.getD .new).reset "solve" }

/-- A solve from the current point of the problem. The point that it ends with stays there. -/
def solve : Work α σ Status := do
  start
  let s ← get
  let p := s.problem
  untimed (note (.started ⟨p.primals, p.equalities, p.inequalities⟩
    (LinearSolver.name s.solver.backend)))
  let c := s.solver.settings
  onProblem (modify (·.setMu c.muInit))
  let status ← timed "solve" (iterate c.maxIter c.muInit)
  let solveTime ← elapsed
  updateInfo fun i => { i with status, solveTime }
  note (.finished (← get).solver.info)
  modify fun s => { s with solver := { s.solver with timers := some s.timers } }
  return status

end Work

namespace Solver

variable {α σ : Type} [Scalar α] [LinearSolver σ α]

def solve (s : Solver α σ) (p : BarrierProblem α) (clock : Clock α) :
    Option Status × Session α σ :=
  (Work.solve (α := α) (σ := σ)).run ⟨s, p, .new, clock, []⟩

end Solver

end NonlinearOpt.InteriorPoint
