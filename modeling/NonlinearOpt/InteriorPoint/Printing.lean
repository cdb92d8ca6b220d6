import NonlinearOpt.InteriorPoint.Solve
import NonlinearOpt.InteriorPoint.Report

/-!
A solve that writes its report while it runs. Text goes to a place that may refuse any piece of it,
at any time. A refusal ends the text of the event at hand and leaves a notice, and the solve goes on.
-/

namespace NonlinearOpt.InteriorPoint

@[ext]
structure Printout (σ ω : Type) where
  session : Session Float σ
  place : ω
  notices : List Notice

abbrev Printing (σ ω β : Type) := Attempt (Printout σ ω) β

namespace Printing

variable {σ ω β : Type}

def quietly (a : Work Float σ β) : Printing σ ω β :=
  Attempt.on Printout.session (fun session d => { d with session }) a

def tell (w : Writer ω) (e : Event Float) : Printing σ ω Unit := do
  quietly (Work.note e)
  modify fun d =>
    let (place, notices) := e.report w d.session.solver.settings d.place
    { d with place, notices := d.notices ++ notices }

def timed (name : String) (part : Printing σ ω β) : Printing σ ω β := do
  let t ← quietly Work.now
  quietly (Work.updateTimers (·.start t name))
  let x ← part
  let t ← quietly Work.now
  quietly (Work.updateTimers (·.stop t))
  return x

/-- Leaves the time that a part takes out of all measurements. -/
def untimed (part : Printing σ ω β) : Printing σ ω β := do
  let t ← quietly Work.now
  quietly (Work.updateTimers (·.suspend t))
  let x ← part
  let t ← quietly Work.now
  quietly (Work.updateTimers (·.resume t))
  return x

def checkConvergence (w : Writer ω) (iteration : Nat) (mu : Float) : Printing σ ω Bool := do
  let residuals ← quietly (Work.eval (·.residuals? 0))
  let objective ← quietly (Work.eval (·.objective?))
  quietly (Work.updateInfo fun i => { i with objective, residuals, iterations := iteration, mu })
  untimed (do tell w (.checked (← get).session.solver.info))
  return Scalar.le residuals.max (← quietly Work.settings).tolerance

variable [LinearSolver σ Float]

def factorize (w : Writer ω) (k : KktSystem Float) :
    Printing σ ω (Except RegularizationError (Regularization Float)) := do
  let r := (← get).session.solver.factorize k
  quietly (modify fun s => { s with solver := r.solver })
  r.events.forM fun e => tell w (.regularization e)
  return r.result

/-- One Newton step. The answer says how the solve ends, if it cannot go on. -/
def newtonStep (w : Writer ω) (iteration : Nat) (mu : Float) :
    Printing σ ω (Option Status) := do
  let k ← quietly (Work.timed "kkt assembly" (Work.eval (·.kkt?)))
  match ← timed "kkt factor" (factorize w k) with
  | .error e =>
    tell w (.stopped iteration e)
    return some (Work.failureStatus e)
  | .ok reg =>
    match ← quietly (Work.timed "kkt solve" (Work.backSolve k.dim reg.system.rhs)) with
    | .error e =>
      tell w (.stopped iteration (.linearSolver e))
      return some .numericalError
    | .ok solution =>
      quietly (Work.onProblem (BarrierProblem.setSolution solution))
      if (← get).session.problem.step.isFinite then
        quietly (Work.move mu reg.coefficient)
        return none
      else return some .numericalError

def iterate (w : Writer ω) : (remaining : Nat) → (mu : Float) → Printing σ ω Status
  | 0, mu => do
    if ← checkConvergence w (← quietly Work.settings).maxIter mu then return .optimal
    else return .maxIterations
  | remaining + 1, mu => do
    let s ← quietly Work.settings
    if ← checkConvergence w (s.maxIter - (remaining + 1)) mu then return .optimal
    else if Scalar.le s.timeLimit (← quietly Work.elapsed) then return .maxTime
    else
      let mu ← quietly (Work.reduceBarrier mu)
      match ← newtonStep w (s.maxIter - remaining) mu with
      | some status => return status
      | none => iterate w remaining mu

def solve (w : Writer ω) : Printing σ ω Status := do
  quietly Work.start
  let s := (← get).session
  let p := s.problem
  untimed (tell w (.started ⟨p.primals, p.equalities, p.inequalities⟩
    (LinearSolver.name s.solver.backend)))
  let c := s.solver.settings
  quietly (Work.onProblem (modify (·.setMu c.muInit)))
  let status ← timed "solve" (iterate w c.maxIter c.muInit)
  let solveTime ← quietly Work.elapsed
  quietly (Work.updateInfo fun i => { i with status, solveTime })
  tell w (.finished (← get).session.solver.info)
  quietly (modify fun s => { s with solver := { s.solver with timers := some s.timers } })
  return status

end Printing

def Solver.print {σ ω : Type} [LinearSolver σ Float] (w : Writer ω) (s : Solver Float σ)
    (p : BarrierProblem Float) (clock : Clock Float) (place : ω) :
    Option Status × Printout σ ω :=
  (Printing.solve (σ := σ) w).run ⟨⟨s, p, .new, clock, []⟩, place, []⟩

end NonlinearOpt.InteriorPoint
