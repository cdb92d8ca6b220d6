import NonlinearOpt.OuterApprox.Progress
import NonlinearOpt.Timing.Clock
import NonlinearOpt.Timing.Timers

namespace NonlinearOpt.OuterApprox

/-- Problems with states `π` and objectives in `α`. Every operation may change the state, failing
ones too. -/
class MinlpProblem (π : Type) (α : outParam Type) where
  sense : π → Sense
  solveMaster : Progress α → MasterOptions → π → Except Error (SubproblemResult α) × π
  /-- Solves the problem with the integers of the last master solution. -/
  solveNlp : Progress α → Config α → π → Except Error (SubproblemResult α) × π
  /-- Values of the integer variables in the last master solution. -/
  integers : π → Array α × π
  /-- Linearizes around the last NLP solution. -/
  addCuts : Progress α → (zeroTolerance : α) → π → Except Error Unit × π
  /-- Cuts off the last assignment, which is infeasible. -/
  addFeasibilityCut : Progress α → (zeroTolerance : α) → π → Except Error Unit × π
  /-- Excludes the current assignment. -/
  addNoGoodCut : Progress α → π → Except Error Unit × π
  dropLastNoGoodCut : π → Except Error Unit × π
  /-- Whether the master solver keeps its model, so that it has to be loaded again after a change. -/
  isPersistent : π → Bool := fun _ => false
  reload : π → Except Error Unit × π := fun p => (.ok (), p)

class Rounding (α : Type) where
  /-- The nearest integer, halves going away from zero. -/
  round : α → Int

/-- Integers are kept to 64 bits; what is not a number counts as zero. -/
instance : Rounding Float where
  round x := x.round.toInt64.toInt

abbrev Callback (π α : Type) := Progress α → π → Except String Unit × π

structure Callbacks (π α : Type) where
  afterMaster : Option (Callback π α)
  afterNlp : Option (Callback π α)

namespace Callbacks

def none {π α : Type} : Callbacks π α := ⟨.none, .none⟩

end Callbacks

inductive Event (α : Type) where
  | iteration (number : Nat)
  | masterOptimal (number : Nat) (objective lower upper : α)
  | masterInfeasible
  | firstMasterInfeasible
  | masterOther (condition : Termination) (number : Nat)
  | incumbent (objective : α)
  | nlpOptimal (number : Nat) (objective lower upper : α)
  | nlpInfeasible
  | nlpOther (condition : Termination) (number : Nat)
  | converged (lower tolerance upper : α)
  | iterationLimit (number : Nat) (lower upper : α)
  | timeLimit (limit elapsed lower upper : α)
  | cycling (number : Nat) (lower upper : α)
  | corrected (condition : Termination)
  | finished (condition : Termination) (number : Nat) (lower upper : α)

structure State (π α : Type) where
  problem : π
  progress : Progress α
  config : Config α
  timers : Timers α
  clock : Clock α
  events : List (Event α)

namespace State

variable {π α : Type} [Scalar α] [MinlpProblem π α]

def new (problem : π) (config : Config α) (clock : Clock α) : State π α :=
  ⟨problem, .new (MinlpProblem.sense problem), config, .new, clock, []⟩

end State

abbrev Run (π α β : Type) := ExceptT Error (StateM (State π α)) β

namespace Run

variable {π α β : Type}

def progress : Run π α (Progress α) := do return (← get).progress

def config : Run π α (Config α) := do return (← get).config

def update (f : Progress α → Progress α) : Run π α Unit :=
  modify fun s => { s with progress := f s.progress }

def note (e : Event α) : Run π α Unit := modify fun s => { s with events := s.events ++ [e] }

def ask (f : Progress α → π → Except Error β × π) : Run π α β :=
  ExceptT.mk fun s =>
    let (answer, problem) := f s.progress s.problem
    (answer, { s with problem })

def call : Option (Callback π α) → Run π α Unit
  | none => return
  | some f => ask fun p problem => (f p problem).map (·.mapError .callback) id

def now : Run π α α :=
  ExceptT.mk fun s => (.ok s.clock.now, { s with clock := s.clock.tick })

def updateTimers (f : Timers α → Timers α) : Run π α Unit :=
  modify fun s => { s with timers := f s.timers }

end Run

end NonlinearOpt.OuterApprox
