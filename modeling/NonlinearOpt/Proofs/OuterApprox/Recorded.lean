import NonlinearOpt.Proofs.OuterApprox.Simulation

/-!
The answers that a run receives. A problem can be made to keep a record of what it is asked and of
what it answers; a run with a recording problem is the run with the problem itself, so that the
record tells what happens there.
-/

namespace NonlinearOpt.OuterApprox

/-- What a problem is asked for and gives back, as far as bounds and excluded assignments go. -/
inductive Exchange (A α : Type) where
  /-- The answer of a master problem, with the assignment that it leaves as the current one. -/
  | master (result : SubproblemResult α) (assignment : A)
  | nlp (result : SubproblemResult α)
  /-- A no-good cut for the current assignment. -/
  | excluded
  /-- The last no-good cut is taken back. -/
  | readmitted

structure Recorded (π A α : Type) where
  /-- How the current assignment is read off the problem. -/
  assignment : π → A
  problem : π
  log : List (Exchange A α)

variable {π A α β γ ε : Type}

namespace Recorded

def record (r : Recorded π A α) (entry : β → π → List (Exchange A α)) :
    Except ε β × π → Except ε β × Recorded π A α
  | (.ok b, problem) => (.ok b, { r with problem, log := r.log ++ entry b problem })
  | (.error e, problem) => (.error e, { r with problem })

theorem record_forget (r : Recorded π A α) (entry : β → π → List (Exchange A α))
    (x : Except ε β × π) : x = (r.record entry x).map id Recorded.problem := by
  rcases x with ⟨_ | _, _⟩ <;> rfl

theorem record_eq_ok {r r' : Recorded π A α} {entry : β → π → List (Exchange A α)}
    {x : Except ε β × π} {b : β} (h : r.record entry x = (.ok b, r')) :
    r'.log = r.log ++ entry b r'.problem ∧ r'.assignment = r.assignment := by
  rcases x with ⟨_ | _, _⟩ <;> cases h
  exact ⟨rfl, rfl⟩

instance [MinlpProblem π α] : MinlpProblem (Recorded π A α) α where
  sense r := MinlpProblem.sense r.problem
  solveMaster p options r :=
    r.record (fun result problem => [.master result (r.assignment problem)])
      (MinlpProblem.solveMaster p options r.problem)
  solveNlp p c r := r.record (fun result _ => [.nlp result]) (MinlpProblem.solveNlp p c r.problem)
  integers r := ((MinlpProblem.integers r.problem).1,
    { r with problem := (MinlpProblem.integers r.problem).2 })
  addCuts p zeroTolerance r :=
    r.record (fun _ _ => []) (MinlpProblem.addCuts p zeroTolerance r.problem)
  addFeasibilityCut p zeroTolerance r :=
    r.record (fun _ _ => []) (MinlpProblem.addFeasibilityCut p zeroTolerance r.problem)
  addNoGoodCut p r := r.record (fun _ _ => [.excluded]) (MinlpProblem.addNoGoodCut p r.problem)
  dropLastNoGoodCut r :=
    r.record (fun _ _ => [.readmitted]) (MinlpProblem.dropLastNoGoodCut r.problem)
  isPersistent r := MinlpProblem.isPersistent r.problem
  reload r := r.record (fun _ _ => []) (MinlpProblem.reload r.problem)

def callback (f : Callback π α) : Callback (Recorded π A α) α :=
  fun p r => r.record (fun _ _ => []) (f p r.problem)

end Recorded

def Callbacks.recorded (c : Callbacks π α) : Callbacks (Recorded π A α) α :=
  ⟨c.afterMaster.map Recorded.callback, c.afterNlp.map Recorded.callback⟩

namespace Run

theorem call_callback (f : Callback π α) :
    call (some (Recorded.callback f)) = (ask fun p r =>
      r.record (fun _ _ => []) ((f p r.problem).map (·.mapError .callback) id) :
        Run (Recorded π A α) α Unit) := by
  show (ask fun p r => (Recorded.callback f p r).map (·.mapError .callback) id) = _
  congr 1
  funext p r
  unfold Recorded.callback
  rcases f p r.problem with ⟨_ | _, _⟩ <;> rfl

theorem simulates_callbacks_recorded (callbacks : Callbacks π α) :
    (callbacks.recorded (A := A)).Simulates Recorded.problem callbacks :=
  Callbacks.simulates_map (fun call p r => Recorded.record_forget r _ (call p r.problem))
    (fun call p r => Recorded.record_forget r _ (call p r.problem)) callbacks

variable [MinlpProblem π α]

theorem simulates_recorded : Simulates (Recorded.problem : Recorded π A α → π) where
  solveMaster _ _ r := Recorded.record_forget r _ _
  solveNlp _ _ r := Recorded.record_forget r _ _
  integers _ := rfl
  addCuts _ _ r := Recorded.record_forget r _ _
  addFeasibilityCut _ _ r := Recorded.record_forget r _ _
  addNoGoodCut _ r := Recorded.record_forget r _ _
  dropLastNoGoodCut r := Recorded.record_forget r _ _
  isPersistent _ := rfl
  reload r := Recorded.record_forget r _ _

variable [Scalar α] [Rounding α]

def recordedStart (assignment : π → A) (problem : π) (config : Config α) (clock : Clock α) :
    State (Recorded π A α) α :=
  .new ⟨assignment, problem, []⟩ config clock

def exchanges (assignment : π → A) (callbacks : Callbacks π α) (problem : π) (config : Config α)
    (clock : Clock α) : List (Exchange A α) :=
  ((solve callbacks.recorded).run.run
    (recordedStart assignment problem config clock)).2.problem.log

/-- Every run that gets through is that of a recording problem. -/
theorem exists_recorded_run (assignment : π → A) {callbacks : Callbacks π α} {problem : π}
    {config : Config α} {clock : Clock α} {r : Results α} {s : State π α}
    (hrun : (solve callbacks).run.run (.new problem config clock) = (.ok r, s)) :
    ∃ t, (solve callbacks.recorded).run.run (recordedStart assignment problem config clock) =
        (.ok r, t) ∧ t.problem.log = exchanges assignment callbacks problem config clock := by
  have hmirrors := mirrors_solve simulates_recorded (simulates_callbacks_recorded callbacks)
    (recordedStart assignment problem config clock)
  have hstart : (recordedStart assignment problem config clock).mapProblem Recorded.problem =
      State.new problem config clock := rfl
  rw [hstart, hrun] at hmirrors
  exact ⟨_, Prod.ext (congrArg Prod.fst hmirrors).symm rfl, rfl⟩

end Run

end NonlinearOpt.OuterApprox
