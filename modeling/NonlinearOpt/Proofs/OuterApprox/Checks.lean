import NonlinearOpt.Proofs.OuterApprox.Parts

/-!
The checks of a search. An iteration comes in two parts: up to the master solve that it counts, and
from the check after it. All that a search remembers of assignments it learns in these checks, and
neither the phases nor the problem and the callbacks change it in between.
-/

namespace NonlinearOpt.OuterApprox

variable {π α β γ ρ : Type}

def Progress.memory (p : Progress α) : Nat × Option (List Int) × List Int × Termination :=
  (p.masterIter, p.previousAssignment, p.assignment, p.results.condition)

/-- Nothing is remembered or forgotten between two states, and the problem looks the same. -/
structure Same (look : π → ρ) (s t : State π α) : Prop where
  memory : t.progress.memory = s.progress.memory
  config : t.config = s.config
  look : look t.problem = look s.problem

structure Overlooks [MinlpProblem π α] (look : π → ρ) (callbacks : Callbacks π α) : Prop where
  solveMaster : ∀ p options r, look (MinlpProblem.solveMaster p options r).2 = look r
  integers : ∀ r, look (MinlpProblem.integers r).2 = look r
  addCuts : ∀ p zeroTolerance r, look (MinlpProblem.addCuts p zeroTolerance r).2 = look r
  addFeasibilityCut : ∀ p zeroTolerance r,
    look (MinlpProblem.addFeasibilityCut p zeroTolerance r).2 = look r
  addNoGoodCut : ∀ p r, look (MinlpProblem.addNoGoodCut p r).2 = look r
  dropLastNoGoodCut : ∀ r, look (MinlpProblem.dropLastNoGoodCut r).2 = look r
  reload : ∀ r, look (MinlpProblem.reload r).2 = look r
  afterMaster : ∀ f ∈ callbacks.afterMaster, ∀ p r, look (f p r).2 = look r
  afterNlp : ∀ f ∈ callbacks.afterNlp, ∀ p r, look (f p r).2 = look r

structure ShowsTried [MinlpProblem π α] (look : π → List (List Int)) (callbacks : Callbacks π α) :
    Prop extends Overlooks look callbacks where
  solveNlp : ∀ p c r, look (MinlpProblem.solveNlp p c r).2 = look r ++ [p.assignment]

structure Quits (look : π → ρ) (s t : State π α) : Prop where
  previous : t.progress.previousAssignment = s.progress.previousAssignment
  look : look t.problem = look s.problem
  condition : t.progress.results.condition = .feasible → s.progress.results.condition = .feasible

section Same

variable {look : π → ρ} {s t u : State π α}

theorem Same.refl (s : State π α) : Same look s s := ⟨rfl, rfl, rfl⟩

theorem Same.trans (hst : Same look s t) (htu : Same look t u) : Same look s u :=
  ⟨htu.memory.trans hst.memory, htu.config.trans hst.config, htu.look.trans hst.look⟩

theorem Same.masterIter (h : Same look s t) : t.progress.masterIter = s.progress.masterIter :=
  congrArg (·.1) h.memory

theorem Same.previous (h : Same look s t) :
    t.progress.previousAssignment = s.progress.previousAssignment :=
  congrArg (·.2.1) h.memory

theorem Same.assignment (h : Same look s t) : t.progress.assignment = s.progress.assignment :=
  congrArg (·.2.2.1) h.memory

theorem Same.condition (h : Same look s t) :
    t.progress.results.condition = s.progress.results.condition :=
  congrArg (·.2.2.2) h.memory

theorem Same.quits (h : Same look s t) : Quits look s t :=
  ⟨h.previous, h.look, fun hfeasible => h.condition ▸ hfeasible⟩

theorem Quits.trans (hst : Quits look s t) (htu : Quits look t u) : Quits look s u :=
  ⟨htu.previous.trans hst.previous, htu.look.trans hst.look,
    fun hfeasible => hst.condition (htu.condition hfeasible)⟩

end Same

namespace State

variable [Scalar α] [MinlpProblem π α] [Rounding α]

/-- The integers of the last master solution, rounded. -/
def rounded (t : State π α) : List Int :=
  (MinlpProblem.integers t.problem).1.toList.map Rounding.round

omit [MinlpProblem π α] [Rounding α] in
structure Undecided (t : State π α) : Prop where
  unconverged : t.progress.boundsConverged t.config.boundTolerance = false
  masters : t.progress.masterIter < t.config.iterationLimit
  time : Scalar.le t.config.timeLimit (t.timers.elapsed t.clock.now "main") = false

end State

namespace Run

def Fixes (look : π → ρ) (m : Run π α β) : Prop := ∀ s, Same look s (m.run.run s).2

section Fixes

variable {look : π → ρ}

theorem fixes_pure (b : β) : Fixes look (pure b : Run π α β) := fun s => .refl s

theorem fixes_bind {m : Run π α γ} {f : γ → Run π α β} (hm : Fixes look m)
    (hf : ∀ c, Fixes look (f c)) : Fixes look (m >>= f) := by
  intro s
  rw [run_bind]
  have hfirst := hm s
  cases hrun : m.run.run s with
  | mk c t =>
    rw [hrun] at hfirst
    cases c with
    | error e => exact hfirst
    | ok c => exact hfirst.trans (hf c t)

theorem Fixes.run {m : Run π α β} (h : Fixes look m) (s : State π α) :
    (∃ b t, m.run.run s = (.ok b, t) ∧ Same look s t) ∨
      ∃ e t, m.run.run s = (.error e, t) ∧ Same look s t := by
  have hs := h s
  cases hrun : m.run.run s with
  | mk r t =>
    rw [hrun] at hs
    cases r with
    | error e => exact .inr ⟨e, t, rfl, hs⟩
    | ok b => exact .inl ⟨b, t, rfl, hs⟩

theorem fixes_progress_bind {f : Progress α → Run π α β} (h : ∀ p, Fixes look (f p)) :
    Fixes look (progress >>= f) :=
  fun s => h s.progress s

theorem fixes_config_bind {f : Config α → Run π α β} (h : ∀ c, Fixes look (f c)) :
    Fixes look (config >>= f) :=
  fun s => h s.config s

theorem fixes_note (e : Event α) : Fixes look (note e : Run π α Unit) := fun _ => ⟨rfl, rfl, rfl⟩

theorem fixes_update {f : Progress α → Progress α} (h : ∀ p, (f p).memory = p.memory) :
    Fixes look (update f : Run π α Unit) :=
  fun s => ⟨h s.progress, rfl, rfl⟩

theorem fixes_ask {f : Progress α → π → Except Error β × π}
    (h : ∀ p r, look (f p r).2 = look r) : Fixes look (ask f) :=
  fun s => ⟨rfl, rfl, h s.progress s.problem⟩

theorem fixes_call {f : Option (Callback π α)} (h : ∀ g ∈ f, ∀ p r, look (g p r).2 = look r) :
    Fixes look (call f) := by
  cases f with
  | none => exact fixes_pure ()
  | some g => exact fixes_ask fun p r => h g rfl p r

theorem fixes_onMasterOptimal [Scalar α] (master : SubproblemResult α) :
    Fixes look (onMasterOptimal master : Run π α Unit) := by
  apply fixes_bind
  · apply fixes_update
    intro p
    unfold Progress.afterMasterOptimal
    cases p.sense <;> rfl
  intro _
  exact fixes_progress_bind fun _ => fixes_note _

theorem fixes_onMasterOther [Scalar α] (master : SubproblemResult α) :
    Fixes look (onMasterOther master : Run π α Unit) := by
  apply fixes_progress_bind
  intro _
  apply fixes_bind (fixes_note _)
  intro _
  apply fixes_update
  intro p
  unfold Progress.afterMasterOther
  split
  all_goals (try rfl)
  all_goals (split <;> split <;> rfl)

end Fixes

section Questions

variable [MinlpProblem π α] {look : π → ρ} {callbacks : Callbacks π α}
  (h : Overlooks look callbacks)

include h

theorem fixes_excludeAssignment : Fixes look (excludeAssignment : Run π α Unit) := by
  apply fixes_config_bind
  intro c
  split
  · exact fixes_ask h.addNoGoodCut
  · exact fixes_pure _

theorem fixes_linearize (nlp : SubproblemResult α) :
    Fixes look (linearize nlp : Run π α Unit) := by
  apply fixes_progress_bind
  intro p
  apply fixes_bind (fixes_note _)
  intro _
  apply fixes_config_bind
  intro c
  exact fixes_bind (fixes_ask fun p => h.addCuts p c.zeroTolerance) fun _ =>
    fixes_excludeAssignment h

theorem fixes_onNlpInfeasible : Fixes look (onNlpInfeasible : Run π α Unit) := by
  apply fixes_bind (fixes_note _)
  intro _
  apply fixes_config_bind
  intro c
  exact fixes_bind (fixes_ask fun p => h.addFeasibilityCut p c.zeroTolerance) fun _ =>
    fixes_excludeAssignment h

theorem fixes_onNlpOther (condition : Termination) :
    Fixes look (onNlpOther condition : Run π α Unit) := by
  apply fixes_progress_bind
  intro p
  exact fixes_bind (fixes_note _) fun _ => fixes_excludeAssignment h

variable [Scalar α]

theorem fixes_onNlpOptimal (nlp : SubproblemResult α) :
    Fixes look (onNlpOptimal nlp : Run π α Unit) := by
  rw [onNlpOptimal_eq]
  apply fixes_progress_bind
  intro _
  apply fixes_bind
  · apply fixes_update
    intro p
    unfold Progress.afterFeasible
    cases p.sense <;> rfl
  intro _
  split
  · apply fixes_bind
    · apply fixes_update
      intro p
      unfold Progress.offer
      split <;> rfl
    intro _
    exact fixes_bind (fixes_note _) fun _ => fixes_linearize h nlp
  · exact fixes_linearize h nlp

theorem fixes_onNlp (nlp : SubproblemResult α) : Fixes look (onNlp nlp : Run π α Unit) := by
  unfold onNlp
  split
  · exact fixes_onNlpOptimal h nlp
  · exact fixes_onNlpOptimal h nlp
  · exact fixes_onNlpInfeasible h
  · exact fixes_onNlpOther h _

theorem fixes_onNlp_call (nlp : SubproblemResult α) :
    Fixes look (do
      onNlp nlp
      call callbacks.afterNlp : Run π α Unit) :=
  fixes_bind (fixes_onNlp h nlp) fun _ => fixes_call h.afterNlp

end Questions

section Check

variable [Scalar α] [MinlpProblem π α] [Rounding α]

theorem shouldTerminate_run (checkCycling : Bool) (t : State π α) :
    (shouldTerminate checkCycling : Run π α Bool).run.run t =
      if t.progress.boundsConverged t.config.boundTolerance then
        (stop (.converged t.progress.lower t.config.boundTolerance t.progress.upper)
          .optimal).run.run t
      else if t.config.iterationLimit ≤ t.progress.masterIter then
        (stop (.iterationLimit t.progress.masterIter t.progress.lower t.progress.upper)
          .maxIterations).run.run t
      else if Scalar.le t.config.timeLimit (t.timers.elapsed t.clock.now "main") then
        (stop (.timeLimit t.config.timeLimit (t.timers.elapsed t.clock.now "main")
          t.progress.lower t.progress.upper) .maxTimeLimit).run.run { t with clock := t.clock.tick }
      else (stopIfCycling t.config t.progress checkCycling).run.run
        { t with clock := t.clock.tick } := by
  rw [shouldTerminate_eq]
  show (if t.progress.boundsConverged t.config.boundTolerance then _ else _ :
    Run π α Bool).run.run t = _
  split
  · rfl
  split
  · rfl
  show (if Scalar.le t.config.timeLimit (t.timers.elapsed t.clock.now "main") then _ else _ :
    Run π α Bool).run.run { t with clock := t.clock.tick } = _
  split <;> rfl

omit [Scalar α] [MinlpProblem π α] [Rounding α] in
theorem compareAssignment_run (assignment : List Int) (t : State π α) :
    (compareAssignment assignment : Run π α Bool).run.run t =
      if t.progress.previousAssignment = some assignment then
        (.ok true, { t with progress := { t.progress with assignment } })
      else
        (.ok false, { t with progress :=
          { t.progress with assignment, previousAssignment := some assignment } }) := by
  show (if t.progress.previousAssignment = some assignment then _ else _ :
    Run π α Bool).run.run { t with progress := { t.progress with assignment } } = _
  split <;> rfl

variable {look : π → ρ} {callbacks : Callbacks π α} {checkCycling : Bool} {s t : State π α}

theorem shouldTerminate_of_decided (look : π → ρ) (checkCycling : Bool) (h : ¬ t.Undecided) :
    ∃ u, (shouldTerminate checkCycling : Run π α Bool).run.run t = (.ok true, u) ∧
      Quits look t u := by
  rw [shouldTerminate_run]
  split
  · exact ⟨_, rfl, rfl, rfl, nofun⟩
  split
  · exact ⟨_, rfl, rfl, rfl, nofun⟩
  split
  · exact ⟨_, rfl, rfl, rfl, nofun⟩
  next hunconverged hmasters htime =>
    exact absurd ⟨by simpa using hunconverged, by simpa using hmasters, by simpa using htime⟩ h

theorem shouldTerminate_of_undecided (h : t.Undecided) :
    (shouldTerminate checkCycling : Run π α Bool).run.run t =
      (stopIfCycling t.config t.progress checkCycling).run.run
        { t with clock := t.clock.tick } := by
  rw [shouldTerminate_run, if_neg (by simp [h.unconverged]), if_neg (by simpa using h.masters),
    if_neg (by simp [h.time])]

theorem shouldTerminate_of_unmet (look : π → ρ) (h : t.Undecided)
    (hunmet :
      (t.config.cyclingCheck && decide (1 ≤ t.progress.masterIter) && checkCycling) = false) :
    ∃ u, (shouldTerminate checkCycling : Run π α Bool).run.run t = (.ok false, u) ∧
      Same look t u := by
  rw [shouldTerminate_of_undecided h]
  unfold stopIfCycling
  rw [if_neg (by simp [hunmet])]
  exact ⟨_, rfl, rfl, rfl, rfl⟩

theorem shouldTerminate_of_met (h : t.Undecided)
    (hmet : (t.config.cyclingCheck && decide (1 ≤ t.progress.masterIter) && checkCycling) = true) :
    (shouldTerminate checkCycling : Run π α Bool).run.run t =
      (do
        if ← compareAssignment t.rounded then
          stop (.cycling t.progress.masterIter t.progress.lower t.progress.upper) .feasible
        else return false : Run π α Bool).run.run
        { t with clock := t.clock.tick, problem := (MinlpProblem.integers t.problem).2 } := by
  rw [shouldTerminate_of_undecided h]
  unfold stopIfCycling
  rw [if_pos hmet, repeatsAssignment_eq, bind_assoc]
  rfl

theorem shouldTerminate_of_repeated (hlook : Overlooks look callbacks) (h : t.Undecided)
    (hmet : (t.config.cyclingCheck && decide (1 ≤ t.progress.masterIter) && checkCycling) = true)
    (hrepeated : t.progress.previousAssignment = some t.rounded) :
    ∃ u, (shouldTerminate checkCycling : Run π α Bool).run.run t = (.ok true, u) ∧
      u.progress.results.condition = .feasible ∧
      u.progress.previousAssignment = t.progress.previousAssignment ∧
      look u.problem = look t.problem := by
  rw [shouldTerminate_of_met h hmet, run_bind, compareAssignment_run, if_pos hrepeated]
  exact ⟨_, rfl, rfl, rfl, hlook.integers _⟩

theorem shouldTerminate_of_new (hlook : Overlooks look callbacks) (h : t.Undecided)
    (hmet : (t.config.cyclingCheck && decide (1 ≤ t.progress.masterIter) && checkCycling) = true)
    (hnew : t.progress.previousAssignment ≠ some t.rounded) :
    ∃ u, (shouldTerminate checkCycling : Run π α Bool).run.run t = (.ok false, u) ∧
      u.progress.memory =
        (t.progress.masterIter, some t.rounded, t.rounded, t.progress.results.condition) ∧
      u.config = t.config ∧ look u.problem = look t.problem := by
  rw [shouldTerminate_of_met h hmet, run_bind, compareAssignment_run, if_neg hnew]
  exact ⟨_, rfl, rfl, rfl, hlook.integers _⟩

end Check

section Iteration

variable [Scalar α] [MinlpProblem π α] [Rounding α]

def masterPhase (callbacks : Callbacks π α) : Run π α (Option Bool) := do
  let master ← nextMaster
  if master.condition = .infeasible then
    onMasterInfeasible
    return some true
  else
    if master.condition = .optimal then onMasterOptimal master else onMasterOther master
    call callbacks.afterMaster
    return none

/-- An iteration up to the check that follows its master solve. The answer tells how the iteration
has ended if it has not come that far. -/
def approach (callbacks : Callbacks π α) : Run π α (Option Bool) := do
  note (.iteration (← progress).masterIter)
  if ← shouldTerminate false then return some true
  else masterPhase callbacks

def finish (callbacks : Callbacks π α) : Run π α (Option Bool) := do
  if ← shouldTerminate true then return some false
  else
    nlpPhase callbacks
    return none

theorem iteration_eq_approach (callbacks : Callbacks π α) :
    iteration callbacks = (do
      match ← approach callbacks with
      | some settled => return some settled
      | none => finish callbacks) := by
  rw [iteration_eq]
  unfold approach masterPhase tryAssignment finish
  simp only [bind_assoc]
  congr 1
  funext p
  congr 1
  funext _
  congr 1
  funext stops
  cases stops with
  | true => rfl
  | false =>
    simp only [Bool.false_eq_true, if_false, bind_assoc]
    congr 1
    funext master
    split
    · simp only [bind_assoc, pure_bind]
    split
    · simp only [bind_assoc, pure_bind]
    · simp only [bind_assoc, pure_bind]

def checksFrom (callbacks : Callbacks π α) : (fuel : Nat) → State π α → List (State π α)
  | 0, _ => []
  | fuel + 1, s =>
    match (approach callbacks).run.run s with
    | (.ok none, t) =>
      t :: match (finish callbacks).run.run t with
        | (.ok none, u) => checksFrom callbacks fuel u
        | _ => []
    | _ => []

theorem iterate_succ_eq (callbacks : Callbacks π α) (fuel : Nat) :
    iterate callbacks (fuel + 1) = (do
      match ← approach callbacks with
      | some settled => return settled
      | none =>
        match ← finish callbacks with
        | some settled => return settled
        | none => iterate callbacks fuel) := by
  rw [iterate, iteration_eq_approach, bind_assoc]
  congr 1
  funext settled
  cases settled <;> rfl

structure Reaches (look : π → ρ) (s t : State π α) : Prop where
  memory : t.progress.memory = (s.progress.masterIter + 1, s.progress.previousAssignment,
    s.progress.assignment, s.progress.results.condition)
  config : t.config = s.config
  look : look t.problem = look s.problem

/-- The state when a run has gone on from a check, at an assignment that did not come back. The
subproblem is solved there, unless the master solver makes its cuts itself. -/
structure Passes (look : π → List (List Int)) (t u : State π α) : Prop where
  undecided : t.Undecided
  new : t.progress.previousAssignment ≠ some t.rounded
  memory : u.progress.memory =
    (t.progress.masterIter, some t.rounded, t.rounded, t.progress.results.condition)
  config : u.config = t.config
  look : look u.problem =
    if t.config.singleTree then look t.problem else look t.problem ++ [t.rounded]

structure Repeats (look : π → ρ) (t u : State π α) : Prop where
  undecided : t.Undecided
  same : t.progress.previousAssignment = some t.rounded
  condition : u.progress.results.condition = .feasible
  previous : u.progress.previousAssignment = t.progress.previousAssignment
  look : look u.problem = look t.problem

inductive Approached (look : π → ρ) (s : State π α) :
    Except Error (Option Bool) × State π α → Prop
  | checked {t : State π α} (reaches : Reaches look s t) : Approached look s (.ok none, t)
  | ended {r : Except Error (Option Bool)} {t : State π α} (stops : r ≠ .ok none)
      (quits : Quits look s t) : Approached look s (r, t)

inductive Finished (look : π → List (List Int)) (t : State π α) :
    Except Error (Option Bool) × State π α → Prop
  | ended {u : State π α} (decided : ¬ t.Undecided) (quits : Quits look t u) :
      Finished look t (.ok (some false), u)
  | repeated {u : State π α} (repeats : Repeats look t u) : Finished look t (.ok (some false), u)
  | passed {r : Except Error (Option Bool)} {u : State π α}
      (through : ∀ settled, r ≠ .ok (some settled)) (passes : Passes look t u) :
      Finished look t (r, u)

omit [Scalar α] [MinlpProblem π α] [Rounding α] in
theorem Approached.of_same {look : π → ρ} {s t : State π α}
    {x : Except Error (Option Bool) × State π α} (h : Same look s t)
    (ht : Approached look t x) : Approached look s x := by
  cases ht with
  | checked reaches =>
    refine .checked ⟨?_, reaches.config.trans h.config, reaches.look.trans h.look⟩
    rw [reaches.memory, h.masterIter, h.previous, h.assignment, h.condition]
  | ended stops quits => exact .ended stops (h.quits.trans quits)

section Parts

variable {look : π → ρ} {callbacks : Callbacks π α} (h : Overlooks look callbacks)

omit [MinlpProblem π α] [Rounding α] in
theorem quits_onMasterInfeasible (look : π → ρ) (s : State π α) :
    ∃ t, (onMasterInfeasible : Run π α Unit).run.run s = (.ok (), t) ∧ Quits look s t := by
  have hupdate (p : Progress α) :
      p.afterMasterInfeasible.previousAssignment = p.previousAssignment ∧
        p.afterMasterInfeasible.results.condition ≠ .feasible := by
    unfold Progress.afterMasterInfeasible
    cases p.sense <;> constructor
    all_goals first | rfl | (simp only [Progress.conclude]; split <;> decide)
  have hquits (events : List (Event α)) :
      Quits look s { s with progress := s.progress.afterMasterInfeasible, events } :=
    ⟨(hupdate _).1, rfl, fun hfeasible => absurd hfeasible (hupdate _).2⟩
  by_cases hfirst : s.progress.masterIter = 1
  · refine ⟨_, ?_, hquits (s.events ++ [.masterInfeasible] ++ [.firstMasterInfeasible])⟩
    show (if s.progress.masterIter = 1 then _ else _ : Run π α Unit).run.run _ = _
    rw [if_pos hfirst]
    rfl
  · refine ⟨_, ?_, hquits (s.events ++ [.masterInfeasible])⟩
    show (if s.progress.masterIter = 1 then _ else _ : Run π α Unit).run.run _ = _
    rw [if_neg hfirst]
    rfl

include h

omit [Rounding α] in
theorem masterPhase_run (s : State π α) :
    Approached look s ((masterPhase callbacks).run.run s) := by
  let p : Progress α := { s.progress with subIter := 0, masterIter := s.progress.masterIter + 1 }
  have hnext : (nextMaster : Run π α _).run.run s =
      ((MinlpProblem.solveMaster p s.config.masterOptions s.problem).1,
        { s with
          progress := p
          problem := (MinlpProblem.solveMaster p s.config.masterOptions s.problem).2 }) := rfl
  unfold masterPhase
  rw [run_bind, hnext]
  have hlook := h.solveMaster p s.config.masterOptions s.problem
  generalize MinlpProblem.solveMaster p s.config.masterOptions s.problem = answer at hlook
  obtain ⟨_ | master, problem⟩ := answer
  · exact .ended nofun ⟨rfl, hlook, id⟩
  let t : State π α := { s with progress := p, problem }
  have hquits : Quits look s t := ⟨rfl, hlook, id⟩
  show Approached look s (Id.run (StateT.run (ExceptT.run (if master.condition = .infeasible then _
    else _)) t))
  split
  · obtain ⟨u, hrun, hu⟩ := quits_onMasterInfeasible look t
    show Approached look s ((onMasterInfeasible >>= _ : Run π α _).run.run t)
    rw [run_bind, hrun]
    exact .ended nofun (hquits.trans hu)
  -- what follows the master solve remembers nothing more
  have hrest (m : Run π α Unit) (hm : Fixes look m) : Approached look s ((m >>= fun _ =>
      call callbacks.afterMaster >>= fun _ => pure none : Run π α (Option Bool)).run.run t) := by
    rw [← bind_assoc, run_bind]
    rcases (fixes_bind hm fun _ => fixes_call h.afterMaster).run t with
      ⟨_, u, hrun, hu⟩ | ⟨e, u, hrun, hu⟩
    · rw [hrun]
      exact .checked ⟨hu.memory, hu.config, hu.look.trans hlook⟩
    · rw [hrun]
      exact .ended nofun (hquits.trans hu.quits)
  split
  · exact hrest _ (fixes_onMasterOptimal master)
  · exact hrest _ (fixes_onMasterOther master)

theorem approach_run (s : State π α) : Approached look s ((approach callbacks).run.run s) := by
  let t : State π α := { s with events := s.events ++ [.iteration s.progress.masterIter] }
  have hnoted : Same look s t := ⟨rfl, rfl, rfl⟩
  refine .of_same hnoted ?_
  show Approached look t ((shouldTerminate false >>= fun stops =>
    if stops then pure (some true) else masterPhase callbacks : Run π α _).run.run t)
  rw [run_bind]
  by_cases hundecided : t.Undecided
  · obtain ⟨u, hrun, hu⟩ :=
      shouldTerminate_of_unmet look hundecided (Bool.and_false _)
    rw [hrun]
    exact .of_same hu (masterPhase_run h u)
  · obtain ⟨u, hrun, hu⟩ := shouldTerminate_of_decided look false hundecided
    rw [hrun]
    exact .ended nofun hu

end Parts

section Tried

variable {look : π → List (List Int)} {callbacks : Callbacks π α} (h : ShowsTried look callbacks)

include h

omit [Rounding α] in
theorem nlpPhase_run (s : State π α) :
    ∃ r t, (nlpPhase callbacks).run.run s = (r, t) ∧ t.progress.memory = s.progress.memory ∧
      t.config = s.config ∧ look t.problem =
        if s.config.singleTree then look s.problem
        else look s.problem ++ [s.progress.assignment] := by
  have hphase : (nlpPhase callbacks).run.run s =
      (if !s.config.singleTree then do
        onNlp (← ask (MinlpProblem.solveNlp · s.config))
        call callbacks.afterNlp
      else pure () : Run π α Unit).run.run s := rfl
  rw [hphase]
  cases hsingle : s.config.singleTree with
  | true => exact ⟨_, _, rfl, rfl, rfl, rfl⟩
  | false =>
    rw [Bool.not_false, if_pos rfl, run_bind]
    have hlook := h.solveNlp s.progress s.config s.problem
    have hask : (ask (MinlpProblem.solveNlp · s.config) : Run π α _).run.run s =
        ((MinlpProblem.solveNlp s.progress s.config s.problem).1,
          { s with problem := (MinlpProblem.solveNlp s.progress s.config s.problem).2 }) := rfl
    rw [hask]
    generalize MinlpProblem.solveNlp s.progress s.config s.problem = answer at hlook
    obtain ⟨_ | nlp, problem⟩ := answer
    · exact ⟨_, _, rfl, rfl, rfl, hlook⟩
    · have hrest := fixes_onNlp_call h.toOverlooks nlp { s with problem }
      exact ⟨_, _, rfl, hrest.memory, hrest.config, hrest.look.trans hlook⟩

theorem finish_run {t : State π α} (hcycling : t.config.cyclingCheck = true)
    (hmasters : 1 ≤ t.progress.masterIter) :
    Finished look t ((finish callbacks).run.run t) := by
  have hmet : (t.config.cyclingCheck && decide (1 ≤ t.progress.masterIter) && true) = true := by
    simp [hcycling, hmasters]
  unfold finish
  rw [run_bind]
  by_cases hundecided : t.Undecided
  · by_cases hrepeated : t.progress.previousAssignment = some t.rounded
    · obtain ⟨u, hrun, hcondition, hprevious, hlook⟩ :=
        shouldTerminate_of_repeated h.toOverlooks hundecided hmet hrepeated
      rw [hrun]
      exact .repeated ⟨hundecided, hrepeated, hcondition, hprevious, hlook⟩
    · obtain ⟨u, hrun, hmemory, hconfig, hlook⟩ :=
        shouldTerminate_of_new h.toOverlooks hundecided hmet hrepeated
      rw [hrun]
      show Finished look t ((nlpPhase callbacks >>= fun _ => pure none : Run π α _).run.run u)
      obtain ⟨r, v, hphase, hmemory', hconfig', hlook'⟩ := nlpPhase_run h u
      have hassignment : u.progress.assignment = t.rounded := congrArg (·.2.2.1) hmemory
      rw [hlook, hassignment, hconfig] at hlook'
      have hend : ∀ r, (∀ settled, r ≠ .ok (some settled)) → Finished look t (r, v) := fun r hr =>
        .passed hr ⟨hundecided, hrepeated, hmemory'.trans hmemory, hconfig'.trans hconfig, hlook'⟩
      rw [run_bind, hphase]
      cases r with
      | error e => exact hend _ nofun
      | ok _ => exact hend _ nofun
  · obtain ⟨u, hrun, hu⟩ := shouldTerminate_of_decided look true hundecided
    rw [hrun]
    exact .ended hundecided hu

theorem finish_run_of_off {t : State π α} (hcycling : t.config.cyclingCheck = false) :
    ∃ r u, (finish callbacks).run.run t = (r, u) ∧ (r = .ok none → u.config = t.config) ∧
      (u.progress.results.condition = .feasible → t.progress.results.condition = .feasible) := by
  unfold finish
  rw [run_bind]
  by_cases hundecided : t.Undecided
  · obtain ⟨u, hrun, hu⟩ :=
      shouldTerminate_of_unmet look hundecided (by simp [hcycling])
    rw [hrun]
    show ∃ r v, (nlpPhase callbacks >>= fun _ => pure none : Run π α _).run.run u = (r, v) ∧ _
    obtain ⟨r, v, hphase, hmemory, hconfig, -⟩ := nlpPhase_run h u
    have hcondition : v.progress.results.condition = t.progress.results.condition :=
      (congrArg (·.2.2.2) hmemory).trans hu.condition
    rw [run_bind, hphase]
    cases r with
    | error e => exact ⟨_, _, rfl, nofun, fun hfeasible => hcondition ▸ hfeasible⟩
    | ok _ =>
      exact ⟨_, _, rfl, fun _ => hconfig.trans hu.config, fun hfeasible => hcondition ▸ hfeasible⟩
  · obtain ⟨u, hrun, hu⟩ := shouldTerminate_of_decided look true hundecided
    rw [hrun]
    exact ⟨_, _, rfl, nofun, hu.condition⟩

end Tried

end Iteration

end Run

end NonlinearOpt.OuterApprox
