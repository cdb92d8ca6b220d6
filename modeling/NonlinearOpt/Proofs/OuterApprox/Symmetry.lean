import NonlinearOpt.Proofs.OuterApprox.Bounds
import NonlinearOpt.Proofs.OuterApprox.Parts

/-!
Runs that are images of other runs. A symmetry says what becomes of bounds and objectives, and
whether the two directions of optimization change places. If all that a run does with bounds
respects a symmetry, then the image of a problem has the image of its run, step by step.
-/

namespace NonlinearOpt.OuterApprox

variable {π π' α β β' γ γ' : Type}

structure Symmetry (α : Type) where
  /-- What becomes of a bound or of an objective. -/
  value : α → α
  /-- Whether minimization and maximization change places, and lower and upper bounds with them. -/
  exchanges : Bool
  /-- Tolerances with which bounds meet just when their images do. -/
  admits : α → Prop

namespace Symmetry

def pair (σ : Symmetry α) (x y : β) : β × β := bif σ.exchanges then (y, x) else (x, y)

def sense (σ : Symmetry α) (s : Sense) : Sense := (σ.pair s s.opposite).1

def result (σ : Symmetry α) (r : SubproblemResult α) : SubproblemResult α :=
  { r with
    lower := σ.value (σ.pair r.lower r.upper).1
    upper := σ.value (σ.pair r.lower r.upper).2
    objective := σ.value r.objective }

def progress (σ : Symmetry α) (p : Progress α) : Progress α :=
  { p with
    sense := σ.sense p.sense
    lower := σ.value (σ.pair p.lower p.upper).1
    upper := σ.value (σ.pair p.lower p.upper).2
    lowerHistory := (σ.pair p.lowerHistory p.upperHistory).1.map σ.value
    upperHistory := (σ.pair p.lowerHistory p.upperHistory).2.map σ.value
    bestObjective := p.bestObjective.map σ.value }

def event (σ : Symmetry α) : Event α → Event α
  | .iteration n => .iteration n
  | .masterOptimal n x lower upper =>
    .masterOptimal n (σ.value x) (σ.value (σ.pair lower upper).1) (σ.value (σ.pair lower upper).2)
  | .masterInfeasible => .masterInfeasible
  | .firstMasterInfeasible => .firstMasterInfeasible
  | .masterOther condition n => .masterOther condition n
  | .incumbent x => .incumbent (σ.value x)
  | .nlpOptimal n x lower upper =>
    .nlpOptimal n (σ.value x) (σ.value (σ.pair lower upper).1) (σ.value (σ.pair lower upper).2)
  | .nlpInfeasible => .nlpInfeasible
  | .nlpOther condition n => .nlpOther condition n
  | .converged lower t upper =>
    .converged (σ.value (σ.pair lower upper).1) t (σ.value (σ.pair lower upper).2)
  | .iterationLimit n lower upper =>
    .iterationLimit n (σ.value (σ.pair lower upper).1) (σ.value (σ.pair lower upper).2)
  | .timeLimit limit elapsed lower upper =>
    .timeLimit limit elapsed (σ.value (σ.pair lower upper).1) (σ.value (σ.pair lower upper).2)
  | .cycling n lower upper =>
    .cycling n (σ.value (σ.pair lower upper).1) (σ.value (σ.pair lower upper).2)
  | .corrected condition => .corrected condition
  | .finished condition n lower upper =>
    .finished condition n (σ.value (σ.pair lower upper).1) (σ.value (σ.pair lower upper).2)

/-- All that is done with bounds is done with their images likewise. -/
structure Lawful [Scalar α] (σ : Symmetry α) : Prop where
  boundsConverged : ∀ {t : α} (p : Progress α), σ.admits t →
    (σ.progress p).boundsConverged t = p.boundsConverged t
  afterMasterOptimal : ∀ (master : SubproblemResult α) (p : Progress α),
    (σ.progress p).afterMasterOptimal (σ.result master) = σ.progress (p.afterMasterOptimal master)
  afterMasterInfeasible : ∀ p : Progress α,
    (σ.progress p).afterMasterInfeasible = σ.progress p.afterMasterInfeasible
  afterMasterOther : ∀ (master : SubproblemResult α) (p : Progress α),
    (σ.progress p).afterMasterOther (σ.result master) = σ.progress (p.afterMasterOther master)
  improvesBound : ∀ (x : α) (p : Progress α),
    (σ.progress p).improvesBound (σ.value x) = p.improvesBound x
  afterFeasible : ∀ (x : α) (p : Progress α),
    (σ.progress p).afterFeasible (σ.value x) = σ.progress (p.afterFeasible x)
  offer : ∀ (x : α) (solution : Array α) (p : Progress α),
    ((σ.progress p).offer (σ.value x) solution).2 = σ.progress (p.offer x solution).2
  correctBound : ∀ (master : SubproblemResult α) (p : Progress α),
    (σ.progress p).correctBound (σ.result master) = σ.progress (p.correctBound master)

structure Relates [MinlpProblem π α] [MinlpProblem π' α] (σ : Symmetry α) (inner : π → π') :
    Prop where
  solveMaster : ∀ p options r, MinlpProblem.solveMaster (σ.progress p) options (inner r) =
    (MinlpProblem.solveMaster p options r).map (Except.map σ.result) inner
  solveNlp : ∀ p c r, MinlpProblem.solveNlp (σ.progress p) c (inner r) =
    (MinlpProblem.solveNlp p c r).map (Except.map σ.result) inner
  integers : ∀ r, MinlpProblem.integers (inner r) = (MinlpProblem.integers r).map id inner
  addCuts : ∀ p zeroTolerance r, MinlpProblem.addCuts (σ.progress p) zeroTolerance (inner r) =
    (MinlpProblem.addCuts p zeroTolerance r).map id inner
  addFeasibilityCut : ∀ p zeroTolerance r,
    MinlpProblem.addFeasibilityCut (σ.progress p) zeroTolerance (inner r) =
      (MinlpProblem.addFeasibilityCut p zeroTolerance r).map id inner
  addNoGoodCut : ∀ p r, MinlpProblem.addNoGoodCut (σ.progress p) (inner r) =
    (MinlpProblem.addNoGoodCut p r).map id inner
  dropLastNoGoodCut : ∀ r, MinlpProblem.dropLastNoGoodCut (inner r) =
    (MinlpProblem.dropLastNoGoodCut r).map id inner
  isPersistent : ∀ r, MinlpProblem.isPersistent (inner r) = MinlpProblem.isPersistent r
  reload : ∀ r, MinlpProblem.reload (inner r) = (MinlpProblem.reload r).map id inner

def RelatesCallback (σ : Symmetry α) (inner : π → π') : Option (Callback π α) →
    Option (Callback π' α) → Prop :=
  Option.Rel fun f f' => ∀ p r, f' (σ.progress p) (inner r) = (f p r).map id inner

structure RelatesCallbacks (σ : Symmetry α) (inner : π → π') (c : Callbacks π α)
    (c' : Callbacks π' α) : Prop where
  afterMaster : σ.RelatesCallback inner c.afterMaster c'.afterMaster
  afterNlp : σ.RelatesCallback inner c.afterNlp c'.afterNlp

def state (σ : Symmetry α) (inner : π → π') (s : State π α) : State π' α :=
  ⟨inner s.problem, σ.progress s.progress, s.config, s.timers, s.clock, s.events.map σ.event⟩

end Symmetry

namespace Run

/-- A part `m` of a run is the image of `r`, and so are their values, as `f` shows. -/
def Parallel (σ : Symmetry α) (inner : π → π') (f : β → β') (r : Run π α β)
    (m : Run π' α β') : Prop :=
  ∀ s, σ.admits s.config.boundTolerance →
    m.run.run (σ.state inner s) = (r.run.run s).map (Except.map f) (σ.state inner) ∧
      (r.run.run s).2.config.boundTolerance = s.config.boundTolerance

variable {σ : Symmetry α} {inner : π → π'} {f : β → β'}

theorem parallel_pure (f : β → β') (b : β) : Parallel σ inner f (pure b) (pure (f b)) :=
  fun _ _ => ⟨rfl, rfl⟩

theorem parallel_throw (f : β → β') (e : Error) :
    Parallel σ inner f (throw e : Run π α β) (throw e : Run π' α β') :=
  fun _ _ => ⟨rfl, rfl⟩

theorem parallel_bind {g : γ → γ'} {r : Run π α γ} {m : Run π' α γ'} {k : γ → Run π α β}
    {k' : γ' → Run π' α β'} (h : Parallel σ inner g r m)
    (hk : ∀ c, Parallel σ inner f (k c) (k' (g c))) :
    Parallel σ inner f (r >>= k) (m >>= k') := by
  intro s hs
  obtain ⟨hrun, hkept⟩ := h s hs
  rw [run_bind, run_bind, hrun]
  cases hfirst : r.run.run s with
  | mk c t =>
    rw [hfirst] at hkept
    cases c with
    | error e => exact ⟨rfl, hkept⟩
    | ok c =>
      obtain ⟨hrest, hkept'⟩ := hk c t (hkept ▸ hs)
      exact ⟨hrest, hkept'.trans hkept⟩

theorem parallel_get_bind {k : State π α → Run π α β} {k' : State π' α → Run π' α β'}
    (h : ∀ s, Parallel σ inner f (k s) (k' (σ.state inner s))) :
    Parallel σ inner f (get >>= k) (get >>= k') := by
  intro s hs
  rw [run_bind, run_bind]
  exact h s s hs

theorem parallel_progress_bind {k : Progress α → Run π α β} {k' : Progress α → Run π' α β'}
    (h : ∀ p, Parallel σ inner f (k p) (k' (σ.progress p))) :
    Parallel σ inner f (progress >>= k) (progress >>= k') :=
  fun s hs => h s.progress s hs

theorem parallel_config_bind {k : Config α → Run π α β} {k' : Config α → Run π' α β'}
    (h : ∀ c, σ.admits c.boundTolerance → Parallel σ inner f (k c) (k' c)) :
    Parallel σ inner f (config >>= k) (config >>= k') :=
  fun s hs => h s.config hs s hs

theorem parallel_modify {g : State π α → State π α} {g' : State π' α → State π' α}
    (h : ∀ s, g' (σ.state inner s) = σ.state inner (g s))
    (hkept : ∀ s, (g s).config.boundTolerance = s.config.boundTolerance) :
    Parallel σ inner id (modify g : Run π α Unit) (modify g') :=
  fun s _ => ⟨Prod.ext rfl (h s), hkept s⟩

theorem parallel_update {g g' : Progress α → Progress α}
    (h : ∀ p, g' (σ.progress p) = σ.progress (g p)) :
    Parallel σ inner id (update g) (update g') := by
  refine parallel_modify (fun s => ?_) fun _ => rfl
  show ({ σ.state inner s with progress := g' (σ.progress s.progress) } : State π' α) = _
  rw [h]
  rfl

theorem parallel_note (e : Event α) : Parallel σ inner id (note e) (note (σ.event e)) := by
  refine parallel_modify (fun s => ?_) fun _ => rfl
  show ({ σ.state inner s with events := s.events.map σ.event ++ [σ.event e] } : State π' α) = _
  rw [← List.map_singleton, ← List.map_append]
  rfl

theorem parallel_ask {k : Progress α → π → Except Error β × π}
    {k' : Progress α → π' → Except Error β' × π'}
    (h : ∀ p r, k' (σ.progress p) (inner r) = (k p r).map (Except.map f) inner) :
    Parallel σ inner f (ask k) (ask k') := by
  intro s _
  refine ⟨?_, rfl⟩
  have hk : (ask k').run.run (σ.state inner s) =
      ((k' (σ.progress s.progress) (inner s.problem)).1,
        { σ.state inner s with
          problem := (k' (σ.progress s.progress) (inner s.problem)).2 }) := rfl
  rw [hk, h s.progress s.problem]
  rfl

theorem parallel_ask_same {k : Progress α → π → Except Error β × π}
    {k' : Progress α → π' → Except Error β × π'}
    (h : ∀ p r, k' (σ.progress p) (inner r) = (k p r).map id inner) :
    Parallel σ inner id (ask k) (ask k') := by
  apply parallel_ask
  intro p r
  rw [h p r, Except.map_id]

theorem parallel_call {c : Option (Callback π α)} {c' : Option (Callback π' α)}
    (h : σ.RelatesCallback inner c c') : Parallel σ inner id (call c) (call c') := by
  cases h with
  | none => exact parallel_pure id ()
  | @some c c' h =>
    show Parallel σ inner id (ask fun p r => (c p r).map (·.mapError .callback) id)
      (ask fun p r => (c' p r).map (·.mapError .callback) id)
    apply parallel_ask_same
    intro p r
    rw [h p r]
    rfl

theorem parallel_stop (e : Event α) (condition : Termination) :
    Parallel σ inner id (stop e condition) (stop (σ.event e) condition) :=
  parallel_bind (parallel_note e) fun _ =>
    parallel_bind (parallel_update fun _ => rfl) fun _ => parallel_pure id true

theorem parallel_elapsed [Scalar α] : Parallel σ inner id (elapsed : Run π α α) elapsed :=
  fun _ _ => ⟨rfl, rfl⟩

theorem parallel_compareAssignment (assignment : List Int) :
    Parallel σ inner id (compareAssignment assignment) (compareAssignment assignment) := by
  apply parallel_bind
  · exact parallel_update fun _ => rfl
  intro _
  apply parallel_progress_bind
  intro p
  show Parallel σ inner id _ (if p.previousAssignment = some assignment then _ else _)
  split
  · exact parallel_pure id true
  · exact parallel_bind (parallel_update fun _ => rfl) fun _ => parallel_pure id false

section Questions

variable [MinlpProblem π α] [MinlpProblem π' α]

theorem parallel_excludeAssignment (h : σ.Relates inner) :
    Parallel σ inner id excludeAssignment excludeAssignment := by
  apply parallel_config_bind
  intro c _
  split
  · exact parallel_ask_same h.addNoGoodCut
  · exact parallel_pure id ()

theorem parallel_onNlpInfeasible (h : σ.Relates inner) :
    Parallel σ inner id onNlpInfeasible onNlpInfeasible := by
  apply parallel_bind (parallel_note .nlpInfeasible)
  intro _
  apply parallel_config_bind
  intro c _
  apply parallel_bind (parallel_ask_same fun p => h.addFeasibilityCut p _)
  intro _
  exact parallel_excludeAssignment h

theorem parallel_onNlpOther (h : σ.Relates inner) (condition : Termination) :
    Parallel σ inner id (onNlpOther condition) (onNlpOther condition) := by
  apply parallel_progress_bind
  intro p
  apply parallel_bind (parallel_note (.nlpOther condition p.masterIter))
  intro _
  exact parallel_excludeAssignment h

theorem parallel_repeatsAssignment [Rounding α] (h : σ.Relates inner) :
    Parallel σ inner id repeatsAssignment repeatsAssignment := by
  apply parallel_bind
  · apply parallel_ask_same
    intro _ r
    exact congrArg (Prod.map Except.ok id) (h.integers r)
  intro values
  exact parallel_compareAssignment _

theorem parallel_linearize (h : σ.Relates inner) (nlp : SubproblemResult α) :
    Parallel σ inner id (linearize nlp) (linearize (σ.result nlp)) := by
  apply parallel_progress_bind
  intro p
  apply parallel_bind (parallel_note (.nlpOptimal p.masterIter nlp.objective p.lower p.upper))
  intro _
  apply parallel_config_bind
  intro c _
  apply parallel_bind (parallel_ask_same fun p => h.addCuts p _)
  intro _
  exact parallel_excludeAssignment h

theorem parallel_stopIfCycling [Rounding α] (h : σ.Relates inner) (c : Config α) (p : Progress α)
    (checkCycling : Bool) :
    Parallel σ inner id (stopIfCycling c p checkCycling)
      (stopIfCycling c (σ.progress p) checkCycling) := by
  show Parallel σ inner id _
    (if c.cyclingCheck && decide (1 ≤ p.masterIter) && checkCycling then _ else _)
  unfold stopIfCycling
  split
  · apply parallel_bind (parallel_repeatsAssignment h)
    rintro (_ | _)
    · exact parallel_pure id false
    · exact parallel_stop (.cycling p.masterIter p.lower p.upper) .feasible
  · exact parallel_pure id false

theorem parallel_nextMaster (h : σ.Relates inner) :
    Parallel σ inner σ.result nextMaster nextMaster := by
  apply parallel_bind
  · exact parallel_update fun _ => rfl
  intro _
  apply parallel_config_bind
  intro c _
  exact parallel_ask fun p => h.solveMaster p _

theorem parallel_dropLast (h : σ.Relates inner) : Parallel σ inner id dropLast dropLast := by
  apply parallel_bind (parallel_ask_same fun _ => h.dropLastNoGoodCut)
  intro _
  apply parallel_get_bind
  intro s
  have hsame : MinlpProblem.isPersistent (σ.state inner s).problem =
      MinlpProblem.isPersistent s.problem := h.isPersistent s.problem
  rw [hsame]
  exact parallel_pure id _

end Questions

variable [Scalar α]

theorem parallel_onMasterOptimal (hσ : σ.Lawful) (master : SubproblemResult α) :
    Parallel σ inner id (onMasterOptimal master) (onMasterOptimal (σ.result master)) := by
  apply parallel_bind (parallel_update (hσ.afterMasterOptimal master))
  intro _
  apply parallel_progress_bind
  intro p
  exact parallel_note (.masterOptimal p.masterIter master.objective p.lower p.upper)

theorem parallel_onMasterInfeasible (hσ : σ.Lawful) :
    Parallel σ inner id onMasterInfeasible onMasterInfeasible := by
  apply parallel_bind (parallel_note .masterInfeasible)
  intro _
  apply parallel_progress_bind
  intro p
  show Parallel σ inner id _ (if p.masterIter = 1 then _ else _)
  split
  · exact parallel_bind (parallel_note .firstMasterInfeasible) fun _ =>
      parallel_update hσ.afterMasterInfeasible
  · exact parallel_update hσ.afterMasterInfeasible

theorem parallel_onMasterOther (hσ : σ.Lawful) (master : SubproblemResult α) :
    Parallel σ inner id (onMasterOther master) (onMasterOther (σ.result master)) := by
  apply parallel_progress_bind
  intro p
  apply parallel_bind (parallel_note (.masterOther master.condition p.masterIter))
  intro _
  exact parallel_update (hσ.afterMasterOther master)

theorem parallel_takeCorrection (hσ : σ.Lawful) {c : Config α} (hc : σ.admits c.boundTolerance)
    (master : SubproblemResult α) :
    Parallel σ inner id (takeCorrection c master) (takeCorrection c (σ.result master)) := by
  apply parallel_bind (parallel_note (.corrected master.condition))
  intro _
  apply parallel_bind (parallel_update (hσ.correctBound master))
  intro _
  apply parallel_progress_bind
  intro p
  rw [hσ.boundsConverged p hc]
  split
  · exact parallel_update fun _ => rfl
  · exact parallel_pure id ()

variable [MinlpProblem π α] [MinlpProblem π' α]

theorem parallel_onNlpOptimal (hσ : σ.Lawful) (h : σ.Relates inner) (nlp : SubproblemResult α) :
    Parallel σ inner id (onNlpOptimal nlp) (onNlpOptimal (σ.result nlp)) := by
  rw [onNlpOptimal_eq, onNlpOptimal_eq]
  apply parallel_progress_bind
  intro p
  have himproves : (σ.progress p).improvesBound (σ.result nlp).objective =
      p.improvesBound nlp.objective := hσ.improvesBound nlp.objective p
  rw [himproves]
  apply parallel_bind (parallel_update (hσ.afterFeasible nlp.objective))
  intro _
  split
  · apply parallel_bind (parallel_update (hσ.offer nlp.objective nlp.solution))
    intro _
    apply parallel_bind (parallel_note (.incumbent nlp.objective))
    intro _
    exact parallel_linearize h nlp
  · exact parallel_linearize h nlp

theorem parallel_onNlp (hσ : σ.Lawful) (h : σ.Relates inner) (nlp : SubproblemResult α) :
    Parallel σ inner id (onNlp nlp) (onNlp (σ.result nlp)) := by
  have hcondition : (σ.result nlp).condition = nlp.condition := rfl
  unfold onNlp
  rw [hcondition]
  split
  · exact parallel_onNlpOptimal hσ h nlp
  · exact parallel_onNlpOptimal hσ h nlp
  · exact parallel_onNlpInfeasible h
  · exact parallel_onNlpOther h _

theorem parallel_resolve (hσ : σ.Lawful) (h : σ.Relates inner) {c : Config α}
    (hc : σ.admits c.boundTolerance) :
    Parallel σ inner id (resolve c) (resolve c) := by
  have hmaster : Parallel σ inner id
      (do takeCorrection c (← ask (MinlpProblem.solveMaster · (correctionOptions c))))
      (do takeCorrection c (← ask (MinlpProblem.solveMaster · (correctionOptions c)))) :=
    parallel_bind (parallel_ask fun p => h.solveMaster p _) fun master =>
      parallel_takeCorrection hσ hc master
  apply parallel_bind (parallel_dropLast h)
  rintro (_ | _)
  · exact hmaster
  · exact parallel_bind (parallel_ask_same fun _ => h.reload) fun _ => hmaster

theorem parallel_amend (hσ : σ.Lawful) (h : σ.Relates inner) (settled : Bool) {c : Config α}
    (hc : σ.admits c.boundTolerance) :
    Parallel σ inner id (amend settled c) (amend settled c) := by
  unfold amend
  split
  · apply parallel_bind (parallel_ask fun p => h.solveNlp p c)
    intro nlp
    exact parallel_bind (parallel_onNlp hσ h nlp) fun _ => parallel_resolve hσ h hc
  · exact parallel_resolve hσ h hc

theorem parallel_correctBound (hσ : σ.Lawful) (h : σ.Relates inner) (settled : Bool) :
    Parallel σ inner id (correctBound settled) (correctBound settled) := by
  rw [correctBound_eq, correctBound_eq]
  apply parallel_bind
  · exact parallel_modify (fun _ => rfl) fun _ => rfl
  intro _
  exact parallel_config_bind fun c hc => parallel_amend hσ h settled hc

theorem parallel_correctIfExcluded (hσ : σ.Lawful) (h : σ.Relates inner) (c : Config α)
    (settled : Bool) :
    Parallel σ inner id (correctIfExcluded c settled) (correctIfExcluded c settled) := by
  apply parallel_progress_bind
  intro p
  show Parallel σ inner id _
    (if c.addNoGoodCuts && decide (0 < p.masterIter) then correctBound settled else pure ())
  split
  · exact parallel_correctBound hσ h settled
  · exact parallel_pure id ()

variable {callbacks : Callbacks π α} {callbacks' : Callbacks π' α}

theorem parallel_nlpPhase (hσ : σ.Lawful) (h : σ.Relates inner)
    (hcalls : σ.RelatesCallbacks inner callbacks callbacks') :
    Parallel σ inner id (nlpPhase callbacks) (nlpPhase callbacks') := by
  apply parallel_config_bind
  intro c _
  split
  · apply parallel_bind (parallel_ask fun p => h.solveNlp p c)
    intro nlp
    exact parallel_bind (parallel_onNlp hσ h nlp) fun _ => parallel_call hcalls.afterNlp
  · exact parallel_pure id ()

variable [Rounding α]

theorem parallel_shouldTerminate (hσ : σ.Lawful) (h : σ.Relates inner) (checkCycling : Bool) :
    Parallel σ inner id (shouldTerminate checkCycling) (shouldTerminate checkCycling) := by
  rw [shouldTerminate_eq, shouldTerminate_eq]
  apply parallel_config_bind
  intro c hc
  apply parallel_progress_bind
  intro p
  rw [hσ.boundsConverged p hc]
  split
  · exact parallel_stop (.converged p.lower c.boundTolerance p.upper) .optimal
  show Parallel σ inner id _ (if c.iterationLimit ≤ p.masterIter then _ else _)
  split
  · exact parallel_stop (.iterationLimit p.masterIter p.lower p.upper) .maxIterations
  apply parallel_bind parallel_elapsed
  intro t
  show Parallel σ inner id _ (if Scalar.le c.timeLimit t then _ else _)
  split
  · exact parallel_stop (.timeLimit c.timeLimit t p.lower p.upper) .maxTimeLimit
  · exact parallel_stopIfCycling h c p checkCycling

theorem parallel_tryAssignment (hσ : σ.Lawful) (h : σ.Relates inner)
    (hcalls : σ.RelatesCallbacks inner callbacks callbacks') :
    Parallel σ inner id (tryAssignment callbacks) (tryAssignment callbacks') := by
  apply parallel_bind (parallel_call hcalls.afterMaster)
  intro _
  apply parallel_bind (parallel_shouldTerminate hσ h true)
  rintro (_ | _)
  · exact parallel_bind (parallel_nlpPhase hσ h hcalls) fun _ => parallel_pure id none
  · exact parallel_pure id (some false)

theorem parallel_iteration (hσ : σ.Lawful) (h : σ.Relates inner)
    (hcalls : σ.RelatesCallbacks inner callbacks callbacks') :
    Parallel σ inner id (iteration callbacks) (iteration callbacks') := by
  rw [iteration_eq, iteration_eq]
  apply parallel_progress_bind
  intro p
  apply parallel_bind (parallel_note (.iteration p.masterIter))
  intro _
  apply parallel_bind (parallel_shouldTerminate hσ h false)
  rintro (_ | _)
  · apply parallel_bind (parallel_nextMaster h)
    intro master
    show Parallel σ inner id _ (if master.condition = .infeasible then _ else
      if master.condition = .optimal then _ else _)
    split
    · exact parallel_bind (parallel_onMasterInfeasible hσ) fun _ => parallel_pure id (some true)
    split
    · exact parallel_bind (parallel_onMasterOptimal hσ master) fun _ =>
        parallel_tryAssignment hσ h hcalls
    · exact parallel_bind (parallel_onMasterOther hσ master) fun _ =>
        parallel_tryAssignment hσ h hcalls
  · exact parallel_pure id (some true)

theorem parallel_iterate (hσ : σ.Lawful) (h : σ.Relates inner)
    (hcalls : σ.RelatesCallbacks inner callbacks callbacks') (fuel : Nat) :
    Parallel σ inner id (iterate callbacks fuel) (iterate callbacks' fuel) := by
  induction fuel with
  | zero =>
    apply parallel_progress_bind
    intro p
    apply parallel_bind (parallel_note (.iteration p.masterIter))
    intro _
    exact parallel_bind (parallel_shouldTerminate hσ h false) fun _ => parallel_pure id true
  | succ fuel ih =>
    apply parallel_bind (parallel_iteration hσ h hcalls)
    intro settled
    cases settled with
    | some settled => exact parallel_pure id settled
    | none => exact ih

theorem parallel_search (hσ : σ.Lawful) (h : σ.Relates inner)
    (hcalls : σ.RelatesCallbacks inner callbacks callbacks') :
    Parallel σ inner id (search callbacks) (search callbacks') := by
  apply parallel_config_bind
  intro c _
  split
  · exact parallel_throw id _
  · exact parallel_progress_bind fun p => parallel_iterate hσ h hcalls _

theorem parallel_loop (hσ : σ.Lawful) (h : σ.Relates inner)
    (hcalls : σ.RelatesCallbacks inner callbacks callbacks') :
    Parallel σ inner id (loop callbacks) (loop callbacks') := by
  intro s hs
  rw [loop_run_eq_search, loop_run_eq_search]
  exact parallel_bind (parallel_search hσ h hcalls)
    (fun settled => parallel_correctIfExcluded hσ h s.config settled) s hs

end Run

end NonlinearOpt.OuterApprox
