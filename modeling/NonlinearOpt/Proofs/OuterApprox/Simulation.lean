import NonlinearOpt.Proofs.OuterApprox.Symmetry

/-!
Problems that behave like other ones. A problem may carry more than another problem does, such as a
record of what it was asked. If it gives the same answers, then so does a run with it, step by step.
-/

namespace NonlinearOpt.OuterApprox

variable {π π' α β γ : Type}

/-- Every operation of a problem `π'` is that of a problem `π`, as `inner` shows. -/
structure Simulates [MinlpProblem π' α] [MinlpProblem π α] (inner : π' → π) : Prop where
  solveMaster : ∀ p options r, MinlpProblem.solveMaster p options (inner r) =
    (MinlpProblem.solveMaster p options r).map id inner
  solveNlp : ∀ p c r, MinlpProblem.solveNlp p c (inner r) =
    (MinlpProblem.solveNlp p c r).map id inner
  integers : ∀ r, MinlpProblem.integers (inner r) = (MinlpProblem.integers r).map id inner
  addCuts : ∀ p zeroTolerance r, MinlpProblem.addCuts p zeroTolerance (inner r) =
    (MinlpProblem.addCuts p zeroTolerance r).map id inner
  addFeasibilityCut : ∀ p zeroTolerance r,
    MinlpProblem.addFeasibilityCut p zeroTolerance (inner r) =
      (MinlpProblem.addFeasibilityCut p zeroTolerance r).map id inner
  addNoGoodCut : ∀ p r, MinlpProblem.addNoGoodCut p (inner r) =
    (MinlpProblem.addNoGoodCut p r).map id inner
  dropLastNoGoodCut : ∀ r, MinlpProblem.dropLastNoGoodCut (inner r) =
    (MinlpProblem.dropLastNoGoodCut r).map id inner
  isPersistent : ∀ r, MinlpProblem.isPersistent (inner r) = MinlpProblem.isPersistent r
  reload : ∀ r, MinlpProblem.reload (inner r) = (MinlpProblem.reload r).map id inner

structure Callbacks.Simulates (inner : π' → π) (c' : Callbacks π' α) (c : Callbacks π α) :
    Prop where
  afterMaster : Option.Rel (fun f' f => ∀ p r, f p (inner r) = (f' p r).map id inner)
    c'.afterMaster c.afterMaster
  afterNlp : Option.Rel (fun f' f => ∀ p r, f p (inner r) = (f' p r).map id inner)
    c'.afterNlp c.afterNlp

theorem Callbacks.simulates_map {inner : π' → π} {f g : Callback π α → Callback π' α}
    (hf : ∀ call p r, call p (inner r) = (f call p r).map id inner)
    (hg : ∀ call p r, call p (inner r) = (g call p r).map id inner) (c : Callbacks π α) :
    Callbacks.Simulates inner ⟨c.afterMaster.map f, c.afterNlp.map g⟩ c where
  afterMaster := by
    cases c.afterMaster with
    | none => exact .none
    | some call => exact .some (hf call)
  afterNlp := by
    cases c.afterNlp with
    | none => exact .none
    | some call => exact .some (hg call)

def State.mapProblem (inner : π' → π) (s : State π' α) : State π α :=
  ⟨inner s.problem, s.progress, s.config, s.timers, s.clock, s.events⟩

namespace Symmetry

def identity : Symmetry α := ⟨id, false, fun _ => True⟩

theorem progress_identity (p : Progress α) : identity.progress p = p := by
  simp [identity, progress, pair, sense]

theorem value_identity (x : α) : identity.value x = x := rfl

theorem result_identity : (identity : Symmetry α).result = id := rfl

theorem event_identity : (identity : Symmetry α).event = id := by
  funext e
  cases e <;> rfl

theorem state_identity (inner : π' → π) : identity.state inner = State.mapProblem (α := α) inner := by
  funext s
  unfold state State.mapProblem
  rw [progress_identity, event_identity, List.map_id]

theorem lawful_identity [Scalar α] : (identity : Symmetry α).Lawful := by
  constructor
  all_goals
    intros
    simp only [progress_identity, result_identity, value_identity, id]

theorem relates_identity [MinlpProblem π' α] [MinlpProblem π α] {inner : π' → π}
    (h : Simulates inner) : identity.Relates inner where
  solveMaster p options r := by
    rw [progress_identity, result_identity, Except.map_id]
    exact h.solveMaster p options r
  solveNlp p c r := by
    rw [progress_identity, result_identity, Except.map_id]
    exact h.solveNlp p c r
  integers := h.integers
  addCuts p zeroTolerance r := by
    rw [progress_identity]
    exact h.addCuts p zeroTolerance r
  addFeasibilityCut p zeroTolerance r := by
    rw [progress_identity]
    exact h.addFeasibilityCut p zeroTolerance r
  addNoGoodCut p r := by
    rw [progress_identity]
    exact h.addNoGoodCut p r
  dropLastNoGoodCut := h.dropLastNoGoodCut
  isPersistent := h.isPersistent
  reload := h.reload

theorem relatesCallback_identity {inner : π' → π} {f' : Option (Callback π' α)}
    {f : Option (Callback π α)}
    (h : Option.Rel (fun f' f => ∀ p r, f p (inner r) = (f' p r).map id inner) f' f) :
    identity.RelatesCallback inner f' f := by
  cases h with
  | none => exact .none
  | some h =>
    refine .some fun p r => ?_
    rw [progress_identity]
    exact h p r

theorem relatesCallbacks_identity {inner : π' → π} {c' : Callbacks π' α} {c : Callbacks π α}
    (h : c'.Simulates inner c) : identity.RelatesCallbacks inner c' c :=
  ⟨relatesCallback_identity h.afterMaster, relatesCallback_identity h.afterNlp⟩

end Symmetry

namespace Run

/-- A part of a run that does what another part does with the problem of `inner`. -/
def Mirrors (inner : π' → π) (r : Run π' α β) (m : Run π α β) : Prop :=
  ∀ s, m.run.run (s.mapProblem inner) = (r.run.run s).map id (State.mapProblem inner)

variable {inner : π' → π}

theorem mirrors_of_parallel {r : Run π' α β} {m : Run π α β}
    (h : Parallel .identity inner id r m) : Mirrors inner r m := by
  intro s
  have hrun := (h s trivial).1
  rwa [Symmetry.state_identity, Except.map_id] at hrun

theorem mirrors_pure (b : β) : Mirrors (α := α) inner (pure b) (pure b) := fun _ => rfl

theorem mirrors_bind {r : Run π' α γ} {m : Run π α γ} {f : γ → Run π' α β} {g : γ → Run π α β}
    (h : Mirrors inner r m) (hf : ∀ c, Mirrors inner (f c) (g c)) :
    Mirrors inner (r >>= f) (m >>= g) := by
  intro s
  rw [run_bind, run_bind, h s]
  cases r.run.run s with
  | mk c t =>
    cases c with
    | error e => rfl
    | ok c => exact hf c t

theorem mirrors_progress : Mirrors (α := α) inner progress progress := fun _ => rfl

theorem mirrors_update (f : Progress α → Progress α) : Mirrors inner (update f) (update f) :=
  fun _ => rfl

theorem mirrors_note (e : Event α) : Mirrors inner (note e) (note e) := fun _ => rfl

theorem mirrors_now : Mirrors (α := α) inner now now := fun _ => rfl

theorem mirrors_updateTimers (f : Timers α → Timers α) :
    Mirrors inner (updateTimers f) (updateTimers f) := fun _ => rfl

theorem mirrors_elapsed [Scalar α] : Mirrors (α := α) inner elapsed elapsed := fun _ => rfl

variable [Scalar α] [Rounding α] [MinlpProblem π' α] [MinlpProblem π α]
  {callbacks' : Callbacks π' α} {callbacks : Callbacks π α}

theorem mirrors_search (h : Simulates inner) (hcalls : callbacks'.Simulates inner callbacks) :
    Mirrors inner (search callbacks') (search callbacks) :=
  mirrors_of_parallel (parallel_search Symmetry.lawful_identity (Symmetry.relates_identity h)
    (Symmetry.relatesCallbacks_identity hcalls))

theorem mirrors_loop (h : Simulates inner) (hcalls : callbacks'.Simulates inner callbacks) :
    Mirrors inner (loop callbacks') (loop callbacks) :=
  mirrors_of_parallel (parallel_loop Symmetry.lawful_identity (Symmetry.relates_identity h)
    (Symmetry.relatesCallbacks_identity hcalls))

theorem mirrors_solve (h : Simulates inner) (hcalls : callbacks'.Simulates inner callbacks) :
    Mirrors inner (solve callbacks') (solve callbacks) := by
  apply mirrors_bind mirrors_now
  intro t
  apply mirrors_bind (mirrors_updateTimers _)
  intro _
  apply mirrors_bind (mirrors_loop h hcalls)
  intro _
  apply mirrors_bind mirrors_now
  intro t
  apply mirrors_bind (mirrors_updateTimers _)
  intro _
  apply mirrors_bind mirrors_elapsed
  intro t
  apply mirrors_bind (mirrors_update _)
  intro _
  apply mirrors_bind mirrors_progress
  intro p
  exact mirrors_bind (mirrors_note _) fun _ => mirrors_pure _

end Run

end NonlinearOpt.OuterApprox
