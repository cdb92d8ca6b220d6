import NonlinearOpt.Proofs.OuterApprox.Simulation
import NonlinearOpt.Proofs.OuterApprox.Protocol

namespace NonlinearOpt.OuterApprox

variable {π α β γ : Type}

structure Traced (π α : Type) where
  problem : π
  trace : List (Call α)

namespace Traced

def put (r : Traced π α) (entry : Except Error β → π → Call α) (x : Except Error β × π) :
    Except Error β × Traced π α :=
  (x.1, ⟨x.2, r.trace ++ [entry x.1 x.2]⟩)

instance [MinlpProblem π α] : MinlpProblem (Traced π α) α where
  sense r := MinlpProblem.sense r.problem
  solveMaster p options r :=
    r.put (fun answer _ => .solveMaster answer) (MinlpProblem.solveMaster p options r.problem)
  solveNlp p c r := r.put (fun answer _ => .solveNlp answer) (MinlpProblem.solveNlp p c r.problem)
  integers r :=
    let (values, problem) := MinlpProblem.integers r.problem
    (values, ⟨problem, r.trace ++ [.readIntegers values]⟩)
  addCuts p zeroTolerance r :=
    r.put (fun answer _ => .addCuts answer) (MinlpProblem.addCuts p zeroTolerance r.problem)
  addFeasibilityCut p zeroTolerance r :=
    r.put (fun answer _ => .addFeasibilityCut answer)
      (MinlpProblem.addFeasibilityCut p zeroTolerance r.problem)
  addNoGoodCut p r :=
    r.put (fun answer _ => .addNoGoodCut answer) (MinlpProblem.addNoGoodCut p r.problem)
  dropLastNoGoodCut r :=
    r.put (fun answer problem => .dropLastNoGoodCut answer (MinlpProblem.isPersistent problem))
      (MinlpProblem.dropLastNoGoodCut r.problem)
  isPersistent r := MinlpProblem.isPersistent r.problem
  reload r := r.put (fun answer _ => .reload answer) (MinlpProblem.reload r.problem)

def callback (entry : Except Error Unit → Call α) (f : Callback π α) : Callback (Traced π α) α :=
  fun p r =>
    let (answer, problem) := f p r.problem
    (answer, ⟨problem, r.trace ++ [entry (answer.mapError .callback)]⟩)

theorem simulates [MinlpProblem π α] : Simulates (Traced.problem : Traced π α → π) where
  solveMaster _ _ _ := rfl
  solveNlp _ _ _ := rfl
  integers _ := rfl
  addCuts _ _ _ := rfl
  addFeasibilityCut _ _ _ := rfl
  addNoGoodCut _ _ := rfl
  dropLastNoGoodCut _ := rfl
  isPersistent _ := rfl
  reload _ := rfl

end Traced

def Callbacks.traced (c : Callbacks π α) : Callbacks (Traced π α) α :=
  ⟨c.afterMaster.map (Traced.callback .afterMaster), c.afterNlp.map (Traced.callback .afterNlp)⟩

theorem Callbacks.simulates_traced (c : Callbacks π α) :
    c.traced.Simulates Traced.problem c :=
  Callbacks.simulates_map (fun _ _ _ => rfl) (fun _ _ _ => rfl) c

def State.fresh [Scalar α] (sense : Sense) (problem : π) (config : Config α) (timers : Timers α)
    (clock : Clock α) : State π α :=
  ⟨problem, .new sense, config, timers, clock, []⟩

def State.traced (s : State π α) : State (Traced π α) α :=
  ⟨⟨s.problem, []⟩, s.progress, s.config, s.timers, s.clock, s.events⟩

namespace Run

structure Shows (s : State (Traced π α) α) (steps : List (Step α)) (t : State (Traced π α) α) :
    Prop where
  trace : t.problem.trace = s.problem.trace ++ Step.calls steps
  reports : t.events.filter Event.isCriterion = s.events.filter Event.isCriterion ++
    Step.reports steps
  config : t.config = s.config

/-- From `s` on, a part of a run does what a script allows. -/
def Follows (s : State (Traced π α) α) (m : Run (Traced π α) α β) (script : Script α β) : Prop :=
  ∃ steps, Shows s steps (m.run.run s).2 ∧ FailsFast (Step.calls steps) (m.run.run s).1 ∧
    script s.progress.masterIter steps (m.run.run s).1 (m.run.run s).2.progress.masterIter

variable {s : State (Traced π α) α}

theorem Shows.refl (s : State (Traced π α) α) : Shows s [] s :=
  ⟨(List.append_nil _).symm, (List.append_nil _).symm, rfl⟩

theorem Shows.trans {t u : State (Traced π α) α} {first rest : List (Step α)}
    (hfirst : Shows s first t) (hrest : Shows t rest u) : Shows s (first ++ rest) u where
  trace := by rw [hrest.trace, hfirst.trace, Step.calls_append, List.append_assoc]
  reports := by rw [hrest.reports, hfirst.reports, Step.reports_append, List.append_assoc]
  config := hrest.config.trans hfirst.config

theorem Follows.mono {m : Run (Traced π α) α β} {script script' : Script α β}
    (h : Follows s m script)
    (himp : ∀ steps r k, script s.progress.masterIter steps r k →
      script' s.progress.masterIter steps r k) : Follows s m script' := by
  obtain ⟨steps, hshows, hfails, hscript⟩ := h
  exact ⟨steps, hshows, hfails, himp _ _ _ hscript⟩

theorem follows_pure (b : β) : Follows s (pure b) (pure b) :=
  ⟨[], .refl s, .nil b, .mk _⟩

theorem follows_bind_of {m : Run (Traced π α) α γ} {f : γ → Run (Traced π α) α β}
    {script : Script α γ} {next : γ → Script α β} (h : Follows s m script)
    (hf : ∀ c t, t.config = s.config →
      (∃ first, script s.progress.masterIter first (.ok c) t.progress.masterIter) →
        Follows t (f c) (next c)) :
    Follows s (m >>= f) (script >>= next) := by
  obtain ⟨first, hshows, hfails, hscript⟩ := h
  unfold Follows
  rw [run_bind]
  cases hrun : m.run.run s with
  | mk r t =>
    rw [hrun] at hshows hfails hscript
    cases r with
    | error e => exact ⟨first, hshows, hfails.error, .broken hscript⟩
    | ok c =>
      obtain ⟨rest, hshows', hfails', hscript'⟩ := hf c t hshows.config ⟨first, hscript⟩
      refine ⟨first ++ rest, hshows.trans hshows', ?_, .through hscript hscript'⟩
      rw [Step.calls_append]
      exact hfails.append hfails'

theorem follows_bind {m : Run (Traced π α) α γ} {f : γ → Run (Traced π α) α β}
    {script : Script α γ} {next : γ → Script α β} (h : Follows s m script)
    (hf : ∀ c t, t.config = s.config → Follows t (f c) (next c)) :
    Follows s (m >>= f) (script >>= next) :=
  follows_bind_of h fun c t hconfig _ => hf c t hconfig

theorem follows_progress_bind {f : Progress α → Run (Traced π α) α β} {script : Script α β}
    (h : Follows s (f s.progress) script) : Follows s (progress >>= f) script := h

theorem follows_config_bind {f : Config α → Run (Traced π α) α β} {script : Script α β}
    (h : Follows s (f s.config) script) : Follows s (config >>= f) script := h

theorem follows_ask {f : Progress α → π → Except Error β × π} {entry : Except Error β → Call α}
    (h : ∀ answer, (entry answer).failure? = errorOf? answer) :
    Follows s (ask fun p r => r.put (fun answer _ => entry answer) (f p r.problem))
      (.asked entry) :=
  ⟨[.call (entry (f s.progress s.problem.problem).1)],
    ⟨rfl, (List.append_nil _).symm, rfl⟩, .single (h _), .mk _ _⟩

theorem follows_call (f : Option (Callback π α)) {entry : Except Error Unit → Call α}
    (h : ∀ answer, (entry answer).failure? = errorOf? answer) :
    Follows s (call (f.map (Traced.callback entry))) (.called f entry) := by
  cases f with
  | none => exact follows_pure ()
  | some f =>
    let answer := (f s.progress s.problem.problem).1.mapError Error.callback
    exact ⟨[.call (entry answer)], ⟨rfl, (List.append_nil _).symm, rfl⟩, .single (h answer),
      .mk _ answer⟩

def Silent (m : Run (Traced π α) α β) : Prop :=
  ∀ s, ∃ b t, m.run.run s = (.ok b, t) ∧ Shows s [] t ∧
    t.progress.masterIter = s.progress.masterIter

theorem follows_silent_bind {m : Run (Traced π α) α γ} {f : γ → Run (Traced π α) α β}
    {script : Script α β} (hm : Silent m)
    (hf : ∀ c t, t.config = s.config → t.progress.masterIter = s.progress.masterIter →
      Follows t (f c) script) : Follows s (m >>= f) script := by
  obtain ⟨c, t, hrun, hshows, hcount⟩ := hm s
  obtain ⟨steps, hshows', hfails, hscript⟩ := hf c t hshows.config hcount
  unfold Follows
  rw [run_bind, hrun]
  exact ⟨steps, hshows.trans hshows', hfails, hcount ▸ hscript⟩

theorem follows_silent {m : Run (Traced π α) α Unit} (hm : Silent m) : Follows s m (pure ()) := by
  obtain ⟨_, t, hrun, hshows, hcount⟩ := hm s
  unfold Follows
  rw [hrun]
  exact ⟨[], hshows, .nil (), hcount ▸ .mk _⟩

theorem silent_pure (b : β) : Silent (pure b : Run (Traced π α) α β) :=
  fun s => ⟨b, s, rfl, .refl s, rfl⟩

theorem silent_bind {m : Run (Traced π α) α γ} {f : γ → Run (Traced π α) α β} (hm : Silent m)
    (hf : ∀ c, Silent (f c)) : Silent (m >>= f) := by
  intro s
  obtain ⟨c, t, hrun, hshows, hcount⟩ := hm s
  obtain ⟨b, u, hrun', hshows', hcount'⟩ := hf c t
  refine ⟨b, u, ?_, hshows.trans hshows', hcount'.trans hcount⟩
  rw [run_bind, hrun]
  exact hrun'

theorem silent_progress : Silent (progress : Run (Traced π α) α (Progress α)) :=
  fun s => ⟨s.progress, s, rfl, .refl s, rfl⟩

theorem silent_update {f : Progress α → Progress α}
    (h : ∀ p, (f p).masterIter = p.masterIter) :
    Silent (update f : Run (Traced π α) α Unit) :=
  fun s => ⟨(), _, rfl, ⟨(List.append_nil _).symm, (List.append_nil _).symm, rfl⟩, h s.progress⟩

theorem silent_note {e : Event α} (h : e.isCriterion = false) :
    Silent (note e : Run (Traced π α) α Unit) := by
  intro s
  refine ⟨(), _, rfl, ⟨(List.append_nil _).symm, ?_, rfl⟩, rfl⟩
  show (s.events ++ [e]).filter Event.isCriterion = _
  rw [List.filter_append, List.filter_cons_of_neg (by simp [h])]
  rfl

theorem silent_elapsed [Scalar α] : Silent (elapsed : Run (Traced π α) α α) :=
  fun _ => ⟨_, _, rfl, ⟨(List.append_nil _).symm, (List.append_nil _).symm, rfl⟩, rfl⟩

theorem silent_onMasterInfeasible [Scalar α] :
    Silent (onMasterInfeasible : Run (Traced π α) α Unit) := by
  have hupdate (p : Progress α) : p.afterMasterInfeasible.masterIter = p.masterIter := by
    unfold Progress.afterMasterInfeasible
    cases p.sense <;> rfl
  apply silent_bind (silent_note rfl)
  intro _
  apply silent_bind silent_progress
  intro p
  split
  · exact silent_bind (silent_note rfl) fun _ => silent_update hupdate
  · exact silent_update hupdate

theorem silent_onMasterOptimal [Scalar α] (master : SubproblemResult α) :
    Silent (onMasterOptimal master : Run (Traced π α) α Unit) := by
  have hupdate (p : Progress α) : (p.afterMasterOptimal master).masterIter = p.masterIter := by
    unfold Progress.afterMasterOptimal
    cases p.sense <;> rfl
  apply silent_bind (silent_update hupdate)
  intro _
  exact silent_bind silent_progress fun _ => silent_note rfl

theorem silent_onMasterOther [Scalar α] (master : SubproblemResult α) :
    Silent (onMasterOther master : Run (Traced π α) α Unit) := by
  have hupdate (p : Progress α) : (p.afterMasterOther master).masterIter = p.masterIter := by
    unfold Progress.afterMasterOther
    split
    all_goals (try rfl)
    all_goals (split <;> split <;> rfl)
  apply silent_bind silent_progress
  intro _
  exact silent_bind (silent_note rfl) fun _ => silent_update hupdate

theorem silent_compareAssignment (assignment : List Int) :
    Silent (compareAssignment assignment : Run (Traced π α) α Bool) := by
  apply silent_bind
  · exact silent_update fun _ => rfl
  intro _
  apply silent_bind silent_progress
  intro p
  split
  · exact silent_pure _
  · exact silent_bind (silent_update fun _ => rfl) fun _ => silent_pure _

theorem follows_stop {e : Event α} (condition : Termination) (h : e.isCriterion = true) :
    Follows s (stop e condition) (.reported e) := by
  refine ⟨[.report e], ⟨(List.append_nil _).symm, ?_, rfl⟩, .nil true, .mk _⟩
  show (s.events ++ [e]).filter Event.isCriterion = _
  rw [List.filter_append, List.filter_cons_of_pos h]
  rfl

theorem silent_takeCorrection [Scalar α] (c : Config α) (master : SubproblemResult α) :
    Silent (takeCorrection c master : Run (Traced π α) α Unit) := by
  have hupdate (p : Progress α) : (p.correctBound master).masterIter = p.masterIter := by
    unfold Progress.correctBound
    cases p.sense <;> rfl
  apply silent_bind (silent_note rfl)
  intro _
  apply silent_bind (silent_update hupdate)
  intro _
  apply silent_bind silent_progress
  intro p
  split
  · exact silent_update fun _ => rfl
  · exact silent_pure _

section Questions

variable [MinlpProblem π α]

theorem follows_nextMaster : Follows s nextMaster (.nextMaster) :=
  ⟨[.call (.solveMaster _)], ⟨rfl, (List.append_nil _).symm, rfl⟩, .single rfl, .mk _ _⟩

theorem follows_excludeAssignment : Follows s excludeAssignment (.excluded s.config) := by
  apply follows_config_bind
  unfold Script.excluded
  split
  · exact follows_ask fun _ => rfl
  · exact follows_pure _

theorem follows_cut {f : Progress α → α → π → Except Error Unit × π}
    (entry : Except Error Unit → Call α)
    (h : ∀ answer, (entry answer).failure? = errorOf? answer) :
    Follows s (do
      let c ← config
      ask fun p r => r.put (fun answer _ => entry answer) (f p c.zeroTolerance r.problem)
      excludeAssignment) (do
      .asked entry
      .excluded s.config) := by
  apply follows_config_bind
  apply follows_bind (follows_ask h)
  intro _ t hconfig
  rw [← hconfig]
  exact follows_excludeAssignment

theorem follows_linearize (nlp : SubproblemResult α) :
    Follows s (linearize nlp) (do
      .asked .addCuts
      .excluded s.config) := by
  apply follows_progress_bind
  apply follows_silent_bind (silent_note rfl)
  intro _ t hconfig _
  rw [← hconfig]
  exact follows_cut .addCuts fun _ => rfl

theorem follows_onNlpInfeasible :
    Follows s onNlpInfeasible (do
      .asked .addFeasibilityCut
      .excluded s.config) := by
  apply follows_silent_bind (silent_note rfl)
  intro _ t hconfig _
  rw [← hconfig]
  exact follows_cut .addFeasibilityCut fun _ => rfl

theorem follows_onNlpOther (condition : Termination) :
    Follows s (onNlpOther condition) (.excluded s.config) := by
  apply follows_progress_bind
  apply follows_silent_bind (silent_note rfl)
  intro _ t hconfig _
  rw [← hconfig]
  exact follows_excludeAssignment

theorem follows_repeatsAssignment [Rounding α] : Follows s repeatsAssignment .compared := by
  let r := MinlpProblem.integers s.problem.problem
  let t : State (Traced π α) α :=
    { s with problem := ⟨r.2, s.problem.trace ++ [.readIntegers r.1]⟩ }
  obtain ⟨repeats, u, hcompare, hshows, hcount⟩ :=
    silent_compareAssignment (r.1.toList.map Rounding.round) t
  have hrun : (repeatsAssignment : Run (Traced π α) α Bool).run.run s = (.ok repeats, u) := hcompare
  have hread : Shows s [.call (.readIntegers r.1)] t := ⟨rfl, (List.append_nil _).symm, rfl⟩
  unfold Follows
  rw [hrun]
  exact ⟨_, hread.trans hshows, .single rfl, hcount ▸ .mk _ _ _⟩

theorem follows_dropLast : Follows s dropLast .dropped := by
  let x := MinlpProblem.dropLastNoGoodCut s.problem.problem
  let call : Call α := .dropLastNoGoodCut x.1 (MinlpProblem.isPersistent x.2)
  let t : State (Traced π α) α := { s with problem := ⟨x.2, s.problem.trace ++ [call]⟩ }
  have hrun : (dropLast : Run (Traced π α) α Bool).run.run s =
      (x.1.map fun _ => MinlpProblem.isPersistent x.2, t) := by
    have hask : (ask fun _ r => MinlpProblem.dropLastNoGoodCut r :
        Run (Traced π α) α Unit).run.run s = (x.1, t) := rfl
    unfold dropLast
    rw [run_bind, hask]
    cases x.1 <;> rfl
  unfold Follows
  rw [hrun]
  refine ⟨[.call call], ⟨rfl, (List.append_nil _).symm, rfl⟩, .single ?_, .mk _ _ _⟩
  show errorOf? x.1 = _
  cases x.1 <;> rfl

variable [Scalar α]

theorem follows_resolve (c : Config α) :
    Follows s (resolve c) (do
      if ← .dropped then .asked .reload
      let _ ← .asked .solveMaster) := by
  have hmaster {t : State (Traced π α) α} : Follows t
      (do takeCorrection c (← ask (MinlpProblem.solveMaster · (correctionOptions c))))
      (do let _ ← Script.asked .solveMaster) := by
    apply follows_bind (follows_ask fun _ => rfl)
    intro master u _
    exact follows_silent (silent_takeCorrection c master)
  apply follows_bind follows_dropLast
  intro persistent t _
  split
  · exact follows_bind (follows_ask fun _ => rfl) fun _ _ _ => hmaster
  · exact hmaster

theorem follows_onNlpOptimal (nlp : SubproblemResult α) :
    Follows s (onNlpOptimal nlp) (do
      .asked .addCuts
      .excluded s.config) := by
  rw [onNlpOptimal_eq]
  have hfeasible (p : Progress α) : (p.afterFeasible nlp.objective).masterIter = p.masterIter := by
    unfold Progress.afterFeasible
    cases p.sense <;> rfl
  have hoffer (p : Progress α) :
      (p.offer nlp.objective nlp.solution).2.masterIter = p.masterIter := by
    unfold Progress.offer
    split <;> rfl
  apply follows_progress_bind
  apply follows_silent_bind (silent_update hfeasible)
  intro _ t hconfig _
  rw [← hconfig]
  split
  · apply follows_silent_bind (silent_update hoffer)
    intro _ u hconfig' _
    rw [← hconfig']
    apply follows_silent_bind (silent_note rfl)
    intro _ v hconfig'' _
    rw [← hconfig'']
    exact follows_linearize nlp
  · exact follows_linearize nlp

theorem follows_onNlp (nlp : SubproblemResult α) :
    Follows s (onNlp nlp) (.cuts s.config nlp.condition) := by
  unfold onNlp
  cases nlp.condition with
  | optimal => exact follows_onNlpOptimal nlp
  | locallyOptimal => exact follows_onNlpOptimal nlp
  | infeasible => exact follows_onNlpInfeasible
  | maxIterations => exact follows_onNlpOther _
  | maxTimeLimit => exact follows_onNlpOther _
  | feasible => exact follows_onNlpOther _
  | other => exact follows_onNlpOther _
  | unknown => exact follows_onNlpOther _

theorem follows_nlpPhase (callbacks : Callbacks π α) :
    Follows s (nlpPhase callbacks.traced) (.subproblem s.config callbacks) := by
  apply follows_config_bind
  unfold Script.subproblem
  split
  · apply follows_bind (follows_ask fun _ => rfl)
    intro nlp t hconfig
    rw [← hconfig]
    exact follows_bind (follows_onNlp nlp) fun _ _ _ => follows_call _ fun _ => rfl
  · exact follows_pure _

theorem follows_amend (settled : Bool) :
    Follows s (amend settled s.config) (.correction s.config settled) := by
  unfold amend Script.correction
  split
  · apply follows_bind (follows_ask fun _ => rfl)
    intro nlp t hconfig
    rw [← hconfig]
    apply follows_bind (follows_onNlp nlp)
    intro _ u hconfig'
    exact follows_resolve _
  · exact follows_resolve _

variable [Rounding α]

theorem follows_stopIfCycling {c : Config α} {p : Progress α} (checkCycling : Bool)
    (hcount : s.progress.masterIter = p.masterIter) (hlimit : p.masterIter < c.iterationLimit) :
    Follows s (stopIfCycling c p checkCycling) (.check c checkCycling) := by
  have hverdict : ∀ (repeats : Bool) (t : State (Traced π α) α), t.config = s.config → Follows t
      (if repeats then stop (.cycling p.masterIter p.lower p.upper) .feasible else pure false)
      (if repeats then .reported (.cycling p.masterIter p.lower p.upper) else pure false) := by
    intro repeats t _
    split
    · exact follows_stop _ rfl
    · exact follows_pure _
  unfold stopIfCycling
  split
  next hdue =>
    apply (follows_bind follows_repeatsAssignment hverdict).mono
    rw [hcount]
    intro steps r k h
    cases h with
    | broken hread => cases hread
    | @through _ _ _ _ repeats _ hread hrest =>
      cases hread
      cases repeats with
      | true =>
        cases hrest
        exact .cycling hlimit hdue
      | false =>
        cases hrest
        exact .fresh hlimit hdue
  next hdue =>
    apply (follows_pure _).mono
    rw [hcount]
    intro steps r k h
    cases h
    exact .unmet hlimit (Bool.not_eq_true _ ▸ hdue)

theorem follows_shouldTerminate (checkCycling : Bool) :
    Follows s (shouldTerminate checkCycling) (.check s.config checkCycling) := by
  rw [shouldTerminate_eq]
  apply follows_config_bind
  apply follows_progress_bind
  split
  next hconverged =>
    apply (follows_stop _ rfl).mono
    intro steps r k h
    cases h
    exact .converged hconverged
  split
  next hlimit =>
    apply (follows_stop _ rfl).mono
    intro steps r k h
    cases h
    exact .iterationLimit hlimit
  next hlimit =>
    apply follows_silent_bind silent_elapsed
    intro time t hconfig hcount
    split
    next htime =>
      apply (follows_stop _ rfl).mono
      rw [hcount]
      intro steps r k h
      cases h
      exact .timeLimit (Nat.lt_of_not_le hlimit) htime
    next => exact follows_stopIfCycling checkCycling hcount (Nat.lt_of_not_le hlimit)

theorem follows_tryAssignment (callbacks : Callbacks π α) :
    Follows s (tryAssignment callbacks.traced) (.assignment s.config callbacks) := by
  apply follows_bind (follows_call _ fun _ => rfl)
  intro _ t hconfig
  rw [← hconfig]
  apply follows_bind (follows_shouldTerminate true)
  intro stops u hconfig'
  rw [← hconfig']
  split
  · exact follows_pure _
  · exact follows_bind (follows_nlpPhase callbacks) fun _ _ _ => follows_pure _

theorem follows_iteration (callbacks : Callbacks π α) :
    Follows s (iteration callbacks.traced) (.iteration s.config callbacks) := by
  rw [iteration_eq]
  apply follows_progress_bind
  apply follows_silent_bind (silent_note rfl)
  intro _ t hconfig _
  rw [← hconfig]
  apply follows_bind (follows_shouldTerminate false)
  intro stops u hconfig'
  rw [← hconfig']
  split
  · exact follows_pure _
  apply follows_bind follows_nextMaster
  intro master v hconfig''
  rw [← hconfig'']
  split
  · apply follows_silent_bind silent_onMasterInfeasible
    intro _ _ _ _
    exact follows_pure _
  split
  · apply follows_silent_bind (silent_onMasterOptimal master)
    intro _ w hw _
    rw [← hw]
    exact follows_tryAssignment callbacks
  · apply follows_silent_bind (silent_onMasterOther master)
    intro _ w hw _
    rw [← hw]
    exact follows_tryAssignment callbacks

/-- A run with as much fuel as there are iterations left does not run out of it. -/
theorem follows_iterate (callbacks : Callbacks π α) (fuel : Nat)
    (hfuel : s.config.iterationLimit = s.progress.masterIter + fuel) :
    Follows s (iterate callbacks.traced fuel) (.Iterations s.config callbacks) := by
  induction fuel generalizing s with
  | zero =>
    apply follows_progress_bind
    apply follows_silent_bind (silent_note rfl)
    intro _ t hconfig hcount
    rw [← hconfig]
    apply (follows_bind (follows_shouldTerminate false) fun _ _ _ => follows_pure true).mono
    intro steps r k h
    cases h with
    | broken hcheck => cases hcheck
    | through hcheck hrest =>
      cases hrest
      rw [List.append_nil]
      apply Script.Iterations.last
      exact Script.iteration_of_check (by rw [hconfig, hcount, hfuel]; exact Nat.le_refl _) hcheck
  | succ fuel ih =>
    apply (follows_bind_of (follows_iteration callbacks) ?_).mono fun _ _ _ =>
      Script.iterations_of_then
    intro settled t hconfig hfirst
    cases settled with
    | some settled => exact follows_pure settled
    | none =>
      obtain ⟨first, hscript⟩ := hfirst
      rw [← hconfig]
      apply ih
      rw [hconfig, hfuel]
      cases Script.masters_iteration hscript with
      | inl hlast => cases hlast.2.2
      | inr hnext => omega

end Questions

section Loop

variable [Scalar α] [MinlpProblem π α]

theorem exists_correction_steps {settled : Bool} {t : State (Traced π α) α}
    {r : Except Error Unit} (hrun : (correctBound settled).run.run s = (r, t)) :
    ∃ steps, Script.correction s.config settled s.progress.masterIter steps r
        t.progress.masterIter ∧
      t.problem.trace = s.problem.trace ++ Step.calls steps ∧
      t.events.filter Event.isCriterion = s.events.filter Event.isCriterion ++
        Step.reports steps ∧
      FailsFast (Step.calls steps) r := by
  obtain ⟨steps, hshows, hfails, hscript⟩ := follows_amend
    (s := { s with config := { s.config with zeroTolerance := 1e-4 } }) settled
  rw [correctBound_run] at hrun
  rw [hrun] at hshows hfails hscript
  exact ⟨steps, hscript, hshows.trace, hshows.reports, hfails⟩

variable [Rounding α]

theorem exists_loop_steps {callbacks : Callbacks π α} {t : State (Traced π α) α}
    {r : Except Error Unit} (himplemented : s.config.strategy.isImplemented = true)
    (htrace : s.problem.trace = []) (hevents : s.events = []) (hcount : s.progress.masterIter = 0)
    (hrun : (loop callbacks.traced).run.run s = (r, t)) :
    ∃ first second, Script.Loop s.config callbacks first second r t.progress.masterIter ∧
      t.problem.trace = Step.calls (first ++ second) ∧
      t.events.filter Event.isCriterion = Step.reports (first ++ second) ∧
      FailsFast (Step.calls (first ++ second)) r := by
  have hfuel : s.config.iterationLimit =
      s.progress.masterIter + (s.config.iterationLimit - s.progress.masterIter) := by omega
  obtain ⟨first, hshows, hfails, hscript⟩ := follows_iterate callbacks _ hfuel
  rw [loop_run _ _ himplemented] at hrun
  cases hiterate : (iterate callbacks.traced
      (s.config.iterationLimit - s.progress.masterIter)).run.run s with
  | mk ending u =>
    rw [hiterate] at hrun hshows hfails hscript
    rw [hcount] at hscript
    have hfirst : u.problem.trace = Step.calls first ∧
        u.events.filter Event.isCriterion = Step.reports first := by
      rw [hshows.trace, hshows.reports, htrace, hevents]
      exact ⟨rfl, rfl⟩
    cases ending with
    | error e =>
      cases hrun
      refine ⟨first, [], .broken hscript, ?_⟩
      rw [List.append_nil]
      exact ⟨hfirst.1, hfirst.2, hfails.error⟩
    | ok settled =>
      by_cases hcorrects : (s.config.addNoGoodCuts && decide (0 < u.progress.masterIter)) = true
      · obtain ⟨second, hsecond, htrace', hreports, hfails'⟩ :=
          exists_correction_steps ((if_pos hcorrects).symm.trans hrun)
        rw [hshows.config] at hsecond
        have hcount' := Script.uncounted_correction _ _ hsecond
        rw [hcount'] at hsecond ⊢
        refine ⟨first, second, .corrected hscript hcorrects hsecond, ?_⟩
        rw [Step.calls_append, Step.reports_append, ← hfirst.1, ← hfirst.2]
        exact ⟨htrace', hreports, hfirst.1 ▸ hfails.append hfails'⟩
      · cases hrun.symm.trans (if_neg hcorrects)
        refine ⟨first, [], .uncorrected hscript (Bool.not_eq_true _ ▸ hcorrects), ?_⟩
        rw [List.append_nil]
        exact ⟨hfirst.1, hfirst.2, hfails.ok ()⟩

def calls (callbacks : Callbacks π α) (s : State π α) : List (Call α) :=
  ((loop callbacks.traced).run.run s.traced).2.problem.trace

/-- The loop of outer approximation obeys its protocol, whatever the problem and the callbacks
answer. Its calls are those of the same loop with a traced problem. -/
theorem loop_obeys_protocol (callbacks : Callbacks π α) (sense : Sense) (problem : π)
    (c : Config α) (timers : Timers α) (clock : Clock α) :
    let s := State.fresh sense problem c timers clock
    let run := (loop callbacks).run.run s
    ((loop callbacks.traced).run.run s.traced).map id (State.mapProblem Traced.problem) = run ∧
      if c.strategy = .oa ∨ c.strategy = .goa then
        ∃ first second, Script.Loop c callbacks first second run.1 run.2.progress.masterIter ∧
          calls callbacks s = Step.calls (first ++ second) ∧
          run.2.events.filter Event.isCriterion = Step.reports (first ++ second) ∧
          run.2.progress.masterIter = Step.masters first ∧
          run.2.progress.masterIter ≤ c.iterationLimit ∧
          FailsFast (calls callbacks s) run.1
      else run.1 = .error (.notImplemented c.strategy) ∧ calls callbacks s = [] := by
  intro s run
  have hsame : run = ((loop callbacks.traced).run.run s.traced).map id
      (State.mapProblem Traced.problem) :=
    mirrors_loop Traced.simulates callbacks.simulates_traced s.traced
  refine ⟨hsame.symm, ?_⟩
  rw [hsame]
  split
  next himplemented =>
    have hstart : s.traced.config.strategy.isImplemented = true :=
      Strategy.isImplemented_iff.mpr himplemented
    obtain ⟨first, second, hscript, htrace, hreports, hfails⟩ := exists_loop_steps hstart rfl rfl
      rfl (Prod.eta ((loop callbacks.traced).run.run s.traced)).symm
    have hmasters := Script.masters_loop hscript
    refine ⟨first, second, hscript, htrace, hreports, hmasters.1, hmasters.2, ?_⟩
    rw [calls, htrace]
    exact hfails
  next hstrategy =>
    have hrun := loop_run_of_not_implemented callbacks.traced s.traced
      (Bool.not_eq_true _ ▸ mt Strategy.isImplemented_iff.mp hstrategy)
    rw [calls, hrun]
    exact ⟨rfl, rfl⟩

end Loop

end Run

end NonlinearOpt.OuterApprox
