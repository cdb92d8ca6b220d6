import NonlinearOpt.Proofs.InteriorPoint.Interior
import NonlinearOpt.Proofs.InteriorPoint.Optimality

namespace NonlinearOpt.InteriorPoint

open Attempt

namespace Work

section Parts

variable {α σ : Type} [Scalar α]

/-- An iteration up to its Newton step: how the solve ends, or the number and the barrier parameter
of the step. -/
def prepare (remaining : Nat) (mu : α) : Work α σ (Except Status (Nat × α)) := do
  let s ← settings
  if ← checkConvergence (s.maxIter - (remaining + 1)) mu then return .error .optimal
  else if Scalar.le s.timeLimit (← elapsed) then return .error .maxTime
  else
    let mu ← reduceBarrier mu
    return .ok (s.maxIter - remaining, mu)

def direct (solution : Array α) : Work α σ Bool := do
  onProblem (BarrierProblem.setSolution solution)
  return (← get).problem.step.isFinite

def conclude (status : Status) : Work α σ Status := do
  let t ← now
  updateTimers (·.stop t)
  let solveTime ← elapsed
  updateInfo fun i => { i with status, solveTime }
  note (.finished (← get).solver.info)
  modify fun s => { s with solver := { s.solver with timers := some s.timers } }
  return status

variable [LinearSolver σ α]

def enter : Work α σ (Settings α) := do
  start
  let s ← get
  let p := s.problem
  untimed (note (.started ⟨p.primals, p.equalities, p.inequalities⟩
    (LinearSolver.name s.solver.backend)))
  let c := s.solver.settings
  onProblem (modify (·.setMu c.muInit))
  let t ← now
  updateTimers (·.start t "solve")
  return c

def solveSystem (iteration : Nat) : Work α σ (Except Status (Array α × α)) := do
  let k ← timed "kkt assembly" (eval (·.kkt?))
  match ← timed "kkt factor" (factorize k) with
  | .error e =>
    note (.stopped iteration e)
    return .error (failureStatus e)
  | .ok reg =>
    match ← timed "kkt solve" (backSolve k.dim reg.system.rhs) with
    | .error e =>
      note (.stopped iteration (.linearSolver e))
      return .error .numericalError
    | .ok solution => return .ok (solution, reg.coefficient)

theorem newtonStep_eq (iteration : Nat) (mu : α) :
    (newtonStep iteration mu : Work α σ (Option Status)) = (do
      match ← solveSystem iteration with
      | .error status => return some status
      | .ok (solution, coefficient) =>
        if ← direct solution then
          move mu coefficient
          return none
        else return some .numericalError) := by
  simp only [newtonStep, solveSystem, bind_assoc]
  refine bind_congr fun k => bind_congr fun factored => ?_
  cases factored with
  | error e => simp
  | ok reg =>
    simp only [bind_assoc]
    refine bind_congr fun solved => ?_
    cases solved with
    | error e => simp
    | ok solution => simp [direct]

theorem iterate_succ (remaining : Nat) (mu : α) :
    (iterate (remaining + 1) mu : Work α σ Status) = (do
      match ← prepare remaining mu with
      | .error status => return status
      | .ok (iteration, mu) =>
        match ← solveSystem iteration with
        | .error status => return status
        | .ok (solution, coefficient) =>
          if ← direct solution then
            move mu coefficient
            iterate remaining mu
          else return .numericalError) := by
  simp only [iterate, prepare, newtonStep_eq, bind_assoc]
  refine bind_congr fun s => bind_congr fun converged => ?_
  cases converged with
  | true => simp
  | false =>
    simp only [Bool.false_eq_true, if_false, bind_assoc]
    refine bind_congr fun t => ?_
    split
    · simp
    · simp only [bind_assoc, pure_bind]
      refine bind_congr fun mu => bind_congr fun solved => ?_
      cases solved with
      | error status => simp
      | ok solved =>
        simp only [bind_assoc]
        refine bind_congr fun finite => ?_
        cases finite <;> simp

theorem solve_eq : (solve : Work α σ Status) =
    enter >>= fun c => iterate c.maxIter c.muInit >>= conclude := by
  simp only [solve, enter, timed, bind_assoc, pure_bind]
  rfl

end Parts

section Views

variable {α σ β : Type}

def view (s : Session α σ) : Settings α × BarrierProblem α := (s.solver.settings, s.problem)

def account (s : Session α σ) : (Settings α × BarrierProblem α) × Info α := (view s, s.solver.info)

def outlook (s : Session α σ) : ((Settings α × BarrierProblem α) × Info α) × Timers α :=
  (account s, s.timers)

theorem fixes_now : Fixes outlook (now : Work α σ α) := fun _ => rfl

theorem fixes_eval (f : BarrierProblem α → Option β) : Fixes outlook (eval f : Work α σ β) :=
  fixes_get_bind fun _ => rfl

theorem fixes_note (e : Event α) : Fixes outlook (note e : Work α σ Unit) :=
  fixes_modify fun _ => rfl

theorem fixes_bracketed {ρ : Type} {look : Session α σ → ρ}
    (hnow : Fixes look (now : Work α σ α))
    (htimers : ∀ f, Fixes look (updateTimers f : Work α σ Unit))
    {f g : α → Timers α → Timers α} {part : Work α σ β} (h : Fixes look part) :
    Fixes look (do
      let t ← now
      updateTimers (f t)
      let x ← part
      let t ← now
      updateTimers (g t)
      return x) :=
  fixes_bind hnow fun _ => fixes_bind (htimers _) fun _ => fixes_bind h fun _ =>
    fixes_bind hnow fun _ => fixes_bind (htimers _) fun _ => fixes_pure _

theorem fixes_timed [Scalar α] {name : String} {part : Work α σ β} (h : Fixes account part) :
    Fixes account (timed name part) :=
  fixes_bracketed fixes_now.fst (fun _ => fixes_modify fun _ => rfl) h

theorem fixes_untimed [Scalar α] {part : Work α σ β} (h : Fixes account part) :
    Fixes account (untimed part) :=
  fixes_bracketed fixes_now.fst (fun _ => fixes_modify fun _ => rfl) h

theorem fixes_backSolve [LinearSolver σ α] (size : Nat) (rhs : Array α) :
    Fixes outlook (backSolve size rhs : Work α σ _) :=
  fixes_get_bind fun _ => rfl

variable [Scalar α]

theorem fixes_elapsed : Fixes outlook (elapsed : Work α σ α) :=
  fixes_bind fixes_now fun _ => fixes_get_bind fun _ => rfl

theorem fixes_checkConvergence (iteration : Nat) (mu : α) :
    Fixes view (checkConvergence iteration mu : Work α σ Bool) :=
  fixes_bind (fixes_eval _).fst.fst fun _ => fixes_bind (fixes_eval _).fst.fst fun _ =>
    fixes_bind (fixes_modify fun _ => rfl) fun _ =>
      fixes_bind (fixes_untimed (fixes_get_bind fun _ => rfl)).fst fun _ =>
        fixes_bind (fixes_get_bind fun _ => rfl) fun _ => fixes_pure _

theorem fixes_conclude (status : Status) : Fixes view (conclude status : Work α σ Status) :=
  fixes_bind fixes_now.fst.fst fun _ => fixes_bind (fixes_modify fun _ => rfl) fun _ =>
    fixes_bind fixes_elapsed.fst.fst fun _ => fixes_bind (fixes_modify fun _ => rfl) fun _ =>
      fixes_get_bind fun _ => rfl

variable [LinearSolver σ α]

theorem fixes_factorize (k : KktSystem α) : Fixes outlook (factorize k : Work α σ _) := by
  refine fixes_get_bind fun s => ?_
  have hsolver : (s.solver.factorize k).solver.settings = s.solver.settings ∧
      (s.solver.factorize k).solver.info = s.solver.info := by
    unfold Solver.factorize
    split <;> exact ⟨rfl, rfl⟩
  exact Prod.ext (Prod.ext (Prod.ext hsolver.1 rfl) hsolver.2) rfl

theorem fixes_solveSystem (iteration : Nat) :
    Fixes account (solveSystem iteration : Work α σ _) := by
  refine fixes_bind (fixes_timed (fixes_eval _).fst) fun k => ?_
  refine fixes_bind (fixes_timed (fixes_factorize k).fst) fun factored => ?_
  cases factored with
  | error e => exact fixes_bind (fixes_note _).fst fun _ => fixes_pure _
  | ok reg =>
    refine fixes_bind (fixes_timed (fixes_backSolve _ _).fst) fun solved => ?_
    cases solved with
    | error e => exact fixes_bind (fixes_note _).fst fun _ => fixes_pure _
    | ok solution => exact fixes_pure _

end Views

section Interior

variable {α σ : Type} [LinearOrder α] [Scalar α] {c : Settings α}

def Inside (s : Session α σ) : Prop := s.problem.Interior

def InsideWith (c : Settings α) (s : Session α σ) : Prop :=
  (view s).1 = c ∧ (view s).2.Interior

theorem carries_of_fixes {β : Type} {a : Work α σ β} (h : Fixes view a) :
    Carries Inside (InsideWith c) a fun _ => InsideWith c :=
  h.carries (p := fun v => v.1 = c ∧ v.2.Interior) fun _ hs => hs.2

theorem carries_settings_bind {β : Type} {f : Settings α → Work α σ β}
    {Q : β → Session α σ → Prop} (h : Carries Inside (InsideWith c) (f c) Q) :
    Carries Inside (InsideWith c) (settings >>= f) Q := by
  rintro s ⟨rfl, hs⟩
  exact h s ⟨rfl, hs⟩

theorem carries_setMu (mu : α) : Carries Inside (InsideWith c)
    (onProblem (modify (·.setMu mu)) : Work α σ Unit) fun _ => InsideWith c :=
  fun _ hs => ⟨hs.2.setMu mu, fun _ _ => ⟨hs.1, hs.2.setMu mu⟩⟩

theorem carries_reduceBarrier [OrderedScalar α] (hmin : 0 < c.muMin) {mu : α} (hmu : 0 < mu) :
    Carries Inside (InsideWith c) (reduceBarrier mu : Work α σ α) fun mu' t =>
      InsideWith c t ∧ 0 < mu' := by
  refine carries_settings_bind
    (carries_bind _ (carries_of_fixes (fixes_eval _).fst.fst) fun residuals => ?_)
  split
  · refine carries_bind _ (carries_setMu _) fun _ => ?_
    refine carries_pure (fun _ ht => ht.2) fun _ ht => ⟨ht, ?_⟩
    rw [Solver.nextMu, OrderedScalar.max_eq]
    exact hmin.trans_le (le_max_left _ _)
  · exact carries_pure (fun _ ht => ht.2) fun _ ht => ⟨ht, hmu⟩

theorem carries_prepare [OrderedScalar α] (hmin : 0 < c.muMin) (remaining : Nat) {mu : α}
    (hmu : 0 < mu) :
    Carries Inside (InsideWith c) (prepare remaining mu : Work α σ _) fun prepared t =>
      InsideWith c t ∧ ∀ iteration mu', prepared = .ok (iteration, mu') → 0 < mu' := by
  have hends (status : Status) : Carries Inside (InsideWith c)
      (pure (.error status) : Work α σ (Except Status (Nat × α))) fun prepared t =>
        InsideWith c t ∧ ∀ iteration mu', prepared = .ok (iteration, mu') → 0 < mu' :=
    carries_pure (fun _ ht => ht.2) fun _ ht => ⟨ht, nofun⟩
  refine carries_settings_bind ?_
  refine carries_bind _ (carries_of_fixes (fixes_checkConvergence _ _)) fun converged => ?_
  cases converged with
  | true => exact hends .optimal
  | false =>
    refine carries_bind _ (carries_of_fixes fixes_elapsed.fst.fst) fun t => ?_
    split
    · exact hends .maxTime
    · refine carries_bind _ (carries_reduceBarrier hmin hmu) fun mu' => ?_
      refine carries_pure (fun _ ht => ht.1.2) ?_
      rintro t ⟨ht, hmu'⟩
      refine ⟨ht, ?_⟩
      rintro _ _ ⟨⟩
      exact hmu'

theorem carries_direct (solution : Array α) :
    Carries Inside (InsideWith c) (direct solution : Work α σ Bool) fun finite t =>
      InsideWith c t ∧ (finite = true → t.problem.Directed ∧ t.problem.step.isFinite = true) := by
  rintro s ⟨hc, hs⟩
  have hs : s.problem.Interior := hs
  unfold direct onProblem
  rw [run_bind, run_on]
  by_cases hsize : solution.size = s.problem.kktDim
  · rw [BarrierProblem.setSolution_run hs.shaped hsize]
    have hinterior := hs.directed hsize
    refine ⟨hinterior, ?_⟩
    rintro _ ⟨⟩
    exact ⟨⟨hc, hinterior⟩, fun hfinite => ⟨hs.shaped.directed_directed _ hsize, hfinite⟩⟩
  · rw [BarrierProblem.setSolution_run_of_ne hsize]
    exact ⟨hs, nofun⟩

theorem carries_enter [LinearSolver σ α] :
    Carries Inside (InsideWith c) (enter : Work α σ _) fun c' t => InsideWith c t ∧ c' = c := by
  refine carries_bind _ (carries_of_fixes (fixes_modify fun _ => rfl)) fun _ => ?_
  refine carries_get_bind ?_
  rintro s ⟨hc, -⟩
  refine carries_bind _ (carries_of_fixes (fixes_untimed (fixes_note _).fst).fst) fun _ => ?_
  refine carries_bind _ (carries_setMu _) fun _ => ?_
  refine carries_bind _ (carries_of_fixes fixes_now.fst.fst) fun _ => ?_
  refine carries_bind _ (carries_of_fixes (fixes_modify fun _ => rfl)) fun _ => ?_
  exact carries_pure (fun _ ht => ht.2) fun _ ht => ⟨ht, hc⟩

/-- Everything that is known of a step before it is taken. -/
def Aimed (c : Settings α) (s : Session α σ) : Prop :=
  InsideWith c s ∧ s.problem.Directed ∧ s.problem.step.isFinite = true

/-- The fraction of the distance to a limit that a step may use up. -/
def fraction (c : Settings α) (mu : α) : α := Scalar.max c.tauMin (1 - mu)

structure Sound (c : Settings α) : Prop where
  muInit : 0 < c.muInit
  muMin : 0 < c.muMin
  tauMin : 0 < c.tauMin
  tauMin_lt : c.tauMin < 1

theorem sound_of_validate [OrderedScalar α] (h : c.validate = .ok ()) : Sound c := by
  have hconditions := Settings.conditions_of_validate h
  have hmuInit := hconditions ("mu_init", Settings.isPositive c.muInit)
    (by simp [Settings.conditions])
  have hmuMin := hconditions ("mu_min", Settings.isPositive c.muMin)
    (by simp [Settings.conditions])
  have htau := hconditions ("tau_min", Settings.inUnitInterval c.tauMin)
    (by simp [Settings.conditions])
  simp only [Settings.isPositive, Settings.inUnitInterval, Bool.and_eq_true,
    OrderedScalar.lt_iff] at hmuInit hmuMin htau
  exact ⟨hmuInit, hmuMin, htau.1, htau.2⟩

omit [LinearOrder α] in
theorem move_run {s : Session α σ} (h : s.problem.Shaped) (mu coefficient : α) :
    let lengths := s.problem.stepLengths (fraction s.solver.settings mu)
    ∃ info, (move mu coefficient).run s = (some (), { s with
      problem := s.problem.stepped lengths.1 lengths.2
      solver := { s.solver with info } }) := by
  intro lengths
  have hsettings : (settings : Work α σ _).run s = (some s.solver.settings, s) := rfl
  unfold move
  rw [run_bind, hsettings]
  show ∃ info, (get >>= _ : Work α σ _).run s = _
  rw [run_get_bind]
  show ∃ info, (onProblem (BarrierProblem.takeStep lengths.1 lengths.2) >>= _ :
    Work α σ _).run s = _
  rw [run_bind, onProblem, run_on, BarrierProblem.takeStep_run h]
  exact ⟨_, rfl⟩

variable {K : Type} [Field K] [LinearOrder K] [NumberLine α K] [IsStrictOrderedRing K]

include K

omit [IsStrictOrderedRing K] in
theorem exists_fraction (hc : Sound c) {mu : α} (hmu : 0 < mu) :
    ∃ tau : K, fraction c mu = NumberLine.ofNumber tau ∧ 0 < tau ∧ tau < 1 := by
  have hpos : 0 < fraction c mu := by
    rw [fraction, OrderedScalar.max_eq]
    exact hc.tauMin.trans_le (le_max_left _ _)
  have hlt : fraction c mu < 1 := by
    rw [fraction, OrderedScalar.max_eq]
    exact max_lt hc.tauMin_lt (NumberLine.one_sub_lt hmu)
  have hpos' : -Scalar.infinity < fraction c mu := by
    refine lt_trans ?_ hpos
    rw [NumberLine.zero_eq]
    exact NumberLine.negInfinity_lt _
  have hlt' : fraction c mu < Scalar.infinity := by
    refine lt_trans hlt ?_
    rw [NumberLine.one_eq]
    exact NumberLine.lt_infinity _
  obtain ⟨tau, htau⟩ := NumberLine.isFinite_iff.mp (NumberLine.isFinite_of_between hpos' hlt')
  rw [htau, NumberLine.zero_eq, NumberLine.ofNumber_lt] at hpos
  rw [htau, NumberLine.one_eq, NumberLine.ofNumber_lt] at hlt
  exact ⟨tau, htau, hpos, hlt⟩

theorem Aimed.stepLengths_spec {s : Session α σ} (h : Aimed c s) (hc : Sound c) {mu : α}
    (hmu : 0 < mu) :
    (0 < fraction c mu ∧ fraction c mu < 1) ∧
      (0 < (s.problem.stepLengths (fraction c mu)).1 ∧
        (s.problem.stepLengths (fraction c mu)).1 ≤ 1) ∧
      (0 < (s.problem.stepLengths (fraction c mu)).2 ∧
        (s.problem.stepLengths (fraction c mu)).2 ≤ 1) ∧
      (s.problem.stepped (s.problem.stepLengths (fraction c mu)).1
        (s.problem.stepLengths (fraction c mu)).2).Interior := by
  obtain ⟨tau, htau, hpos, hlt⟩ := exists_fraction hc hmu
  obtain ⟨⟨-, hinterior⟩, hdirected, hfinite⟩ := h
  have hinterior : s.problem.Interior := hinterior
  obtain ⟨a, b, hlengths, ha, hb, hstepped⟩ :=
    hinterior.stepLengths_spec hdirected hfinite hpos hlt
  rw [htau, hlengths]
  simp only [NumberLine.zero_eq, NumberLine.one_eq, NumberLine.ofNumber_lt,
    NumberLine.ofNumber_le]
  exact ⟨⟨hpos, hlt⟩, ha, hb, hstepped⟩

theorem carries_move (hc : Sound c) {mu : α} (hmu : 0 < mu) (coefficient : α) :
    Carries Inside (Aimed c) (move mu coefficient : Work α σ Unit) fun _ => InsideWith c := by
  intro s hs
  have hmoved := (hs.stepLengths_spec hc hmu).2.2.2
  obtain ⟨⟨rfl, hinterior⟩, -⟩ := hs
  have hshaped : s.problem.Shaped := hinterior.shaped
  obtain ⟨info, hrun⟩ := move_run hshaped mu coefficient
  rw [hrun]
  exact ⟨hmoved, fun _ _ => ⟨rfl, hmoved⟩⟩

variable [LinearSolver σ α]

theorem carries_iterate (hc : Sound c) (remaining : Nat) {mu : α} (hmu : 0 < mu) :
    Carries Inside (InsideWith c) (iterate remaining mu : Work α σ Status) fun _ =>
      InsideWith c := by
  have hends {β : Type} (b : β) : Carries Inside (InsideWith c)
      (pure b : Work α σ β) fun _ => InsideWith c :=
    carries_pure (fun _ ht => ht.2) fun _ ht => ht
  induction remaining generalizing mu with
  | zero =>
    refine carries_settings_bind ?_
    refine carries_bind _ (carries_of_fixes (fixes_checkConvergence _ _)) fun converged => ?_
    cases converged with
    | true => exact hends _
    | false => exact hends _
  | succ remaining ih =>
    rw [iterate_succ]
    refine carries_bind _ (carries_prepare hc.muMin remaining hmu) fun prepared => ?_
    cases prepared with
    | error status => exact (hends status).mono (fun _ ht => ht.1) fun _ _ ht => ht
    | ok next =>
      obtain ⟨iteration, mu'⟩ := next
      refine carries_of_known (fun s hs => hs.2 iteration mu' rfl) fun hmu' => ?_
      refine carries_bind _ ((carries_of_fixes (fixes_solveSystem iteration).fst).mono
        (fun _ ht => ht.1) fun _ _ ht => ht) fun solved => ?_
      cases solved with
      | error status => exact hends status
      | ok found =>
        obtain ⟨solution, coefficient⟩ := found
        refine carries_bind _ (carries_direct solution) fun finite => ?_
        cases finite with
        | false => exact (hends Status.numericalError).mono (fun _ ht => ht.1) fun _ _ ht => ht
        | true =>
          refine carries_bind (fun _ => InsideWith c) ?_ fun _ => ih hmu'
          exact (carries_move hc hmu' coefficient).mono (fun _ ht => ⟨ht.1, ht.2 rfl⟩)
            fun _ _ ht => ht

theorem carries_solve (hc : Sound c) :
    Carries Inside (InsideWith c) (solve : Work α σ Status) fun _ => InsideWith c := by
  rw [solve_eq]
  refine carries_bind _ carries_enter fun c' => ?_
  refine carries_of_known (fun s hs => hs.2) ?_
  rintro rfl
  refine carries_bind _ ((carries_iterate hc _ hc.muInit).mono (fun _ ht => ht.1)
    fun _ _ ht => ht) fun status => ?_
  exact carries_of_fixes (fixes_conclude status)

end Interior

/-- Where a solve passes through: before an iteration, where a Newton system is set up, where its
solution is taken over, and where a step is taken. Iterations are counted down. -/
inductive Place (α : Type) where
  | head (remaining : Nat) (mu : α)
  | system (remaining iteration : Nat) (mu : α)
  | direction (remaining : Nat) (mu : α) (solution : Array α) (coefficient : α)
  | motion (remaining : Nat) (mu coefficient : α)

section Passes

variable {α σ : Type} [Scalar α] [LinearSolver σ α]

/-- The sessions at the places that a solve passes through. -/
inductive Passes (s₀ : Session α σ) : Place α → Session α σ → Prop
  | entered {c : Settings α} {t : Session α σ} :
      enter.run s₀ = (some c, t) → Passes s₀ (.head c.maxIter c.muInit) t
  | prepared {remaining iteration : Nat} {mu mu' : α} {s t : Session α σ} :
      Passes s₀ (.head (remaining + 1) mu) s →
      (prepare remaining mu).run s = (some (.ok (iteration, mu')), t) →
      Passes s₀ (.system remaining iteration mu') t
  | solved {remaining iteration : Nat} {mu coefficient : α} {solution : Array α}
      {s t : Session α σ} :
      Passes s₀ (.system remaining iteration mu) s →
      (solveSystem iteration).run s = (some (.ok (solution, coefficient)), t) →
      Passes s₀ (.direction remaining mu solution coefficient) t
  | directed {remaining : Nat} {mu coefficient : α} {solution : Array α} {s t : Session α σ} :
      Passes s₀ (.direction remaining mu solution coefficient) s →
      (direct solution).run s = (some true, t) →
      Passes s₀ (.motion remaining mu coefficient) t
  | moved {remaining : Nat} {mu coefficient : α} {s t : Session α σ} :
      Passes s₀ (.motion remaining mu coefficient) s →
      (move mu coefficient).run s = (some (), t) →
      Passes s₀ (.head remaining mu) t

end Passes

section Invariant

variable {α σ : Type} [LinearOrder α] [Scalar α] {c : Settings α}

def Place.Known (c : Settings α) : Place α → Session α σ → Prop
  | .head _ mu, s | .system _ _ mu, s | .direction _ mu _ _, s => InsideWith c s ∧ 0 < mu
  | .motion _ mu _, s => Aimed c s ∧ 0 < mu

theorem Place.Known.inside {place : Place α} {s : Session α σ} (h : place.Known c s) :
    InsideWith c s := by
  cases place with
  | head | system | direction => exact h.1
  | motion => exact h.1.1

variable {K : Type} [Field K] [LinearOrder K] [NumberLine α K] [IsStrictOrderedRing K]
  [LinearSolver σ α]

include K

theorem Passes.known (hc : Sound c) {s₀ t : Session α σ} (hs₀ : InsideWith c s₀) {place : Place α}
    (h : Passes s₀ place t) : place.Known c t := by
  induction h with
  | entered hrun =>
    obtain ⟨ht, rfl⟩ := carries_enter.ensures s₀ hs₀ _ _ hrun
    exact ⟨ht, hc.muInit⟩
  | prepared _ hrun ih =>
    obtain ⟨ht, hmu⟩ := (carries_prepare hc.muMin _ ih.2).ensures _ ih.1 _ _ hrun
    exact ⟨ht, hmu _ _ rfl⟩
  | solved _ hrun ih =>
    exact ⟨(carries_of_fixes (fixes_solveSystem _).fst).ensures _ ih.1 _ _ hrun, ih.2⟩
  | directed _ hrun ih =>
    obtain ⟨ht, haimed⟩ := (carries_direct _).ensures _ ih.1 _ _ hrun
    exact ⟨⟨ht, haimed rfl⟩, ih.2⟩
  | moved _ hrun ih =>
    exact ⟨(carries_move hc ih.2 _).ensures _ ih.1 _ _ hrun, ih.2⟩

end Invariant

end Work

namespace Solver

variable {α K σ : Type} [LinearOrder α] [Scalar α] [Field K] [LinearOrder K] [NumberLine α K]
  [IsStrictOrderedRing K] [LinearSolver σ α]

include K

/-- A solve of a new problem stays strictly inside the limits: wherever it passes through, whatever
its linear solver answers, and wherever it ends. Its steps are fractions of full ones, and nothing
is divided by zero. -/
theorem interior_throughout {m : NlpModel α} {p : BarrierProblem α} {s : Solver α σ}
    (hnew : BarrierProblem.new? m = some (.ok p)) (hvalid : s.settings.validate = .ok ())
    (clock : Clock α) :
    (∀ place t, Work.Passes ⟨s, p, .new, clock, []⟩ place t →
      t.problem.Interior ∧ Separated t.problem.xBounds t.problem.iterate.x ∧
        Separated t.problem.sBounds t.problem.iterate.s ∧
        ∀ remaining mu coefficient, place = .motion remaining mu coefficient →
          let tau := Scalar.max s.settings.tauMin (1 - mu)
          let lengths := t.problem.stepLengths tau
          (0 < tau ∧ tau < 1) ∧ (0 < lengths.1 ∧ lengths.1 ≤ 1) ∧
            (0 < lengths.2 ∧ lengths.2 ≤ 1)) ∧
      (s.solve p clock).2.problem.Interior := by
  have hsound : Work.Sound s.settings := Work.sound_of_validate hvalid
  have hstart : Work.InsideWith s.settings (⟨s, p, .new, clock, []⟩ : Session α σ) :=
    ⟨rfl, BarrierProblem.interior_of_new? hnew⟩
  refine ⟨?_, (Work.carries_solve hsound _ hstart).1⟩
  intro place t hpasses
  have hknown := hpasses.known hsound hstart
  have hinterior : t.problem.Interior := hknown.inside.2
  refine ⟨hinterior, hinterior.x.separated, hinterior.s.separated, ?_⟩
  rintro remaining mu coefficient rfl
  obtain ⟨htau, hprimal, hdual, -⟩ := hknown.1.stepLengths_spec hsound hknown.2
  exact ⟨htau, hprimal, hdual⟩

end Solver

/-- Minimizes a number that has a lower limit, from a start below it. -/
def halfLine : NlpModel (Extended ℚ) :=
  { primals := 1
    equalities := 0
    inequalities := 0
    xLower := #[0]
    xUpper := #[Scalar.infinity]
    dLower := #[]
    dUpper := #[]
    start := #[-1]
    startEqDuals := #[]
    startIneqDuals := #[]
    objective := fun x => x[0]?
    gradient := fun _ => some #[1]
    eqConstraints := fun _ => some #[]
    ineqConstraints := fun _ => some #[]
    jacobianEq := fun _ => some (.zeros 0 1)
    jacobianIneq := fun _ => some (.zeros 0 1)
    hessian := fun _ _ _ => some (.zeros 1 1) }

def halfLineProblem : BarrierProblem (Extended ℚ) :=
  { model := halfLine
    xBounds := #[⟨some 0, none⟩]
    sBounds := #[]
    iterate := ⟨#[0 + 1], #[], #[], #[], #[1], #[0], #[], #[], 0⟩
    step := .zero 1 0 0 }

theorem new?_halfLine : BarrierProblem.new? halfLine = some (.ok halfLineProblem) := by
  have hlt : Scalar.lt (0 : Extended ℚ) Scalar.infinity = true := by decide +kernel
  have hlower : Scalar.isFinite (0 : Extended ℚ) = true := by decide +kernel
  have hupper : Scalar.isFinite (Scalar.infinity : Extended ℚ) = false := by decide +kernel
  have hinside : Interval.inside ⟨some 0, none⟩ (-1 : Extended ℚ) = false := by decide +kernel
  have hempty : Interval.all (#[] : Array (Extended ℚ)) #[] = .ok #[] := rfl
  have hx : Interval.all #[(0 : Extended ℚ)] #[Scalar.infinity] = .ok #[⟨some 0, none⟩] := by
    simp [Interval.all, Interval.all.go, Interval.ofLimits?, Interval.limit?, hlt, hlower, hupper]
  simp [BarrierProblem.new?, halfLine, halfLineProblem, NlpModel.primalsFit, NlpModel.dualsFit,
    NlpModel.sized, BarrierProblem.interior, BarrierProblem.startDuals, hx, hempty,
    Interval.interior, Option.filter, hinside]

def exactSolver : Solver (Extended ℚ) (Backend (Extended ℚ)) :=
  { settings := .default
    info := .initial
    timers := some .new
    backend := .sparse (.new 1e-30)
    dim := none
    coefficient := 0 }

theorem interior_throughout_halfLine :
    BarrierProblem.new? halfLine = some (.ok halfLineProblem) ∧
      exactSolver.settings.validate = .ok () ∧
      (∀ place t, Work.Passes ⟨exactSolver, halfLineProblem, .new, ⟨fun _ => 0, 0⟩, []⟩ place t →
        t.problem.Interior) ∧
      (exactSolver.solve halfLineProblem ⟨fun _ => 0, 0⟩).2.problem.Interior := by
  have hvalid : exactSolver.settings.validate = .ok () := by decide +kernel
  obtain ⟨hpasses, hend⟩ := Solver.interior_throughout new?_halfLine hvalid ⟨fun _ => 0, 0⟩
  exact ⟨new?_halfLine, hvalid, fun place t h => (hpasses place t h).1, hend⟩

end NonlinearOpt.InteriorPoint
