import NonlinearOpt.Proofs.InteriorPoint.Defined
import NonlinearOpt.Proofs.Timing.Timers

namespace NonlinearOpt.InteriorPoint

open Attempt

namespace Work

section Timing

variable {α σ β : Type}

theorem fixes_settings : Fixes Session.timers (settings : Work α σ (Settings α)) :=
  fixes_get_bind fun _ => rfl

theorem fixes_onProblem (a : Attempt (BarrierProblem α) β) :
    Fixes Session.timers (onProblem a : Work α σ β) :=
  fun _ => rfl

variable [Scalar α] {P : Timers α → Prop} {u : Timers α}

omit [Scalar α] in
theorem keeps_bracketed {f g : α → Timers α → Timers α} {part : Work α σ β}
    (h : ∀ u first last, P u → P (g last (f first u))) (hpart : Fixes Session.timers part) :
    Keeps (fun s => P s.timers) (do
      let t ← now
      updateTimers (f t)
      let x ← part
      let t ← now
      updateTimers (g t)
      return x) := by
  refine ensures_bind _ (fixes_now.snd.keeps P) fun first => ?_
  refine ensures_bind (fun _ s => ∀ last, P (g last s.timers))
    (ensures_modify fun _ hs last => h _ first last hs) fun _ => ?_
  refine ensures_bind _ (hpart.keeps fun u => ∀ last, P (g last u)) fun x => ?_
  refine ensures_bind _ (fixes_now.snd.keeps fun u => ∀ last, P (g last u)) fun last => ?_
  refine ensures_bind (fun _ s => P s.timers) (ensures_modify fun _ hs => hs last) fun _ => ?_
  exact ensures_pure fun _ hs => hs

def Ticking (u : Timers α) (s : Session α σ) : Prop := Timers.Runs "solve" u s.timers

theorem keeps_timed {name : String} {part : Work α σ β} (h : Fixes Session.timers part) :
    Keeps (Ticking u) (timed name part) :=
  keeps_bracketed (fun _ _ _ hu => hu.part name _ _) h

theorem keeps_untimed {part : Work α σ β} (h : Fixes Session.timers part) :
    Keeps (Ticking u) (untimed part) :=
  keeps_bracketed (fun _ _ _ hu => hu.pause _ _) h

omit [Scalar α] in
theorem keeps_of_fixes {part : Work α σ β} (h : Fixes Session.timers part) :
    Keeps (Ticking u) part :=
  h.keeps (Timers.Runs "solve" u)

theorem ticking_checkConvergence (k : Nat) (mu : α) :
    Keeps (Ticking u) (checkConvergence k mu : Work α σ Bool) := by
  refine ensures_bind _ (keeps_of_fixes (fixes_eval _).snd) fun residuals => ?_
  refine ensures_bind _ (keeps_of_fixes (fixes_eval _).snd) fun objective => ?_
  refine ensures_bind _ (keeps_of_fixes (fixes_modify fun _ => rfl)) fun _ => ?_
  refine ensures_bind _ (keeps_untimed (fixes_get_bind fun _ => rfl)) fun _ => ?_
  exact ensures_bind _ (keeps_of_fixes fixes_settings) fun c => ensures_pure fun _ hs => hs

theorem ticking_reduceBarrier (mu : α) : Keeps (Ticking u) (reduceBarrier mu : Work α σ α) := by
  refine ensures_bind _ (keeps_of_fixes fixes_settings) fun c => ?_
  refine ensures_bind _ (keeps_of_fixes (fixes_eval _).snd) fun residuals => ?_
  split
  · exact ensures_bind _ (keeps_of_fixes (fixes_onProblem _)) fun _ => ensures_pure fun _ hs => hs
  · exact ensures_pure fun _ hs => hs

theorem ticking_prepare (remaining : Nat) (mu : α) :
    Keeps (Ticking u) (prepare remaining mu : Work α σ _) := by
  refine ensures_bind _ (keeps_of_fixes fixes_settings) fun c => ?_
  refine ensures_bind _ (ticking_checkConvergence _ _) fun done => ?_
  cases done with
  | true => exact ensures_pure fun _ hs => hs
  | false =>
    refine ensures_bind _ (keeps_of_fixes fixes_elapsed.snd) fun t => ?_
    split
    · exact ensures_pure fun _ hs => hs
    · exact ensures_bind _ (ticking_reduceBarrier _) fun mu' => ensures_pure fun _ hs => hs

theorem ticking_direct (solution : Array α) :
    Keeps (Ticking u) (direct solution : Work α σ Bool) :=
  ensures_bind _ (keeps_of_fixes (fixes_onProblem _)) fun _ =>
    keeps_of_fixes (fixes_get_bind fun _ => rfl)

theorem ticking_move (mu coefficient : α) :
    Keeps (Ticking u) (move mu coefficient : Work α σ Unit) := by
  refine ensures_bind _ (keeps_of_fixes fixes_settings) fun c => ?_
  refine keeps_of_fixes (fixes_get_bind fun s => ?_)
  have hupdate : ∀ f, Fixes Session.timers (updateInfo f : Work α σ Unit) :=
    fun f => fixes_modify fun _ => rfl
  exact fixes_bind (fixes_onProblem (BarrierProblem.takeStep _ _)) (fun _ => hupdate _) s

variable [LinearSolver σ α]

theorem ticking_solveSystem (iteration : Nat) :
    Keeps (Ticking u) (solveSystem iteration : Work α σ _) := by
  refine ensures_bind _ (keeps_timed (fixes_eval _).snd) fun k => ?_
  refine ensures_bind _ (keeps_timed (fixes_factorize k).snd) fun factored => ?_
  cases factored with
  | error e =>
    exact ensures_bind _ (keeps_of_fixes (fixes_note _).snd) fun _ => ensures_pure fun _ hs => hs
  | ok reg =>
    refine ensures_bind _ (keeps_timed (fixes_backSolve _ _).snd) fun solved => ?_
    cases solved with
    | error e =>
      exact ensures_bind _ (keeps_of_fixes (fixes_note _).snd) fun _ => ensures_pure fun _ hs => hs
    | ok solution => exact ensures_pure fun _ hs => hs

theorem ticking_iterate (remaining : Nat) (mu : α) :
    Keeps (Ticking u) (iterate remaining mu : Work α σ Status) := by
  induction remaining generalizing mu with
  | zero =>
    refine ensures_bind _ (keeps_of_fixes fixes_settings) fun c => ?_
    refine ensures_bind _ (ticking_checkConvergence _ _) fun done => ?_
    cases done <;> exact ensures_pure fun _ hs => hs
  | succ remaining ih =>
    rw [iterate_succ]
    refine ensures_bind _ (ticking_prepare remaining mu) fun prepared => ?_
    cases prepared with
    | error status => exact ensures_pure fun _ hs => hs
    | ok next =>
      refine ensures_bind _ (ticking_solveSystem _) fun solved => ?_
      cases solved with
      | error status => exact ensures_pure fun _ hs => hs
      | ok found =>
        refine ensures_bind _ (ticking_direct _) fun finite => ?_
        cases finite with
        | false => exact ensures_pure fun _ hs => hs
        | true => exact ensures_bind _ (ticking_move _ _) fun _ => ih _

theorem rests_solve (hu : u.active = []) :
    Ensures (fun s => s.solver.timers.getD .new = u) (solve : Work α σ Status) fun _ t =>
      ∃ v, t.solver.timers = some v ∧ Timers.Rests "solve" u v := by
  rw [solve_eq]
  refine ensures_bind (fun _ => Ticking u) ?_ fun c => ?_
  · rintro s rfl c t hrun
    obtain ⟨t', ht', -, -, -, first, second, third, htimers⟩ := enter_run s
    rw [ht'] at hrun
    cases hrun
    rw [Ticking, htimers]
    exact ((Timers.rests_reset hu "solve").pause first second).start third
  · refine ensures_bind _ (ticking_iterate _ _) fun status => ?_
    intro s hs status' t hrun
    obtain ⟨t', ht', -, last, htimers⟩ := conclude_run status s
    rw [ht'] at hrun
    cases hrun
    exact ⟨_, htimers, hs.stop last⟩

end Timing

end Work

namespace Solver

variable {α σ : Type} [Scalar α]

/-- What a solve of `p` leaves behind that ends with `status` after the steps `taken`. -/
structure Exit (s : Solver α σ) (p : BarrierProblem α) (status : Status)
    (taken : List (Taken α)) (t : Session α σ) : Prop where
  status_eq : t.solver.info.status = status
  solved : status ≠ .unsolved
  iterations : t.solver.info.iterations = taken.length
  limit : taken.length ≤ s.settings.maxIter
  objective : t.problem.objective? = some t.solver.info.objective
  residuals : t.problem.residuals? 0 = some t.solver.info.residuals
  optimal : status = .optimal ↔
    Scalar.le t.solver.info.residuals.max s.settings.tolerance = true
  exhausted : status = .maxIterations → t.solver.info.iterations = s.settings.maxIter ∧
    Scalar.le t.solver.info.residuals.max s.settings.tolerance = false
  point : (p.after taken).SamePoint t.problem
  finite : ∀ d ∈ taken, d.direction.isFinite = true
  timers : (s.timers.getD .new).active = [] →
    ∃ u, t.solver.timers = some u ∧ Timers.Rests "solve" (s.timers.getD .new) u

variable [LinearSolver σ α]

theorem exit_of_solve {s : Solver α σ} {p : BarrierProblem α} (hp : p.Shaped) {clock : Clock α}
    {status : Status} {t : Session α σ} (h : s.solve p clock = (some status, t)) :
    ∃ taken, (Work.solveRecording (α := α) (σ := σ)).run ⟨s, p, .new, clock, []⟩ =
      (some (status, taken), t) ∧ s.Exit p status taken t := by
  have htimers := fun hactive =>
    Work.rests_solve (u := s.timers.getD .new) hactive ⟨s, p, .new, clock, []⟩ rfl status t h
  unfold solve at h
  rw [← Work.fst_solveRecording, run_map] at h
  rcases hrun : (Work.solveRecording (α := α) (σ := σ)).run ⟨s, p, .new, clock, []⟩ with ⟨r, t'⟩
  rw [hrun] at h
  obtain ⟨hstatus, rfl⟩ := Prod.mk.inj h
  obtain ⟨⟨status', taken⟩, rfl, rfl⟩ := Option.map_eq_some_iff.mp hstatus
  refine ⟨taken, rfl, ?_⟩
  obtain ⟨hinfo, hstopped⟩ := Work.stopped_solveRecording (c := s.settings) (p := p)
    ⟨s, p, .new, clock, []⟩ ⟨rfl, .refl p, hp⟩ _ _ hrun
  obtain ⟨hmeasured, hlimit, hexhausted, hfinite, hsolved⟩ := hstopped
  rw [Nat.zero_add] at hmeasured hlimit hexhausted
  have hpoint : (p.after taken).SamePoint t'.problem := hmeasured.stands.point
  obtain ⟨hresiduals, hobjective⟩ := hpoint.measures
  have hiterations : t'.solver.info.iterations = taken.length := hmeasured.iterations
  refine ⟨hinfo, hsolved, hiterations, hlimit, hobjective.trans hmeasured.objective,
    hresiduals.trans hmeasured.residuals, hmeasured.done, ?_, hpoint, hfinite, htimers⟩
  intro hstatus
  refine ⟨hiterations.trans (hexhausted hstatus), Bool.eq_false_iff.mpr fun htest => ?_⟩
  have hoptimal : status' = .optimal := hmeasured.done.mpr htest
  rw [hoptimal] at hstatus
  cases hstatus

/-- Wherever a solve ends, its status, statistics, point and timers fit together. If the program is
defined everywhere it does come to an end, with every linear solver that has answers, and those that
can be chosen are among them. -/
theorem solve_exits {p : BarrierProblem α} (hp : p.Shaped) (clock : Clock α) :
    (∀ {σ : Type} [LinearSolver σ α] (s : Solver α σ),
      (∀ status t, s.solve p clock = (some status, t) →
        ∃ taken, (Work.solveRecording (α := α) (σ := σ)).run ⟨s, p, .new, clock, []⟩ =
          (some (status, taken), t) ∧ s.Exit p status taken t) ∧
        (LinearSolver.Answers s.backend → p.Evaluable →
          ∃ status t, s.solve p clock = (some status, t))) ∧
      ∀ [Ldl.Ordering] [Decomposer α] (s : Solver α (Backend α)), s.InUse → p.Evaluable →
        ∃ status t, s.solve p clock = (some status, t) := by
  have hends : ∀ {σ : Type} [LinearSolver σ α] (s : Solver α σ),
      LinearSolver.Answers s.backend → p.Evaluable →
        ∃ status t, s.solve p clock = (some status, t) := by
    intro σ _ s hanswers hevaluable
    obtain ⟨status, t, hrun, -⟩ := Work.achieves_solve (⟨s, p, .new, clock, []⟩ : Session α σ)
      ⟨hevaluable, hanswers⟩
    exact ⟨status, t, hrun⟩
  constructor
  · intro σ _ s
    exact ⟨fun status t h => exit_of_solve hp h, hends s⟩
  · intro _ _ s hs hevaluable
    exact hends s hs.answers hevaluable

end Solver

theorem inUse_exactSolver : exactSolver.InUse := by
  refine Solver.inUse_of_new (c := .default) ?_
  have hvalid : (Settings.default : Settings (Extended ℚ)).validate = .ok () := by decide +kernel
  rw [Solver.new, hvalid]
  rfl

theorem total_halfLine : halfLine.Total 1 0 0 := by
  have hjacobian : (Csc.zeros 0 1 : Csc (Extended ℚ)).Complete :=
    Csc.complete_of_checkFormat (by decide +kernel)
  have hhessian : (Csc.zeros 1 1 : Csc (Extended ℚ)).Complete :=
    Csc.complete_of_checkFormat (by decide +kernel)
  constructor
  case objective => exact fun x hx => ⟨x[0], Array.getElem?_eq_getElem (by omega)⟩
  case gradient => exact fun _ _ => ⟨_, rfl, rfl⟩
  case eqConstraints => exact fun _ _ => ⟨_, rfl, rfl⟩
  case ineqConstraints => exact fun _ _ => ⟨_, rfl, rfl⟩
  case jacobianEq => exact fun _ _ => ⟨_, rfl, hjacobian, rfl, rfl⟩
  case jacobianIneq => exact fun _ _ => ⟨_, rfl, hjacobian, rfl, rfl⟩
  case hessian => exact fun _ _ _ _ _ _ => ⟨_, rfl, hhessian, rfl, rfl⟩

theorem solve_exits_halfLine : exactSolver.InUse ∧ halfLineProblem.Shaped ∧
    halfLineProblem.Evaluable ∧
      ∃ status taken t, exactSolver.solve halfLineProblem ⟨fun _ => 0, 0⟩ = (some status, t) ∧
        exactSolver.Exit halfLineProblem status taken t := by
  have hevaluable : halfLineProblem.Evaluable :=
    BarrierProblem.evaluable_of_new? new?_halfLine total_halfLine
  obtain ⟨hexits, hends⟩ := Solver.solve_exits hevaluable.shaped ⟨fun _ => 0, 0⟩
  obtain ⟨status, t, hrun⟩ := hends exactSolver inUse_exactSolver hevaluable
  obtain ⟨taken, -, h⟩ := (hexits exactSolver).1 status t hrun
  exact ⟨inUse_exactSolver, hevaluable.shaped, hevaluable, status, taken, t, hrun, h⟩

end NonlinearOpt.InteriorPoint
