import NonlinearOpt.Proofs.Arithmetic.Comparison
import NonlinearOpt.Proofs.InteriorPoint.Printed
import NonlinearOpt.Proofs.Timing.Spans

namespace NonlinearOpt.InteriorPoint

open Attempt

variable {α σ : Type}

def Settings.reporting (verbose : Bool) (c : Settings α) : Settings α := { c with verbose }

def Info.lasting (solveTime : α) (i : Info α) : Info α := { i with solveTime }

def Solver.timed (verbose : Bool) (solveTime : α) (timers : Option (Timers α)) (s : Solver α σ) :
    Solver α σ :=
  { s with settings := s.settings.reporting verbose, info := s.info.lasting solveTime, timers }

def Solver.reporting (verbose : Bool) (s : Solver α σ) : Solver α σ :=
  { s with settings := s.settings.reporting verbose }

/-- What a solve works on, without the time and without what it notes down. -/
def Session.work (s : Session α σ) : Solver α σ × BarrierProblem α := (s.solver, s.problem)

structure Alike (v v' : Solver α σ × BarrierProblem α) : Prop where
  solver : ∃ verbose solveTime timers, v'.1 = v.1.timed verbose solveTime timers
  problem : v'.2 = v.2

variable [Scalar α]

/-- A time limit that a clock does not get to, however long it is looked at. -/
def Settings.Unhurried (c : Settings α) (reading : Nat → α) : Prop :=
  ∀ t, Clock.Span reading t → Scalar.le c.timeLimit t = false

theorem Settings.unhurried_of_infinity [LawfulComparison α] {c : Settings α} {clock : Clock α}
    (hlimit : c.timeLimit = Scalar.infinity) (hclock : clock.IsFinite) :
    c.Unhurried clock.reading := by
  intro t ht
  rw [hlimit]
  exact (LawfulComparison.lt_iff.mp (hclock t ht)).2

def Session.pace (s : Session α σ) : Settings α × (Nat → α) × Timers α :=
  (s.solver.settings, s.clock.reading, s.timers)

structure Unhurried (reading : Nat → α) (v : Settings α × (Nat → α) × Timers α) : Prop where
  limit : v.1.Unhurried reading
  clock : v.2.1 = reading
  timers : v.2.2.Tells reading "solve"

structure Parallel (reading reading' : Nat → α) (s s' : Session α σ) : Prop where
  alike : Alike s.work s'.work
  left : Unhurried reading s.pace
  right : Unhurried reading' s'.pace

namespace Parallel

variable {reading reading' : Nat → α} {s s' : Session α σ}

theorem solver (h : Parallel reading reading' s s') :
    ∃ verbose solveTime timers, s'.solver = s.solver.timed verbose solveTime timers :=
  h.alike.solver

theorem problem (h : Parallel reading reading' s s') : s'.problem = s.problem := h.alike.problem

end Parallel

namespace Work

variable {β : Type} {reading reading' : Nat → α}

def Agree (reading reading' : Nat → α) {β' : Type} (Q : β → β' → Prop) (a : Work α σ β)
    (a' : Work α σ β') : Prop :=
  Couples (Parallel reading reading') Q a a'

section Primitives

variable {β' : Type} {Q : β → β' → Prop}

theorem agree_note (e e' : Event α) :
    Agree (σ := σ) reading reading' (fun _ _ => True) (note e) (note e') :=
  couples_modify fun _ _ h => ⟨h.alike, h.left, h.right⟩

theorem agree_now : Agree (σ := σ) reading reading'
    (fun t t' => (∃ i, t = reading i) ∧ ∃ i, t' = reading' i) now now := by
  intro s s' h
  have hleft : s.clock.now = reading s.clock.count := congrFun h.left.clock _
  have hright : s'.clock.now = reading' s'.clock.count := congrFun h.right.clock _
  exact ⟨.some ⟨⟨_, hleft⟩, ⟨_, hright⟩⟩, h.alike, h.left, h.right⟩

theorem agree_updateTimers {f f' : Timers α → Timers α}
    (h : ∀ u, u.Tells reading "solve" → (f u).Tells reading "solve")
    (h' : ∀ u, u.Tells reading' "solve" → (f' u).Tells reading' "solve") :
    Agree (σ := σ) reading reading' (fun _ _ => True) (updateTimers f) (updateTimers f') :=
  couples_modify fun _ _ hs => ⟨hs.alike,
    ⟨hs.left.limit, hs.left.clock, h _ hs.left.timers⟩,
    ⟨hs.right.limit, hs.right.clock, h' _ hs.right.timers⟩⟩

theorem agree_settings : Agree (σ := σ) reading reading'
    (fun c c' => (∃ verbose, c' = c.reporting verbose) ∧ c.Unhurried reading ∧
      c'.Unhurried reading') settings settings := by
  intro s s' h
  obtain ⟨verbose, solveTime, timers, hsolver⟩ := h.solver
  have hsettings : ∃ verbose, s'.solver.settings = s.solver.settings.reporting verbose :=
    ⟨verbose, by rw [hsolver]; rfl⟩
  exact ⟨.some ⟨hsettings, h.left.limit, h.right.limit⟩, h⟩

theorem agree_onProblem (a : Attempt (BarrierProblem α) β) :
    Agree (σ := σ) reading reading' Eq (onProblem a) (onProblem a) := by
  intro s s' h
  have hrun : a.run s'.problem = a.run s.problem := congrArg a.run h.problem
  refine meets_eq_iff.mpr ⟨?_, ⟨h.solver, ?_⟩, h.left, h.right⟩
  · show (a.run s.problem).1 = (a.run s'.problem).1
    rw [hrun]
  · show (a.run s'.problem).2 = (a.run s.problem).2
    rw [hrun]

theorem agree_eval (f : BarrierProblem α → Option β) :
    Agree (σ := σ) reading reading' Eq (eval f) (eval f) :=
  couples_get_bind fun _ _ h => meets_eq_iff.mpr ⟨congrArg f h.problem.symm, h⟩

theorem agree_updateInfo {f f' : Info α → Info α}
    (h : ∀ i solveTime, ∃ last, f' (i.lasting solveTime) = (f i).lasting last) :
    Agree (σ := σ) reading reading' (fun _ _ => True) (updateInfo f) (updateInfo f') := by
  refine couples_modify fun s s' hs => ?_
  obtain ⟨verbose, solveTime, timers, hsolver⟩ := hs.solver
  obtain ⟨last, hinfo⟩ := h s.solver.info solveTime
  refine ⟨⟨⟨verbose, last, timers, ?_⟩, hs.problem⟩, hs.left, hs.right⟩
  show { s'.solver with info := f' s'.solver.info } =
    Solver.timed verbose last timers { s.solver with info := f s.solver.info }
  rw [hsolver]
  exact congrArg (fun info => { s.solver.timed verbose solveTime timers with info }) hinfo

theorem agree_bracketed {f g : α → Timers α → Timers α} {a : Work α σ β} {a' : Work α σ β'}
    (hf : ∀ r i u, Timers.Tells r "solve" u → (f (r i) u).Tells r "solve")
    (hg : ∀ r i u, Timers.Tells r "solve" u → (g (r i) u).Tells r "solve")
    (h : Agree reading reading' Q a a') :
    Agree reading reading' Q (do
        let t ← now
        updateTimers (f t)
        let x ← a
        let t ← now
        updateTimers (g t)
        return x) (do
        let t ← now
        updateTimers (f t)
        let x ← a'
        let t ← now
        updateTimers (g t)
        return x) := by
  have hupdate (f : α → Timers α → Timers α)
      (hf : ∀ r i u, Timers.Tells r "solve" u → (f (r i) u).Tells r "solve") (t t' : α) :
      ((∃ i, t = reading i) ∧ ∃ i, t' = reading' i) → Agree (σ := σ) reading reading'
        (fun _ _ => True) (updateTimers (f t)) (updateTimers (f t')) := by
    rintro ⟨⟨i, rfl⟩, ⟨i', rfl⟩⟩
    exact agree_updateTimers (hf _ i) (hf _ i')
  refine couples_bind agree_now fun t t' ht => ?_
  refine couples_bind (hupdate f hf t t' ht) fun _ _ _ => ?_
  refine couples_bind h fun x x' hx => ?_
  refine couples_bind agree_now fun t t' ht => ?_
  exact couples_bind (hupdate g hg t t' ht) fun _ _ _ => couples_pure hx

theorem agree_timed (name : String) {a : Work α σ β} {a' : Work α σ β'}
    (h : Agree reading reading' Q a a') :
    Agree reading reading' Q (timed name a) (timed name a') :=
  agree_bracketed (fun _ i _ hu => hu.start i name) (fun _ i _ hu => hu.stop i) h

theorem agree_untimed {a : Work α σ β} {a' : Work α σ β'} (h : Agree reading reading' Q a a') :
    Agree reading reading' Q (untimed a) (untimed a') :=
  agree_bracketed (fun _ i _ hu => hu.suspend i) (fun _ i _ hu => hu.resume i) h

theorem agree_elapsed : Agree (σ := σ) reading reading'
    (fun t t' => Clock.Span reading t ∧ Clock.Span reading' t') elapsed elapsed := by
  refine couples_bind agree_now ?_
  rintro _ _ ⟨⟨i, rfl⟩, ⟨i', rfl⟩⟩
  exact couples_get_bind fun s s' h =>
    ⟨.some ⟨h.left.timers.elapsed i, h.right.timers.elapsed i'⟩, h⟩

end Primitives

section Parts

theorem agree_checkConvergence (iteration : Nat) (mu : α) :
    Agree (σ := σ) reading reading' Eq (checkConvergence iteration mu)
      (checkConvergence iteration mu) := by
  refine couples_bind (agree_eval _) ?_
  rintro residuals _ rfl
  refine couples_bind (agree_eval _) ?_
  rintro objective _ rfl
  refine couples_bind (agree_updateInfo fun i solveTime => ⟨solveTime, rfl⟩) fun _ _ _ => ?_
  refine couples_bind (agree_untimed (couples_get_bind fun s s' h => agree_note _ _ s s' h))
    fun _ _ _ => ?_
  refine couples_bind agree_settings ?_
  rintro c _ ⟨⟨verbose, rfl⟩, -⟩
  exact couples_pure rfl

theorem agree_reduceBarrier (mu : α) :
    Agree (σ := σ) reading reading' Eq (reduceBarrier mu) (reduceBarrier mu) := by
  refine couples_bind agree_settings ?_
  rintro c _ ⟨⟨verbose, rfl⟩, -⟩
  refine couples_bind (agree_eval _) ?_
  rintro residuals _ rfl
  have htol : (c.reporting verbose).barrierTolFactor = c.barrierTolFactor := rfl
  have hmu : Solver.nextMu (c.reporting verbose) mu = Solver.nextMu c mu := rfl
  rw [htol, hmu]
  split
  · exact couples_bind (agree_onProblem _) fun _ _ _ => couples_pure rfl
  · exact couples_pure rfl

theorem agree_move (mu coefficient : α) :
    Agree (σ := σ) reading reading' (fun _ _ => True) (move mu coefficient)
      (move mu coefficient) := by
  refine couples_bind agree_settings ?_
  rintro c _ ⟨⟨verbose, rfl⟩, -⟩
  refine couples_get_bind fun s s' h => ?_
  rw [h.problem]
  refine meets_bind (agree_onProblem _ s s' h) fun _ _ _ => ?_
  exact agree_updateInfo fun i solveTime => ⟨solveTime, rfl⟩

variable [LinearSolver σ α]

theorem factorize_timed (k : KktSystem α) (s : Solver α σ) (verbose : Bool) (solveTime : α)
    (timers : Option (Timers α)) :
    let r := s.factorize k
    (s.timed verbose solveTime timers).factorize k =
      ⟨r.result, r.solver.timed verbose solveTime timers, r.events⟩ := by
  have hcheck : (s.timed verbose solveTime timers).checkDim k = s.checkDim k := rfl
  unfold Solver.factorize
  rw [hcheck]
  split <;> rfl

theorem agree_factorize (k : KktSystem α) :
    Agree (σ := σ) reading reading' Eq (factorize k) (factorize k) := by
  refine couples_get_bind fun s s' h => ?_
  obtain ⟨verbose, solveTime, timers, hsolver⟩ := h.solver
  have hfactored := factorize_timed k s.solver verbose solveTime timers
  rw [← hsolver] at hfactored
  have hresult : some (s.solver.factorize k).result = some (s'.solver.factorize k).result := by
    rw [hfactored]
  have hleft : (s.solver.factorize k).solver.settings.Unhurried reading := by
    rw [settings_factorize]
    exact h.left.limit
  have hright : (s'.solver.factorize k).solver.settings.Unhurried reading' := by
    rw [settings_factorize]
    exact h.right.limit
  refine meets_eq_iff.mpr ⟨hresult, ⟨⟨verbose, solveTime, timers, ?_⟩, h.problem⟩,
    ⟨hleft, h.left.clock, h.left.timers⟩, ⟨hright, h.right.clock, h.right.timers⟩⟩
  exact congrArg Regularized.solver hfactored

theorem agree_backSolve (size : Nat) (rhs : Array α) :
    Agree (σ := σ) reading reading' Eq (backSolve size rhs) (backSolve size rhs) := by
  refine couples_get_bind fun s s' h => meets_eq_iff.mpr ⟨?_, h⟩
  obtain ⟨verbose, solveTime, timers, hsolver⟩ := h.solver
  have hbackend : s'.solver.backend = s.solver.backend := by
    rw [hsolver]
    rfl
  show LinearSolver.solve? s.solver.backend size rhs = LinearSolver.solve? s'.solver.backend size rhs
  rw [hbackend]

theorem agree_newtonStep (iteration : Nat) (mu : α) :
    Agree (σ := σ) reading reading' Eq (newtonStep iteration mu) (newtonStep iteration mu) := by
  refine couples_bind (agree_timed _ (agree_eval _)) ?_
  rintro k _ rfl
  refine couples_bind (agree_timed _ (agree_factorize k)) ?_
  rintro factored _ rfl
  cases factored with
  | error e => exact couples_bind (agree_note _ _) fun _ _ _ => couples_pure rfl
  | ok reg =>
    refine couples_bind (agree_timed _ (agree_backSolve _ _)) ?_
    rintro solved _ rfl
    cases solved with
    | error e => exact couples_bind (agree_note _ _) fun _ _ _ => couples_pure rfl
    | ok solution =>
      refine couples_bind (agree_onProblem _) fun _ _ _ => couples_get_bind fun s s' h => ?_
      rw [h.problem]
      split
      · exact couples_bind (agree_move _ _) (fun _ _ _ => couples_pure rfl) s s' h
      · exact couples_pure rfl s s' h

theorem agree_iterate (remaining : Nat) (mu : α) :
    Agree (σ := σ) reading reading' Eq (iterate remaining mu) (iterate remaining mu) := by
  induction remaining generalizing mu with
  | zero =>
    refine couples_bind agree_settings ?_
    rintro c _ ⟨⟨verbose, rfl⟩, -⟩
    refine couples_bind (agree_checkConvergence _ _) ?_
    rintro converged _ rfl
    cases converged <;> exact couples_pure rfl
  | succ remaining ih =>
    refine couples_bind agree_settings ?_
    rintro c _ ⟨⟨verbose, rfl⟩, hlimit, hlimit'⟩
    refine couples_bind (agree_checkConvergence _ _) ?_
    rintro converged _ rfl
    cases converged with
    | true => exact couples_pure rfl
    | false =>
      refine couples_bind agree_elapsed ?_
      rintro t t' ⟨ht, ht'⟩
      -- the one place where a solve looks at the time
      have hleft : ¬ Scalar.le c.timeLimit t = true := by
        rw [hlimit t ht]
        exact Bool.false_ne_true
      have hright : ¬ Scalar.le (c.reporting verbose).timeLimit t' = true := by
        rw [hlimit' t' ht']
        exact Bool.false_ne_true
      rw [if_neg hleft, if_neg hright]
      refine couples_bind (agree_reduceBarrier _) ?_
      rintro mu' _ rfl
      refine couples_bind (agree_newtonStep _ _) ?_
      rintro ended _ rfl
      cases ended with
      | some status => exact couples_pure rfl
      | none => exact ih mu'

omit [LinearSolver σ α] in
theorem meets_start {s s' : Session α σ} (h : Alike s.work s'.work)
    (hlimit : s.solver.settings.Unhurried s.clock.reading)
    (hlimit' : s'.solver.settings.Unhurried s'.clock.reading) :
    Meets (Parallel s.clock.reading s'.clock.reading) (fun _ _ => True) (start.run s)
      (start.run s') := by
  -- what the timers have measured before need not come from these clocks
  refine ⟨.some trivial, ⟨?_, h.problem⟩, ⟨hlimit, rfl, Timers.tells_reset _⟩,
    ⟨hlimit', rfl, Timers.tells_reset _⟩⟩
  obtain ⟨verbose, solveTime, timers, hsolver⟩ := h.solver
  have hsolver : s'.solver = s.solver.timed verbose solveTime timers := hsolver
  have hproblem : s'.problem = s.problem := h.problem
  refine ⟨verbose, 0, none, ?_⟩
  show { s'.solver.setProblem s'.problem with
    info := (s'.solver.setProblem s'.problem).info.reset, timers := none } = _
  rw [hsolver, hproblem]
  rfl

theorem meets_solve {s s' : Session α σ} (h : Alike s.work s'.work)
    (hlimit : s.solver.settings.Unhurried s.clock.reading)
    (hlimit' : s'.solver.settings.Unhurried s'.clock.reading) :
    Meets (Parallel s.clock.reading s'.clock.reading) Eq (solve.run s) (solve.run s') := by
  refine meets_bind (meets_start h hlimit hlimit') fun _ _ _ => couples_get_bind fun s s' h => ?_
  obtain ⟨verbose, solveTime, timers, hsolver⟩ := h.solver
  rw [hsolver]
  refine couples_bind (agree_untimed (agree_note _ _)) (fun _ _ _ => ?_) s s' h
  refine couples_bind (agree_onProblem _) fun _ _ _ => ?_
  refine couples_bind (agree_timed _ (agree_iterate _ _)) ?_
  rintro status _ rfl
  refine couples_bind agree_elapsed fun t t' _ => ?_
  refine couples_bind (agree_updateInfo fun i solveTime => ⟨t', rfl⟩) fun _ _ _ => ?_
  refine couples_get_bind fun s s' h => couples_bind (agree_note _ _) (fun _ _ _ => ?_) s s' h
  refine couples_bind (couples_modify fun s s' h => ?_) fun _ _ _ => couples_pure rfl
  refine ⟨⟨?_, h.problem⟩, h.left, h.right⟩
  obtain ⟨verbose, solveTime, timers, hsolver⟩ := h.solver
  refine ⟨verbose, solveTime, some s'.timers, ?_⟩
  show { s'.solver with timers := some s'.timers } = _
  rw [hsolver]
  rfl

end Parts

end Work

/-- With clocks that do not get to the time limit, a solve goes the same way whether or not it is
asked for a report. What it leaves behind differs in that wish and in the time. -/
theorem Solver.solve_timed [LinearSolver σ α] {s : Solver α σ} {p : BarrierProblem α}
    {clock clock' : Clock α} (hclock : s.settings.Unhurried clock.reading)
    (hclock' : s.settings.Unhurried clock'.reading) (verbose : Bool) (solveTime : α)
    (timers : Option (Timers α)) :
    let r := s.solve p clock
    let r' := (s.timed verbose solveTime timers).solve p clock'
    r'.1 = r.1 ∧ Alike r.2.work r'.2.work := by
  intro r r'
  have halike : Alike (⟨s, p, .new, clock, []⟩ : Session α σ).work
      (⟨s.timed verbose solveTime timers, p, .new, clock', []⟩ : Session α σ).work :=
    ⟨⟨verbose, solveTime, timers, rfl⟩, rfl⟩
  obtain ⟨hstatus, hend⟩ := meets_eq_iff.mp (Work.meets_solve halike hclock hclock')
  exact ⟨hstatus.symm, hend.alike⟩

end NonlinearOpt.InteriorPoint
