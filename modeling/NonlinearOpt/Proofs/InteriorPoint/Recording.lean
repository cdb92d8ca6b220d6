import NonlinearOpt.Proofs.InteriorPoint.Passes

/-!
A solve that notes down the steps that it takes. It does nothing else differently, and the point
that it ends at is the one that these steps lead to. The statistics are those of that point.
-/

namespace NonlinearOpt.InteriorPoint

open Attempt

structure Taken (α : Type) where
  direction : Iterate α
  primal : α
  dual : α

namespace BarrierProblem

variable {α : Type} [Scalar α]

def after (p : BarrierProblem α) (taken : List (Taken α)) : BarrierProblem α :=
  { p with iterate := taken.foldl (fun t d => d.direction.moved d.primal d.dual t) p.iterate }

theorem after_cons (p : BarrierProblem α) (d : Taken α) (taken : List (Taken α)) :
    p.after (d :: taken) = (p.after [d]).after taken :=
  rfl

/-- The same program at the same point. The barrier parameter and the latest step may differ. -/
structure SamePoint (p q : BarrierProblem α) : Prop where
  model : q.model = p.model
  xBounds : q.xBounds = p.xBounds
  sBounds : q.sBounds = p.sBounds
  iterate : ∃ mu, q.iterate = { p.iterate with mu }

namespace SamePoint

variable {p q : BarrierProblem α}

omit [Scalar α] in
theorem refl (p : BarrierProblem α) : p.SamePoint p := ⟨rfl, rfl, rfl, _, rfl⟩

theorem measures (h : p.SamePoint q) :
    q.residuals? 0 = p.residuals? 0 ∧ q.objective? = p.objective? := by
  obtain ⟨model, xBounds, sBounds, iterate, step⟩ := q
  obtain ⟨rfl, rfl, rfl, mu, rfl⟩ := h
  exact ⟨rfl, rfl⟩

omit [Scalar α] in
theorem setMu (h : p.SamePoint q) (mu : α) : p.SamePoint (q.setMu mu) := by
  obtain ⟨mu', hiterate⟩ := h.iterate
  exact ⟨h.model, h.xBounds, h.sBounds, mu, by rw [BarrierProblem.setMu, hiterate]⟩

theorem directed (h : p.SamePoint q) (solution : Array α) : p.SamePoint (q.directed solution) :=
  ⟨h.model, h.xBounds, h.sBounds, h.iterate⟩

theorem stepped (h : p.SamePoint q) (primal dual : α) :
    (p.after [⟨q.step, primal, dual⟩]).SamePoint (q.stepped primal dual) := by
  obtain ⟨mu, hiterate⟩ := h.iterate
  exact ⟨h.model, h.xBounds, h.sBounds, mu, by rw [BarrierProblem.stepped, hiterate]; rfl⟩

end SamePoint

end BarrierProblem

namespace Work

section Recording

variable {α σ : Type} [Scalar α] [LinearSolver σ α]

def moveRecording (mu coefficient : α) : Work α σ (Taken α) := do
  let s ← get
  let lengths := s.problem.stepLengths (fraction s.solver.settings mu)
  move mu coefficient
  return ⟨s.problem.step, lengths.1, lengths.2⟩

def recording : (remaining : Nat) → (mu : α) → Work α σ (Status × List (Taken α))
  | 0, mu => do return (← iterate 0 mu, [])
  | remaining + 1, mu => do
    match ← prepare remaining mu with
    | .error status => return (status, [])
    | .ok (iteration, mu) =>
      match ← solveSystem iteration with
      | .error status => return (status, [])
      | .ok (solution, coefficient) =>
        if ← direct solution then
          let d ← moveRecording mu coefficient
          let r ← recording remaining mu
          return (r.1, d :: r.2)
        else return (.numericalError, [])

def solveRecording : Work α σ (Status × List (Taken α)) := do
  let c ← enter
  let r ← recording c.maxIter c.muInit
  return (← conclude r.1, r.2)

omit [LinearSolver σ α] in
theorem moveRecording_bind {β : Type} (mu coefficient : α) (rest : Work α σ β) :
    (moveRecording mu coefficient >>= fun _ => rest) = move mu coefficient >>= fun _ => rest := by
  simp only [moveRecording, bind_assoc, pure_bind]
  rfl

theorem fst_recording (remaining : Nat) (mu : α) :
    (Prod.fst <$> recording remaining mu : Work α σ Status) = iterate remaining mu := by
  induction remaining generalizing mu with
  | zero => simp [recording]
  | succ remaining ih =>
    rw [recording, iterate_succ, map_bind]
    refine bind_congr fun prepared => ?_
    cases prepared with
    | error status => simp
    | ok next =>
      simp only [map_bind]
      refine bind_congr fun solved => ?_
      cases solved with
      | error status => simp
      | ok found =>
        simp only [map_bind]
        refine bind_congr fun finite => ?_
        cases finite with
        | false => simp
        | true =>
          have hrest : ∀ d : Taken α, (Prod.fst <$> do
              let r ← (recording remaining next.2 : Work α σ _)
              return (r.1, d :: r.2)) = iterate remaining next.2 := by
            intro d
            simp only [← ih next.2, map_eq_pure_bind, bind_assoc, pure_bind]
          simp only [if_true, map_bind, hrest]
          exact moveRecording_bind _ _ _

theorem fst_solveRecording :
    (Prod.fst <$> solveRecording : Work α σ Status) = solve := by
  rw [solve_eq, solveRecording, map_bind]
  refine bind_congr fun c => ?_
  simp only [← fst_recording c.maxIter c.muInit, map_eq_pure_bind, bind_assoc, pure_bind,
    bind_pure]

end Recording

section Statistics

variable {α σ : Type} [Scalar α] {c : Settings α} {p : BarrierProblem α} {k : Nat}

structure Stands (c : Settings α) (p : BarrierProblem α) (v : Settings α × BarrierProblem α) :
    Prop where
  settings : v.1 = c
  point : p.SamePoint v.2
  shaped : v.2.Shaped

/-- The statistics are those of the point, after `k` steps. `done` tells whether it is optimal. -/
structure Measured (c : Settings α) (p : BarrierProblem α) (k : Nat) (done : Prop)
    (v : (Settings α × BarrierProblem α) × Info α) : Prop where
  stands : Stands c p v.1
  iterations : v.2.iterations = k
  residuals : p.residuals? 0 = some v.2.residuals
  objective : p.objective? = some v.2.objective
  done : done ↔ Scalar.le v.2.residuals.max c.tolerance = true

theorem Measured.congr {done done' : Prop} {v : (Settings α × BarrierProblem α) × Info α}
    (h : Measured c p k done v) (hdone : done' ↔ done) : Measured c p k done' v :=
  ⟨h.stands, h.iterations, h.residuals, h.objective, hdone.trans h.done⟩

omit [Scalar α] in
theorem ensures_eval_some {β : Type} {P : Session α σ → Prop} (f : BarrierProblem α → Option β) :
    Ensures P (eval f : Work α σ β) fun x s => P s ∧ f s.problem = some x := by
  refine ensures_get_bind fun s hs => ensures_ofOption ?_
  rintro x t hx rfl
  exact ⟨hs, hx⟩

theorem measured_checkConvergence (k : Nat) (mu : α) :
    Ensures (fun s => Stands c p (view s)) (checkConvergence k mu : Work α σ Bool)
      fun done s => Measured c p k (done = true) (account s) := by
  refine ensures_bind _ (ensures_eval_some _) fun residuals => ?_
  refine ensures_bind _ (ensures_eval_some _) fun objective => ?_
  refine ensures_bind (fun _ s => Measured c p k (Scalar.le residuals.max c.tolerance = true)
    (account s) ∧ (view s).1 = c) (ensures_modify ?_) fun _ => ?_
  · rintro s ⟨⟨hs, hresiduals⟩, hobjective⟩
    obtain ⟨hsame, hsame'⟩ := hs.point.measures
    exact ⟨⟨hs, rfl, hsame.symm.trans hresiduals, hsame'.symm.trans hobjective, .rfl⟩, hs.settings⟩
  refine ensures_bind _ ((fixes_untimed (fixes_get_bind fun _ => rfl)).keeps
    (fun v => Measured c p k _ v ∧ v.1.1 = c)) fun _ => ?_
  refine ensures_get_bind fun s hs => ensures_pure ?_
  rintro t rfl
  obtain ⟨hmeasured, hsettings⟩ := hs
  have hsettings : t.solver.settings = c := hsettings
  exact hmeasured.congr (by rw [hsettings])

variable {done : Prop}

theorem measured_setMu (mu : α) : Keeps (fun s => Measured c p k done (account s))
    (onProblem (modify (·.setMu mu)) : Work α σ Unit) := by
  intro s hs _ t hrun
  cases hrun
  exact ⟨⟨hs.stands.settings, hs.stands.point.setMu mu, hs.stands.shaped.setMu mu⟩, hs.iterations,
    hs.residuals, hs.objective, hs.done⟩

omit [Scalar α] in
theorem ensures_settings_bind {β : Type} {P : Session α σ → Prop} {Q : β → Session α σ → Prop}
    {f : Settings α → Work α σ β} (hP : ∀ s, P s → (view s).1 = c) (h : Ensures P (f c) Q) :
    Ensures P (settings >>= f) Q := by
  intro s hs
  obtain rfl : s.solver.settings = c := hP s hs
  exact h s hs

theorem measured_reduceBarrier (mu : α) : Keeps (fun s => Measured c p k done (account s))
    (reduceBarrier mu : Work α σ α) := by
  refine ensures_settings_bind (fun _ hs => hs.stands.settings) ?_
  refine ensures_bind _ ((fixes_eval _).fst.keeps _) fun residuals => ?_
  split
  · exact ensures_bind _ (measured_setMu _) fun _ => ensures_pure fun _ hs => hs
  · exact ensures_pure fun _ hs => hs

theorem measured_prepare (remaining : Nat) (mu : α) :
    Ensures (fun s => Stands c p (view s)) (prepare remaining mu : Work α σ _) fun prepared s =>
      match prepared with
      | .error status => (status = .optimal ∨ status = .maxTime) ∧
          Measured c p (c.maxIter - (remaining + 1)) (status = .optimal) (account s)
      | .ok _ => Measured c p (c.maxIter - (remaining + 1)) False (account s) := by
  refine ensures_settings_bind (fun _ hs => hs.settings) ?_
  refine ensures_bind _ (measured_checkConvergence _ _) fun done => ?_
  cases done with
  | true => exact ensures_pure fun _ hs => ⟨.inl rfl, hs.congr (by simp)⟩
  | false =>
    refine ensures_bind _ (fixes_elapsed.fst.keeps _) fun t => ?_
    split
    · exact ensures_pure fun _ hs => ⟨.inr rfl, hs.congr (by simp)⟩
    · refine ensures_bind _ (measured_reduceBarrier _) fun mu' => ?_
      exact ensures_pure fun _ hs => hs.congr (by simp)

theorem measured_direct (solution : Array α) :
    Ensures (fun s => Measured c p k done (account s)) (direct solution : Work α σ Bool)
      fun finite s => Measured c p k done (account s) ∧ s.problem.step.isFinite = finite := by
  intro s hs finite t hrun
  have hshaped : s.problem.Shaped := hs.stands.shaped
  unfold direct onProblem at hrun
  rw [run_bind, run_on] at hrun
  by_cases hsize : solution.size = s.problem.kktDim
  · rw [BarrierProblem.setSolution_run hshaped hsize] at hrun
    cases hrun
    exact ⟨⟨⟨hs.stands.settings, hs.stands.point.directed solution, hshaped.directed hsize⟩,
      hs.iterations, hs.residuals, hs.objective, hs.done⟩, rfl⟩
  · rw [BarrierProblem.setSolution_run_of_ne hsize] at hrun
    cases hrun

variable [LinearSolver σ α]

theorem status_of_solveSystem (iteration : Nat) :
    Ensures (fun _ => True) (solveSystem iteration : Work α σ _) fun solved _ =>
      ∀ status, solved = .error status →
        status = .regularizationFailure ∨ status = .numericalError := by
  refine ensures_bind (fun _ _ => True) (fun _ _ _ _ _ => trivial) fun k => ?_
  refine ensures_bind (fun _ _ => True) (fun _ _ _ _ _ => trivial) fun factored => ?_
  cases factored with
  | error e =>
    refine ensures_bind (fun _ _ => True) (fun _ _ _ _ _ => trivial) fun _ => ensures_pure ?_
    rintro s - status ⟨⟩
    cases e <;> simp [failureStatus]
  | ok reg =>
    refine ensures_bind (fun _ _ => True) (fun _ _ _ _ _ => trivial) fun solved => ?_
    cases solved with
    | error e =>
      refine ensures_bind (fun _ _ => True) (fun _ _ _ _ _ => trivial) fun _ => ensures_pure ?_
      rintro s - status ⟨⟩
      exact .inr rfl
    | ok solution =>
      refine ensures_pure ?_
      rintro s - status ⟨⟩

omit [LinearSolver σ α] in
theorem stands_moveRecording (mu coefficient : α) :
    Ensures (fun s => Measured c p k done (account s) ∧ s.problem.step.isFinite = true)
      (moveRecording mu coefficient : Work α σ (Taken α)) fun d s =>
        Stands c (p.after [d]) (view s) ∧ d.direction.isFinite = true := by
  rintro s ⟨hs, hfinite⟩ d t hrun
  have hshaped : s.problem.Shaped := hs.stands.shaped
  obtain ⟨info, hmove⟩ := move_run hshaped mu coefficient
  unfold moveRecording at hrun
  rw [run_get_bind, run_bind, hmove] at hrun
  cases hrun
  exact ⟨⟨hs.stands.settings, hs.stands.point.stepped _ _, hshaped.stepped _ _⟩, hfinite⟩

/-- How iterations end that start at the problem `p` after `k` steps and take some more. -/
structure Stopped (c : Settings α) (p : BarrierProblem α) (k : Nat) (status : Status)
    (taken : List (Taken α)) (v : (Settings α × BarrierProblem α) × Info α) : Prop where
  measured : Measured c (p.after taken) (k + taken.length) (status = .optimal) v
  limit : k + taken.length ≤ c.maxIter
  exhausted : status = .maxIterations → k + taken.length = c.maxIter
  finite : ∀ d ∈ taken, d.direction.isFinite = true
  solved : status ≠ .unsolved

variable {status : Status} {taken : List (Taken α)}

omit [LinearSolver σ α] in
theorem Measured.stopped {v : (Settings α × BarrierProblem α) × Info α}
    (h : Measured c p k (status = .optimal) v) (hk : k ≤ c.maxIter)
    (hstatus : status = .optimal ∨ status = .maxIterations ∧ k = c.maxIter ∨ status = .maxTime ∨
      status = .regularizationFailure ∨ status = .numericalError) :
    Stopped c p k status [] v := by
  refine ⟨h, hk, ?_, nofun, ?_⟩
  · rintro rfl
    simpa using hstatus
  · rintro rfl
    simp at hstatus

omit [LinearSolver σ α] in
theorem Stopped.cons {v : (Settings α × BarrierProblem α) × Info α} {d : Taken α}
    (h : Stopped c (p.after [d]) (k + 1) status taken v) (hd : d.direction.isFinite = true) :
    Stopped c p k status (d :: taken) v := by
  have hlength : k + (d :: taken).length = k + 1 + taken.length := by
    rw [List.length_cons]
    omega
  refine ⟨?_, hlength ▸ h.limit, hlength ▸ h.exhausted, List.forall_mem_cons.mpr ⟨hd, h.finite⟩,
    h.solved⟩
  rw [hlength, BarrierProblem.after_cons]
  exact h.measured

theorem stopped_lastCheck (mu : α) :
    Ensures (fun s => Stands c p (view s)) (iterate 0 mu : Work α σ Status) fun status s =>
      Stopped c p c.maxIter status [] (account s) := by
  refine ensures_settings_bind (fun _ hs => hs.settings) ?_
  refine ensures_bind _ (measured_checkConvergence _ _) fun done => ?_
  cases done with
  | true =>
    refine ensures_pure fun _ hs => ?_
    exact (hs.congr (by simp)).stopped (Nat.le_refl _) (.inl rfl)
  | false =>
    refine ensures_pure fun _ hs => ?_
    exact (hs.congr (by simp)).stopped (Nat.le_refl _) (.inr (.inl ⟨rfl, rfl⟩))

theorem measured_solveSystem (iteration : Nat) :
    Ensures (fun s => Measured c p k done (account s)) (solveSystem iteration : Work α σ _)
      fun solved s => Measured c p k done (account s) ∧ ∀ status, solved = .error status →
        status = .regularizationFailure ∨ status = .numericalError := by
  intro s hs solved t hrun
  exact ⟨(fixes_solveSystem iteration).keeps _ s hs solved t hrun,
    status_of_solveSystem iteration s trivial solved t hrun⟩

/-- Wherever iterations end, the statistics are those of the point that their steps lead to. -/
theorem stopped_recording (remaining : Nat) (mu : α) (hremaining : remaining ≤ c.maxIter) :
    Ensures (fun s => Stands c p (view s)) (recording remaining mu : Work α σ _) fun r s =>
      Stopped c p (c.maxIter - remaining) r.1 r.2 (account s) := by
  induction remaining generalizing p mu with
  | zero => exact ensures_bind _ (stopped_lastCheck mu) fun status => ensures_pure fun _ hs => hs
  | succ remaining ih =>
    have hnext : c.maxIter - (remaining + 1) + 1 = c.maxIter - remaining := by omega
    have hle : c.maxIter - (remaining + 1) ≤ c.maxIter := Nat.sub_le ..
    refine ensures_bind _ (measured_prepare remaining mu) fun prepared => ?_
    cases prepared with
    | error status =>
      refine ensures_pure fun _ hs => hs.2.stopped hle ?_
      rcases hs.1 with rfl | rfl
      · exact .inl rfl
      · exact .inr (.inr (.inl rfl))
    | ok next =>
      obtain ⟨iteration, mu'⟩ := next
      refine ensures_bind _ (measured_solveSystem iteration) fun solved => ?_
      cases solved with
      | error status =>
        refine ensures_pure fun _ hs => ?_
        have hstatus := hs.2 status rfl
        refine (hs.1.congr ?_).stopped hle (.inr (.inr (.inr hstatus)))
        rcases hstatus with rfl | rfl <;> simp
      | ok found =>
        obtain ⟨solution, coefficient⟩ := found
        refine ensures_bind _ ((measured_direct solution).mono (fun _ hs => hs.1)
          fun _ _ hs => hs) fun finite => ?_
        cases finite with
        | false =>
          refine ensures_pure fun _ hs => ?_
          exact (hs.1.congr (by simp)).stopped hle (.inr (.inr (.inr (.inr rfl))))
        | true =>
          refine ensures_bind _ (stands_moveRecording mu' coefficient) fun d => ?_
          refine ensures_bind (fun r s => Stopped c (p.after [d]) (c.maxIter - remaining) r.1 r.2
            (account s) ∧ d.direction.isFinite = true) ?_ fun r => ensures_pure fun _ hs => ?_
          · intro s hs r t hrun
            exact ⟨ih mu' (by omega) s hs.1 r t hrun, hs.2⟩
          · rw [← hnext] at hs
            exact hs.1.cons hs.2

theorem enter_run (s : Session α σ) : ∃ t : Session α σ, (enter : Work α σ _).run s =
      (some s.solver.settings, t) ∧
    view t = (s.solver.settings, s.problem.setMu s.solver.settings.muInit) ∧
    t.solver.backend = s.solver.backend ∧ t.solver.dim = some s.problem.kktDim ∧
    ∃ first second third, t.timers = (((((s.solver.timers.getD .new).reset "solve").suspend
      first).resume second).start third "solve") :=
  ⟨_, rfl, rfl, rfl, rfl, _, _, _, rfl⟩

omit [LinearSolver σ α] in
theorem conclude_run (status : Status) (s : Session α σ) : ∃ t : Session α σ,
    (conclude status).run s = (some status, t) ∧
    (∃ solveTime, account t = (view s, { s.solver.info with status, solveTime })) ∧
    ∃ last, t.solver.timers = some (s.timers.stop last) :=
  ⟨_, rfl, ⟨_, rfl⟩, _, rfl⟩

theorem stands_enter : Ensures (fun s => Stands c p (view s)) (enter : Work α σ _) fun c' s =>
    Stands c p (view s) ∧ c' = c := by
  intro s hs c' t hrun
  obtain ⟨u, hu, hview, -⟩ := enter_run s
  rw [hu] at hrun
  cases hrun
  have hsettings : s.solver.settings = c := hs.settings
  rw [hview]
  exact ⟨⟨hsettings, hs.point.setMu _, hs.shaped.setMu _⟩, hsettings⟩

omit [LinearSolver σ α] in
theorem stopped_conclude : Ensures (fun s => Stopped c p k status taken (account s))
    (conclude status : Work α σ _) fun status' s =>
      status' = status ∧ s.solver.info.status = status ∧
        Stopped c p k status taken (account s) := by
  intro s hs status' t hrun
  obtain ⟨u, hu, ⟨solveTime, haccount⟩, -⟩ := conclude_run status s
  rw [hu] at hrun
  cases hrun
  have hinfo : t.solver.info.status = status := congrArg (fun v => v.2.status) haccount
  rw [haccount]
  exact ⟨rfl, hinfo, ⟨hs.measured.stands, hs.measured.iterations, hs.measured.residuals,
    hs.measured.objective, hs.measured.done⟩, hs.limit, hs.exhausted, hs.finite, hs.solved⟩

/-- Wherever a solve ends, the statistics are those of the point that its steps lead to. -/
theorem stopped_solveRecording :
    Ensures (fun s => Stands c p (view s)) (solveRecording : Work α σ _) fun r s =>
      s.solver.info.status = r.1 ∧ Stopped c p 0 r.1 r.2 (account s) := by
  refine ensures_bind _ stands_enter fun c' => ?_
  intro s hs
  obtain ⟨hs, rfl⟩ := hs
  revert s
  refine ensures_bind _ (stopped_recording c'.maxIter _ (Nat.le_refl _)) fun r => ?_
  rw [Nat.sub_self]
  refine ensures_bind _ stopped_conclude fun status => ensures_pure ?_
  rintro s ⟨rfl, hstatus, hs⟩
  exact ⟨hstatus, hs⟩

end Statistics

end Work

end NonlinearOpt.InteriorPoint
