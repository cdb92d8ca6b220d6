import NonlinearOpt.Proofs.InteriorPoint.Evaluable
import NonlinearOpt.Proofs.InteriorPoint.Recording
import NonlinearOpt.Proofs.Kkt.Curvature
import NonlinearOpt.Proofs.LinearSolver.Answers

namespace NonlinearOpt

namespace KktSystem

open LinearSolver

variable {α σ : Type} [Scalar α] [LinearSolver σ α] {k : KktSystem α}

theorem exists_after_retry (s : RegularizationSettings α) (dual primal : α) (fuel : Nat)
    (last : Option Inertia) (solver : σ) :
    ∃ asked, (k.retry s dual fuel primal last solver).solver = after solver asked := by
  induction fuel generalizing primal last solver with
  | zero => exact ⟨[], rfl⟩
  | succ fuel ih =>
    have hanswer : LinearSolver.factorize (k.regularized primal dual).matrix solver = (_, _) := rfl
    rcases retry_succ_cases k s dual primal fuel last hanswer with
      ⟨inertia, -, -, -, hsolver⟩ | ⟨-, -, hsolver⟩ | ⟨e, -, -, -, hsolver⟩
    · exact ⟨[_], hsolver⟩
    · obtain ⟨asked, hasked⟩ := ih _ _ _
      exact ⟨_ :: asked, hsolver.trans hasked⟩
    · exact ⟨[_], hsolver⟩

theorem exists_after_factorize (k : KktSystem α) (s : RegularizationSettings α) (solver : σ) :
    ∃ asked, (k.factorize s solver).solver = after solver asked := by
  rcases hanswer : LinearSolver.factorize k.matrix solver with ⟨answer, next⟩
  have hnext : after solver [k.matrix] = next := congrArg Prod.snd hanswer
  rcases factorize_cases k s hanswer with
    ⟨inertia, -, -, -, hsolver⟩ | ⟨-, hretry⟩ | ⟨e, -, -, -, hsolver⟩
  · exact ⟨[k.matrix], hsolver.trans hnext.symm⟩
  · obtain ⟨asked, hasked⟩ := exists_after_retry (k := k) s (s.dualAfter k.barrier answer)
      s.initialCoefficient s.maxIter answer.toOption next
    refine ⟨[k.matrix] ++ asked, ?_⟩
    rw [after_append, hnext, hretry, hasked]
  · exact ⟨[k.matrix], hsolver.trans hnext.symm⟩

end KktSystem

namespace InteriorPoint

open Attempt LinearSolver

variable {α σ : Type} [Scalar α] [LinearSolver σ α]

namespace Solver

section Making

variable {α : Type} [Scalar α] [Ldl.Ordering] [Decomposer α] {c : Settings α}
  {s : Solver α (Backend α)}

/-- A solver that was made with its settings, and that may have factored matrices since. -/
def InUse (s : Solver α (Backend α)) : Prop :=
  ∃ fresh asked, Solver.new s.settings = .ok fresh ∧ s.backend = after fresh.backend asked

theorem new_eq_ok (h : Solver.new c = .ok s) : c.validate = .ok () ∧
      ∃ backend, Backend.ofMethod c.directSolveMethod c.pivotTolerance = .ok backend ∧
        s = ⟨c, .initial, some .new, backend, none, 0⟩ := by
  unfold Solver.new at h
  cases hvalid : c.validate with
  | error e =>
    rw [hvalid] at h
    cases h
  | ok =>
    cases hbackend : Backend.ofMethod c.directSolveMethod c.pivotTolerance with
    | error e =>
      rw [hvalid, hbackend] at h
      cases h
    | ok backend =>
      rw [hvalid, hbackend] at h
      cases h
      exact ⟨rfl, backend, rfl, rfl⟩

theorem inUse_of_new (h : Solver.new c = .ok s) : s.InUse := by
  obtain ⟨-, backend, -, rfl⟩ := new_eq_ok h
  exact ⟨_, [], h, rfl⟩

theorem InUse.answers (h : s.InUse) : Answers s.backend := by
  obtain ⟨fresh, asked, hnew, hbackend⟩ := h
  obtain ⟨-, backend, hmethod, rfl⟩ := new_eq_ok hnew
  rw [hbackend]
  exact (Backend.answers_of_ofMethod hmethod).after asked

end Making

structure Answered (k : KktSystem α) (s : Solver α σ)
    (r : Regularized α (Solver α σ)) : Prop where
  dim : r.solver.dim = s.dim
  backend : Answers r.solver.backend
  solved : ∀ reg, r.result = .ok reg → ∃ x, solve? r.solver.backend k.dim reg.system.rhs = some x ∧
    ∀ solution, x = .ok solution → solution.size = k.dim

theorem answered_factorize {k : KktSystem α} {s : Solver α σ} (h : Answers s.backend)
    (hrhs : k.rhs.size = k.dim) : Answered k s (s.factorize k) := by
  unfold Solver.factorize
  cases s.checkDim k with
  | error e => exact ⟨rfl, h, nofun⟩
  | ok _ =>
    simp only
    split_ifs with hregularize
    · obtain ⟨asked, hasked⟩ := k.exists_after_factorize s.settings.regularization s.backend
      refine ⟨rfl, hasked ▸ h.after asked, fun reg hreg => ?_⟩
      obtain ⟨⟨asked', hleaves⟩, -, hsystem⟩ := KktSystem.accepted_of_factorize hreg
      have hkept : reg.system.matrix.cols = k.dim ∧ reg.system.rhs = k.rhs := by
        rcases hsystem with ⟨-, hsystem⟩ | ⟨dual, -, hsystem⟩ <;> rw [hsystem] <;> exact ⟨rfl, rfl⟩
      rw [← hkept.1, hkept.2]
      exact h asked' _ _ _ hleaves k.rhs (hrhs.trans hkept.1.symm)
    · unfold factorizePlain
      refine ⟨rfl, h.after [k.matrix], fun reg hreg => ?_⟩
      rcases hanswer : LinearSolver.factorize k.matrix s.backend with ⟨answer, next⟩
      simp only [hanswer] at hreg ⊢
      cases answer with
      | error e => cases hreg
      | ok inertia =>
        simp only at hreg
        split_ifs at hreg
        cases hreg
        exact h [] k.matrix inertia next hanswer k.rhs hrhs

end Solver

namespace Work

def core (s : Session α σ) : BarrierProblem α × Option Nat × σ :=
  (s.problem, s.solver.dim, s.solver.backend)

/-- The problem can be evaluated and the linear solver has answers. -/
structure Ready (v : BarrierProblem α × Option Nat × σ) : Prop where
  evaluable : v.1.Evaluable
  backend : Answers v.2.2

section Parts

variable {β : Type} {p : BarrierProblem α × Option Nat × σ → Prop}
  {q : β → BarrierProblem α × Option Nat × σ → Prop}

omit [Scalar α] [LinearSolver σ α] in
theorem achieves_core (p : BarrierProblem α × Option Nat × σ → Prop) {part : Work α σ β}
    (h : ∀ s, ∃ x t, part.run s = (some x, t) ∧ core t = core s) :
    Achieves (fun s => p (core s)) part fun _ s => p (core s) := by
  intro s hs
  obtain ⟨x, t, hrun, ht⟩ := h s
  have hend : p (core t) := ht.symm ▸ hs
  exact ⟨x, t, hrun, hend⟩

omit [Scalar α] [LinearSolver σ α] in
theorem achieves_note (e : Event α) :
    Achieves (fun s => p (core s)) (note e : Work α σ Unit) fun _ s => p (core s) :=
  achieves_core p fun _ => ⟨_, _, rfl, rfl⟩

omit [Scalar α] [LinearSolver σ α] in
theorem achieves_bracketed {f g : α → Timers α → Timers α} {part : Work α σ β}
    (h : Achieves (fun s => p (core s)) part fun b s => q b (core s)) :
    Achieves (fun s => p (core s)) (do
      let t ← now
      updateTimers (f t)
      let x ← part
      let t ← now
      updateTimers (g t)
      return x) fun b s => q b (core s) := by
  refine achieves_bind _ (achieves_core p fun _ => ⟨_, _, rfl, rfl⟩) fun first => ?_
  refine achieves_bind _ (achieves_core p fun _ => ⟨_, _, rfl, rfl⟩) fun _ => ?_
  refine achieves_bind _ h fun x => ?_
  refine achieves_bind _ (achieves_core (q x) fun _ => ⟨_, _, rfl, rfl⟩) fun last => ?_
  refine achieves_bind _ (achieves_core (q x) fun _ => ⟨_, _, rfl, rfl⟩) fun _ => ?_
  exact achieves_pure fun _ hs => hs

omit [Scalar α] [LinearSolver σ α] in
theorem achieves_eval (f : BarrierProblem α → Option β) (h : ∀ v, p v → ∃ x, f v.1 = some x) :
    Achieves (fun s => p (core s)) (eval f : Work α σ β) fun x s =>
      p (core s) ∧ f (core s).1 = some x := by
  intro s hs
  obtain ⟨x, hx⟩ := h _ hs
  exact ⟨x, s, Prod.ext hx rfl, hs, hx⟩

theorem achieves_checkConvergence (k : Nat) (mu : α) :
    Achieves (fun s => Ready (core s)) (checkConvergence k mu : Work α σ Bool)
      fun _ s => Ready (core s) := by
  refine achieves_bind _ (achieves_eval _ fun v hv => hv.evaluable.residuals? 0) fun residuals => ?_
  refine achieves_bind (fun _ s => Ready (core s)) ?_ fun objective => ?_
  · exact (achieves_eval _ fun v (hv : Ready v) => hv.evaluable.objective?).mono
      (fun _ hs => hs.1) fun _ _ hs => hs.1
  refine achieves_bind _ (achieves_core Ready fun _ => ⟨_, _, rfl, rfl⟩) fun _ => ?_
  refine achieves_bind _ (achieves_bracketed
    (achieves_core Ready fun _ => ⟨_, _, rfl, rfl⟩)) fun _ => ?_
  exact achieves_core Ready fun _ => ⟨_, _, rfl, rfl⟩

omit [Scalar α] in
theorem achieves_setMu (mu : α) : Achieves (fun s => Ready (core s))
    (onProblem (modify (·.setMu mu)) : Work α σ Unit) fun _ s => Ready (core s) :=
  fun _ hs => ⟨(), _, rfl, ⟨hs.evaluable.setMu mu, hs.backend⟩⟩

theorem achieves_prepare (remaining : Nat) (mu : α) :
    Achieves (fun s => Ready (core s)) (prepare remaining mu : Work α σ _)
      fun _ s => Ready (core s) := by
  refine achieves_bind _ (achieves_core Ready fun _ => ⟨_, _, rfl, rfl⟩) fun c => ?_
  refine achieves_bind _ (achieves_checkConvergence _ _) fun done => ?_
  cases done with
  | true => exact achieves_pure fun _ hs => hs
  | false =>
    refine achieves_bind _ (achieves_core Ready fun _ => ⟨_, _, rfl, rfl⟩) fun t => ?_
    split
    · exact achieves_pure fun _ hs => hs
    · refine achieves_bind (fun _ s => Ready (core s)) ?_ fun mu' => achieves_pure fun _ hs => hs
      refine achieves_bind _ (achieves_core Ready fun _ => ⟨_, _, rfl, rfl⟩) fun c => ?_
      refine achieves_bind (fun _ s => Ready (core s)) ?_ fun residuals => ?_
      · exact (achieves_eval _ fun v (hv : Ready v) => hv.evaluable.residuals? mu).mono
          (fun _ hs => hs) fun _ _ hs => hs.1
      split
      · exact achieves_bind _ (achieves_setMu _) fun _ => achieves_pure fun _ hs => hs
      · exact achieves_pure fun _ hs => hs

theorem achieves_solveSystem (iteration : Nat) :
    Achieves (fun s => Ready (core s)) (solveSystem iteration : Work α σ _) fun solved s =>
      Ready (core s) ∧ ∀ solution coefficient, solved = .ok (solution, coefficient) →
        solution.size = (core s).1.kktDim := by
  refine achieves_bind _ (achieves_bracketed (p := Ready)
    (q := fun k v => Ready v ∧ k.dim = v.1.kktDim ∧ k.rhs.size = k.dim) ?_) fun k => ?_
  · refine (achieves_eval _ fun v hv => (hv.evaluable.kkt?).imp fun _ h => h.1).mono
      (fun _ hs => hs) fun k s hs => ⟨hs.1, ?_⟩
    obtain ⟨k', hk', hdim, hrhs⟩ := hs.1.evaluable.kkt?
    rw [hs.2, Option.some.injEq] at hk'
    subst hk'
    exact ⟨hdim, hrhs.trans hdim.symm⟩
  refine achieves_bind _ (achieves_bracketed
    (p := fun v => Ready v ∧ k.dim = v.1.kktDim ∧ k.rhs.size = k.dim)
    (q := fun factored v => (Ready v ∧ k.dim = v.1.kktDim) ∧ ∀ reg, factored = .ok reg →
      ∃ x, solve? v.2.2 k.dim reg.system.rhs = some x ∧
        ∀ solution, x = .ok solution → solution.size = k.dim) ?_) fun factored => ?_
  · rintro s ⟨hs, hdim, hrhs⟩
    have hanswered := Solver.answered_factorize (s := s.solver) hs.backend hrhs
    exact ⟨_, _, rfl, ⟨⟨hs.evaluable, hanswered.backend⟩, hdim⟩, hanswered.solved⟩
  cases factored with
  | error e =>
    refine achieves_bind (fun _ s => Ready (core s)) ?_ fun _ =>
      achieves_pure fun _ hs => ⟨hs, nofun⟩
    exact (achieves_note _).mono (fun _ hs => hs.1.1) fun _ _ hs => hs
  | ok reg =>
    refine achieves_bind _ (achieves_bracketed
      (p := fun v => (Ready v ∧ k.dim = v.1.kktDim) ∧ ∀ reg', Except.ok reg = .ok reg' →
        ∃ x, solve? v.2.2 k.dim reg'.system.rhs = some x ∧
          ∀ solution, x = .ok solution → solution.size = k.dim)
      (q := fun solved v => Ready v ∧ ∀ solution, solved = .ok solution →
        solution.size = v.1.kktDim) ?_) fun solved => ?_
    · rintro s ⟨⟨hs, hdim⟩, hsolved⟩
      obtain ⟨x, hx, hsize⟩ := hsolved reg rfl
      exact ⟨x, s, Prod.ext hx rfl, hs, fun solution h => (hsize solution h).trans hdim⟩
    cases solved with
    | error e =>
      refine achieves_bind (fun _ s => Ready (core s)) ?_ fun _ =>
        achieves_pure fun _ hs => ⟨hs, nofun⟩
      exact (achieves_note _).mono (fun _ hs => hs.1) fun _ _ hs => hs
    | ok solution =>
      refine achieves_pure fun _ hs => ⟨hs.1, ?_⟩
      rintro _ _ ⟨⟩
      exact hs.2 solution rfl

theorem achieves_direct (solution : Array α) :
    Achieves (fun s => Ready (core s) ∧ solution.size = (core s).1.kktDim)
      (direct solution : Work α σ Bool) fun _ s => Ready (core s) := by
  rintro s ⟨hs, hsize⟩
  have hproblem : s.problem.Evaluable := hs.evaluable
  unfold direct onProblem
  rw [run_bind, run_on, BarrierProblem.setSolution_run hproblem.shaped hsize]
  exact ⟨_, _, rfl, ⟨hproblem.directed hsize, hs.backend⟩⟩

theorem achieves_move (mu coefficient : α) :
    Achieves (fun s => Ready (core s)) (move mu coefficient : Work α σ Unit)
      fun _ s => Ready (core s) := by
  intro s hs
  have hproblem : s.problem.Evaluable := hs.evaluable
  obtain ⟨info, hrun⟩ := move_run hproblem.shaped mu coefficient
  exact ⟨(), _, hrun, ⟨hproblem.stepped _ _, hs.backend⟩⟩

theorem achieves_iterate (remaining : Nat) (mu : α) :
    Achieves (fun s => Ready (core s)) (iterate remaining mu : Work α σ Status)
      fun _ s => Ready (core s) := by
  induction remaining generalizing mu with
  | zero =>
    refine achieves_bind _ (achieves_core Ready fun _ => ⟨_, _, rfl, rfl⟩) fun c => ?_
    refine achieves_bind _ (achieves_checkConvergence _ _) fun done => ?_
    cases done <;> exact achieves_pure fun _ hs => hs
  | succ remaining ih =>
    rw [iterate_succ]
    refine achieves_bind _ (achieves_prepare remaining mu) fun prepared => ?_
    cases prepared with
    | error status => exact achieves_pure fun _ hs => hs
    | ok next =>
      refine achieves_bind _ (achieves_solveSystem _) fun solved => ?_
      cases solved with
      | error status => exact achieves_pure fun _ hs => hs.1
      | ok found =>
        refine achieves_bind (fun _ s => Ready (core s)) ?_ fun finite => ?_
        · exact (achieves_direct found.1).mono (fun _ hs => ⟨hs.1, hs.2 _ _ rfl⟩) fun _ _ hs => hs
        cases finite with
        | false => exact achieves_pure fun _ hs => hs
        | true => exact achieves_bind _ (achieves_move _ _) fun _ => ih _

/-- A solve comes to an end, and can be repeated from there. -/
theorem achieves_solve :
    Achieves (fun s => Ready (core s)) (solve : Work α σ Status) fun _ s => Ready (core s) := by
  rw [solve_eq]
  refine achieves_bind (fun _ s => Ready (core s)) ?_ fun c => ?_
  · intro s hs
    obtain ⟨t, ht, hview, hbackend, -⟩ := enter_run s
    have hproblem : t.problem = s.problem.setMu s.solver.settings.muInit :=
      congrArg Prod.snd hview
    refine ⟨_, t, ht, ⟨?_, ?_⟩⟩
    · show t.problem.Evaluable
      rw [hproblem]
      exact hs.evaluable.setMu _
    · show Answers t.solver.backend
      rw [hbackend]
      exact hs.backend
  · refine achieves_bind _ (achieves_iterate _ _) fun status => ?_
    exact achieves_core Ready fun _ => ⟨_, _, rfl, rfl⟩

end Parts

end Work

end InteriorPoint

end NonlinearOpt
