import NonlinearOpt.Proofs.Arithmetic.Binary64
import NonlinearOpt.Proofs.InteriorPoint.Convergence

namespace NonlinearOpt.InteriorPoint

open Scalar

namespace Settings

variable {α : Type} [Scalar α]

theorem conditions_of_validate {s : Settings α} (hvalid : s.validate = .ok ()) :
    ∀ c ∈ s.conditions, c.2 = true := by
  have hcheck : check s.conditions = .ok () := by
    unfold validate at hvalid
    cases hmethod : s.checkMethod with
    | error e =>
      rw [hmethod] at hvalid
      cases hvalid
    | ok _ =>
      rw [hmethod] at hvalid
      exact hvalid
  unfold check at hcheck
  cases hfind : s.conditions.find? (!·.2) with
  | some c =>
    rw [hfind] at hcheck
    cases hcheck
  | none =>
    intro c hc
    simpa using List.find?_eq_none.mp hfind c hc

theorem tolerance_pos {s : Settings α} (hvalid : s.validate = .ok ()) :
    Scalar.lt 0 s.tolerance = true :=
  conditions_of_validate hvalid ("tol", isPositive s.tolerance) (by simp [conditions])

end Settings

namespace Solver

variable {α σ : Type} [Scalar α] [LinearSolver σ α]

theorem converged_of_optimal {s : Solver α σ} {p : BarrierProblem α} {clock : Clock α}
    {session : Session α σ} (hrun : s.solve p clock = (some .optimal, session)) :
    session.problem.Converged s.settings.tolerance :=
  (Work.ensures_solve ⟨s, p, .new, clock, []⟩ rfl .optimal session hrun).2 rfl

/-- At an optimal point every number among the optimality conditions is at most the tolerance,
except in a vector that has an entry which is no number. So all conditions hold within the tolerance
just when all of them are numbers. -/
theorem conditions_of_optimal [LawfulComparison α] {s : Solver α σ} {p : BarrierProblem α}
    {clock : Clock α} {session : Session α σ} (hvalid : s.settings.validate = .ok ())
    (hrun : s.solve p clock = (some .optimal, session)) :
    ∃ c, session.problem.conditions? = some c ∧ c.Accepted s.settings.tolerance ∧
      ((∀ x ∈ c.entries, Within s.settings.tolerance x) ↔
        ∀ x ∈ c.entries, isNaN x = false) := by
  have htol : Scalar.le 0 s.settings.tolerance = true := le_of_lt (Settings.tolerance_pos hvalid)
  have hconv := converged_of_optimal hrun
  rw [BarrierProblem.converged_iff htol] at hconv
  obtain ⟨c, hc, haccepted⟩ := hconv
  exact ⟨c, hc, haccepted, haccepted.forall_within_iff⟩

end Solver

/-- A program in one free variable, without an objective, whose only constraint is constant. -/
def constantModel (value : Float) : NlpModel Float :=
  { primals := 1
    equalities := 1
    inequalities := 0
    xLower := #[-Scalar.infinity]
    xUpper := #[Scalar.infinity]
    dLower := #[]
    dUpper := #[]
    start := #[0]
    startEqDuals := #[0]
    startIneqDuals := #[]
    objective := fun _ => some 0
    gradient := fun _ => some #[0]
    eqConstraints := fun _ => some #[value]
    ineqConstraints := fun _ => some #[]
    jacobianEq := fun _ => some (.zeros 1 1)
    jacobianIneq := fun _ => some (.zeros 0 1)
    hessian := fun _ _ _ => some (.zeros 1 1) }

def constantProblem (value : Float) : BarrierProblem Float :=
  { model := constantModel value
    xBounds := #[⟨none, none⟩]
    sBounds := #[]
    iterate := ⟨#[0], #[], #[0], #[], #[0], #[0], #[], #[], 0⟩
    step := .zero 1 1 0 }

theorem Interval.all_unlimited :
    Interval.all #[-(Scalar.infinity : Float)] #[Scalar.infinity] = .ok #[⟨none, none⟩] := by
  have hlt : Scalar.lt (-Scalar.infinity : Float) Scalar.infinity = true := by decide +kernel
  have hlower : Scalar.isFinite (-Scalar.infinity : Float) = false := by decide +kernel
  have hupper : Scalar.isFinite (Scalar.infinity : Float) = false := by decide +kernel
  simp [Interval.all, Interval.all.go, Interval.ofLimits?, Interval.limit?, hlt, hlower, hupper]

theorem new?_constantModel (value : Float) :
    BarrierProblem.new? (constantModel value) = some (.ok (constantProblem value)) := by
  have hinside : Interval.inside ⟨none, none⟩ (0 : Float) = true := by decide +kernel
  have hempty : Interval.all (#[] : Array Float) #[] = .ok #[] := rfl
  simp [BarrierProblem.new?, constantModel, constantProblem, NlpModel.primalsFit,
    NlpModel.dualsFit, NlpModel.sized, BarrierProblem.interior, BarrierProblem.startDuals,
    Interval.all_unlimited, Interval.interior, Option.filter, hinside, hempty]

def defaultSolver : Solver Float (Backend Float) :=
  { settings := .default
    info := .initial
    timers := some .new
    backend := .sparse (.new 1e-30)
    dim := none
    coefficient := 0 }

theorem new_default : Solver.new (.default : Settings Float) = .ok defaultSolver := by
  have hvalid : (Settings.default : Settings Float).validate = .ok () := by decide +kernel
  simp only [Solver.new, hvalid]
  rfl

def stopped : Clock Float := ⟨fun _ => 0, 0⟩

theorem conditions_of_optimal_constant :
    defaultSolver.settings.validate = .ok () ∧
      (defaultSolver.solve (constantProblem 0) stopped).1 = some .optimal ∧
      ∃ c, (defaultSolver.solve (constantProblem 0) stopped).2.problem.conditions? = some c ∧
        c.Accepted defaultSolver.settings.tolerance ∧
        ((∀ x ∈ c.entries, Within defaultSolver.settings.tolerance x) ↔
          ∀ x ∈ c.entries, isNaN x = false) := by
  have hvalid : defaultSolver.settings.validate = .ok () := by decide +kernel
  have hoptimal : (defaultSolver.solve (constantProblem 0) stopped).1 = some .optimal := by
    decide +kernel
  exact ⟨hvalid, hoptimal, Solver.conditions_of_optimal hvalid (Prod.ext hoptimal rfl)⟩

/-- A constraint that is not a number anywhere counts as satisfied. -/
theorem optimal_with_undefined_constraint :
    Solver.new (.default : Settings Float) = .ok defaultSolver ∧
      BarrierProblem.new? (constantModel Scalar.nan) = some (.ok (constantProblem Scalar.nan)) ∧
      (defaultSolver.solve (constantProblem Scalar.nan) stopped).1 = some .optimal ∧
      ∃ c, (defaultSolver.solve (constantProblem Scalar.nan) stopped).2.problem.conditions? =
          some c ∧
        ∃ x ∈ c.equality, isNaN x = true ∧ ¬ Within defaultSolver.settings.tolerance x := by
  have hoptimal : (defaultSolver.solve (constantProblem Scalar.nan) stopped).1 = some .optimal := by
    decide +kernel
  have hsome : (defaultSolver.solve (constantProblem Scalar.nan) stopped).2.problem.conditions?.map
      (·.equality.toList.any isNaN) = some true := by decide +kernel
  refine ⟨new_default, new?_constantModel _, hoptimal, ?_⟩
  obtain ⟨c, hc, hany⟩ := Option.map_eq_some_iff.mp hsome
  obtain ⟨x, hx, hnan⟩ := List.any_eq_true.mp hany
  refine ⟨c, hc, x, Array.mem_toList_iff.mp hx, hnan, fun hwithin => ?_⟩
  rw [hwithin.1] at hnan
  cases hnan

end NonlinearOpt.InteriorPoint
