import NonlinearOpt.LinearSolver.Backend
import NonlinearOpt.Proofs.Ldl.Solvable
import NonlinearOpt.Proofs.LinearSolver.Reported

namespace NonlinearOpt

namespace LinearSolver

variable {α σ : Type} [LinearSolver σ α]

/-- After a factorization, every right hand side of the right size has an answer, and a solution has
that size too. -/
def Answers (solver : σ) : Prop :=
  ∀ (asked : List (Csc α)) (a : Csc α) (i : Inertia) (next : σ),
    factorize a (after solver asked) = (.ok i, next) → ∀ b : Array α, b.size = a.cols →
      ∃ r, solve? next a.cols b = some r ∧ ∀ x, r = .ok x → x.size = a.cols

theorem Answers.after {solver : σ} (h : Answers solver) (asked : List (Csc α)) :
    Answers (LinearSolver.after solver asked) := by
  intro asked' a i next hnext
  rw [← after_append] at hnext
  exact h (asked ++ asked') a i next hnext

section Wrapped

variable {τ : Type} [LinearSolver τ α] (wrap : σ → τ)

theorem after_wrapped (h : ∀ (a : Csc α) s, factorize a (wrap s) = (factorize a s).map id wrap)
    (solver : σ) (asked : List (Csc α)) : after (wrap solver) asked = wrap (after solver asked) := by
  induction asked generalizing solver with
  | nil => rfl
  | cons a asked ih =>
    show after (factorize a (wrap solver)).2 asked = _
    rw [h]
    exact ih _

theorem Answers.wrapped {solver : σ} (h : Answers solver)
    (hfactorize : ∀ (a : Csc α) s, factorize a (wrap s) = (factorize a s).map id wrap)
    (hsolve : ∀ s, solve? (α := α) (wrap s) = solve? s) : Answers (wrap solver) := by
  intro asked a i next hnext b hb
  rw [after_wrapped wrap hfactorize, hfactorize] at hnext
  obtain ⟨hanswer, rfl⟩ := Prod.mk.inj hnext
  rw [hsolve]
  exact h asked a i _ (Prod.ext hanswer rfl) b hb

end Wrapped

theorem eq_of_checkSolution {α : Type} [Scalar α] {x y : Array α} (h : checkSolution x = .ok y) :
    y = x := by
  unfold checkSolution at h
  split at h
  · cases h
    rfl
  · cases h

end LinearSolver

namespace SparseSolver

variable {α : Type} [Scalar α] [Ldl.Ordering]

theorem answers_new (tolerance : α) : LinearSolver.Answers (new tolerance) := by
  intro asked a i next hnext b hb
  obtain ⟨last, hfaithful⟩ := faithful_after tolerance asked
  obtain ⟨hsame, hkept⟩ := hfaithful.factorize a
  rw [show SparseSolver.factorize a _ = _ from hnext] at hsame hkept
  obtain ⟨f, -, hf, -, hnew⟩ := exists_factors_of_factorize_new hsame.symm
  have hsquare : a.rows = a.cols := by
    rw [Ldl.Factorization.new?_eq] at hf
    obtain ⟨result, hanalyze, hf⟩ := Option.bind_eq_some_iff.mp hf
    cases result with
    | error e => cases hf
    | ok blank => exact (Ldl.Factorization.checkStructure?_ok
        (Ldl.Factorization.analyze?_eq_ok.mp hanalyze).1).1
  obtain ⟨x, hx, hsize⟩ :=
    (Ldl.Factorization.solvable_of_new? hf).solve? (hb.trans hsquare.symm)
  refine ⟨LinearSolver.checkSolution x, ?_, ?_⟩
  · show next.solve? a.cols b = _
    rw [hkept.solve?, recompute?.solution]
    rcases hfresh : (new tolerance).factorize a with ⟨answer, fresh⟩
    rw [hfresh] at hsame hnew
    cases hsame
    rw [show fresh = _ from hnew]
    show SparseSolver.solve? _ a.cols b = _
    unfold SparseSolver.solve?
    simp only
    rw [if_neg (not_not.mpr hb.symm), hx, Option.map_some]
  · intro y hy
    rw [LinearSolver.eq_of_checkSolution hy, hsize, hsquare]

end SparseSolver

namespace DenseSolver

variable {α : Type} [Scalar α]

theorem answers (s : DenseSolver α) : LinearSolver.Answers s := by
  intro asked a i next hnext b hb
  have hnext : DenseSolver.factorize a _ = _ := hnext
  unfold DenseSolver.factorize at hnext
  split at hnext
  · cases hnext
  · simp only at hnext
    split_ifs at hnext with hfinite
    · cases hnext
      show ∃ r, DenseSolver.solve? _ a.cols b = some r ∧ _
      simp only [DenseSolver.solve?]
      split_ifs with hsingular hsize
      · exact ⟨_, rfl, nofun⟩
      · exact absurd hb (by simpa using hsize)
      · refine ⟨_, rfl, fun x hx => ?_⟩
        rw [LinearSolver.eq_of_checkSolution hx]
        exact ((LinearSolver.after s asked).decomposer.size_solve a.toSymmetric b hb).trans hb
    · cases hnext

end DenseSolver

namespace Backend

open LinearSolver

variable {α : Type} [Scalar α] [Ldl.Ordering] [Decomposer α]

theorem answers_of_ofMethod {method : String} {tolerance : α} {b : Backend α}
    (h : ofMethod method tolerance = .ok b) : Answers b := by
  unfold ofMethod at h
  split at h
  · cases h
  · cases h
    split_ifs
    · exact (DenseSolver.answers _).wrapped dense (fun _ _ => rfl) fun _ => rfl
    · exact (SparseSolver.answers_new tolerance).wrapped sparse (fun _ _ => rfl) fun _ => rfl

end Backend

end NonlinearOpt
