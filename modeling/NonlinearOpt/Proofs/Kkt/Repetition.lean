import Mathlib
import NonlinearOpt.Proofs.Kkt.Curvature

namespace NonlinearOpt

namespace SparseSolver

variable {α : Type} [Scalar α] [Ldl.Ordering] {tolerance : α} {last : Option (Csc α)}
  {s : SparseSolver α}

def used? (s : SparseSolver α) (calls : List (Call α)) : Option (SparseSolver α) :=
  calls.foldlM (fun s call => (s.respond? call).map Prod.snd) s

theorem Faithful.used? (h : Faithful tolerance last s) (calls : List (Call α)) :
    ∃ t last', s.used? calls = some t ∧ Faithful tolerance last' t := by
  induction calls generalizing last s with
  | nil => exact ⟨s, last, rfl, h⟩
  | cons call calls ih =>
    obtain ⟨_, t, last', hanswer, -, hnext⟩ := h.respond? call
    obtain ⟨t', last'', ht', hused⟩ := ih hnext
    refine ⟨t', last'', ?_, hused⟩
    rw [SparseSolver.used?, List.foldlM_cons, hanswer]
    exact ht'

/-- A matrix that is factored twice in a row leaves the solver as the first time did. -/
theorem Faithful.factorize_again (h : Faithful tolerance last s) {a : Csc α} {i : Inertia}
    {t : SparseSolver α} (ht : s.factorize a = (.ok i, t)) : t.factorize a = (.ok i, t) := by
  obtain ⟨hanswer, hfirst⟩ := h.factorize a
  rw [ht] at hanswer hfirst
  obtain ⟨hanswer', hsecond⟩ := hfirst.factorize a
  rw [← hanswer] at hanswer'
  refine Prod.ext hanswer' ?_
  have hcache := (hsecond.cache a i rfl hanswer.symm).trans (hfirst.cache a i rfl hanswer.symm).symm
  have hinertia := hsecond.inertia.trans hfirst.inertia.symm
  have htolerance := hsecond.settings.trans hfirst.settings.symm
  cases hu : (t.factorize a).2
  rw [hu] at hcache hinertia htolerance
  cases t
  rw [SparseSolver.mk.injEq]
  exact ⟨htolerance, hcache, hinertia⟩

end SparseSolver

namespace KktSystem

variable {α σ : Type} [Scalar α] [LinearSolver σ α]

/-- A regularization and `n` more, each of the system that the one before it has returned. -/
def regularizedAgain (k : KktSystem α) (s : RegularizationSettings α) (solver : σ) :
    (n : Nat) → Regularized α σ
  | 0 => k.factorize s solver
  | n + 1 =>
    let r := k.regularizedAgain s solver n
    match r.result with
    | .ok reg => reg.system.factorize s r.solver
    | .error _ => r

theorem factorize_of_acceptable {k : KktSystem α} {s : RegularizationSettings α} {solver next : σ}
    {i : Inertia} (hanswer : LinearSolver.factorize k.matrix solver = (.ok i, next))
    (hi : s.Acceptable k.expectedInertia i) :
    k.factorize s solver = ⟨.ok ⟨0, 0, i, k⟩, next, []⟩ := by
  unfold factorize
  rw [hanswer]
  exact if_pos (RegularizationSettings.accepts_iff.mpr hi)

/-- A regularization that succeeded changes nothing when it is repeated, however often: neither the
system, its inertia and its right hand side, nor the factors that the solver holds. No law of
arithmetic is needed, and it does not matter what the solver was used for before. -/
theorem regularizedAgain_succ [Ldl.Ordering] (tolerance : α) (calls : List (SparseSolver.Call α)) :
    ∃ solver, (SparseSolver.new tolerance).used? calls = some solver ∧
      ∀ (k : KktSystem α) (s : RegularizationSettings α) (reg : Regularization α),
        (k.factorize s solver).result = .ok reg → ∀ n,
          k.regularizedAgain s solver (n + 1) =
            ⟨.ok ⟨0, 0, reg.inertia, reg.system⟩, (k.factorize s solver).solver, []⟩ := by
  obtain ⟨solver, _, hsolver, hused⟩ := (SparseSolver.faithful_new tolerance).used? calls
  refine ⟨solver, hsolver, fun k s reg h n => ?_⟩
  obtain ⟨⟨asked, hleaves⟩, hacceptable, hsystem⟩ := accepted_of_factorize h
  obtain ⟨_, hasked⟩ := hused.after asked
  have hagain : LinearSolver.factorize reg.system.matrix (k.factorize s solver).solver =
      (.ok reg.inertia, (k.factorize s solver).solver) := hasked.factorize_again hleaves
  -- The counts that the inertia is compared with are those of the system that was given.
  have hexpected : reg.system.expectedInertia = k.expectedInertia := by
    rcases hsystem with ⟨-, hsystem⟩ | ⟨dual, -, hsystem⟩
    · rw [hsystem]
    · rw [hsystem]
      rfl
  have hstep := factorize_of_acceptable hagain (hexpected ▸ hacceptable)
  induction n with
  | zero =>
    rw [regularizedAgain, regularizedAgain]
    simp only [h]
    exact hstep
  | succ n ih =>
    rw [regularizedAgain, ih]
    exact hstep

section Concave

def concaveSystem : KktSystem (Exact ℚ) := ⟨⟨1, 1, #[0, 1], #[0], #[-1]⟩, #[1], 1, 0, 0, 1⟩

def firmSettings : RegularizationSettings (Exact ℚ) :=
  { RegularizationSettings.default with initialCoefficient := 1 + 1 }

/-- The system is accepted with a shift, after the solver had to give up on a singular matrix; the
shifted system needs none. -/
theorem regularizedAgain_succ_concave :
    ∃ solver reg, (SparseSolver.new (0 : Exact ℚ)).used?
        [.factorize ⟨1, 1, #[0, 1], #[0], #[0]⟩, .solve 1 #[1]] = some solver ∧
      (concaveSystem.factorize firmSettings solver).result = .ok reg ∧
      reg.coefficient = 1 + 1 ∧ reg.system.matrix.values = #[1] ∧
      concaveSystem.regularizedAgain firmSettings solver 2 =
        ⟨.ok ⟨0, 0, reg.inertia, reg.system⟩,
          (concaveSystem.factorize firmSettings solver).solver, []⟩ := by
  have hrun : (((SparseSolver.new (0 : Exact ℚ)).used?
      [.factorize ⟨1, 1, #[0, 1], #[0], #[0]⟩, .solve 1 #[1]]).any fun solver =>
        (concaveSystem.factorize firmSettings solver).result.toOption.any fun reg =>
          decide (reg.coefficient = 1 + 1 ∧ reg.system.matrix.values = #[1])) = true := by
    decide +kernel
  obtain ⟨solver, hsolver, hagain⟩ := regularizedAgain_succ (0 : Exact ℚ)
    [.factorize ⟨1, 1, #[0, 1], #[0], #[0]⟩, .solve 1 #[1]]
  rw [hsolver, Option.any_some] at hrun
  cases hresult : (concaveSystem.factorize firmSettings solver).result with
  | error e =>
    rw [hresult] at hrun
    cases hrun
  | ok reg =>
    rw [hresult] at hrun
    obtain ⟨hcoefficient, hvalues⟩ := of_decide_eq_true hrun
    exact ⟨solver, reg, hsolver, hresult, hcoefficient, hvalues, hagain _ _ reg hresult 1⟩

end Concave

end KktSystem

end NonlinearOpt
