import Mathlib
import NonlinearOpt.Proofs.Kkt.Curvature
import NonlinearOpt.Proofs.Ldl.Solution

namespace NonlinearOpt

variable {K : Type} [LinearOrder K] [ExactScalar K]

namespace SparseSolver

variable [Ldl.Ordering] {tolerance : K} {a : Csc K} {i : Inertia} {b : Array K}

theorem exists_solution_new (htolerance : 0 ≤ tolerance)
    (h : ((new tolerance).factorize a).1 = .ok i) (hb : b.size = a.cols) :
    ∃ x, ((new tolerance).factorize a).2.solve? a.cols b = some (.ok x) ∧ a.IsSolution b x := by
  obtain ⟨f, hformat, hf, -, hkept⟩ := exists_factors_of_factorize_new h
  have horder : (new tolerance).settings.Permutes a := Ldl.Options.permutes_of_none rfl a
  have hrows : a.rows = a.cols := by
    obtain ⟨blank, hserves, -⟩ := Ldl.Factorization.exists_blank_of_new? horder hf
    exact (Ldl.Factorization.checkStructure?_ok hserves.checked).1
  obtain ⟨x, hx, hsolution⟩ := (Ldl.Factorization.Computed.made hf).exists_isSolution horder
    (Csc.noRepeats_of_checkFormat hformat) htolerance (hb.trans hrows.symm)
  have hfinite : Vec.allFinite x = true :=
    Array.all_eq_true_iff_forall_mem.mpr fun t _ => ExactScalar.isFinite_eq t
  refine ⟨x, ?_, hsolution⟩
  rw [hkept, SparseSolver.solve?]
  simp only
  rw [if_neg (not_not.mpr hb.symm), hx, Option.map_some, LinearSolver.checkSolution,
    if_pos hfinite]

theorem Faithful.exists_solution {s : SparseSolver K} (h : Faithful tolerance (some a) s)
    (htolerance : 0 ≤ tolerance) (hanswer : ((new tolerance).factorize a).1 = .ok i)
    (hb : b.size = a.cols) :
    ∃ x, s.solve? a.cols b = some (.ok x) ∧ a.IsSolution b x := by
  obtain ⟨x, hx, hsolution⟩ := exists_solution_new htolerance hanswer hb
  refine ⟨x, ?_, hsolution⟩
  rw [h.solve?, recompute?.solution]
  rcases hfresh : (new tolerance).factorize a with ⟨answer, fresh⟩
  rw [hfresh] at hanswer hx
  cases hanswer
  exact hx

end SparseSolver

namespace KktSystem

variable {k : KktSystem K} {s : RegularizationSettings K} {tolerance : K} {asked : List (Csc K)}
  {reg : Regularization K}

theorem exists_solution_of_factorize [Ldl.Ordering] (htolerance : 0 ≤ tolerance)
    (hrhs : k.rhs.size = k.dim)
    (h : (k.factorize s (LinearSolver.after (SparseSolver.new tolerance) asked)).result =
      .ok reg) :
    ∃ x, LinearSolver.solve?
        (k.factorize s (LinearSolver.after (SparseSolver.new tolerance) asked)).solver k.dim
          reg.system.rhs = some (.ok x) ∧
      reg.system.matrix.IsSolution reg.system.rhs x := by
  obtain ⟨⟨asked', hleaves⟩, -, dual, -, hsystem⟩ := leaves_of_factorize h
  rw [← LinearSolver.after_append] at hleaves
  obtain ⟨last, hfaithful⟩ := SparseSolver.faithful_after tolerance (asked ++ asked')
  obtain ⟨hsame, hnext⟩ := hfaithful.factorize reg.system.matrix
  rw [show SparseSolver.factorize reg.system.matrix _ = _ from hleaves] at hsame hnext
  obtain ⟨values, -, hvalues⟩ := exists_values k reg.coefficient dual
  have hmatrix : reg.system.matrix = { k.matrix with values } := by rw [hsystem, hvalues]
  have hcols : reg.system.matrix.cols = k.dim := by
    rw [hmatrix]
    rfl
  have hkept : reg.system.rhs = k.rhs := by
    rw [hsystem]
    rfl
  rw [← hcols]
  exact hnext.exists_solution htolerance hsame.symm (by rw [hkept, hrhs, hcols])

end KktSystem

/-- Every solve finds the only solution of the system that was factored, however many solves there
are, and the systems that a regularization hands on are among them. -/
theorem solve?_isSolution [Ldl.Ordering] :
    (∀ (a : Csc K) (options : Ldl.Options K) (f : Ldl.Factorization K),
      Ldl.Factorization.Computed options a f → options.Permutes a → a.NoRepeats →
        0 ≤ options.tolerance → ∀ bs : List (Array K), (∀ b ∈ bs, b.size = a.rows) →
          ∃ xs, bs.mapM f.solve? = some xs ∧ List.Forall₂ a.IsSolution bs xs) ∧
    ∀ (k : KktSystem K) (s : RegularizationSettings K) (tolerance : K) (asked : List (Csc K))
      (reg : Regularization K), 0 ≤ tolerance → k.rhs.size = k.dim →
        (k.factorize s (LinearSolver.after (SparseSolver.new tolerance) asked)).result = .ok reg →
          ∃ x, LinearSolver.solve?
              (k.factorize s (LinearSolver.after (SparseSolver.new tolerance) asked)).solver k.dim
                reg.system.rhs = some (.ok x) ∧
            reg.system.matrix.IsSolution reg.system.rhs x := by
  constructor
  · intro a options f hcomputed horder hdistinct htolerance bs hbs
    have hsolve := fun b hb =>
      hcomputed.exists_isSolution horder hdistinct htolerance (hbs b hb)
    obtain ⟨xs, hxs⟩ := exists_mapM fun b hb => (hsolve b hb).imp fun _ h => h.1
    refine ⟨xs, hxs, ?_⟩
    have hall := mapM_eq_some_iff.mp hxs
    refine (List.forall₂_and_left _ _).mpr ⟨hbs, hall⟩ |>.imp ?_
    rintro b x ⟨hb, hx⟩
    obtain ⟨x', hx', hsolution⟩ := hcomputed.exists_isSolution horder hdistinct htolerance hb
    rw [hx, Option.some.injEq] at hx'
    exact hx' ▸ hsolution
  · intro k s tolerance asked reg htolerance hrhs hreg
    exact KktSystem.exists_solution_of_factorize htolerance hrhs hreg

section Forced

open Ldl.Factorization KktBlocks

def forcedSystem : KktSystem (Exact ℚ) := { coupledSystem with rhs := #[1, 0, 1 + 1] }

theorem solve?_isSolution_forced :
    (arrowOptions.Permutes arrowMatrix ∧ arrowMatrix.NoRepeats ∧ 0 ≤ arrowOptions.tolerance ∧
      ∃ f xs, Computed arrowOptions arrowMatrix f ∧
        [#[1, 0, 1 + 1], #[0, -1, 1]].mapM f.solve? = some xs ∧
        List.Forall₂ arrowMatrix.IsSolution [#[1, 0, 1 + 1], #[0, -1, 1]] xs) ∧
    forcedSystem.rhs.size = forcedSystem.dim ∧
      ∃ reg, (forcedSystem.factorize .default (SparseSolver.new (0 : Exact ℚ))).result = .ok reg ∧
        ∃ x, LinearSolver.solve?
            (forcedSystem.factorize .default (SparseSolver.new (0 : Exact ℚ))).solver
              forcedSystem.dim reg.system.rhs = some (.ok x) ∧
          reg.system.matrix.IsSolution #[1, 0, 1 + 1] x := by
  obtain ⟨f, hf, -⟩ := exists_arrow
  have hsizes : ∀ b ∈ [#[1, 0, 1 + 1], #[0, -1, (1 : Exact ℚ)]], b.size = arrowMatrix.rows := by
    simp [arrowMatrix]
  obtain ⟨xs, hxs, hsolutions⟩ := solve?_isSolution.1 arrowMatrix arrowOptions f (.made hf)
    arrowOptions_permutes arrowMatrix_noRepeats (le_refl _) _ hsizes
  have hanswer : LinearSolver.factorize forcedSystem.matrix (SparseSolver.new (0 : Exact ℚ)) =
      (.ok ⟨2, 1, 0⟩, ((SparseSolver.new (0 : Exact ℚ)).factorize coupledMatrix).2) :=
    Prod.ext factorize_coupled rfl
  have hreg : (forcedSystem.factorize .default (SparseSolver.new (0 : Exact ℚ))).result =
      .ok ⟨0, 0, ⟨2, 1, 0⟩, forcedSystem⟩ := by
    rw [KktSystem.factorize, hanswer]
    rfl
  obtain ⟨x, hx, hsolution⟩ := solve?_isSolution.2 forcedSystem .default 0 [] _ (le_refl _)
    rfl hreg
  exact ⟨⟨arrowOptions_permutes, arrowMatrix_noRepeats, le_refl _, f, xs, .made hf, hxs,
    hsolutions⟩, rfl, _, hreg, x, hx, hsolution⟩

end Forced

end NonlinearOpt
