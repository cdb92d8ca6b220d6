import Mathlib
import NonlinearOpt.Proofs.Ldl.Inertia
import NonlinearOpt.Proofs.LinearSolver.Cache

namespace NonlinearOpt

namespace LinearSolver

section Histories

variable {α σ : Type} [LinearSolver σ α]

def after (solver : σ) (asked : List (Csc α)) : σ :=
  asked.foldl (fun solver a => (LinearSolver.factorize a solver).2) solver

theorem after_append (solver : σ) (asked asked' : List (Csc α)) :
    after solver (asked ++ asked') = after (after solver asked) asked' :=
  List.foldl_append

end Histories

section Reports

variable {K σ : Type} [LinearOrder K] [ExactScalar K] [LinearSolver σ K]

/-- What a solver reports of matrices with the given pattern is true at any time: it is the inertia
of the symmetric matrix whose upper triangle was factored. -/
def ReportsInertia (pattern : Csc K) (solver : σ) : Prop :=
  ∀ (asked : List (Csc K)) (values : Array K) (i : Inertia), values.size = pattern.values.size →
    (factorize { pattern with values } (after solver asked)).1 = .ok i →
      HasInertia ({ pattern with values }).symmetricMatrix i.positive i.negative

theorem ReportsInertia.after {pattern : Csc K} {solver : σ} (h : ReportsInertia pattern solver)
    (asked : List (Csc K)) : ReportsInertia pattern (LinearSolver.after solver asked) := by
  intro asked' values i hsize hanswer
  rw [← after_append] at hanswer
  exact h (asked ++ asked') values i hsize hanswer

end Reports

end LinearSolver

namespace Csc

theorem noRepeats_of_checkFormat {α : Type} {a : Csc α} (h : a.checkFormat = .ok ()) :
    a.NoRepeats := by
  obtain ⟨-, hpointers, -, -, hcolumns, -⟩ := checkFormat_eq_ok.mp h
  intro j column hcolumn
  have hj : j < a.cols := by
    obtain ⟨⟨first, last⟩, hspan, -⟩ := Option.bind_eq_some_iff.mp hcolumn
    obtain ⟨_, -, hspan⟩ := Option.bind_eq_some_iff.mp hspan
    obtain ⟨_, hlast, -⟩ := Option.bind_eq_some_iff.mp hspan
    obtain ⟨hlt, -⟩ := Array.getElem?_eq_some_iff.mp hlast
    omega
  have hordered := List.all_eq_true.mp hcolumns j (List.mem_range.mpr hj)
  unfold columnOrdered at hordered
  cases hrows : a.rowsOf? j with
  | none =>
    rw [hrows] at hordered
    cases hordered
  | some rows =>
    rw [hrows] at hordered
    rw [map_fst_of_entries? hrows hcolumn]
    exact (pairwise_of_chained hordered).imp Nat.ne_of_lt

end Csc

namespace SparseSolver

variable {α : Type} [Scalar α] [Ldl.Ordering]

theorem Faithful.after {tolerance : α} {last : Option (Csc α)} {s : SparseSolver α}
    (h : Faithful tolerance last s) (asked : List (Csc α)) :
    ∃ last', Faithful tolerance last' (LinearSolver.after s asked) := by
  induction asked generalizing last s with
  | nil => exact ⟨last, h⟩
  | cons a asked ih => exact ih (h.factorize a).2

theorem faithful_after (tolerance : α) (asked : List (Csc α)) :
    ∃ last, Faithful tolerance last (LinearSolver.after (new tolerance) asked) :=
  (faithful_new tolerance).after asked

/-- A solver that has factored matrices only can factor the next one. -/
theorem exists_factorize?_after (tolerance : α) (asked : List (Csc α)) (a : Csc α) :
    ∃ answer, (LinearSolver.after (new tolerance) asked).factorize? a = some answer := by
  obtain ⟨last, hfaithful⟩ := faithful_after tolerance asked
  exact ⟨_, hfaithful.factorize?_eq a⟩

theorem exists_factors_of_factorize_new {tolerance : α} {a : Csc α} {i : Inertia}
    (h : ((new tolerance).factorize a).1 = .ok i) :
    ∃ f, a.checkFormat = .ok () ∧
      Ldl.Factorization.new? a ⟨1.0, none, tolerance⟩ = some (.ok f) ∧ assess f = .ok i ∧
      ((new tolerance).factorize a).2 =
        ⟨⟨1.0, none, tolerance⟩, some ⟨a.colStart, a.rowIndex, f⟩, some i⟩ := by
  have hfaithful := faithful_new tolerance
  cases hcheck : LinearSolver.checkInput a with
  | error e =>
    have hrefused : (new tolerance).factorize? a =
        some (.error e, { new tolerance with inertia := none }) := by
      unfold factorize?
      rw [hcheck]
    rw [factorize_eq hrefused] at h
    cases h
  | ok _ =>
    have hformat : a.checkFormat = .ok () := by
      unfold LinearSolver.checkInput at hcheck
      split at hcheck
      · cases hcheck
      · assumption
    have hfresh : ∀ fresh, rebuild? (new tolerance).settings a = some fresh →
        (new tolerance).factorize a = (new tolerance).conclude fresh := by
      intro fresh hrebuild
      apply factorize_eq
      rw [factorize?_of_accepted hcheck]
      exact congrArg _ hrebuild
    rcases rebuild?_cases (accepted_of_checkInput hcheck) (hfaithful.permutes a) with
      ⟨e, hfailed⟩ | ⟨blank, f, hanalyze, hrefactor, hok⟩
    · rw [hfresh _ hfailed] at h
      cases h
    · rw [hfresh _ hok] at h ⊢
      have hassess : assess f = .ok i := h
      have hmade : Ldl.Factorization.new? a (new tolerance).settings = some (.ok f) := by
        rw [Ldl.Factorization.new?_eq, hanalyze, Option.bind_some, Ldl.Factorization.complete?,
          hrefactor]
        rfl
      refine ⟨f, hformat, hmade, hassess, ?_⟩
      rw [conclude, hassess]
      rfl

variable {K : Type} [LinearOrder K] [ExactScalar K] [IsStrictOrderedRing K] {tolerance : K}

theorem hasInertia_of_factorize_new {a : Csc K} {i : Inertia} (htolerance : 0 ≤ tolerance)
    (h : ((new tolerance).factorize a).1 = .ok i) :
    HasInertia a.symmetricMatrix i.positive i.negative ∧ i.dim = a.rows := by
  obtain ⟨f, hformat, hf, hassess, -⟩ := exists_factors_of_factorize_new h
  have hfactors := (Ldl.Factorization.Computed.made hf).factors
    (Ldl.Options.permutes_of_none rfl a) (Csc.noRepeats_of_checkFormat hformat) htolerance
  have hinertia := hfactors.hasInertia htolerance
  unfold assess at hassess
  split at hassess
  · cases hassess
    exact hinertia
  · cases hassess

theorem reportsInertia (pattern : Csc K) (htolerance : 0 ≤ tolerance) :
    LinearSolver.ReportsInertia pattern (new tolerance) := by
  intro asked values i _ hanswer
  obtain ⟨last, hfaithful⟩ := faithful_after tolerance asked
  have hsame := (hfaithful.factorize { pattern with values }).1
  have hreported := hasInertia_of_factorize_new (a := { pattern with values }) htolerance
    (hsame.symm.trans hanswer)
  exact hreported.1

end SparseSolver

end NonlinearOpt
