import NonlinearOpt.Kkt.Regularization
import Mathlib.Data.List.Basic
import Mathlib.Tactic.Common

/-!
The matrices that a regularization hands to a solver, and what it makes of the answers. The answers
may be any: which system is tried next and how the search ends depends on them alone.
-/

namespace NonlinearOpt

abbrev InertiaAnswer := Except LinearSolverError Inertia

namespace RegularizationSettings

variable {α : Type} [Scalar α]

def Acceptable (s : RegularizationSettings α) (expected inertia : Inertia) : Prop :=
  s.computeInertia = true ∧ inertia = expected ∨ s.computeInertia = false ∧ inertia.null = 0

omit [Scalar α] in
theorem accepts_iff {s : RegularizationSettings α} {expected inertia : Inertia} :
    s.accepts expected inertia = true ↔ s.Acceptable expected inertia := by
  unfold accepts Acceptable Inertia.isSingular
  cases s.computeInertia <;> simp

def Retried (s : RegularizationSettings α) (expected : Inertia) : InertiaAnswer → Prop
  | .ok inertia => ¬ s.Acceptable expected inertia
  | .error e => e = .singular

/-- The primal coefficients in the order in which they are tried. -/
def coefficient (s : RegularizationSettings α) : Nat → α
  | 0 => s.initialCoefficient
  | i + 1 => s.coefficient i * s.growthFactor

/-- The dual coefficient of all attempts, which the first answer decides. -/
def dualAfter (s : RegularizationSettings α) (barrier : α) : InertiaAnswer → α
  | .ok inertia => if 0 < inertia.null then s.dualBase * Scalar.pow barrier s.dualExponent else 0
  | .error _ => s.dualBase * Scalar.pow barrier s.dualExponent

end RegularizationSettings

namespace KktSystem

variable {α : Type} [Scalar α]

def trial (k : KktSystem α) (s : RegularizationSettings α) (dual : α) : Nat → KktSystem α
  | 0 => k
  | i + 1 => k.regularized (s.coefficient i) dual

def trialCoefficients (s : RegularizationSettings α) (dual : α) : Nat → α × α
  | 0 => (0, 0)
  | i + 1 => (s.coefficient i, dual)

theorem trial_fixed (k : KktSystem α) (s : RegularizationSettings α) (dual : α) (i : Nat) :
    (k.trial s dual i).rhs = k.rhs ∧ (k.trial s dual i).matrix.colStart = k.matrix.colStart ∧
      (k.trial s dual i).matrix.rowIndex = k.matrix.rowIndex := by
  cases i <;> exact ⟨rfl, rfl, rfl⟩

/-- What is made of the answer to the system of number `i`, if it is the last one. -/
def Concludes (k : KktSystem α) (s : RegularizationSettings α) (dual : α) (i : Nat)
    (answer : InertiaAnswer) : Except RegularizationError (Regularization α) → Prop
  | .ok reg => answer = .ok reg.inertia ∧ s.Acceptable k.expectedInertia reg.inertia ∧
      (reg.coefficient, reg.dualCoefficient) = trialCoefficients s dual i ∧
      reg.system = k.trial s dual i ∧ reg.system.rhs = k.rhs ∧
      reg.system.matrix.colStart = k.matrix.colStart ∧
      reg.system.matrix.rowIndex = k.matrix.rowIndex
  | .error (.linearSolver e) => answer = .error e ∧ e ≠ .singular
  | .error (.exhausted attempts last) => s.Retried k.expectedInertia answer ∧ i = s.maxIter ∧
      attempts = s.maxIter ∧ last = answer.toOption
  | .error (.dimensionMismatch ..) => False

theorem concludes_ok {k : KktSystem α} {s : RegularizationSettings α} {dual : α} {i : Nat}
    {inertia : Inertia} (h : s.Acceptable k.expectedInertia inertia) :
    k.Concludes s dual i (.ok inertia) (.ok ⟨(trialCoefficients s dual i).1,
      (trialCoefficients s dual i).2, inertia, k.trial s dual i⟩) :=
  ⟨rfl, h, rfl, rfl, k.trial_fixed s dual i⟩

end KktSystem

/-- A solver with the matrices that it was given, each with its answer. -/
structure Watched (α σ : Type) where
  solver : σ
  seen : List (Csc α × InertiaAnswer)

namespace Watched

variable {α σ : Type} [LinearSolver σ α]

instance : LinearSolver (Watched α σ) α where
  name w := LinearSolver.name w.solver
  factorize a w :=
    ((LinearSolver.factorize a w.solver).1,
      ⟨(LinearSolver.factorize a w.solver).2,
        w.seen ++ [(a, (LinearSolver.factorize a w.solver).1)]⟩)
  solve? w := LinearSolver.solve? w.solver
  inertia w := LinearSolver.inertia w.solver

theorem factorize_eq (a : Csc α) (w : Watched α σ) : LinearSolver.factorize a w =
    ((LinearSolver.factorize a w.solver).1, ⟨(LinearSolver.factorize a w.solver).2,
      w.seen ++ [(a, (LinearSolver.factorize a w.solver).1)]⟩) :=
  rfl

def forget (r : Regularized α (Watched α σ)) : Regularized α σ :=
  ⟨r.result, r.solver.solver, r.events⟩

end Watched

namespace KktSystem

variable {α σ : Type} [Scalar α] [LinearSolver σ α]

section Recording

theorem retry_forget (k : KktSystem α) (s : RegularizationSettings α) (dual : α) (fuel : Nat)
    (primal : α) (last : Option Inertia) (w : Watched α σ) :
    Watched.forget (k.retry s dual fuel primal last w) =
      k.retry s dual fuel primal last w.solver := by
  induction fuel generalizing primal last w with
  | zero => rfl
  | succ fuel ih =>
    simp only [retry, Watched.factorize_eq]
    rcases LinearSolver.factorize (k.regularized primal dual).matrix w.solver with ⟨answer, next⟩
    have hrest : ∀ last' seen,
        Watched.forget (k.retry s dual fuel (primal * s.growthFactor) last' ⟨next, seen⟩) =
          k.retry s dual fuel (primal * s.growthFactor) last' next :=
      fun last' seen => ih _ last' ⟨next, seen⟩
    cases answer with
    | ok inertia =>
      simp only
      cases s.accepts k.expectedInertia inertia with
      | true => rfl
      | false =>
        simp only [Bool.false_eq_true, if_false]
        rw [← hrest _ (w.seen ++ [((k.regularized primal dual).matrix, .ok inertia)])]
        rfl
    | error e =>
      cases e with
      | singular =>
        simp only
        rw [← hrest _ (w.seen ++ [((k.regularized primal dual).matrix, .error .singular)])]
        rfl
      | unavailable method => rfl
      | breakdown cause => rfl

theorem factorize_forget (k : KktSystem α) (s : RegularizationSettings α) (w : Watched α σ) :
    Watched.forget (k.factorize s w) = k.factorize s w.solver := by
  simp only [factorize, Watched.factorize_eq]
  rcases LinearSolver.factorize k.matrix w.solver with ⟨answer, next⟩
  cases answer with
  | ok inertia =>
    simp only
    cases s.accepts k.expectedInertia inertia with
    | true => rfl
    | false =>
      simp only [Bool.false_eq_true, if_false]
      exact retry_forget ..
  | error e =>
    cases e with
    | singular => exact retry_forget ..
    | unavailable method => rfl
    | breakdown cause => rfl

end Recording

section Steps

/-- One attempt: it ends the search with a factorization or an error, or another one follows. -/
theorem retry_succ_cases (k : KktSystem α) (s : RegularizationSettings α) (dual primal : α)
    (fuel : Nat) (last : Option Inertia) {solver next : σ} {answer : InertiaAnswer}
    (hanswer : LinearSolver.factorize (k.regularized primal dual).matrix solver = (answer, next)) :
    let r := k.retry s dual (fuel + 1) primal last solver
    let rest := k.retry s dual fuel (primal * s.growthFactor) answer.toOption next
    (∃ inertia, answer = .ok inertia ∧ s.Acceptable k.expectedInertia inertia ∧
        r.result = .ok ⟨primal, dual, inertia, k.regularized primal dual⟩ ∧ r.solver = next) ∨
      (s.Retried k.expectedInertia answer ∧ r.result = rest.result ∧ r.solver = rest.solver) ∨
      ∃ e, answer = .error e ∧ e ≠ .singular ∧ r.result = .error (.linearSolver e) ∧
        r.solver = next := by
  simp only [retry, hanswer]
  cases answer with
  | ok inertia =>
    by_cases haccepts : s.accepts k.expectedInertia inertia = true
    · have hacceptable := RegularizationSettings.accepts_iff.mp haccepts
      simp [haccepts, hacceptable]
    · have hretried : s.Retried k.expectedInertia (.ok inertia) :=
        fun h => haccepts (RegularizationSettings.accepts_iff.mpr h)
      simp [haccepts, hretried, Except.toOption]
  | error e =>
    cases e with
    | singular => exact .inr (.inl ⟨rfl, rfl, rfl⟩)
    | unavailable method => exact .inr (.inr ⟨_, rfl, nofun, rfl, rfl⟩)
    | breakdown cause => exact .inr (.inr ⟨_, rfl, nofun, rfl, rfl⟩)

theorem factorize_cases (k : KktSystem α) (s : RegularizationSettings α) {solver next : σ}
    {answer : InertiaAnswer} (hanswer : LinearSolver.factorize k.matrix solver = (answer, next)) :
    let r := k.factorize s solver
    (∃ inertia, answer = .ok inertia ∧ s.Acceptable k.expectedInertia inertia ∧
        r.result = .ok ⟨0, 0, inertia, k⟩ ∧ r.solver = next) ∨
      (s.Retried k.expectedInertia answer ∧
        r = k.retry s (s.dualAfter k.barrier answer) s.maxIter s.initialCoefficient
          answer.toOption next) ∨
      ∃ e, answer = .error e ∧ e ≠ .singular ∧ r.result = .error (.linearSolver e) ∧
        r.solver = next := by
  simp only [factorize, hanswer]
  cases answer with
  | ok inertia =>
    by_cases haccepts : s.accepts k.expectedInertia inertia = true
    · have hacceptable := RegularizationSettings.accepts_iff.mp haccepts
      simp [haccepts, hacceptable]
    · have hretried : s.Retried k.expectedInertia (.ok inertia) :=
        fun h => haccepts (RegularizationSettings.accepts_iff.mpr h)
      refine .inr (.inl ⟨hretried, ?_⟩)
      simp [haccepts, Inertia.isSingular, RegularizationSettings.dualAfter,
        RegularizationSettings.dualCoefficient, Except.toOption]
  | error e =>
    cases e with
    | singular => exact .inr (.inl ⟨rfl, rfl⟩)
    | unavailable method => exact .inr (.inr ⟨_, rfl, nofun, rfl, rfl⟩)
    | breakdown cause => exact .inr (.inr ⟨_, rfl, nofun, rfl, rfl⟩)

end Steps

section Search

variable {k : KktSystem α} {s : RegularizationSettings α} {dual : α}

def record (k : KktSystem α) (s : RegularizationSettings α) (dual : α)
    (answers : List InertiaAnswer) : List (Csc α × InertiaAnswer) :=
  answers.zipIdx.map fun (answer, i) => ((k.trial s dual i).matrix, answer)

omit [LinearSolver σ α] in
theorem record_concat (answers : List InertiaAnswer) (answer : InertiaAnswer) :
    k.record s dual (answers ++ [answer]) =
      k.record s dual answers ++ [((k.trial s dual answers.length).matrix, answer)] := by
  simp [record, List.zipIdx_append]

/-- A search that is over. All answers before the last one asked for another attempt. -/
structure Settled (k : KktSystem α) (s : RegularizationSettings α) (dual : α)
    (earlier : List InertiaAnswer) (answer : InertiaAnswer)
    (r : Regularized α (Watched α σ)) : Prop where
  seen : r.solver.seen = k.record s dual (earlier ++ [answer])
  attempts : earlier.length ≤ s.maxIter
  retried : ∀ a ∈ earlier, s.Retried k.expectedInertia a
  result : k.Concludes s dual earlier.length answer r.result

theorem exists_settled_retry {fuel : Nat} {earlier : List InertiaAnswer} {answer : InertiaAnswer}
    {w : Watched α σ} (hseen : w.seen = k.record s dual (earlier ++ [answer]))
    (hretried : ∀ a ∈ earlier ++ [answer], s.Retried k.expectedInertia a)
    (hfuel : earlier.length + fuel = s.maxIter) :
    ∃ earlier' answer', (earlier ++ [answer]) <+: (earlier' ++ [answer']) ∧
      k.Settled s dual earlier' answer'
        (k.retry s dual fuel (s.coefficient earlier.length) answer.toOption w) := by
  induction fuel generalizing earlier answer w with
  | zero =>
    have hlast : s.Retried k.expectedInertia answer := hretried answer (by simp)
    refine ⟨earlier, answer, List.prefix_rfl, ⟨hseen, by omega, ?_, ?_⟩⟩
    · exact fun a ha => hretried a (by simp [ha])
    · exact ⟨hlast, hfuel, rfl, rfl⟩
  | succ fuel ih =>
    rcases hnext : LinearSolver.factorize
      (k.regularized (s.coefficient earlier.length) dual).matrix w.solver with ⟨answer', next⟩
    have htrial : (k.regularized (s.coefficient earlier.length) dual) =
        k.trial s dual (earlier ++ [answer]).length := by
      simp [trial]
    have hwatched : LinearSolver.factorize
        (k.regularized (s.coefficient earlier.length) dual).matrix w =
        (answer', ⟨next, k.record s dual (earlier ++ [answer] ++ [answer'])⟩) := by
      rw [Watched.factorize_eq, hnext, record_concat, hseen, htrial]
    have hprefix : (earlier ++ [answer]) <+: (earlier ++ [answer] ++ [answer']) :=
      List.prefix_append ..
    have hlength : (earlier ++ [answer]).length ≤ s.maxIter := by
      simp
      omega
    rcases retry_succ_cases k s dual _ fuel answer.toOption hwatched with
      ⟨inertia, rfl, hacceptable, hresult, hsolver⟩ | ⟨hagain, hresult, hsolver⟩ |
        ⟨e, rfl, hne, hresult, hsolver⟩
    · refine ⟨earlier ++ [answer], .ok inertia, hprefix, ⟨by rw [hsolver], hlength, hretried, ?_⟩⟩
      rw [hresult, htrial]
      have hconcludes : k.Concludes s dual (earlier ++ [answer]).length (.ok inertia) _ :=
        concludes_ok hacceptable
      simpa [trialCoefficients] using hconcludes
    · -- all answers so far asked for another attempt, this one too
      have hall : ∀ a ∈ earlier ++ [answer] ++ [answer'], s.Retried k.expectedInertia a := by
        intro a ha
        rcases List.mem_append.mp ha with ha | ha
        · exact hretried a ha
        · rwa [List.mem_singleton.mp ha]
      obtain ⟨earlier', last, hmore, hsettled⟩ := ih (w := ⟨next, _⟩) rfl hall (by simp; omega)
      have hcoefficient : s.coefficient (earlier ++ [answer]).length =
          s.coefficient earlier.length * s.growthFactor := by
        simp [RegularizationSettings.coefficient]
      rw [hcoefficient] at hsettled
      refine ⟨earlier', last, hprefix.trans hmore, ⟨?_, hsettled.attempts, hsettled.retried, ?_⟩⟩
      · rw [hsolver]
        exact hsettled.seen
      · rw [hresult]
        exact hsettled.result
    · refine ⟨earlier ++ [answer], .error e, hprefix, ⟨by rw [hsolver], hlength, hretried, ?_⟩⟩
      rw [hresult]
      exact ⟨rfl, hne⟩

/-- What a regularization asks of a solver and makes of its answers. The solver is given the system
and then shifted ones, up to the first answer that does not ask for another attempt or until the
attempts are used up; the last answer decides the result. -/
theorem exists_settled_factorize (k : KktSystem α) (s : RegularizationSettings α) (solver : σ) :
    ∃ first earlier last, (earlier ++ [last]).head? = some first ∧
      k.Settled s (s.dualAfter k.barrier first) earlier last (k.factorize s ⟨solver, []⟩) ∧
      Watched.forget (k.factorize s ⟨solver, []⟩) = k.factorize s solver := by
  rcases hfirst : LinearSolver.factorize k.matrix solver with ⟨first, next⟩
  have hwatched : LinearSolver.factorize k.matrix (⟨solver, []⟩ : Watched α σ) =
      (first, ⟨next, k.record s (s.dualAfter k.barrier first) [first]⟩) := by
    rw [Watched.factorize_eq, hfirst]
    rfl
  have hforget := factorize_forget k s ⟨solver, []⟩
  refine ⟨first, ?_⟩
  rcases factorize_cases k s hwatched with
    ⟨inertia, rfl, hacceptable, hresult, hsolver⟩ | ⟨hagain, hrun⟩ | ⟨e, rfl, hne, hresult, hsolver⟩
  · refine ⟨[], .ok inertia, rfl, ⟨by rw [hsolver]; rfl, Nat.zero_le _, nofun, ?_⟩, hforget⟩
    rw [hresult]
    exact concludes_ok hacceptable
  · have hseen : (⟨next, k.record s (s.dualAfter k.barrier first) [first]⟩ : Watched α σ).seen =
        k.record s (s.dualAfter k.barrier first) ([] ++ [first]) := rfl
    obtain ⟨earlier, last, hprefix, hsettled⟩ :=
      exists_settled_retry hseen (by simpa using hagain) (Nat.zero_add _)
    refine ⟨earlier, last, ?_, ?_, hforget⟩
    · obtain ⟨more, hmore⟩ := hprefix
      rw [← hmore]
      rfl
    · rw [hrun]
      exact hsettled
  · refine ⟨[], .error e, rfl, ⟨by rw [hsolver]; rfl, Nat.zero_le _, nofun, ?_⟩, hforget⟩
    rw [hresult]
    exact ⟨rfl, hne⟩

end Search

end KktSystem

end NonlinearOpt
