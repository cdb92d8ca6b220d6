import Mathlib
import NonlinearOpt.LinearSolver.BlockLdl
import NonlinearOpt.Proofs.Kkt.Repetition
import NonlinearOpt.Proofs.LinearSolver.Spectrum

/-!
The search for a coefficient is monotone. A larger shift of the variables never takes the expected
inertia away, so that the search passes by no coefficient that is much smaller than the one it
returns. This needs neither independent constraints nor a shift of their duals.
-/

namespace NonlinearOpt

section Exactness

variable {K σ : Type} [LinearOrder K] [ExactScalar K] [LinearSolver σ K] {a : Csc K} {i j : Inertia}

namespace Csc

def IsInertia (a : Csc K) (i : Inertia) : Prop :=
  HasInertia a.symmetricMatrix i.positive i.negative ∧ i.dim = a.rows

theorem isSymm_symmetricMatrix (a : Csc K) : a.symmetricMatrix.IsSymm := by
  ext1 i j
  exact a.symmetricAt_comm j i

theorem IsInertia.unique (hi : a.IsInertia i) (hj : a.IsInertia j) : i = j := by
  obtain ⟨hpositive, hnegative⟩ := hi.1.unique hj.1
  exact Inertia.eq_of_signs (hi.2.trans hj.2.symm) hpositive hnegative

theorem IsInertia.total (hi : a.IsInertia i) (hnull : i.null = 0) :
    i.positive + i.negative = Fintype.card (Fin a.rows) := by
  have hdim := hi.2
  rw [Inertia.dim, hnull] at hdim
  rw [Fintype.card_fin]
  exact hdim

theorem IsInertia.det_ne_zero (hi : a.IsInertia i) (hnull : i.null = 0) :
    a.symmetricMatrix.det ≠ 0 := by
  intro hdet
  obtain ⟨z, hne, hz⟩ := Matrix.exists_mulVec_eq_zero_iff.mpr hdet
  exact hne (hi.1.eq_zero_of_mulVec_eq_zero (hi.total hnull) a.isSymm_symmetricMatrix hz)

end Csc

namespace LinearSolver

/-- What is answered to a matrix is true. Nothing is asked of a solver that gives up for another
reason than that the matrix is singular. -/
def Truthful (a : Csc K) : InertiaAnswer → Prop
  | .ok i => a.IsInertia i
  | .error e => e = .singular → a.symmetricMatrix.det = 0

def ReportsExactly (pattern : Csc K) (solver : σ) : Prop :=
  ∀ (asked : List (Csc K)) (values : Array K), values.size = pattern.values.size →
    Truthful { pattern with values } (factorize { pattern with values } (after solver asked)).1

theorem ReportsExactly.after {pattern : Csc K} {solver : σ} (h : ReportsExactly pattern solver)
    (asked : List (Csc K)) : ReportsExactly pattern (LinearSolver.after solver asked) := by
  intro asked' values hsize
  rw [← after_append]
  exact h (asked ++ asked') values hsize

end LinearSolver

end Exactness

namespace KktSystem

variable {K : Type} [LinearOrder K] [ExactScalar K] {k : KktSystem K}

/-- A system with shifted diagonals has the inertia with which a step descends. -/
def AsExpected (k : KktSystem K) (primal dual : K) : Prop :=
  (k.regularized primal dual).matrix.IsInertia k.expectedInertia

def shiftedMatrix (k : KktSystem K) (primal dual : K) :
    Matrix (Fin k.matrix.rows) (Fin k.matrix.rows) K :=
  (k.regularized primal dual).matrix.symmetricMatrix

theorem asExpected_iff {primal dual : K} : k.AsExpected primal dual ↔
    HasInertia (k.shiftedMatrix primal dual) k.expectedInertia.positive
      k.expectedInertia.negative ∧ k.expectedInertia.dim = k.matrix.rows :=
  Iff.rfl

theorem isSymm_shiftedMatrix (k : KktSystem K) (primal dual : K) :
    (k.shiftedMatrix primal dual).IsSymm :=
  (k.regularized primal dual).matrix.isSymm_symmetricMatrix

end KktSystem

namespace KktBlocks

variable {K : Type} [LinearOrder K] [ExactScalar K] {b : KktBlocks K} {k : KktSystem K}
  {primal primal' dual : K}

section Shift

theorem rows_eq (h : b.Sound k) : k.matrix.rows = b.dim := by
  obtain ⟨rhs, barrier, hassemble⟩ := h.assembled
  obtain ⟨ts, -, -, -, -, rfl⟩ := assemble?_eq_some hassemble
  rfl

theorem expectedInertia_eq (h : b.Sound k) :
    k.expectedInertia = ⟨b.dualOffset, b.equalities + b.inequalities, 0⟩ := by
  obtain ⟨rhs, barrier, hassemble⟩ := h.assembled
  obtain ⟨ts, -, -, -, -, rfl⟩ := assemble?_eq_some hassemble
  rfl

theorem mulVec_shiftedMatrix (h : b.Sound k) (x : Fin k.matrix.rows → K)
    (i : Fin k.matrix.rows) : (k.shiftedMatrix primal dual).mulVec x i =
      ∑ j ∈ Finset.range b.dim,
        (k.regularized primal dual).matrix.symmetricAt i j * extend x j := by
  rw [← rows_eq h]
  simp only [Finset.sum_range, extend_val]
  rfl

theorem mulVec_shiftedMatrix_add (h : b.Sound k) (primal primal' : K)
    (x : Fin k.matrix.rows → K) (i : Fin k.matrix.rows) :
    (k.shiftedMatrix primal' dual).mulVec x i =
      (k.shiftedMatrix primal dual).mulVec x i +
        if (i : Nat) < b.primals then (primal' - primal) * x i else 0 := by
  have hi : (i : Nat) < b.dim := rows_eq h ▸ i.isLt
  rw [mulVec_shiftedMatrix h, mulVec_shiftedMatrix h, sum_row h primal' dual hi,
    sum_row h primal dual hi, extend_val]
  split_ifs <;> ring

def dualSpace (b : KktBlocks K) (n : Nat) : Submodule K (Fin n → K) :=
  LinearMap.range (b.stackMap 0 n ∘ₗ LinearMap.inr K K _)

theorem finrank_dualSpace {n : Nat} (hn : n = b.dim) :
    Module.finrank K (b.dualSpace n) = b.equalities + b.inequalities := by
  have hinjective : Function.Injective (b.stackMap 0 n ∘ₗ LinearMap.inr K K _) := by
    intro w w' heq
    funext r
    rw [← stackMap_dual hn 0 w r, ← stackMap_dual hn 0 w' r]
    exact congrFun heq _
  rw [dualSpace, LinearMap.finrank_range_of_inj hinjective, Module.finrank_fin_fun]

theorem eq_zero_of_mem_dualSpace {n : Nat} {x : Fin n → K} (hx : x ∈ b.dualSpace n) {i : Fin n}
    (hi : (i : Nat) < b.dualOffset) : x i = 0 := by
  obtain ⟨w, rfl⟩ := hx
  show b.stacked 0 0 (extend w) i = 0
  rw [stacked, if_pos hi, zero_mul]

theorem mulVec_shiftedMatrix_eq (h : b.Sound k) {x : Fin k.matrix.rows → K}
    (hx : x ∈ b.dualSpace k.matrix.rows) :
    (k.shiftedMatrix primal dual).mulVec x = (k.shiftedMatrix primal' dual).mulVec x := by
  funext i
  rw [mulVec_shiftedMatrix_add h primal primal']
  split
  · next hi =>
    rw [eq_zero_of_mem_dualSpace hx (hi.trans_le primals_le_dualOffset), mul_zero, add_zero]
  · rw [add_zero]

variable [IsStrictOrderedRing K]

theorem form_shiftedMatrix_le (h : b.Sound k) (hle : primal ≤ primal')
    (x : Fin k.matrix.rows → K) : x ⬝ᵥ (k.shiftedMatrix primal dual).mulVec x ≤
      x ⬝ᵥ (k.shiftedMatrix primal' dual).mulVec x := by
  apply Finset.sum_le_sum
  intro i _
  rw [mulVec_shiftedMatrix_add h primal primal', mul_add, le_add_iff_nonneg_right]
  split
  · have hsquare := mul_nonneg (sub_nonneg.mpr hle) (mul_self_nonneg (x i))
    linarith
  · rw [mul_zero]

/-- The duals are not positive, whatever the shift of the variables. -/
theorem form_dualSpace_le (h : b.Sound k) (hdual : 0 ≤ dual) {x : Fin k.matrix.rows → K}
    (hx : x ∈ b.dualSpace k.matrix.rows) :
    x ⬝ᵥ (k.shiftedMatrix primal dual).mulVec x ≤ 0 := by
  have htangent : b.Tangent 0 := by constructor <;> simp
  have hcurvature : b.curvature primal 0 ≤ 0 := by simp [curvature]
  have hmem : x ∈ LinearMap.range (b.stackMap 0 k.matrix.rows) := by
    obtain ⟨w, rfl⟩ := hx
    exact ⟨(0, w), rfl⟩
  have hrows : (k.regularized primal dual).matrix.rows = b.dim := by
    rw [← rows_eq h]
    rfl
  exact form_stackMap_le h hdual htangent hcurvature hrows hmem

/-- More shift of the variables leaves the expected inertia as it is. -/
theorem asExpected_of_le (h : b.Sound k) (hdual : 0 ≤ dual) (hle : primal ≤ primal')
    (hexpected : k.AsExpected primal dual) : k.AsExpected primal' dual := by
  have htotal := hexpected.total rfl
  rw [KktSystem.asExpected_iff] at hexpected ⊢
  obtain ⟨hinertia, hdim⟩ := hexpected
  refine ⟨?_, hdim⟩
  have hrank : Module.finrank K (b.dualSpace k.matrix.rows) = k.expectedInertia.negative := by
    rw [finrank_dualSpace (rows_eq h), expectedInertia_eq h]
  exact hinertia.of_form_le htotal (k.isSymm_shiftedMatrix primal dual)
    (k.isSymm_shiftedMatrix primal' dual) (form_shiftedMatrix_le h hle) hrank
    (fun x hx => form_dualSpace_le h hdual hx) fun x hx => mulVec_shiftedMatrix_eq h hx

end Shift

end KktBlocks

namespace RegularizationSettings

variable {K : Type} [LinearOrder K] [ExactScalar K] [IsStrictOrderedRing K]
  {s : RegularizationSettings K}

theorem coefficient_pos (hinitial : 0 < s.initialCoefficient) (hgrowth : 1 < s.growthFactor)
    (i : Nat) : 0 < s.coefficient i := by
  induction i with
  | zero => exact hinitial
  | succ i ih => exact mul_pos ih (zero_lt_one.trans hgrowth)

theorem coefficient_monotone (hinitial : 0 < s.initialCoefficient) (hgrowth : 1 < s.growthFactor) :
    Monotone s.coefficient := by
  apply monotone_nat_of_le_succ
  intro i
  exact le_mul_of_one_le_right (coefficient_pos hinitial hgrowth i).le hgrowth.le

end RegularizationSettings

namespace KktSystem

variable {K σ : Type} [LinearOrder K] [ExactScalar K] [LinearSolver σ K] {k : KktSystem K}
  {s : RegularizationSettings K} {solver : σ} {primal dual : K}

section Answers

theorem truthful_regularized (h : LinearSolver.ReportsExactly k.matrix solver) (primal dual : K)
    (asked : List (Csc K)) : LinearSolver.Truthful (k.regularized primal dual).matrix
      (LinearSolver.factorize (k.regularized primal dual).matrix
        (LinearSolver.after solver asked)).1 := by
  obtain ⟨values, hsize, hvalues⟩ := k.exists_values primal dual
  rw [hvalues]
  exact h asked values hsize

theorem acceptable_iff (hinertia : s.computeInertia = true) {i : Inertia}
    (htrue : (k.regularized primal dual).matrix.IsInertia i) :
    s.Acceptable k.expectedInertia i ↔ k.AsExpected primal dual := by
  constructor
  · rintro (⟨-, rfl⟩ | ⟨hoff, -⟩)
    · exact htrue
    · rw [hinertia] at hoff
      cases hoff
  · intro hexpected
    exact .inl ⟨hinertia, htrue.unique hexpected⟩

theorem not_asExpected_of_retried (hinertia : s.computeInertia = true) {answer : InertiaAnswer}
    (htrue : LinearSolver.Truthful (k.regularized primal dual).matrix answer)
    (hretried : s.Retried k.expectedInertia answer) : ¬ k.AsExpected primal dual := by
  intro hexpected
  cases answer with
  | ok i => exact hretried ((acceptable_iff hinertia htrue).mpr hexpected)
  | error e => exact hexpected.det_ne_zero rfl (htrue hretried)

end Answers

section Search

variable {reg : Regularization K}

/-- A search returns the coefficient that it starts with, or the one after a coefficient that does
not give the expected inertia. -/
theorem coefficient_of_retry (hinertia : s.computeInertia = true)
    (hexact : LinearSolver.ReportsExactly k.matrix solver) {fuel : Nat} {last : Option Inertia}
    (h : (k.retry s dual fuel primal last solver).result = .ok reg) :
    reg.dualCoefficient = dual ∧ (reg.coefficient = primal ∨
      ∃ d, ¬ k.AsExpected d dual ∧ reg.coefficient = d * s.growthFactor) := by
  induction fuel generalizing primal last solver with
  | zero => cases h
  | succ fuel ih =>
    have hanswer : LinearSolver.factorize (k.regularized primal dual).matrix solver = (_, _) := rfl
    rcases retry_succ_cases k s dual primal fuel last hanswer with
      ⟨inertia, -, -, hresult, -⟩ | ⟨hretried, hresult, -⟩ | ⟨e, -, -, hresult, -⟩
    · rw [hresult] at h
      cases h
      exact ⟨rfl, .inl rfl⟩
    · rw [hresult] at h
      obtain ⟨hdual, hcoefficient⟩ := ih (hexact.after [(k.regularized primal dual).matrix]) h
      refine ⟨hdual, .inr ?_⟩
      rcases hcoefficient with heq | hlater
      · have htrue := truthful_regularized hexact primal dual []
        exact ⟨primal, not_asExpected_of_retried hinertia htrue hretried, heq⟩
      · exact hlater
    · rw [hresult] at h
      cases h

theorem coefficient_of_factorize (hinertia : s.computeInertia = true)
    (hexact : LinearSolver.ReportsExactly k.matrix solver)
    (h : (k.factorize s solver).result = .ok reg) :
    reg.coefficient = 0 ∨ reg.coefficient = s.initialCoefficient ∨
      ∃ d, ¬ k.AsExpected d reg.dualCoefficient ∧ reg.coefficient = d * s.growthFactor := by
  have hanswer : LinearSolver.factorize k.matrix solver = (_, _) := rfl
  rcases factorize_cases k s hanswer with
    ⟨inertia, -, -, hresult, -⟩ | ⟨-, hretry⟩ | ⟨e, -, -, hresult, -⟩
  · rw [hresult] at h
    cases h
    exact .inl rfl
  · rw [hretry] at h
    obtain ⟨hdual, hcoefficient⟩ := coefficient_of_retry hinertia (hexact.after [k.matrix]) h
    rw [hdual]
    exact .inr hcoefficient
  · rw [hresult] at h
    cases h

end Search

end KktSystem

namespace DenseSolver

theorem exists_after {α : Type} [Scalar α] (s : DenseSolver α) (asked : List (Csc α)) :
    ∃ factors inertia, LinearSolver.after s asked = { s with factors, inertia } := by
  induction asked generalizing s with
  | nil => exact ⟨s.factors, s.inertia, rfl⟩
  | cons a asked ih =>
    have hstep : ∃ factors inertia, (s.factorize a).2 = { s with factors, inertia } := by
      unfold factorize
      split
      · exact ⟨none, none, rfl⟩
      · simp only
        split
        · exact ⟨_, _, rfl⟩
        · exact ⟨none, none, rfl⟩
    obtain ⟨factors, inertia, hstep⟩ := hstep
    obtain ⟨factors', inertia', hafter⟩ := ih (s.factorize a).2
    rw [hstep] at hafter
    exact ⟨factors', inertia', (congrArg (LinearSolver.after · asked) hstep).trans hafter⟩

section Single

def singleMatrix (v : Exact ℚ) : Csc (Exact ℚ) := ⟨1, 1, #[0, 1], #[0], #[v]⟩

theorem checkInput_single (v : Exact ℚ) : LinearSolver.checkInput (singleMatrix v) = .ok () := by
  have hformat : (singleMatrix v).checkFormat = .ok () :=
    Csc.checkFormat_eq_ok.mpr ⟨rfl, rfl, rfl, rfl, rfl, by simp [singleMatrix]⟩
  have hupper : (singleMatrix v).isUpper? = some true := rfl
  have hfinite : Vec.allFinite (singleMatrix v).values = true :=
    Array.all_eq_true.mpr fun _ _ => ExactScalar.isFinite_eq _
  unfold LinearSolver.checkInput
  rw [hformat, hupper, hfinite]
  rfl

theorem decompose_single (v : Exact ℚ) :
    (BlockLdl.decompose (singleMatrix v).toSymmetric).diag = [v] ∧
      (BlockLdl.decompose (singleMatrix v).toSymmetric).subdiag = [0] := by
  have hchoose : BlockLdl.choose (singleMatrix v).toSymmetric = (false, 0) := by
    unfold BlockLdl.choose
    exact if_pos (Or.inl rfl)
  constructor
  · show (BlockLdl.blocks (BlockLdl.factor 1 _)).flatMap Block.diag = _
    rw [BlockLdl.factor, hchoose]
    rfl
  · show (BlockLdl.blocks (BlockLdl.factor 1 _)).flatMap Block.subdiag = _
    rw [BlockLdl.factor, hchoose]
    rfl

theorem threshold_zero (a : Csc (Exact ℚ)) : threshold 0 a = 0 := by
  have hepsilon : (Scalar.epsilon : Exact ℚ) = 0 := rfl
  rw [threshold, hepsilon, mul_zero, zero_mul, OrderedScalar.max_eq, max_self]

theorem factorize_single (v : Exact ℚ) (factors : Option (DenseFactors (Exact ℚ)))
    (inertia : Option Inertia) :
    ((⟨0, factors, inertia⟩ : DenseSolver (Exact ℚ)).factorize (singleMatrix v)).1 =
      .ok (Inertia.zero.count 0 v) := by
  unfold factorize
  rw [checkInput_single]
  simp only [Decomposer.decompose, decompose_single, threshold_zero]
  rfl

theorem symmetricMatrix_single (v : Exact ℚ) :
    (singleMatrix v).symmetricMatrix = Matrix.diagonal fun _ => v := by
  have hentry : ∀ i j : Fin 1, (singleMatrix v).symmetricAt i j = v := by
    intro i j
    obtain rfl : i = 0 := Subsingleton.elim _ _
    obtain rfl : j = 0 := Subsingleton.elim _ _
    exact add_zero v
  ext1 i j
  obtain rfl : i = j := Subsingleton.elim (α := Fin 1) i j
  rw [Matrix.diagonal_apply_eq]
  exact hentry i i

theorem isInertia_single (v : Exact ℚ) : (singleMatrix v).IsInertia (Inertia.zero.count 0 v) := by
  have hinertia := hasInertia_of_congruent (S := (singleMatrix v).symmetricMatrix)
    (U := 1) (d := fun _ => v) (σ := 1) (by simp) (by rw [symmetricMatrix_single]; simp)
  have hcount : ∀ (p : Prop) [Decidable p],
      (Finset.univ.filter fun _ : Fin (singleMatrix v).rows => p).card = if p then 1 else 0 := by
    intro p _
    rw [Finset.filter_const]
    split <;> rfl
  rw [hcount, hcount] at hinertia
  have habs : Scalar.abs v = |v| := ExactScalar.abs_eq v
  have hle : Scalar.le (Scalar.abs v) 0 = true ↔ v = 0 := by
    rw [OrderedScalar.le_iff, habs, abs_nonpos_iff]
  unfold Inertia.count
  rcases lt_trichotomy v 0 with hv | hv | hv
  · rw [if_neg (fun h => hv.ne (hle.mp h)), if_neg (by simpa [OrderedScalar.lt_iff] using hv.le)]
    rw [if_neg hv.not_gt, if_pos hv] at hinertia
    exact ⟨hinertia, rfl⟩
  · rw [if_pos (hle.mpr hv)]
    rw [if_neg hv.not_gt, if_neg hv.not_lt] at hinertia
    exact ⟨hinertia, rfl⟩
  · rw [if_neg (fun h => hv.ne' (hle.mp h)), if_pos (OrderedScalar.lt_iff.mpr hv)]
    rw [if_pos hv, if_neg hv.not_gt] at hinertia
    exact ⟨hinertia, rfl⟩

theorem reportsExactly_single (v : Exact ℚ) :
    LinearSolver.ReportsExactly (singleMatrix v) (new (0 : Exact ℚ)) := by
  intro asked values hsize
  obtain ⟨w, rfl⟩ : ∃ w, values = #[w] := Array.size_eq_one_iff.mp hsize
  obtain ⟨factors, inertia, hafter⟩ := exists_after (new (0 : Exact ℚ)) asked
  show LinearSolver.Truthful (singleMatrix w) (LinearSolver.factorize (singleMatrix w)
    (LinearSolver.after (new (0 : Exact ℚ)) asked)).1
  rw [hafter]
  show LinearSolver.Truthful (singleMatrix w)
    ((⟨0, factors, inertia⟩ : DenseSolver (Exact ℚ)).factorize (singleMatrix w)).1
  rw [factorize_single]
  exact isInertia_single w

end Single

end DenseSolver

namespace KktBlocks

variable {K : Type} [LinearOrder K] [ExactScalar K] [IsStrictOrderedRing K] {b : KktBlocks K}
  {k : KktSystem K}

/-- The search for a coefficient is monotone. If a shift of the variables gives the expected inertia
then every larger one does. With true answers, the coefficients that are acceptable are those; all
that come after one in the order of the search are acceptable as well, and nothing but breakdowns
keeps a solver from saying so. A coefficient that is returned is not changed at all, the first one,
or smaller than `growthFactor` times any that gives the expected inertia. -/
theorem search_monotone (hb : b.WellFormed) {rhs : Array K} {barrier : K}
    (hk : b.assemble? rhs barrier = some k) :
    (∀ dual primal primal' : K, 0 ≤ dual → primal < primal' → k.AsExpected primal dual →
      k.AsExpected primal' dual) ∧
    ∀ {σ : Type} [LinearSolver σ K] (solver : σ) (s : RegularizationSettings K),
      LinearSolver.ReportsExactly k.matrix solver → s.computeInertia = true →
      0 < s.initialCoefficient → 1 < s.growthFactor →
      (∀ (primal dual : K) (asked : List (Csc K)) (i : Inertia),
        (LinearSolver.factorize (k.regularized primal dual).matrix
          (LinearSolver.after solver asked)).1 = .ok i →
        (s.Acceptable k.expectedInertia i ↔ k.AsExpected primal dual)) ∧
      (∀ (dual : K) (i j : Nat), 0 ≤ dual → i ≤ j → k.AsExpected (s.coefficient i) dual →
        k.AsExpected (s.coefficient j) dual ∧ ∀ asked, ¬ s.Retried k.expectedInertia
          (LinearSolver.factorize (k.regularized (s.coefficient j) dual).matrix
            (LinearSolver.after solver asked)).1) ∧
      ∀ reg, (k.factorize s solver).result = .ok reg → 0 ≤ reg.dualCoefficient →
        reg.coefficient = 0 ∨ reg.coefficient = s.initialCoefficient ∨
          ∀ primal, k.AsExpected primal reg.dualCoefficient →
            reg.coefficient < s.growthFactor * primal := by
  have hsound : b.Sound k := ⟨hb.hessian.inRange, hb.jacEq.inRange, hb.jacIneq.inRange, _, _, hk⟩
  refine ⟨fun dual primal primal' hdual hlt => asExpected_of_le hsound hdual hlt.le, ?_⟩
  intro σ _ solver s hexact hinertia hinitial hgrowth
  refine ⟨?_, ?_, ?_⟩
  · intro primal dual asked i hanswer
    have htrue := KktSystem.truthful_regularized hexact primal dual asked
    rw [hanswer] at htrue
    exact KktSystem.acceptable_iff hinertia htrue
  · intro dual i j hdual hij hexpected
    have hle := RegularizationSettings.coefficient_monotone hinitial hgrowth hij
    have hlater := asExpected_of_le hsound hdual hle hexpected
    refine ⟨hlater, fun asked hretried => ?_⟩
    have htrue := KktSystem.truthful_regularized hexact (s.coefficient j) dual asked
    exact KktSystem.not_asExpected_of_retried hinertia htrue hretried hlater
  · intro reg hreg hdual
    rcases KktSystem.coefficient_of_factorize hinertia hexact hreg with
      hzero | hfirst | ⟨d, hfailed, heq⟩
    · exact .inl hzero
    · exact .inr (.inl hfirst)
    · refine .inr (.inr fun primal hexpected => ?_)
      have hlt : d < primal := by
        by_contra hle
        exact hfailed (asExpected_of_le hsound hdual (not_lt.mp hle) hexpected)
      rw [heq, mul_comm]
      exact mul_lt_mul_of_pos_left hlt (zero_lt_one.trans hgrowth)

section Concave

def concaveBlocks : KktBlocks (Exact ℚ) where
  hessian := ⟨1, 1, #[0, 1], #[0], #[-1]⟩
  jacEq := ⟨0, 1, #[0, 0], #[], #[]⟩
  jacIneq := ⟨0, 1, #[0, 0], #[], #[]⟩
  sigmaX := #[0]
  sigmaS := #[]

theorem concaveBlocks_wellFormed : concaveBlocks.WellFormed where
  consistent := rfl
  hessian := Csc.complete_of_checkFormat (by decide +kernel)
  jacEq := Csc.complete_of_checkFormat (by decide +kernel)
  jacIneq := Csc.complete_of_checkFormat (by decide +kernel)

theorem assemble?_concave : concaveBlocks.assemble? #[1] 1 = some KktSystem.concaveSystem := by
  have htriplets : concaveBlocks.triplets? = some [⟨0, 0, -1⟩, ⟨0, 0, 0⟩] := rfl
  have hsort : ([⟨0, 0, -1⟩, ⟨0, 0, 0⟩] : List (Triplet (Exact ℚ))).mergeSort Triplet.before =
      [⟨0, 0, -1⟩, ⟨0, 0, 0⟩] := by
    simp [List.mergeSort, List.MergeSort.Internal.splitInTwo, Triplet.before]
  have hmatrix : Csc.ofTriplets 1 1 ([⟨0, 0, -1⟩, ⟨0, 0, 0⟩] : List (Triplet (Exact ℚ))) =
      ⟨1, 1, #[0, 1], #[0], #[-1]⟩ := by
    rw [Csc.ofTriplets, hsort, Csc.mk.injEq]
    decide +kernel
  rw [concaveBlocks_wellFormed.assemble?_eq rfl 1 htriplets, Option.some.injEq,
    KktSystem.concaveSystem, KktSystem.mk.injEq]
  exact ⟨hmatrix, rfl, rfl, rfl, rfl, rfl⟩

/-- The default settings try coefficients up to a hundred, the first one beyond the curvature. -/
theorem search_monotone_concave : concaveBlocks.WellFormed ∧
    concaveBlocks.assemble? #[1] 1 = some KktSystem.concaveSystem ∧
    LinearSolver.ReportsExactly KktSystem.concaveSystem.matrix (DenseSolver.new (0 : Exact ℚ)) ∧
    ∃ reg, (KktSystem.concaveSystem.factorize .default (DenseSolver.new (0 : Exact ℚ))).result =
        .ok reg ∧ reg.coefficient = 100 ∧ reg.dualCoefficient = 0 ∧
      ∀ primal, KktSystem.concaveSystem.AsExpected primal 0 → 1 < primal := by
  have hrun : ((KktSystem.concaveSystem.factorize .default
      (DenseSolver.new (0 : Exact ℚ))).result.toOption.any fun reg =>
        decide (reg.coefficient = 100 ∧ reg.dualCoefficient = 0)) = true := by
    decide +kernel
  have hexact : LinearSolver.ReportsExactly KktSystem.concaveSystem.matrix
      (DenseSolver.new (0 : Exact ℚ)) := DenseSolver.reportsExactly_single (-1)
  have hsearch := (search_monotone concaveBlocks_wellFormed assemble?_concave).2
    (DenseSolver.new (0 : Exact ℚ)) .default hexact rfl (by decide +kernel) (by decide +kernel)
  refine ⟨concaveBlocks_wellFormed, assemble?_concave, hexact, ?_⟩
  cases hresult : (KktSystem.concaveSystem.factorize .default
      (DenseSolver.new (0 : Exact ℚ))).result with
  | error e =>
    rw [hresult] at hrun
    cases hrun
  | ok reg =>
    rw [hresult] at hrun
    obtain ⟨hcoefficient, hdual⟩ := of_decide_eq_true hrun
    refine ⟨reg, rfl, hcoefficient, hdual, fun primal hexpected => ?_⟩
    have hbound := hsearch.2.2 reg hresult hdual.ge
    rw [hcoefficient, hdual] at hbound
    rcases hbound with hzero | hfirst | hless
    · exact absurd hzero (by decide +kernel)
    · exact absurd hfirst (by decide +kernel)
    · have hlt : (100 : Exact ℚ) < 100.0 * primal := hless primal hexpected
      have hgrowth : (100.0 : Exact ℚ) = 100 := by decide +kernel
      have hpos : (0 : Exact ℚ) < 100 := by decide +kernel
      rw [hgrowth] at hlt
      exact (lt_mul_iff_one_lt_right hpos).mp hlt

end Concave

end KktBlocks

end NonlinearOpt
