import Mathlib
import NonlinearOpt.Ordering.MinimumDegree
import NonlinearOpt.Proofs.Kkt.Assembly
import NonlinearOpt.Proofs.Kkt.Attempts
import NonlinearOpt.Proofs.LinearSolver.Reported

namespace NonlinearOpt

namespace KktSystem

section Attempts

variable {α σ : Type} [Scalar α] [LinearSolver σ α] {k : KktSystem α}
  {s : RegularizationSettings α} {reg : Regularization α}

omit [Scalar α] in
theorem size_shift (k : KktSystem α) (cols : List Nat) (f : α → α) (values : Array α) :
    (k.shift cols f values).size = values.size := by
  unfold shift
  induction cols generalizing values with
  | nil => rfl
  | cons c cols ih => rw [List.foldl_cons, ih, Array.size_modify]

theorem exists_values (k : KktSystem α) (primal dual : α) :
    ∃ values, values.size = k.matrix.values.size ∧
      (k.regularized primal dual).matrix = { k.matrix with values } :=
  ⟨_, (size_shift ..).trans (size_shift ..), rfl⟩

def Answered (solver : σ) (reg : Regularization α) : Prop :=
  ∃ asked, (LinearSolver.factorize reg.system.matrix (LinearSolver.after solver asked)).1 =
    .ok reg.inertia

def Leaves (solver : σ) (reg : Regularization α) (next : σ) : Prop :=
  ∃ asked, LinearSolver.factorize reg.system.matrix (LinearSolver.after solver asked) =
    (.ok reg.inertia, next)

omit [Scalar α] in
theorem Leaves.answered {solver next : σ} (h : Leaves solver reg next) : Answered solver reg := by
  obtain ⟨asked, hasked⟩ := h
  exact ⟨asked, congrArg Prod.fst hasked⟩

omit [Scalar α] in
theorem Leaves.before {solver next : σ} {a : Csc α}
    (h : Leaves (LinearSolver.factorize a solver).2 reg next) : Leaves solver reg next := by
  obtain ⟨asked, hasked⟩ := h
  exact ⟨a :: asked, hasked⟩

theorem leaves_of_retry {dual primal : α} {fuel : Nat} {last : Option Inertia} {solver : σ}
    (h : (k.retry s dual fuel primal last solver).result = .ok reg) :
    Leaves solver reg (k.retry s dual fuel primal last solver).solver ∧
      s.Acceptable k.expectedInertia reg.inertia ∧
        reg.system = k.regularized reg.coefficient dual := by
  induction fuel generalizing primal last solver with
  | zero => cases h
  | succ fuel ih =>
    have hanswer : LinearSolver.factorize (k.regularized primal dual).matrix solver = (_, _) := rfl
    rcases retry_succ_cases k s dual primal fuel last hanswer with
      ⟨inertia, hok, hacceptable, hresult, hsolver⟩ | ⟨-, hresult, hsolver⟩ |
        ⟨e, -, -, hresult, -⟩
    · rw [hresult] at h
      cases h
      rw [hsolver]
      exact ⟨⟨[], Prod.ext hok rfl⟩, hacceptable, rfl⟩
    · rw [hresult] at h
      rw [hsolver]
      obtain ⟨hleaves, hrest⟩ := ih h
      exact ⟨hleaves.before, hrest⟩
    · rw [hresult] at h
      cases h

/-- An accepted system was factored last. It is the given one or a shifted one, whose duals are not
shifted or by the coefficient of the settings. -/
theorem accepted_of_factorize {solver : σ} (h : (k.factorize s solver).result = .ok reg) :
    Leaves solver reg (k.factorize s solver).solver ∧
      s.Acceptable k.expectedInertia reg.inertia ∧
        (reg.coefficient = 0 ∧ reg.system = k ∨
          ∃ dual, (dual = 0 ∨ dual = s.dualCoefficient k.barrier) ∧
            reg.system = k.regularized reg.coefficient dual) := by
  have hanswer : LinearSolver.factorize k.matrix solver = (_, _) := rfl
  rcases factorize_cases k s hanswer with
    ⟨inertia, hok, hacceptable, hresult, hsolver⟩ | ⟨-, hretry⟩ | ⟨e, -, -, hresult, -⟩
  · rw [hresult] at h
    cases h
    rw [hsolver]
    exact ⟨⟨[], Prod.ext hok rfl⟩, hacceptable, .inl ⟨rfl, rfl⟩⟩
  · rw [hretry] at h ⊢
    obtain ⟨hleaves, hacceptable, hsystem⟩ := leaves_of_retry h
    refine ⟨hleaves.before, hacceptable, .inr ⟨_, ?_, hsystem⟩⟩
    unfold RegularizationSettings.dualAfter
    split
    · split
      · exact .inr rfl
      · exact .inl rfl
    · exact .inr rfl
  · rw [hresult] at h
    cases h

end Attempts

section Accepted

variable {K σ : Type} [LinearOrder K] [ExactScalar K] [LinearSolver σ K] {k : KktSystem K}
  {s : RegularizationSettings K} {reg : Regularization K} {solver : σ}

theorem leaves_of_factorize (h : (k.factorize s solver).result = .ok reg) :
    Leaves solver reg (k.factorize s solver).solver ∧
      s.Acceptable k.expectedInertia reg.inertia ∧
        ∃ dual, (dual = 0 ∨ dual = s.dualCoefficient k.barrier) ∧
          reg.system = k.regularized reg.coefficient dual := by
  obtain ⟨hleaves, hacceptable, ⟨hcoefficient, hsystem⟩ | hshifted⟩ := accepted_of_factorize h
  · refine ⟨hleaves, hacceptable, 0, .inl rfl, ?_⟩
    rw [hsystem, hcoefficient, regularized_zero]
  · exact ⟨hleaves, hacceptable, hshifted⟩

theorem answered_of_factorize (h : (k.factorize s solver).result = .ok reg) :
    Answered solver reg ∧ s.Acceptable k.expectedInertia reg.inertia ∧
      ∃ dual, (dual = 0 ∨ dual = s.dualCoefficient k.barrier) ∧
        reg.system = k.regularized reg.coefficient dual := by
  obtain ⟨hleaves, hrest⟩ := leaves_of_factorize h
  exact ⟨hleaves.answered, hrest⟩

end Accepted

end KktSystem

namespace KktBlocks

variable {K : Type} [LinearOrder K] [ExactScalar K] {b : KktBlocks K} {k : KktSystem K}

section Form

def curvature (b : KktBlocks K) (primal : K) (v : Nat → K) : K :=
  ∑ i ∈ Finset.range b.primals, v i * (∑ j ∈ Finset.range b.primals,
      b.hessian.symmetricAt i j * v j + b.sigmaX.getD i 0 * v i + primal * v i) +
    ∑ s ∈ Finset.range b.inequalities,
      v (b.primals + s) * (b.sigmaS.getD s 0 * v (b.primals + s))

structure Tangent (b : KktBlocks K) (v : Nat → K) : Prop where
  equalities : ∀ r, r < b.equalities →
    ∑ c ∈ Finset.range b.primals, b.jacEq.entryAt r c * v c = 0
  inequalities : ∀ r, r < b.inequalities →
    ∑ c ∈ Finset.range b.primals, b.jacIneq.entryAt r c * v c = v (b.primals + r)

theorem sum_beside (m n offset : Nat) (f : Nat → Nat → K) (v : Nat → K) :
    ∑ i ∈ Finset.range n, v i * ∑ r ∈ Finset.range m, f r i * v (offset + r) =
      ∑ r ∈ Finset.range m, v (offset + r) * ∑ i ∈ Finset.range n, f r i * v i := by
  simp only [Finset.mul_sum]
  rw [Finset.sum_comm]
  apply Finset.sum_congr rfl
  intro r _
  apply Finset.sum_congr rfl
  intro i _
  ring

theorem sum_dim (f : Nat → K) : ∑ i ∈ Finset.range b.dim, f i =
    ∑ i ∈ Finset.range b.primals, f i + ∑ s ∈ Finset.range b.inequalities, f (b.primals + s) +
      ∑ r ∈ Finset.range b.equalities, f (b.dualOffset + r) +
      ∑ r ∈ Finset.range b.inequalities, f (b.ineqOffset + r) := by
  rw [dim, Finset.sum_range_add, ineqOffset, Finset.sum_range_add, dualOffset,
    Finset.sum_range_add]

section Parts

variable (h : b.Sound k) (primal dual : K) {v : Nat → K}
include h

theorem form_primals (hv : b.Tangent v) :
    ∑ i ∈ Finset.range b.primals, v i * ∑ j ∈ Finset.range b.dim,
        (k.regularized primal dual).matrix.symmetricAt i j * v j =
      ∑ i ∈ Finset.range b.primals, v i * (∑ j ∈ Finset.range b.primals,
          b.hessian.symmetricAt i j * v j + b.sigmaX.getD i 0 * v i + primal * v i) +
        ∑ r ∈ Finset.range b.inequalities, v (b.ineqOffset + r) * v (b.primals + r) := by
  have hequalities : ∑ r ∈ Finset.range b.equalities, v (b.dualOffset + r) *
      ∑ i ∈ Finset.range b.primals, b.jacEq.entryAt r i * v i = 0 := by
    apply Finset.sum_eq_zero
    intro r hr
    rw [hv.equalities r (Finset.mem_range.mp hr), mul_zero]
  have hinequalities : ∑ r ∈ Finset.range b.inequalities, v (b.ineqOffset + r) *
      ∑ i ∈ Finset.range b.primals, b.jacIneq.entryAt r i * v i =
      ∑ r ∈ Finset.range b.inequalities, v (b.ineqOffset + r) * v (b.primals + r) := by
    apply Finset.sum_congr rfl
    intro r hr
    rw [hv.inequalities r (Finset.mem_range.mp hr)]
  rw [← sum_beside] at hequalities hinequalities
  have hrow : ∀ i ∈ Finset.range b.primals, v i * ∑ j ∈ Finset.range b.dim,
      (k.regularized primal dual).matrix.symmetricAt i j * v j =
      v i * (∑ j ∈ Finset.range b.primals, b.hessian.symmetricAt i j * v j +
          b.sigmaX.getD i 0 * v i + primal * v i) +
        v i * ∑ r ∈ Finset.range b.equalities, b.jacEq.entryAt r i * v (b.dualOffset + r) +
        v i * ∑ r ∈ Finset.range b.inequalities,
          b.jacIneq.entryAt r i * v (b.ineqOffset + r) := by
    intro i hi
    rw [row_primal h primal dual (Finset.mem_range.mp hi)]
    ring
  rw [Finset.sum_congr rfl hrow, Finset.sum_add_distrib, Finset.sum_add_distrib, hequalities,
    hinequalities, add_zero]

theorem form_slacks :
    ∑ s ∈ Finset.range b.inequalities, v (b.primals + s) * ∑ j ∈ Finset.range b.dim,
        (k.regularized primal dual).matrix.symmetricAt (b.primals + s) j * v j =
      ∑ s ∈ Finset.range b.inequalities,
          v (b.primals + s) * (b.sigmaS.getD s 0 * v (b.primals + s)) -
        ∑ s ∈ Finset.range b.inequalities, v (b.ineqOffset + s) * v (b.primals + s) := by
  rw [← Finset.sum_sub_distrib]
  apply Finset.sum_congr rfl
  intro s hs
  rw [row_slack h primal dual (Finset.mem_range.mp hs)]
  ring

theorem form_equalities (hv : b.Tangent v) :
    ∑ r ∈ Finset.range b.equalities, v (b.dualOffset + r) * ∑ j ∈ Finset.range b.dim,
        (k.regularized primal dual).matrix.symmetricAt (b.dualOffset + r) j * v j =
      -dual * ∑ r ∈ Finset.range b.equalities, v (b.dualOffset + r) * v (b.dualOffset + r) := by
  rw [Finset.mul_sum]
  apply Finset.sum_congr rfl
  intro r hr
  have hr := Finset.mem_range.mp hr
  rw [row_equality h primal dual hr, hv.equalities r hr]
  ring

theorem form_inequalities (hv : b.Tangent v) :
    ∑ r ∈ Finset.range b.inequalities, v (b.ineqOffset + r) * ∑ j ∈ Finset.range b.dim,
        (k.regularized primal dual).matrix.symmetricAt (b.ineqOffset + r) j * v j =
      -dual * ∑ r ∈ Finset.range b.inequalities, v (b.ineqOffset + r) * v (b.ineqOffset + r) := by
  rw [Finset.mul_sum]
  apply Finset.sum_congr rfl
  intro r hr
  have hr := Finset.mem_range.mp hr
  rw [row_inequality h primal dual hr, hv.inequalities r hr]
  ring

/-- Along the constraints, the quadratic form of the system is the curvature, less a part for a
shift of the duals. The slacks take out what the inequalities add to the variables. -/
theorem form_eq_curvature (hv : b.Tangent v) :
    ∑ i ∈ Finset.range b.dim, v i * ∑ j ∈ Finset.range b.dim,
        (k.regularized primal dual).matrix.symmetricAt i j * v j =
      b.curvature primal v - dual * (
        ∑ r ∈ Finset.range b.equalities, v (b.dualOffset + r) * v (b.dualOffset + r) +
        ∑ r ∈ Finset.range b.inequalities, v (b.ineqOffset + r) * v (b.ineqOffset + r)) := by
  rw [sum_dim, form_primals h primal dual hv, form_slacks h, form_equalities h primal dual hv,
    form_inequalities h primal dual hv, curvature]
  ring

end Parts

def stacked (b : KktBlocks K) (u : Nat → K) (t : K) (w : Nat → K) (i : Nat) : K :=
  if i < b.dualOffset then t * u i else w (i - b.dualOffset)

variable {u w : Nat → K} {t : K}

theorem stacked_primal {i : Nat} (hi : i < b.primals) : b.stacked u t w i = t * u i :=
  if_pos (Nat.lt_of_lt_of_le hi primals_le_dualOffset)

theorem stacked_slack {s : Nat} (hs : s < b.inequalities) :
    b.stacked u t w (b.primals + s) = t * u (b.primals + s) :=
  if_pos (Nat.add_lt_add_left hs _)

theorem Tangent.stacked (h : b.Tangent u) (t : K) (w : Nat → K) : b.Tangent (b.stacked u t w) := by
  have hsum : ∀ f : Nat → K, ∑ c ∈ Finset.range b.primals, f c * b.stacked u t w c =
      t * ∑ c ∈ Finset.range b.primals, f c * u c := by
    intro f
    rw [Finset.mul_sum]
    apply Finset.sum_congr rfl
    intro c hc
    rw [stacked_primal (Finset.mem_range.mp hc)]
    ring
  constructor
  · intro r hr
    rw [hsum, h.equalities r hr, mul_zero]
  · intro r hr
    rw [hsum, h.inequalities r hr, stacked_slack hr]

theorem curvature_stacked (primal : K) :
    b.curvature primal (b.stacked u t w) = t * t * b.curvature primal u := by
  unfold curvature
  rw [mul_add, Finset.mul_sum, Finset.mul_sum]
  congr 1
  · apply Finset.sum_congr rfl
    intro i hi
    have hrow : ∑ j ∈ Finset.range b.primals, b.hessian.symmetricAt i j * b.stacked u t w j =
        t * ∑ j ∈ Finset.range b.primals, b.hessian.symmetricAt i j * u j := by
      rw [Finset.mul_sum]
      apply Finset.sum_congr rfl
      intro j hj
      rw [stacked_primal (Finset.mem_range.mp hj)]
      ring
    rw [hrow, stacked_primal (Finset.mem_range.mp hi)]
    ring
  · apply Finset.sum_congr rfl
    intro s hs
    rw [stacked_slack (Finset.mem_range.mp hs)]
    ring

end Form

section Directions

def hessianMatrix (b : KktBlocks K) : Matrix (Fin b.primals) (Fin b.primals) K :=
  Matrix.of fun i j => b.hessian.symmetricAt i j

def jacEqMatrix (b : KktBlocks K) : Matrix (Fin b.equalities) (Fin b.primals) K :=
  Matrix.of fun r c => b.jacEq.entryAt r c

def jacIneqMatrix (b : KktBlocks K) : Matrix (Fin b.inequalities) (Fin b.primals) K :=
  Matrix.of fun r c => b.jacIneq.entryAt r c

def sigmaXMatrix (b : KktBlocks K) : Matrix (Fin b.primals) (Fin b.primals) K :=
  Matrix.diagonal fun i => b.sigmaX.getD i 0

def sigmaSMatrix (b : KktBlocks K) : Matrix (Fin b.inequalities) (Fin b.inequalities) K :=
  Matrix.diagonal fun s => b.sigmaS.getD s 0

/-- The Hessian, with the given number added to its diagonal, is positive definite on the null space
of the constraint Jacobian. -/
def PosDefAlong (b : KktBlocks K) (primal : K) : Prop :=
  ∀ (dx : Fin b.primals → K) (ds : Fin b.inequalities → K), (dx ≠ 0 ∨ ds ≠ 0) →
    b.jacEqMatrix.mulVec dx = 0 → b.jacIneqMatrix.mulVec dx = ds →
      0 < dx ⬝ᵥ (b.hessianMatrix + b.sigmaXMatrix + primal • (1 : Matrix _ _ K)).mulVec dx +
        ds ⬝ᵥ b.sigmaSMatrix.mulVec ds

def extend {n : Nat} (x : Fin n → K) (i : Nat) : K := if h : i < n then x ⟨i, h⟩ else 0

theorem extend_val {n : Nat} (x : Fin n → K) (i : Fin n) : extend x i = x i := dif_pos i.isLt

def direction (b : KktBlocks K) (dx : Fin b.primals → K) (ds : Fin b.inequalities → K) (i : Nat) :
    K :=
  if i < b.primals then extend dx i else extend ds (i - b.primals)

variable {dx : Fin b.primals → K} {ds : Fin b.inequalities → K}

theorem direction_primal (i : Fin b.primals) : b.direction dx ds i = dx i := by
  rw [direction, if_pos i.isLt, extend_val]

theorem direction_slack (s : Fin b.inequalities) : b.direction dx ds (b.primals + s) = ds s := by
  rw [direction, if_neg (Nat.not_lt.mpr (Nat.le_add_right _ _)), Nat.add_sub_cancel_left,
    extend_val]

theorem tangent_direction (hequalities : b.jacEqMatrix.mulVec dx = 0)
    (hinequalities : b.jacIneqMatrix.mulVec dx = ds) : b.Tangent (b.direction dx ds) := by
  constructor
  · intro r hr
    have hrow := congrFun hequalities ⟨r, hr⟩
    simp only [Finset.sum_range, direction_primal]
    exact hrow
  · intro r hr
    have hrow := congrFun hinequalities ⟨r, hr⟩
    simp only [Finset.sum_range, direction_primal]
    exact hrow.trans (direction_slack ⟨r, hr⟩).symm

theorem curvature_direction (primal : K) : b.curvature primal (b.direction dx ds) =
    dx ⬝ᵥ (b.hessianMatrix + b.sigmaXMatrix + primal • (1 : Matrix _ _ K)).mulVec dx +
      ds ⬝ᵥ b.sigmaSMatrix.mulVec ds := by
  simp only [curvature, Finset.sum_range, direction_primal, direction_slack, sigmaXMatrix,
    sigmaSMatrix, Matrix.add_mulVec, Matrix.smul_mulVec, Matrix.one_mulVec, dotProduct,
    Matrix.mulVec_diagonal, Pi.add_apply, Pi.smul_apply, smul_eq_mul]
  rfl

end Directions

section Counting

def stackMap (b : KktBlocks K) (u : Nat → K) (n : Nat) :
    (K × (Fin (b.equalities + b.inequalities) → K)) →ₗ[K] (Fin n → K) where
  toFun p i := b.stacked u p.1 (extend p.2) i
  map_add' p q := by
    funext i
    simp only [stacked, extend, Prod.fst_add, Prod.snd_add, Pi.add_apply]
    split_ifs <;> ring
  map_smul' c p := by
    funext i
    simp only [stacked, extend, Prod.smul_fst, Prod.smul_snd, Pi.smul_apply, smul_eq_mul,
      RingHom.id_apply]
    split_ifs <;> ring

omit [LinearOrder K] [ExactScalar K] in
theorem dim_eq_add : b.dim = b.dualOffset + (b.equalities + b.inequalities) := by
  rw [dim, ineqOffset, Nat.add_assoc]

theorem stackMap_dual {u : Nat → K} {n : Nat} (hn : n = b.dim) (t : K)
    (w : Fin (b.equalities + b.inequalities) → K) (r : Fin (b.equalities + b.inequalities)) :
    b.stackMap u n (t, w) ⟨b.dualOffset + r, by rw [hn, dim_eq_add]; omega⟩ = w r := by
  rw [stackMap, LinearMap.coe_mk, AddHom.coe_mk, stacked, if_neg (by simp),
    Nat.add_sub_cancel_left, extend_val]

theorem stackMap_injective {u : Nat → K} {n : Nat} (hn : n = b.dim)
    (hu : ∃ i, i < b.dualOffset ∧ u i ≠ 0) : Function.Injective (b.stackMap u n) := by
  have hdim : b.dim = b.dualOffset + (b.equalities + b.inequalities) := dim_eq_add
  rw [injective_iff_map_eq_zero]
  rintro ⟨t, w⟩ hzero
  obtain ⟨i, hi, hui⟩ := hu
  have ht : t * u i = 0 := by
    have hrow := congrFun hzero ⟨i, by omega⟩
    rwa [stackMap, LinearMap.coe_mk, AddHom.coe_mk, stacked, if_pos hi] at hrow
  have hw : ∀ r, w r = 0 := by
    intro r
    rw [← stackMap_dual hn t w r, hzero]
    rfl
  rw [Prod.mk_eq_zero]
  exact ⟨(mul_eq_zero.mp ht).resolve_right hui, funext hw⟩

theorem finrank_stackMap {u : Nat → K} {n : Nat} (hn : n = b.dim)
    (hu : ∃ i, i < b.dualOffset ∧ u i ≠ 0) :
    Module.finrank K (LinearMap.range (b.stackMap u n)) = 1 + (b.equalities + b.inequalities) := by
  rw [LinearMap.finrank_range_of_inj (stackMap_injective hn hu), Module.finrank_prod,
    Module.finrank_self, Module.finrank_fin_fun]

variable [IsStrictOrderedRing K]

/-- The form of a system with shifted duals is not positive where the curvature is not. -/
theorem form_stackMap_le (h : b.Sound k) {primal dual : K} (hdual : 0 ≤ dual) {u : Nat → K}
    (hu : b.Tangent u) (hcurvature : b.curvature primal u ≤ 0)
    (hrows : (k.regularized primal dual).matrix.rows = b.dim)
    {x : Fin (k.regularized primal dual).matrix.rows → K}
    (hx : x ∈ LinearMap.range (b.stackMap u _)) :
    x ⬝ᵥ (k.regularized primal dual).matrix.symmetricMatrix.mulVec x ≤ 0 := by
  obtain ⟨⟨t, w⟩, rfl⟩ := hx
  have hform : b.stackMap u _ (t, w) ⬝ᵥ
      (k.regularized primal dual).matrix.symmetricMatrix.mulVec (b.stackMap u _ (t, w)) =
      ∑ i ∈ Finset.range b.dim, b.stacked u t (extend w) i * ∑ j ∈ Finset.range b.dim,
        (k.regularized primal dual).matrix.symmetricAt i j * b.stacked u t (extend w) j := by
    rw [← hrows]
    simp only [Finset.sum_range]
    rfl
  have hsquares : ∀ (m offset : Nat) (v : Nat → K),
      0 ≤ ∑ r ∈ Finset.range m, v (offset + r) * v (offset + r) := by
    intro m offset v
    exact Finset.sum_nonneg fun r _ => mul_self_nonneg _
  rw [hform, form_eq_curvature h primal dual (hu.stacked t _), curvature_stacked]
  have hscaled : t * t * b.curvature primal u ≤ 0 :=
    mul_nonpos_of_nonneg_of_nonpos (mul_self_nonneg t) hcurvature
  have hshift := mul_nonneg hdual (add_nonneg
    (hsquares b.equalities b.dualOffset (b.stacked u t (extend w)))
    (hsquares b.inequalities b.ineqOffset (b.stacked u t (extend w))))
  linarith

/-- With as many positive eigenvalues as variables and slacks, the Hessian is positive definite on
the null space of the constraints. -/
theorem posDefAlong_of_hasInertia (h : b.Sound k) {primal dual : K} (hdual : 0 ≤ dual)
    (hrows : (k.regularized primal dual).matrix.rows = b.dim) {negative : Nat}
    (hinertia : HasInertia (k.regularized primal dual).matrix.symmetricMatrix b.dualOffset
      negative) : b.PosDefAlong primal := by
  intro dx ds hne hequalities hinequalities
  by_contra hcurvature
  rw [not_lt, ← curvature_direction] at hcurvature
  have hu : ∃ i, i < b.dualOffset ∧ b.direction dx ds i ≠ 0 := by
    rcases hne with hdx | hds
    · obtain ⟨i, hi⟩ := Function.ne_iff.mp hdx
      refine ⟨i, i.isLt.trans_le primals_le_dualOffset, ?_⟩
      rwa [direction_primal]
    · obtain ⟨s, hs⟩ := Function.ne_iff.mp hds
      refine ⟨b.primals + s, Nat.add_lt_add_left s.isLt _, ?_⟩
      rwa [direction_slack]
  have hle := hinertia.add_finrank_le
    (V := LinearMap.range (b.stackMap (b.direction dx ds) _)) fun x hx =>
      form_stackMap_le h hdual (tangent_direction hequalities hinequalities) hcurvature hrows hx
  rw [finrank_stackMap hrows hu, Fintype.card_fin] at hle
  have hdim : b.dim = b.dualOffset + (b.equalities + b.inequalities) := dim_eq_add
  omega

/-- A regularized system that is accepted for its inertia has a Hessian that curves upward along the
constraints. The inertia may be that of any solver that reports it exactly; the sparse one does so,
whatever it was used for before. -/
theorem posDefAlong_of_factorize [Ldl.Ordering] (hb : b.WellFormed) {rhs : Array K} {barrier : K}
    (hk : b.assemble? rhs barrier = some k) {s : RegularizationSettings K}
    (hinertia : s.computeInertia = true) (hdual : 0 ≤ s.dualCoefficient barrier) :
    (∀ {σ : Type} [LinearSolver σ K] (solver : σ), LinearSolver.ReportsInertia k.matrix solver →
      ∀ reg, (k.factorize s solver).result = .ok reg → b.PosDefAlong reg.coefficient) ∧
    ∀ tolerance : K, 0 ≤ tolerance → ∀ asked reg,
      (k.factorize s (LinearSolver.after (SparseSolver.new tolerance) asked)).result = .ok reg →
        b.PosDefAlong reg.coefficient := by
  have hany : ∀ {σ : Type} [LinearSolver σ K] (solver : σ),
      LinearSolver.ReportsInertia k.matrix solver →
        ∀ reg, (k.factorize s solver).result = .ok reg → b.PosDefAlong reg.coefficient := by
    intro σ _ solver hreports reg hreg
    have hsound : b.Sound k :=
      ⟨hb.hessian.inRange, hb.jacEq.inRange, hb.jacIneq.inRange, _, _, hk⟩
    obtain ⟨⟨asked, hanswer⟩, hacceptable, dual, hdualCases, hsystem⟩ :=
      KktSystem.answered_of_factorize hreg
    obtain ⟨ts, -, -, -, -, rfl⟩ := assemble?_eq_some hk
    have hnonneg : 0 ≤ dual := by
      rcases hdualCases with rfl | rfl
      · exact le_refl 0
      · exact hdual
    obtain ⟨values, hsize, hvalues⟩ := KktSystem.exists_values _ reg.coefficient dual
    rw [hsystem, hvalues] at hanswer
    have hreported := hreports asked values reg.inertia hsize hanswer
    rw [← hvalues] at hreported
    have hexpected : reg.inertia.positive = b.dualOffset := by
      rcases hacceptable with ⟨-, hexpected⟩ | ⟨hoff, -⟩
      · rw [hexpected]
        rfl
      · rw [hinertia] at hoff
        cases hoff
    rw [hexpected] at hreported
    exact posDefAlong_of_hasInertia hsound hnonneg rfl hreported
  refine ⟨hany, ?_⟩
  intro tolerance htolerance asked reg hreg
  exact hany _ ((SparseSolver.reportsInertia k.matrix htolerance).after asked) reg hreg

end Counting

section Coupled

open Ldl

def coupledBlocks : KktBlocks (Exact ℚ) where
  hessian := ⟨1, 1, #[0, 1], #[0], #[-1]⟩
  jacEq := ⟨0, 1, #[0, 0], #[], #[]⟩
  jacIneq := ⟨1, 1, #[0, 1], #[0], #[1]⟩
  sigmaX := #[0]
  sigmaS := #[1 + 1]

def coupledMatrix : Csc (Exact ℚ) := ⟨3, 3, #[0, 1, 2, 5], #[0, 1, 0, 1, 2], #[-1, 1 + 1, 1, -1, 0]⟩

def coupledSystem : KktSystem (Exact ℚ) := ⟨coupledMatrix, #[0, 0, 0], 1, 0, 1, 1⟩

def coupledPermuted : Permuted (Exact ℚ) :=
  ⟨⟨3, 3, #[0, 1, 2, 5], #[0, 1, 1, 0, 2], #[1 + 1, -1, 1, -1, 0]⟩, #[1, 0, 2, 3, 4]⟩

def coupledSymbolic : Symbolic := ⟨#[some 2, some 2, none], #[1, 1, 0]⟩

theorem coupledBlocks_wellFormed : coupledBlocks.WellFormed where
  consistent := rfl
  hessian := Csc.complete_of_checkFormat (by decide +kernel)
  jacEq := Csc.complete_of_checkFormat (by decide +kernel)
  jacIneq := Csc.complete_of_checkFormat (by decide +kernel)

theorem assemble?_coupled : coupledBlocks.assemble? #[0, 0, 0] 1 = some coupledSystem := by
  have htriplets : coupledBlocks.triplets? = some [⟨0, 0, -1⟩, ⟨0, 0, 0⟩, ⟨1, 1, 1 + 1⟩, ⟨1, 2, -1⟩,
    ⟨0, 2, 1⟩, ⟨2, 2, 0⟩] := rfl
  have hsort : ([⟨0, 0, -1⟩, ⟨0, 0, 0⟩, ⟨1, 1, 1 + 1⟩, ⟨1, 2, -1⟩, ⟨0, 2, 1⟩, ⟨2, 2, 0⟩] :
      List (Triplet (Exact ℚ))).mergeSort Triplet.before =
        [⟨0, 0, -1⟩, ⟨0, 0, 0⟩, ⟨1, 1, 1 + 1⟩, ⟨0, 2, 1⟩, ⟨1, 2, -1⟩, ⟨2, 2, 0⟩] := by
    simp [List.mergeSort, List.MergeSort.Internal.splitInTwo, Triplet.before]
  have hmatrix : Csc.ofTriplets 3 3 ([⟨0, 0, -1⟩, ⟨0, 0, 0⟩, ⟨1, 1, 1 + 1⟩, ⟨1, 2, -1⟩, ⟨0, 2, 1⟩,
      ⟨2, 2, 0⟩] : List (Triplet (Exact ℚ))) = coupledMatrix := by
    rw [Csc.ofTriplets, hsort, coupledMatrix, Csc.mk.injEq]
    decide +kernel
  rw [coupledBlocks_wellFormed.assemble?_eq rfl 1 htriplets, Option.some.injEq, coupledSystem,
    KktSystem.mk.injEq]
  exact ⟨hmatrix, rfl, rfl, rfl, rfl, rfl⟩

theorem orderOf_coupled :
    Ldl.orderOf coupledMatrix (SparseSolver.new 0).settings = .ok (#[1, 0, 2], #[1, 0, 2]) := by
  -- No degree of a small matrix is high, whatever the scale.
  have hdense : MinimumDegree.denseDegree 1.0 3 = 3 := by
    unfold MinimumDegree.denseDegree
    exact Nat.min_eq_left (le_trans (by decide) (Nat.le_max_left 16 _))
  have hrows : (List.range 3).mapM
      (⟨3, 3, coupledMatrix.colStart, coupledMatrix.rowIndex, #[]⟩ : Csc Unit).rowsOf? =
        some [[0], [1], [0, 1, 2]] := by decide +kernel
  have hfound : MinimumDegree.withInverse? 3 (MinimumDegree.order 3 [[0], [1], [0, 1, 2]]) =
      some (#[1, 0, 2], #[1, 0, 2]) := by decide +kernel
  have hfind : MinimumDegree.find? 1.0 3 coupledMatrix.colStart coupledMatrix.rowIndex =
      some (#[1, 0, 2], #[1, 0, 2]) := by
    rw [MinimumDegree.find?, if_neg (by decide)]
    simp only [hrows, hdense, hfound, Option.bind_eq_bind, Option.bind_some]
  exact Factorization.orderOf_of_find? rfl hfind

theorem permuteSymmetric?_coupled :
    coupledMatrix.permuteSymmetric? #[1, 0, 2] = some coupledPermuted := by
  have hsort : Moved.sort [⟨0, 1, 1, -1⟩, ⟨1, 0, 0, 1 + 1⟩, ⟨2, 1, 2, 1⟩, ⟨3, 0, 2, -1⟩,
      ⟨4, 2, 2, 0⟩] = ([⟨1, 0, 0, 1 + 1⟩, ⟨0, 1, 1, -1⟩, ⟨2, 1, 2, 1⟩, ⟨3, 0, 2, -1⟩,
        ⟨4, 2, 2, 0⟩] : List (Moved (Exact ℚ))) := by
    simp [Moved.sort, List.mergeSort, List.MergeSort.Internal.splitInTwo]
  apply Csc.permuteSymmetric?_eq_some.mpr
  refine ⟨[[⟨0, 1, 1, -1⟩], [⟨1, 0, 0, 1 + 1⟩], [⟨2, 1, 2, 1⟩, ⟨3, 0, 2, -1⟩, ⟨4, 2, 2, 0⟩]], 5,
    rfl, rfl, ?_⟩
  simp only [Moved.assemble, List.flatten_cons, List.flatten_nil, List.cons_append,
    List.nil_append, hsort]
  rfl

theorem factorize_coupled :
    ((SparseSolver.new 0).factorize coupledMatrix).1 = .ok ⟨2, 1, 0⟩ := by
  have hcheck : LinearSolver.checkInput coupledMatrix = .ok () := by decide +kernel
  have hsymbolic : (List.range 3).mapM coupledPermuted.matrix.rowsOf? =
      some [[0], [1], [1, 0, 2]] ∧
        Symbolic.ofColumns? [[0], [1], [1, 0, 2]] = some coupledSymbolic := by decide +kernel
  have hanalyze : Factorization.analyze? coupledMatrix (SparseSolver.new 0).settings =
      some (.ok (Factorization.blank 3 #[1, 0, 2] coupledPermuted coupledSymbolic 0)) :=
    Factorization.analyze?_eq_ok.mpr ⟨rfl, _, _, _, _, _, orderOf_coupled,
      permuteSymmetric?_coupled, hsymbolic.1, hsymbolic.2, rfl⟩
  have hrun : ((Factorization.blank 3 #[1, 0, 2] coupledPermuted coupledSymbolic 0).refactor?.any
      fun r => r.1.isOk && decide (SparseSolver.assess r.2 = .ok ⟨2, 1, 0⟩)) = true := by
    decide +kernel
  obtain ⟨⟨result, f⟩, hf, hok⟩ := (Option.any_eq_true ..).mp hrun
  cases result with
  | error e => cases hok
  | ok _ =>
    have hfresh : (SparseSolver.new 0).factorize? coupledMatrix =
        (SparseSolver.rebuild? (SparseSolver.new 0).settings coupledMatrix).map
          (SparseSolver.new 0).conclude :=
      SparseSolver.factorize?_of_accepted hcheck (SparseSolver.new 0)
    rw [SparseSolver.rebuild?_of_analyze? hanalyze hf, Option.map_some] at hfresh
    rw [SparseSolver.factorize_eq hfresh]
    exact of_decide_eq_true hok

theorem posDefAlong_coupled : coupledBlocks.WellFormed ∧
    coupledBlocks.assemble? #[0, 0, 0] 1 = some coupledSystem ∧
    0 ≤ RegularizationSettings.default.dualCoefficient (1 : Exact ℚ) ∧
    ∃ reg, (coupledSystem.factorize .default (SparseSolver.new (0 : Exact ℚ))).result = .ok reg ∧
      reg.coefficient = 0 ∧ coupledBlocks.PosDefAlong 0 := by
  have hdual : 0 ≤ RegularizationSettings.default.dualCoefficient (1 : Exact ℚ) := by
    decide +kernel
  have hanswer : LinearSolver.factorize coupledSystem.matrix (SparseSolver.new (0 : Exact ℚ)) =
      (.ok ⟨2, 1, 0⟩, ((SparseSolver.new (0 : Exact ℚ)).factorize coupledMatrix).2) :=
    Prod.ext factorize_coupled rfl
  have hreg : (coupledSystem.factorize .default (SparseSolver.new (0 : Exact ℚ))).result =
      .ok ⟨0, 0, ⟨2, 1, 0⟩, coupledSystem⟩ := by
    rw [KktSystem.factorize, hanswer]
    rfl
  have hcurves := (posDefAlong_of_factorize coupledBlocks_wellFormed assemble?_coupled
    (s := .default) rfl hdual).2 0 (le_refl 0) [] _ hreg
  exact ⟨coupledBlocks_wellFormed, assemble?_coupled, hdual, _, hreg, rfl, hcurves⟩

end Coupled

end KktBlocks

end NonlinearOpt
