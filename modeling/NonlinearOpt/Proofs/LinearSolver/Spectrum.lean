import Mathlib
import NonlinearOpt.Proofs.Ldl.Inertia
import NonlinearOpt.Proofs.LinearSolver.BlockDiagonal

namespace NonlinearOpt

section Eigenvalues

variable {n : Nat} {S B U : Matrix (Fin n) (Fin n) ℝ} {σ : Equiv.Perm (Fin n)}

noncomputable def eigenvalueInertia (hS : S.IsHermitian) : Inertia :=
  ⟨(Finset.univ.filter fun k => 0 < hS.eigenvalues k).card,
    (Finset.univ.filter fun k => hS.eigenvalues k < 0).card,
    (Finset.univ.filter fun k => hS.eigenvalues k = 0).card⟩

theorem dim_eigenvalueInertia (hS : S.IsHermitian) : (eigenvalueInertia hS).dim = n := by
  have hsplit : ∀ x : ℝ, (if 0 < x then 1 else 0) + (if x < 0 then 1 else 0) +
      (if x = 0 then 1 else 0) = 1 := by
    intro x
    rcases lt_trichotomy x 0 with h | h | h
    · simp [h, h.ne, not_lt.mpr h.le]
    · simp [h]
    · simp [h, h.ne', not_lt.mpr h.le]
  simp only [eigenvalueInertia, Inertia.dim, Finset.card_filter, ← Finset.sum_add_distrib]
  simp [hsplit]

theorem hasInertia_of_eigenvalues (hB : B.IsHermitian) (hU : IsUnit U.det)
    (h : S.submatrix σ σ = U * B * U.transpose) :
    HasInertia S (eigenvalueInertia hB).positive (eigenvalueInertia hB).negative := by
  let V : Matrix (Fin n) (Fin n) ℝ := hB.eigenvectorUnitary
  have hspectral : B = V * Matrix.diagonal hB.eigenvalues * V.transpose := by
    have h := hB.spectral_theorem
    rw [Unitary.conjStarAlgAut_apply] at h
    exact h
  have hV : IsUnit V.det := Matrix.UnitaryGroup.det_isUnit hB.eigenvectorUnitary
  apply hasInertia_of_congruent (U := U * V) (σ := σ)
  · rw [Matrix.det_mul]
    exact hU.mul hV
  · rw [h, Matrix.transpose_mul]
    conv_lhs => rw [hspectral]
    simp only [Matrix.mul_assoc]

theorem Inertia.eq_of_signs {i j : Inertia} (hdim : i.dim = j.dim)
    (hpositive : i.positive = j.positive) (hnegative : i.negative = j.negative) : i = j := by
  obtain ⟨p, q, z⟩ := i
  obtain ⟨p', q', z'⟩ := j
  simp only [Inertia.dim] at hdim hpositive hnegative
  subst hpositive hnegative
  rw [Nat.add_left_cancel hdim]

theorem hasInertia_eigenvalueInertia (hS : S.IsHermitian) :
    HasInertia S (eigenvalueInertia hS).positive (eigenvalueInertia hS).negative := by
  apply hasInertia_of_eigenvalues hS (U := 1) (σ := 1)
  · simp
  · simp

theorem eigenvalueInertia_congruent (hS : S.IsHermitian) (hB : B.IsHermitian) (hU : IsUnit U.det)
    (h : S.submatrix σ σ = U * B * U.transpose) :
    eigenvalueInertia hS = eigenvalueInertia hB := by
  obtain ⟨hpositive, hnegative⟩ :=
    (hasInertia_eigenvalueInertia hS).unique (hasInertia_of_eigenvalues hB hU h)
  exact Inertia.eq_of_signs ((dim_eigenvalueInertia hS).trans (dim_eigenvalueInertia hB).symm)
    hpositive hnegative

theorem isUnit_det_of_unitLower (hunit : ∀ i, U i i = 1) (hlower : ∀ i j, i < j → U i j = 0) :
    IsUnit U.det := by
  have htriangular : U.BlockTriangular OrderDual.toDual := fun i j hij => hlower i j hij
  rw [Matrix.det_of_isLowerTriangular _ htriangular, Finset.prod_eq_one fun i _ => hunit i]
  exact isUnit_one

theorem map_eigenvalues (hB : B.IsHermitian) {roots : List ℝ}
    (h : B.charpoly = Block.splitOver roots) :
    Multiset.map hB.eigenvalues Finset.univ.val = (roots : Multiset ℝ) := by
  have hcharpoly := hB.roots_charpoly_eq_eigenvalues
  rw [h, Block.splitOver, ← Multiset.prod_coe, ← Multiset.map_coe,
    Polynomial.roots_multiset_prod_X_sub_C] at hcharpoly
  exact hcharpoly.symm

theorem card_eigenvalues (hB : B.IsHermitian) {roots : List ℝ}
    (h : B.charpoly = Block.splitOver roots) (p : ℝ → Prop) [DecidablePred p] :
    (Finset.univ.filter fun k => p (hB.eigenvalues k)).card = roots.countP p := by
  rw [← Multiset.coe_countP, ← map_eigenvalues hB h, Multiset.countP_map]
  rfl

theorem mem_spectrum_of_mem_roots (hB : B.IsHermitian) {roots : List ℝ}
    (h : B.charpoly = Block.splitOver roots) {x : ℝ} (hx : x ∈ roots) : x ∈ spectrum ℝ B := by
  rw [← Multiset.mem_coe, ← map_eigenvalues hB h] at hx
  obtain ⟨k, -, rfl⟩ := Multiset.mem_map.mp hx
  exact hB.eigenvalues_mem_spectrum_real k

end Eigenvalues

section Counting

/-- Eigenvalues are counted by their signs if those that are not zero are larger than the
tolerance. -/
theorem foldl_count {tolerance : ℝ} (htolerance : 0 ≤ tolerance) {xs : List ℝ}
    (hgap : ∀ x ∈ xs, x ≠ 0 → tolerance < |x|) (i : Inertia) :
    xs.foldl (Inertia.count tolerance) i = ⟨i.positive + xs.countP (0 < ·),
      i.negative + xs.countP (· < 0), i.null + xs.countP (· = 0)⟩ := by
  induction xs generalizing i with
  | nil => rfl
  | cons x xs ih =>
    rw [List.forall_mem_cons] at hgap
    rw [List.foldl_cons, ih hgap.2]
    have hle : Scalar.le (Scalar.abs x) tolerance = true ↔ x = 0 := by
      rw [OrderedScalar.le_iff]
      constructor
      · intro hle
        by_contra hx
        exact absurd (hgap.1 hx) (not_lt.mpr hle)
      · rintro rfl
        show |(0 : ℝ)| ≤ tolerance
        rwa [abs_zero]
    unfold Inertia.count
    rcases lt_trichotomy x 0 with hx | rfl | hx
    · rw [if_neg (fun h => hx.ne (hle.mp h)), if_neg (by simpa [OrderedScalar.lt_iff] using hx.le)]
      simp [hx, hx.ne, not_lt.mpr hx.le]
      omega
    · rw [if_pos (hle.mpr rfl)]
      simp
      omega
    · rw [if_neg (fun h => hx.ne' (hle.mp h)), if_pos (OrderedScalar.lt_iff.mpr hx)]
      simp [hx, hx.ne', not_lt.mpr hx.le]
      omega

end Counting

noncomputable def Symmetric.matrix (n : Nat) (m : Symmetric ℝ) : Matrix (Fin n) (Fin n) ℝ :=
  Matrix.of fun i j => m.get i j

/-- `P M Pᵀ = L B Lᵀ` with a permutation matrix `P` and a unit lower triangular matrix `L`. -/
def Decomposed {n : Nat} (M B : Matrix (Fin n) (Fin n) ℝ) : Prop :=
  ∃ (σ : Equiv.Perm (Fin n)) (L : Matrix (Fin n) (Fin n) ℝ),
    (∀ i, L i i = 1) ∧ (∀ i j, i < j → L i j = 0) ∧ M.submatrix σ σ = L * B * L.transpose

theorem Decomposed.eigenvalueInertia {n : Nat} {M B : Matrix (Fin n) (Fin n) ℝ}
    (h : Decomposed M B) (hM : M.IsHermitian) (hB : B.IsHermitian) :
    eigenvalueInertia hM = eigenvalueInertia hB := by
  obtain ⟨σ, L, hunit, hlower, hproduct⟩ := h
  exact eigenvalueInertia_congruent hM hB (isUnit_det_of_unitLower hunit hlower) hproduct

namespace Decomposition

noncomputable def blockDiagonal (n : Nat) (d : Decomposition ℝ) : Matrix (Fin n) (Fin n) ℝ :=
  Block.band n d.diag d.subdiag

structure Splits (n : Nat) (d : Decomposition ℝ) (m : Symmetric ℝ) : Prop where
  length : d.diag.length = n
  marks : Block.Marks n d.subdiag
  product : Decomposed (m.matrix n) (d.blockDiagonal n)

theorem isHermitian_blockDiagonal (n : Nat) (d : Decomposition ℝ) :
    (d.blockDiagonal n).IsHermitian := by
  ext1 i j
  exact Block.bandAt_comm d.diag d.subdiag j i

theorem ofBlockDiagonal_eq {d : Decomposition ℝ} {n : Nat} {tolerance : ℝ}
    (hlength : d.diag.length = n) (hmarks : Block.Marks n d.subdiag) (htolerance : 0 ≤ tolerance)
    (hgap : ∀ x ∈ spectrum ℝ (d.blockDiagonal n), x ≠ 0 → tolerance < |x|) :
    Inertia.ofBlockDiagonal tolerance d.diag d.subdiag =
      eigenvalueInertia (d.isHermitian_blockDiagonal n) := by
  subst hlength
  have hcharpoly : (d.blockDiagonal d.diag.length).charpoly = _ :=
    Block.charpoly_band d.diag d.subdiag hmarks
  have hB := d.isHermitian_blockDiagonal d.diag.length
  unfold Inertia.ofBlockDiagonal
  rw [foldl_count htolerance fun x hx => hgap x (mem_spectrum_of_mem_roots hB hcharpoly hx)]
  simp only [eigenvalueInertia, card_eigenvalues _ hcharpoly (0 < ·),
    card_eigenvalues _ hcharpoly (· < 0), card_eigenvalues _ hcharpoly (· = 0), Inertia.zero,
    Nat.zero_add]

end Decomposition

end NonlinearOpt
