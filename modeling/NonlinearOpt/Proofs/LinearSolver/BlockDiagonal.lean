import NonlinearOpt.Proofs.Arithmetic.Real

/-!
Block diagonal matrices given by their diagonal and the entries beside it. The eigenvalues of the
blocks that a scan finds are the roots of the characteristic polynomial, each as often as it occurs.
-/

namespace NonlinearOpt

namespace Block

open Polynomial

section Band

variable {K : Type} [Zero K]

/-- An entry of the symmetric matrix with the given diagonal and the given entries beside it. -/
def bandAt (diag subdiag : List K) (i j : Nat) : K :=
  if i = j then diag.getD i 0
  else if i + 1 = j then subdiag.getD i 0
  else if j + 1 = i then subdiag.getD j 0
  else 0

def band (n : Nat) (diag subdiag : List K) : Matrix (Fin n) (Fin n) K :=
  Matrix.of fun i j => bandAt diag subdiag i j

/-- Entries beside the diagonal that are not zero mark starts of blocks of size two: there are never
two in a row. Entries past the last pair of indices do not count. -/
def Marks (n : Nat) (subdiag : List K) : Prop :=
  ∀ k, k + 2 < n → subdiag.getD k 0 ≠ 0 → subdiag.getD (k + 1) 0 = 0

theorem bandAt_succ (a : K) (diag subdiag : List K) (i j : Nat) :
    bandAt (a :: diag) subdiag (i + 1) (j + 1) = bandAt diag subdiag.tail i j := by
  cases subdiag <;> simp [bandAt]

theorem bandAt_comm (diag subdiag : List K) (i j : Nat) :
    bandAt diag subdiag i j = bandAt diag subdiag j i := by
  unfold bandAt
  split_ifs <;> first | rfl | omega | simp_all

theorem Marks.tail {n : Nat} {subdiag : List K} (h : Marks (n + 1) subdiag) :
    Marks n subdiag.tail := by
  intro k hk hne
  cases subdiag with
  | nil => simp
  | cons b subdiag => exact h (k + 1) (by omega) hne

end Band

section Spectrum

theorem charmatrix_submatrix_succ (n : Nat) (a : ℝ) (diag subdiag : List ℝ) :
    (band (n + 1) (a :: diag) subdiag).charmatrix.submatrix Fin.succ Fin.succ =
      (band n diag subdiag.tail).charmatrix := by
  ext1 i j
  simp only [Matrix.submatrix_apply, Matrix.charmatrix_apply, Matrix.diagonal_apply, Fin.succ_inj,
    band, Matrix.of_apply, Fin.val_succ, bandAt_succ]

theorem charmatrix_zero_succ (n : Nat) (diag subdiag : List ℝ) (j : Fin n) :
    (band (n + 1) diag subdiag).charmatrix 0 j.succ =
      if (j : Nat) = 0 then -C (subdiag.getD 0 0) else 0 := by
  by_cases hj : (j : Nat) = 0 <;>
    simp [band, bandAt, hj, Fin.ext_iff]

theorem charpoly_single (n : Nat) (a : ℝ) (diag subdiag : List ℝ)
    (h : n = 0 ∨ subdiag.getD 0 0 = 0) :
    (band (n + 1) (a :: diag) subdiag).charpoly =
      (X - C a) * (band n diag subdiag.tail).charpoly := by
  have hfirst : (band (n + 1) (a :: diag) subdiag).charmatrix 0 0 = X - C a := by
    simp [band, bandAt]
  have hrest : ∀ j : Fin n, (band (n + 1) (a :: diag) subdiag).charmatrix 0 j.succ = 0 := by
    intro j
    rw [charmatrix_zero_succ]
    rcases h with rfl | hzero
    · exact j.elim0
    · rw [hzero, C_0, neg_zero, ite_self]
  rw [Matrix.charpoly, Matrix.det_succ_row_zero, Fin.sum_univ_succ, Finset.sum_eq_zero, hfirst,
    Fin.succAbove_zero, charmatrix_submatrix_succ, Matrix.charpoly]
  · simp
  · intro j _
    rw [hrest j, mul_zero, zero_mul]

theorem charpoly_double (n : Nat) (a b c : ℝ) (diag subdiag : List ℝ)
    (h : n = 0 ∨ subdiag.getD 0 0 = 0) :
    (band (n + 2) (a :: c :: diag) (b :: subdiag)).charpoly =
      ((X - C a) * (X - C c) - C (b * b)) * (band n diag subdiag.tail).charpoly := by
  set m := (band (n + 2) (a :: c :: diag) (b :: subdiag)).charmatrix with hm
  have hfirst : m 0 0 = X - C a := by
    simp [hm, band, bandAt]
  have hbeside : m 0 1 = -C b := charmatrix_zero_succ (n + 1) _ _ 0
  have hrest : ∀ j : Fin n, m 0 j.succ.succ = 0 := fun j => charmatrix_zero_succ (n + 1) _ _ j.succ
  have hbelow : m 1 0 = -C b := by
    simp [hm, band, bandAt]
  have hcolumn : ∀ i : Fin n, m i.succ.succ 0 = 0 := by
    intro i
    simp [hm, band, bandAt, Fin.ext_iff]
  have hminor : (m.submatrix Fin.succ Fin.succ).det =
      (X - C c) * (band n diag subdiag.tail).charpoly := by
    rw [hm, charmatrix_submatrix_succ, List.tail_cons]
    exact charpoly_single n c diag subdiag h
  have hcross : (m.submatrix Fin.succ (Fin.succAbove 1)).det =
      -C b * (band n diag subdiag.tail).charpoly := by
    have hbelowAll : ∀ i : Fin n, m.submatrix Fin.succ (Fin.succAbove 1) i.succ 0 = 0 := hcolumn
    have hsubmatrix : (m.submatrix Fin.succ (Fin.succAbove 1)).submatrix Fin.succ Fin.succ =
        (band n diag subdiag.tail).charmatrix := by
      have hinner : m.submatrix Fin.succ Fin.succ =
          (band (n + 1) (c :: diag) subdiag).charmatrix :=
        charmatrix_submatrix_succ (n + 1) a (c :: diag) (b :: subdiag)
      rw [← charmatrix_submatrix_succ n c diag subdiag, ← hinner]
      rfl
    rw [Matrix.det_succ_column_zero, Fin.sum_univ_succ, Finset.sum_eq_zero, Fin.succAbove_zero,
      hsubmatrix, Matrix.charpoly]
    · have hcorner : m.submatrix Fin.succ (Fin.succAbove 1) 0 0 = -C b := hbelow
      rw [hcorner]
      simp
    · intro i _
      rw [hbelowAll i, mul_zero, zero_mul]
  rw [Matrix.charpoly, ← hm, Matrix.det_succ_row_zero, Fin.sum_univ_succ, Fin.sum_univ_succ,
    Finset.sum_eq_zero, Fin.succAbove_zero, hminor, hfirst]
  · have hnext : (Fin.succ (0 : Fin (n + 1))) = 1 := rfl
    rw [hnext, hbeside, hcross]
    simp
    ring
  · intro j _
    rw [hrest j, mul_zero, zero_mul]

theorem exists_eigenvalues_double (a b c : ℝ) :
    ∃ x y, (double a b c).eigenvalues = [x, y] ∧ x + y = a + c ∧ x * y = a * c - b * b := by
  have htwo : (Scalar.ofNat 2 : ℝ) = 2 := Nat.cast_ofNat
  refine ⟨_, _, rfl, ?_, ?_⟩
  · rw [htwo]
    ring
  · have hsquares : ∀ m r : ℝ, (m + r) * (m - r) = m * m - r * r := fun m r => by ring
    rw [hsquares, hypotenuse_mul_self, htwo]
    ring

noncomputable def splitOver (roots : List ℝ) : ℝ[X] := (roots.map fun x => X - C x).prod

theorem splitOver_double (a b c : ℝ) :
    splitOver (double a b c).eigenvalues = (X - C a) * (X - C c) - C (b * b) := by
  obtain ⟨x, y, heigenvalues, hsum, hproduct⟩ := exists_eigenvalues_double a b c
  have hproduct' : C x * C y = C a * C c - C b * C b := by
    rw [← C_mul, hproduct, C_sub, C_mul, C_mul]
  have hsum' : C x + C y = C a + C c := by rw [← C_add, hsum, C_add]
  rw [splitOver, heigenvalues, C_mul]
  simp only [List.map_cons, List.map_nil, List.prod_cons, List.prod_nil, mul_one]
  linear_combination hproduct' - X * hsum'

/-- A scan finds the eigenvalues of a block diagonal matrix. -/
theorem charpoly_band (diag subdiag : List ℝ) (h : Marks diag.length subdiag) :
    (band diag.length diag subdiag).charpoly =
      splitOver ((scan diag subdiag).flatMap eigenvalues) := by
  induction diag, subdiag using scan.induct with
  | case1 subdiag => simp [scan, splitOver, Matrix.charpoly]
  | case2 a c diag b subdiag hzero ih =>
    have hb : b = 0 := ExactScalar.eq_iff.mp hzero
    rw [scan, if_pos hzero, List.length_cons, charpoly_single _ a _ (b :: subdiag) (.inr hb),
      List.tail_cons, ih h.tail]
    simp [splitOver, eigenvalues]
  | case3 a c diag b subdiag hcoupled ih =>
    have hb : b ≠ 0 := fun hb => hcoupled (ExactScalar.eq_iff.mpr hb)
    have hend : diag.length = 0 ∨ subdiag.getD 0 0 = 0 := by
      rcases Nat.eq_zero_or_pos diag.length with hnil | hpos
      · exact .inl hnil
      · exact .inr (h 0 (by simpa using hpos) hb)
    rw [scan, if_neg hcoupled, List.length_cons, List.length_cons, charpoly_double _ _ _ _ _ _ hend,
      ih h.tail.tail, ← splitOver_double]
    simp [splitOver]
  | case4 a diag subdiag hlast ih =>
    have hend : diag.length = 0 ∨ subdiag.getD 0 0 = 0 := by
      cases diag with
      | nil => exact .inl rfl
      | cons c diag =>
        cases subdiag with
        | nil => exact .inr rfl
        | cons b subdiag => exact absurd rfl (hlast c diag b subdiag rfl)
    have hscan : scan (a :: diag) subdiag = single a :: scan diag subdiag.tail := by
      rw [scan]
      exact hlast
    rw [hscan, List.length_cons, charpoly_single _ _ _ _ hend, ih h.tail]
    simp [splitOver, eigenvalues]

end Spectrum

end Block

end NonlinearOpt
