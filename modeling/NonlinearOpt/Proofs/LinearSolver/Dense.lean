import NonlinearOpt.Proofs.LinearSolver.Reported
import NonlinearOpt.Proofs.LinearSolver.Elimination
import NonlinearOpt.Ordering.MinimumDegree

namespace NonlinearOpt

section Expansion

variable {K : Type} [LinearOrder K] [ExactScalar K]

theorem getD_foldl_set {column : List (Nat × K)} (hdistinct : (column.map Prod.fst).Nodup)
    {row : Array K} (hrange : ∀ e ∈ column, e.1 < row.size) (k : Nat) :
    (column.foldl (fun row e => row.setIfInBounds e.1 e.2) row).getD k 0 =
      if k ∈ column.map Prod.fst then sumAt column k else row.getD k 0 := by
  induction column generalizing row with
  | nil => simp
  | cons e column ih =>
    rw [List.map_cons, List.nodup_cons] at hdistinct
    rw [List.forall_mem_cons] at hrange
    rw [List.foldl_cons, ih hdistinct.2 (by simpa using hrange.2), sumAt_cons, List.map_cons]
    by_cases hk : k = e.1
    · subst hk
      rw [if_neg hdistinct.1, if_pos List.mem_cons_self, if_pos rfl,
        sumAt_eq_zero hdistinct.1, add_zero]
      simp [hrange.1]
    · have hset : (row.setIfInBounds e.1 e.2).getD k 0 = row.getD k 0 := by
        simp [Ne.symm hk]
      have hmem : k ∈ e.1 :: column.map Prod.fst ↔ k ∈ column.map Prod.fst := by
        rw [List.mem_cons, or_iff_right hk]
      rw [if_neg (Ne.symm hk), zero_add, hset, if_congr hmem rfl rfl]

theorem foldl_push_eq {β γ : Type} (f : β → γ) (xs : List β) (out : Array γ) :
    xs.foldl (fun out x => out.push (f x)) out = out ++ (xs.map f).toArray := by
  induction xs generalizing out with
  | nil => simp
  | cons x xs ih => simp [ih]

theorem Csc.getD_toSymmetric (a : Csc K) {j : Nat} (hj : j < a.cols) :
    a.toSymmetric.rows.getD j #[] = ((a.column? j).getD []).foldl
      (fun row e => row.setIfInBounds e.1 e.2) (Vec.zero (j + 1)) := by
  unfold toSymmetric
  simp only [foldl_push_eq]
  simp [hj]

theorem Csc.get_toSymmetric {a : Csc K} (hdistinct : a.NoRepeats) (hupper : a.isUpper? = some true)
    (hcolumns : ∀ j, j < a.cols → ∃ column, a.column? j = some column) {i j : Nat}
    (hi : i < a.cols) (hj : j < a.cols) : a.toSymmetric.get i j = a.symmetricAt i j := by
  have hupperAt : ∀ r c, r ≤ c → c < a.cols →
      (a.toSymmetric.rows.getD c #[]).getD r 0 = a.entryAt r c := by
    intro r c hrc hc
    obtain ⟨column, hcolumn⟩ := hcolumns c hc
    have hentries := entries?_of_column? hcolumn
    have hrange : ∀ e ∈ column, e.1 < (Vec.zero (c + 1) : Array K).size := by
      intro e he
      have := le_of_isUpper? hupper hc hentries e he
      simp [Vec.zero]
      omega
    rw [getD_toSymmetric a hc, hcolumn, Option.getD_some,
      getD_foldl_set (hdistinct c column hentries) hrange, entryAt_eq_sumAt hentries]
    split
    · rfl
    · next hmem =>
      rw [sumAt_eq_zero hmem, Vec.zero, Array.getD_eq_getD_getElem?, Array.getElem?_replicate,
        if_pos (by omega), Option.getD_some]
  have hlowerAt : ∀ r c, c < r → c < a.cols → a.entryAt r c = 0 := by
    intro r c hcr hc
    obtain ⟨column, hcolumn⟩ := hcolumns c hc
    have hentries := entries?_of_column? hcolumn
    rw [entryAt_eq_sumAt hentries]
    apply sumAt_eq_zero
    intro hmem
    obtain ⟨e, he, rfl⟩ := List.mem_map.mp hmem
    have := le_of_isUpper? hupper hc hentries e he
    omega
  unfold Symmetric.get symmetricAt
  rcases Nat.lt_trichotomy i j with hij | rfl | hij
  · rw [if_neg hij.ne, hlowerAt j i hij hi, add_zero, Nat.max_eq_max, Nat.min_eq_min,
      max_eq_right hij.le, min_eq_left hij.le]
    exact hupperAt i j hij.le hj
  · rw [if_pos rfl, Nat.max_eq_max, Nat.min_eq_min, max_self, min_self]
    exact hupperAt i i (Nat.le_refl _) hi
  · rw [if_neg hij.ne', hlowerAt i j hij hj, zero_add, Nat.max_eq_max, Nat.min_eq_min,
      max_eq_left hij.le, min_eq_right hij.le]
    exact hupperAt j i hij.le hi

end Expansion

section Threshold

theorem Csc.maxAbs_nonneg (a : Csc ℝ) : 0 ≤ a.maxAbs := by
  unfold maxAbs
  rw [← Array.foldl_toList]
  have hfold : ∀ (xs : List ℝ) (m : ℝ), 0 ≤ m →
      0 ≤ xs.foldl (fun m v => Scalar.max m (Scalar.abs v)) m := by
    intro xs
    induction xs with
    | nil => exact fun m hm => hm
    | cons x xs ih =>
      intro m hm
      have hnext : 0 ≤ Scalar.max m (Scalar.abs x) := by
        rw [OrderedScalar.max_eq]
        exact le_max_of_le_left hm
      exact ih _ hnext
  exact hfold _ 0 (le_refl 0)

theorem DenseSolver.threshold_nonneg (tolerance : ℝ) (a : Csc ℝ) :
    0 ≤ threshold tolerance a := by
  unfold threshold
  rw [OrderedScalar.max_eq]
  apply le_max_of_le_right
  have hcols : (0 : ℝ) ≤ Scalar.ofNat a.cols := Nat.cast_nonneg _
  have hepsilon : (0 : ℝ) ≤ Scalar.epsilon := inv_nonneg.mpr (Nat.cast_nonneg _)
  exact mul_nonneg (mul_nonneg hcols hepsilon) a.maxAbs_nonneg

end Threshold

theorem Csc.isHermitian_symmetricMatrix (a : Csc ℝ) : a.symmetricMatrix.IsHermitian := by
  ext1 i j
  exact a.symmetricAt_comm j i

theorem LinearSolver.checkInput_ok {α : Type} [Scalar α] {a : Csc α} (h : checkInput a = .ok ()) :
    a.checkFormat = .ok () ∧ a.isUpper? = some true := by
  unfold checkInput at h
  split at h
  · cases h
  · next hformat =>
    split_ifs at h with hsquare hupper hfinite
    exact ⟨hformat, not_not.mp hupper⟩

namespace DenseSolver

variable {a : Csc ℝ} {s : DenseSolver ℝ}

theorem factorize_of_checkInput (hinput : LinearSolver.checkInput a = .ok ()) :
    (s.factorize a).1 = .ok (Inertia.ofBlockDiagonal (threshold s.tolerance a)
      (s.decomposer.decompose a.toSymmetric).diag
      (s.decomposer.decompose a.toSymmetric).subdiag) := by
  have hfinite : ∀ xs : List ℝ, xs.all Scalar.isFinite = true :=
    fun xs => List.all_eq_true.mpr fun x _ => ExactScalar.isFinite_eq x
  unfold factorize
  rw [hinput]
  simp only [hfinite, Bool.and_self, if_true]

theorem get_toSymmetric_of_checkInput (hinput : LinearSolver.checkInput a = .ok ()) {i j : Nat}
    (hi : i < a.cols) (hj : j < a.cols) : a.toSymmetric.get i j = a.symmetricAt i j := by
  obtain ⟨hformat, hupper⟩ := LinearSolver.checkInput_ok hinput
  refine Csc.get_toSymmetric (Csc.noRepeats_of_checkFormat hformat) hupper ?_ hi hj
  intro j hj
  obtain ⟨column, hcolumn, -⟩ := Csc.column?_of_checkFormat hformat hj
  exact ⟨column, hcolumn⟩

theorem eigenvalueInertia_of_splits {d : Decomposition ℝ}
    (hinput : LinearSolver.checkInput a = .ok ()) (hsplits : d.Splits a.cols a.toSymmetric) :
    eigenvalueInertia a.isHermitian_symmetricMatrix =
      eigenvalueInertia (d.isHermitian_blockDiagonal a.cols) := by
  have hsquare : a.rows = a.cols := (SparseSolver.accepted_of_checkInput hinput).square
  obtain ⟨rows, cols, colPtr, rowIdx, values⟩ := a
  obtain rfl : rows = cols := hsquare
  have hmatrix : (Csc.toSymmetric ⟨rows, rows, colPtr, rowIdx, values⟩).matrix rows =
      Csc.symmetricMatrix ⟨rows, rows, colPtr, rowIdx, values⟩ := by
    ext1 i j
    exact get_toSymmetric_of_checkInput hinput i.isLt j.isLt
  have hproduct := hsplits.product
  rw [hmatrix] at hproduct
  exact hproduct.eigenvalueInertia _ _

/-- The dense solver reports the inertia of every matrix that is decomposed as it should be, if the
eigenvalues of the block diagonal matrix that are not zero are larger than the threshold. The sparse
solver agrees with it whenever it reports an inertia as well, whatever it has factored before. -/
theorem factorize_inertia [Ldl.Ordering] (hinput : LinearSolver.checkInput a = .ok ())
    (hsplits : (s.decomposer.decompose a.toSymmetric).Splits a.cols a.toSymmetric)
    (hgap : ∀ x ∈ spectrum ℝ ((s.decomposer.decompose a.toSymmetric).blockDiagonal a.cols),
      x ≠ 0 → threshold s.tolerance a < |x|) :
    ∃ i : Inertia, (s.factorize a).1 = .ok i ∧
      i = eigenvalueInertia a.isHermitian_symmetricMatrix ∧ i.dim = a.rows ∧
      ∀ (tolerance : ℝ) (asked : List (Csc ℝ)) (j : Inertia), 0 ≤ tolerance →
        (LinearSolver.factorize a (LinearSolver.after (SparseSolver.new tolerance) asked)).1 =
          .ok j → j = i := by
  have hscan := Decomposition.ofBlockDiagonal_eq hsplits.length hsplits.marks
    (threshold_nonneg s.tolerance a) hgap
  have hvalue := hscan.trans (eigenvalueInertia_of_splits hinput hsplits).symm
  refine ⟨_, factorize_of_checkInput hinput, hvalue, ?_, ?_⟩
  · rw [hvalue, dim_eigenvalueInertia]
  · intro tolerance asked j htolerance hsparse
    obtain ⟨last, hfaithful⟩ := SparseSolver.faithful_after tolerance asked
    have hnew := (hfaithful.factorize a).1.symm.trans hsparse
    obtain ⟨hinertia, hdim⟩ := SparseSolver.hasInertia_of_factorize_new htolerance hnew
    obtain ⟨hpositive, hnegative⟩ :=
      hinertia.unique (hasInertia_eigenvalueInertia a.isHermitian_symmetricMatrix)
    rw [hvalue]
    exact Inertia.eq_of_signs (hdim.trans (dim_eigenvalueInertia _).symm) hpositive hnegative

noncomputable def indefinite : Csc ℝ := ⟨2, 2, #[0, 1, 3], #[0, 0, 1], #[0, 1, 0]⟩

theorem checkInput_indefinite : LinearSolver.checkInput indefinite = .ok () := by
  decide +kernel

theorem choose_indefinite : BlockLdl.choose indefinite.toSymmetric = (true, 1) := by
  have hlt : Scalar.lt (0 : ℝ) |1| = true := OrderedScalar.lt_iff.mpr (by norm_num)
  have hcolumn : indefinite.toSymmetric.largest 1 0 = (1, 1) := by
    show (if Scalar.lt (0 : ℝ) |1| = true then (1, |1|) else (1, 0)) = (1, (1 : ℝ))
    rw [if_pos hlt, abs_one]
  have hrow : indefinite.toSymmetric.largest 0 1 = (0, 1) := by
    show (if Scalar.lt (0 : ℝ) |1| = true then (0, |1|) else (0, 0)) = (0, (1 : ℝ))
    rw [if_pos hlt, abs_one]
  have hfirst : indefinite.toSymmetric.get 0 0 = 0 := rfl
  have hlast : indefinite.toSymmetric.get 1 1 = 0 := rfl
  have hsize : indefinite.toSymmetric.size ≠ 1 := by decide
  unfold BlockLdl.choose
  simp only [hcolumn, hrow, hfirst, hlast, BlockLdl.le_abs_iff, abs_zero, div_one, mul_one,
    not_le.mpr BlockLdl.balance_pos, hsize, or_self, if_false]

theorem blockDiagonal_indefinite :
    (BlockLdl.decompose indefinite.toSymmetric).blockDiagonal indefinite.cols =
      Block.band 2 [0, 0] [1, 0] := by
  have hsteps : BlockLdl.blocks (BlockLdl.factor 2 indefinite.toSymmetric) = [.double 0 1 0] := by
    rw [BlockLdl.factor, choose_indefinite]
    rfl
  show Block.band 2
    ((BlockLdl.blocks (BlockLdl.factor 2 indefinite.toSymmetric)).flatMap Block.diag)
    ((BlockLdl.blocks (BlockLdl.factor 2 indefinite.toSymmetric)).flatMap Block.subdiag) = _
  rw [hsteps]
  rfl

theorem one_le_abs_of_mem_spectrum {x : ℝ} (h : x ∈ spectrum ℝ (Block.band 2 [(0 : ℝ), 0] [1, 0])) :
    1 ≤ |x| := by
  have hroot := Matrix.mem_spectrum_iff_isRoot_charpoly.mp h
  have hcharpoly := Block.charpoly_double 0 0 1 0 [] [0] (.inl rfl)
  have hempty : (Block.band 0 ([] : List ℝ) []).charpoly = 1 := by
    rw [Matrix.charpoly, Matrix.det_isEmpty]
  rw [hcharpoly, List.tail_cons, hempty, Polynomial.IsRoot.def] at hroot
  simp at hroot
  have hsplit : (x - 1) * (x + 1) = 0 := by linear_combination hroot
  rcases mul_eq_zero.mp hsplit with h | h
  · rw [sub_eq_zero.mp h, abs_one]
  · rw [eq_neg_of_add_eq_zero_left h, abs_neg, abs_one]

theorem threshold_indefinite : threshold 0 indefinite < 1 := by
  have hmax : indefinite.maxAbs = 1 := by
    show Scalar.max (Scalar.max (Scalar.max (0 : ℝ) |0|) |1|) |0| = 1
    simp only [OrderedScalar.max_eq]
    norm_num
  unfold threshold
  rw [OrderedScalar.max_eq, hmax]
  show max (0 : ℝ) (((2 : Nat) : ℝ) * ((2 ^ 52 : Nat) : ℝ)⁻¹ * 1) < 1
  norm_num

theorem factorize_inertia_indefinite :
    LinearSolver.checkInput indefinite = .ok () ∧
      (BlockLdl.decompose indefinite.toSymmetric).Splits indefinite.cols indefinite.toSymmetric ∧
      (∀ x ∈ spectrum ℝ ((BlockLdl.decompose indefinite.toSymmetric).blockDiagonal indefinite.cols),
        x ≠ 0 → threshold (new (0 : ℝ)).tolerance indefinite < |x|) ∧
      ∃ i : Inertia, ((new 0).factorize indefinite).1 = .ok i ∧
        i = eigenvalueInertia indefinite.isHermitian_symmetricMatrix ∧ i.dim = indefinite.rows ∧
        ∀ (tolerance : ℝ) (asked : List (Csc ℝ)) (j : Inertia), 0 ≤ tolerance →
          (LinearSolver.factorize indefinite
            (LinearSolver.after (SparseSolver.new tolerance) asked)).1 = .ok j → j = i := by
  have hsplits := BlockLdl.splits_decompose indefinite.toSymmetric
  have hgap : ∀ x ∈ spectrum ℝ
      ((BlockLdl.decompose indefinite.toSymmetric).blockDiagonal indefinite.cols),
      x ≠ 0 → threshold (new (0 : ℝ)).tolerance indefinite < |x| := by
    intro x hx _
    rw [blockDiagonal_indefinite] at hx
    exact threshold_indefinite.trans_le (one_le_abs_of_mem_spectrum hx)
  exact ⟨checkInput_indefinite, hsplits, hgap,
    factorize_inertia checkInput_indefinite hsplits hgap⟩

end DenseSolver

end NonlinearOpt
