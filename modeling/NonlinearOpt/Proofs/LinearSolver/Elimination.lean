import NonlinearOpt.Proofs.LinearSolver.Spectrum
import NonlinearOpt.LinearSolver.BlockLdl

namespace NonlinearOpt

section Blocks

open Matrix

def front (k n : Nat) : Fin k ⊕ Fin n ≃ Fin (n + k) :=
  finSumFinEquiv.trans (finCongr (Nat.add_comm k n))

@[simp]
theorem front_inl (k n : Nat) (i : Fin k) : (front k n (.inl i) : Nat) = i := rfl

@[simp]
theorem front_inr (k n : Nat) (j : Fin n) : (front k n (.inr j) : Nat) = k + j := rfl

variable {k n : Nat}

theorem Decomposed.block {M B : Matrix (Fin (n + k)) (Fin (n + k)) ℝ} {D : Matrix (Fin k) (Fin k) ℝ}
    {U W : Matrix (Fin n) (Fin k) ℝ} {C B' : Matrix (Fin n) (Fin n) ℝ}
    (hM : M.submatrix (front k n) (front k n) = fromBlocks D U.transpose U C)
    (hB : B.submatrix (front k n) (front k n) = fromBlocks D 0 0 B')
    (hD : D.transpose = D) (hW : W * D = U) (h : Decomposed (C - W * U.transpose) B') :
    Decomposed M B := by
  obtain ⟨σ, L, hunit, hlower, hproduct⟩ := h
  let τ : Equiv.Perm (Fin k ⊕ Fin n) := Equiv.sumCongr (Equiv.refl _) σ
  let F : Matrix (Fin k ⊕ Fin n) (Fin k ⊕ Fin n) ℝ := fromBlocks 1 0 (W.submatrix σ id) L
  have hfront : ∀ N : Matrix (Fin (n + k)) (Fin (n + k)) ℝ,
      N = (N.submatrix (front k n) (front k n)).submatrix (front k n).symm (front k n).symm := by
    intro N
    simp
  refine ⟨(front k n).symm.trans (τ.trans (front k n)),
    F.submatrix (front k n).symm (front k n).symm, ?_, ?_, ?_⟩
  · intro i
    obtain ⟨i, rfl⟩ := (front k n).surjective i
    rcases i with i | i
    · simp [F]
    · simp [F, hunit]
  · intro i j hij
    obtain ⟨i, rfl⟩ := (front k n).surjective i
    obtain ⟨j, rfl⟩ := (front k n).surjective j
    rw [Fin.lt_def] at hij
    rcases i with i | i <;> rcases j with j | j
    · have hne : i ≠ j := fun h => by simp [h] at hij
      simp [F, hne]
    · simp [F]
    · simp at hij
      omega
    · simpa [F] using hlower i j (by simpa using hij)
  · -- the front splits off, and what is left is decomposed in the order `σ`
    have hmiddle : (fromBlocks D U.transpose U C).submatrix τ τ =
        F * fromBlocks D 0 0 B' * F.transpose := by
      have hU : W.submatrix σ id * D = U.submatrix σ id := by
        rw [← hW]
        rfl
      have hU' : D * (W.submatrix σ id).transpose = (U.submatrix σ id).transpose := by
        rw [← hU, transpose_mul, hD]
      have hrest : C.submatrix σ σ = W.submatrix σ id * (U.submatrix σ id).transpose +
          L * B' * L.transpose := by
        rw [← hproduct]
        ext1 i j
        simp [mul_apply]
      simp only [F, fromBlocks_transpose, fromBlocks_multiply, Matrix.mul_zero, Matrix.zero_mul,
        Matrix.one_mul, Matrix.mul_one, add_zero, zero_add, transpose_one, transpose_zero, hU]
      rw [hU', ← hU, Matrix.mul_assoc, hU', ← hrest]
      ext1 i j
      rcases i with i | i <;> rcases j with j | j <;> simp [τ, hU]
    rw [hfront B, hB, transpose_submatrix, submatrix_mul_equiv, submatrix_mul_equiv, ← hmiddle, ← hM]
    rfl

theorem Decomposed.of_submatrix {M B : Matrix (Fin n) (Fin n) ℝ} (τ : Equiv.Perm (Fin n))
    (h : Decomposed (M.submatrix τ τ) B) : Decomposed M B := by
  obtain ⟨σ, L, hunit, hlower, hproduct⟩ := h
  exact ⟨σ.trans τ, L, hunit, hlower, hproduct⟩

theorem Block.band_append {ds ss diag subdiag : List ℝ} (hdiag : ds.length = k)
    (hsubdiag : ss.length = k) (hlast : ss.getD (k - 1) 0 = 0) :
    (band (n + k) (ds ++ diag) (ss ++ subdiag)).submatrix (front k n) (front k n) =
      fromBlocks (band k ds ss) 0 0 (band n diag subdiag) := by
  have hhead : ∀ (xs ys : List ℝ) (i : Fin k), xs.length = k →
      (xs ++ ys).getD i 0 = xs.getD i 0 := by
    intro xs ys i hlength
    exact List.getD_append _ _ _ _ (by omega)
  have htail : ∀ (xs ys : List ℝ) (i : Nat), xs.length = k →
      (xs ++ ys).getD (k + i) 0 = ys.getD i 0 := by
    intro xs ys i hlength
    rw [List.getD_append_right _ _ _ _ (by omega), hlength, Nat.add_sub_cancel_left]
  have hbetween : ∀ (i : Fin k) (j : Nat),
      bandAt (ds ++ diag) (ss ++ subdiag) i (k + j) = 0 := by
    intro i j
    unfold bandAt
    rw [if_neg (by omega), hhead ss subdiag i hsubdiag, if_neg (c := k + j + 1 = i) (by omega)]
    split_ifs with hnext
    · rwa [show (i : Nat) = k - 1 by omega]
    · rfl
  ext1 i j
  rcases i with i | i <;> rcases j with j | j
  · show bandAt (ds ++ diag) (ss ++ subdiag) i j = bandAt ds ss i j
    simp only [bandAt, hhead ds diag i hdiag, hhead ss subdiag i hsubdiag,
      hhead ss subdiag j hsubdiag]
  · exact hbetween i j
  · exact (bandAt_comm _ _ _ _).trans (hbetween j i)
  · show bandAt (ds ++ diag) (ss ++ subdiag) (k + i) (k + j) = bandAt diag subdiag i j
    simp only [bandAt, htail ds diag _ hdiag, htail ss subdiag _ hsubdiag, Nat.add_assoc,
      Nat.add_left_cancel_iff]

end Blocks

namespace Symmetric

section Entries

variable {α : Type} [Scalar α]

theorem get_comm (a : Symmetric α) (i j : Nat) : a.get i j = a.get j i := by
  simp only [get, Nat.max_eq_max, Nat.min_eq_min, max_comm, min_comm]

theorem get_ofFn {n : Nat} (f : Nat → Nat → α) {i j : Nat} (hji : j ≤ i) (hi : i < n) :
    (ofFn n f).get i j = f i j := by
  simp [get, ofFn, Nat.max_eq_left hji, Nat.min_eq_right hji, hi, Nat.lt_succ_of_le hji]

theorem getD_column (a : Symmetric α) {first i j : Nat} (hi : first + i < a.size) :
    (a.column first j).getD i 0 = a.get (first + i) j := by
  simp [column, show i < a.size - first by omega]

end Entries

theorem matrix_ofFn {n : Nat} {f : Nat → Nat → ℝ} {M : Matrix (Fin n) (Fin n) ℝ}
    (hM : M.transpose = M) (hf : ∀ i j : Fin n, f i j = M i j) : (ofFn n f).matrix n = M := by
  ext1 i j
  show (ofFn n f).get i j = M i j
  rcases Nat.le_total j i with hji | hij
  · rw [get_ofFn f hji i.isLt, hf]
  · rw [get_comm, get_ofFn f hij j.isLt, hf, ← Matrix.transpose_apply M i j, hM]

theorem transpose_matrix (n : Nat) (a : Symmetric ℝ) : (a.matrix n).transpose = a.matrix n := by
  ext1 i j
  exact a.get_comm j i

theorem get_swap (a : Symmetric ℝ) (p q : Nat) {i j : Nat} (hi : i < a.size) (hj : j < a.size) :
    (a.swap p q).get i j = a.get (Equiv.swap p q i) (Equiv.swap p q j) := by
  simp only [Equiv.swap_apply_def]
  rcases Nat.le_total j i with hji | hij
  · exact get_ofFn _ hji hi
  · rw [get_comm, a.get_comm]
    exact get_ofFn _ hij hj

theorem matrix_swap {n : Nat} {a : Symmetric ℝ} (hsize : a.size = n) (p q : Fin n) :
    (a.swap p q).matrix n = (a.matrix n).submatrix (Equiv.swap p q) (Equiv.swap p q) := by
  have hval : ∀ i : Fin n, Equiv.swap (p : Nat) q i = (Equiv.swap p q i : Fin n) := by
    intro i
    simp only [Equiv.swap_apply_def, Fin.ext_iff]
    split_ifs <;> rfl
  ext1 i j
  show (a.swap p q).get i j = a.get (Equiv.swap p q i : Fin n) (Equiv.swap p q j : Fin n)
  rw [a.get_swap p q (hsize ▸ i.isLt) (hsize ▸ j.isLt), hval, hval]

theorem foldl_largest (f : Nat → ℝ) (indices : List Nat) (start : Nat × ℝ) :
    let best := indices.foldl (fun (k, m) i =>
      let v := Scalar.abs (f i)
      if Scalar.lt m v then (i, v) else (k, m)) start
    start.2 ≤ best.2 ∧ (∀ i ∈ indices, |f i| ≤ best.2) ∧
      (best = start ∨ best.1 ∈ indices ∧ best.2 = |f best.1|) := by
  induction indices generalizing start with
  | nil => simp
  | cons i indices ih =>
    obtain ⟨k, m⟩ := start
    simp only [List.foldl_cons]
    by_cases hlt : Scalar.lt m (Scalar.abs (f i)) = true
    · rw [if_pos hlt]
      obtain ⟨hle, hall, hbest⟩ := ih (i, Scalar.abs (f i))
      have hlt' : m < |f i| := OrderedScalar.lt_iff.mp hlt
      refine ⟨hlt'.le.trans hle, ?_, .inr ?_⟩
      · rw [List.forall_mem_cons]
        exact ⟨hle, hall⟩
      · rcases hbest with hstart | ⟨hmem, hvalue⟩
        · rw [hstart]
          exact ⟨List.mem_cons_self, rfl⟩
        · exact ⟨List.mem_cons_of_mem _ hmem, hvalue⟩
    · rw [if_neg hlt]
      obtain ⟨hle, hall, hbest⟩ := ih (k, m)
      have hge : |f i| ≤ m := not_lt.mp fun h => hlt (OrderedScalar.lt_iff.mpr h)
      refine ⟨hle, ?_, ?_⟩
      · rw [List.forall_mem_cons]
        exact ⟨hge.trans hle, hall⟩
      · rcases hbest with hstart | ⟨hmem, hvalue⟩
        · exact .inl hstart
        · exact .inr ⟨List.mem_cons_of_mem _ hmem, hvalue⟩

variable {a : Symmetric ℝ} {first j k : Nat} {m : ℝ}

theorem le_of_largest (h : a.largest first j = (k, m)) {i : Nat} (hfirst : first ≤ i)
    (hi : i < a.size) (hij : i ≠ j) : |a.get i j| ≤ m := by
  have hle := (foldl_largest (a.get · j) ((List.range' first (a.size - first)).filter (· ≠ j))
    (first, 0)).2.1 i
  rw [List.mem_filter, List.mem_range'_1] at hle
  exact (hle ⟨⟨hfirst, by omega⟩, by simpa using hij⟩).trans_eq (congrArg Prod.snd h)

theorem eq_of_largest (h : a.largest first j = (k, m)) (hm : 0 < m) :
    first ≤ k ∧ k < a.size ∧ m = |a.get k j| := by
  have hbest : a.largest first j = (first, 0) ∨
      (a.largest first j).1 ∈ (List.range' first (a.size - first)).filter (· ≠ j) ∧
        (a.largest first j).2 = |a.get (a.largest first j).1 j| :=
    (foldl_largest (a.get · j) _ (first, 0)).2.2
  rw [h] at hbest
  rcases hbest with hstart | ⟨hmem, hvalue⟩
  · exact absurd (congrArg Prod.snd hstart) hm.ne'
  · rw [List.mem_filter, List.mem_range'_1] at hmem
    obtain ⟨⟨hge, hlt⟩, -⟩ := hmem
    simp only at hge hlt
    exact ⟨hge, by omega, hvalue⟩

end Symmetric

namespace BlockLdl

theorem balance_pos : (0 : ℝ) < balance := by
  show (0 : ℝ) < (1 + √17) / (8 : Nat)
  positivity

theorem balance_lt_one : (balance : ℝ) < 1 := by
  have hroot : √17 < 7 := by
    rw [Real.sqrt_lt' (by norm_num)]
    norm_num
  show (1 + √(17 : Nat)) / (8 : Nat) < (1 : ℝ)
  push_cast
  linarith

theorem le_abs_iff {x y : ℝ} : Scalar.le x (Scalar.abs y) = true ↔ x ≤ |y| := OrderedScalar.le_iff

/-- What a chosen pivot is good for: a block of size one may only be zero if its column is, and a
block of size two is regular. -/
def Chosen (a : Symmetric ℝ) : Bool × Nat → Prop
  | (false, r) => r < a.size ∧
      (a.get r r = 0 → r = 0 ∧ ∀ i, 0 < i → i < a.size → a.get i 0 = 0)
  | (true, r) => 0 < r ∧ r < a.size ∧ a.get r 0 ≠ 0 ∧
      a.get 0 0 * a.get r r ≠ a.get r 0 * a.get r 0

theorem mul_lt_of_balance {p s q m : ℝ} (hq : 0 < q) (hm : 0 < m)
    (hp : |p| < balance * q * (q / m)) (hs : |s| < balance * m) : |p * s| < q * q := by
  calc |p * s| = |p| * |s| := abs_mul p s
    _ < balance * q * (q / m) * (balance * m) :=
        mul_lt_mul'' hp hs (abs_nonneg _) (abs_nonneg _)
    _ = balance * balance * (q * q) := by field_simp
    _ ≤ 1 * (q * q) := by
        apply mul_le_mul_of_nonneg_right _ (mul_self_nonneg q)
        exact mul_le_one₀ balance_lt_one.le balance_pos.le balance_lt_one.le
    _ = q * q := one_mul _

theorem chosen_choose {a : Symmetric ℝ} (hsize : 0 < a.size) : Chosen a (choose a) := by
  obtain ⟨⟨r, c⟩, hcolumn⟩ : ∃ best, a.largest 1 0 = best := ⟨_, rfl⟩
  obtain ⟨⟨k, m⟩, hrow⟩ : ∃ best, a.largest 0 r = best := ⟨_, rfl⟩
  have hpivot : ∀ {x : ℝ}, 0 < x → ∀ {i}, x ≤ |a.get i i| → a.get i i ≠ 0 := by
    intro x hx i hle
    exact abs_pos.mp (hx.trans_le hle)
  -- If the first entry is not large enough, its column has a largest entry and so has the row of it.
  have hlarge : ¬balance * c ≤ |a.get 0 0| →
      0 < c ∧ 1 ≤ r ∧ r < a.size ∧ c = |a.get r 0| ∧ 0 < m := by
    intro hsmall
    have hc : 0 < c :=
      (mul_pos_iff_of_pos_left balance_pos).mp ((abs_nonneg _).trans_lt (not_le.mp hsmall))
    obtain ⟨hr, hrsize, hvalue⟩ := Symmetric.eq_of_largest hcolumn hc
    have hle : c ≤ m := by
      rw [hvalue, Symmetric.get_comm]
      exact Symmetric.le_of_largest hrow (Nat.zero_le _) hsize (by omega)
    exact ⟨hc, hr, hrsize, hvalue, hc.trans_le hle⟩
  unfold choose
  simp only [hcolumn, hrow, le_abs_iff]
  split_ifs with hfirst hgrown hsecond
  · refine ⟨hsize, fun hzero => ⟨rfl, fun i hpos hi => ?_⟩⟩
    have hfirst : balance * c ≤ |a.get 0 0| := hfirst.resolve_left (by omega)
    have hc : c ≤ 0 := by
      by_contra hc
      exact hpivot (mul_pos balance_pos (not_le.mp hc)) hfirst hzero
    have hentry := Symmetric.le_of_largest hcolumn hpos hi hpos.ne'
    exact abs_nonpos_iff.mp (hentry.trans hc)
  · obtain ⟨hc, -, -, -, hm⟩ := hlarge fun hle => hfirst (.inr hle)
    have hbound := mul_pos (mul_pos balance_pos hc) (div_pos hc hm)
    exact ⟨hsize, fun hzero => absurd hzero (hpivot hbound hgrown)⟩
  · obtain ⟨-, -, hr, -, hm⟩ := hlarge fun hle => hfirst (.inr hle)
    exact ⟨hr, fun hzero => absurd hzero (hpivot (mul_pos balance_pos hm) hsecond)⟩
  · obtain ⟨hc, hpos, hr, hvalue, hm⟩ := hlarge fun hle => hfirst (.inr hle)
    refine ⟨hpos, hr, abs_pos.mp (hvalue ▸ hc), fun hsingular => ?_⟩
    have hlt := mul_lt_of_balance hc hm (not_le.mp hgrown) (not_le.mp hsecond)
    rw [hsingular, abs_mul, ← hvalue] at hlt
    exact lt_irrefl _ hlt

/-- One elimination step: the block `b` in front, the columns `W` of `L` below it and the matrix that
is left. -/
theorem decomposed_of_rest {k n : Nat} {a : Symmetric ℝ} {b : Block ℝ} {diag subdiag : List ℝ}
    {f : Nat → Nat → ℝ} (W : Matrix (Fin n) (Fin k) ℝ)
    (hdiag : b.diag.length = k) (hsubdiag : b.subdiag.length = k)
    (hlast : b.subdiag.getD (k - 1) 0 = 0)
    (hblock : ∀ i j : Fin k, a.get i j = Block.bandAt b.diag b.subdiag i j)
    (hbelow : ∀ (i : Fin n) (c : Fin k), ∑ c', W i c' * a.get c' c = a.get (k + i) c)
    (hrest : ∀ i j : Fin n, f i j = a.get (k + i) (k + j) - ∑ c, W i c * a.get (k + j) c)
    (h : Decomposed ((Symmetric.ofFn n f).matrix n) (Block.band n diag subdiag)) :
    Decomposed (a.matrix (n + k)) (Block.band (n + k) (b.diag ++ diag) (b.subdiag ++ subdiag)) := by
  let D : Matrix (Fin k) (Fin k) ℝ := a.matrix k
  let U : Matrix (Fin n) (Fin k) ℝ := Matrix.of fun i c => a.get (k + i) c
  let C : Matrix (Fin n) (Fin n) ℝ := Matrix.of fun i j => a.get (k + i) (k + j)
  have hW : W * D = U := by
    ext1 i c
    exact hbelow i c
  have hD : D.transpose = D := a.transpose_matrix k
  have hC : (Symmetric.ofFn n f).matrix n = C - W * U.transpose := by
    refine Symmetric.matrix_ofFn (M := C - W * U.transpose) ?_ fun i j => hrest i j
    rw [Matrix.transpose_sub, Matrix.transpose_mul, Matrix.transpose_transpose, ← hW,
      Matrix.transpose_mul, hD, Matrix.mul_assoc]
    congr 1
    ext1 i j
    exact a.get_comm _ _
  apply Decomposed.block (D := D) (U := U) (C := C) (W := W) _ _ hD hW (hC ▸ h)
  · ext1 i j
    rcases i with i | i <;> rcases j with j | j
    · rfl
    · exact a.get_comm _ _
    · rfl
    · rfl
  · have hband : D = Block.band k b.diag b.subdiag := by
      ext1 i j
      exact hblock i j
    rw [hband]
    exact Block.band_append hdiag hsubdiag hlast

variable {n : Nat} {a : Symmetric ℝ} {diag subdiag : List ℝ}

theorem decomposed_single (hsize : a.size = n + 1)
    (hpivot : a.get 0 0 = 0 → ∀ i, 0 < i → i < a.size → a.get i 0 = 0)
    (h : Decomposed ((single a).2.2.matrix n) (Block.band n diag subdiag)) :
    Decomposed (a.matrix (n + 1))
      (Block.band (n + 1) ((single a).1.diag ++ diag) ((single a).1.subdiag ++ subdiag)) := by
  set u := a.column 1 0 with hu
  set l := if u.all (Scalar.eq · 0) then u else u.map (· * (1 / a.get 0 0)) with hl
  have hcolumn : ∀ i : Fin n, u.getD i 0 = a.get (1 + i) 0 :=
    fun i => a.getD_column (by omega)
  have hbelow : ∀ i : Fin n, l.getD i 0 * a.get 0 0 = a.get (1 + i) 0 := by
    intro i
    have hi : (i : Nat) < u.size := by simp [hu, Symmetric.column, hsize]
    by_cases hzero : a.get 0 0 = 0
    · rw [hzero, mul_zero, hpivot hzero (1 + i) (by omega) (by omega)]
    · rw [← hcolumn, hl]
      by_cases hall : u.all (Scalar.eq · 0) = true
      · have hnone : u.getD i 0 = 0 := by
          simpa [hi] using ExactScalar.eq_iff.mp (Array.all_eq_true.mp hall i hi)
        rw [if_pos hall, hnone, zero_mul]
      · have hscaled : (u.map (· * (1 / a.get 0 0))).getD i 0 = u.getD i 0 * (1 / a.get 0 0) := by
          simp [hi]
        rw [if_neg hall, hscaled, mul_assoc, one_div_mul_cancel hzero, mul_one]
  apply decomposed_of_rest (Matrix.of fun (i : Fin n) (_ : Fin 1) => l.getD i 0) rfl rfl rfl _ _ _
    (f := fun i j => a.get (i + 1) (j + 1) - l.getD i 0 * u.getD j 0)
  · have hrest : (single a).2.2 = Symmetric.ofFn n
        fun i j => a.get (i + 1) (j + 1) - l.getD i 0 * u.getD j 0 := by
      unfold single
      rw [hsize]
      rfl
    rwa [hrest] at h
  · intro i j
    fin_cases i
    fin_cases j
    rfl
  · intro i c
    fin_cases c
    simpa using hbelow i
  · intro i j
    simp [hcolumn, Nat.add_comm 1]

theorem solveDouble_solves {p q s : ℝ} (hq : q ≠ 0) (hregular : p * s ≠ q * q) (x y : ℝ) :
    (solveDouble p q s x y).1 * p + (solveDouble p q s x y).2 * q = x ∧
      (solveDouble p q s x y).1 * q + (solveDouble p q s x y).2 * s = y := by
  have hscaled : 1 / q * p * (1 / q * s) - 1 ≠ 0 := by
    intro hzero
    apply hregular
    field_simp at hzero
    linarith
  unfold solveDouble
  simp only
  set t := 1 / q * p * (1 / q * s) - 1 with ht
  constructor
  · calc (1 / q * s * (x * (1 / q)) - y * (1 / q)) * (1 / t) * p +
          (1 / q * p * (y * (1 / q)) - x * (1 / q)) * (1 / t) * q
        = x * (1 / t) * (1 / q * p * (1 / q * s) - (1 / q * q)) +
          y * (1 / t) * (1 / q * p) * (1 / q * q - 1) := by ring
      _ = x := by
        rw [one_div_mul_cancel hq, ← ht, sub_self, mul_zero, add_zero, mul_assoc,
          one_div_mul_cancel hscaled, mul_one]
  · calc (1 / q * s * (x * (1 / q)) - y * (1 / q)) * (1 / t) * q +
          (1 / q * p * (y * (1 / q)) - x * (1 / q)) * (1 / t) * s
        = y * (1 / t) * (1 / q * p * (1 / q * s) - (1 / q * q)) +
          x * (1 / t) * (1 / q * s) * (1 / q * q - 1) := by ring
      _ = y := by
        rw [one_div_mul_cancel hq, ← ht, sub_self, mul_zero, add_zero, mul_assoc,
          one_div_mul_cancel hscaled, mul_one]

theorem decomposed_double (hsize : a.size = n + 2) (hcoupled : a.get 1 0 ≠ 0)
    (hregular : a.get 0 0 * a.get 1 1 ≠ a.get 1 0 * a.get 1 0)
    (h : Decomposed ((double a).2.2.matrix n) (Block.band n diag subdiag)) :
    Decomposed (a.matrix (n + 2))
      (Block.band (n + 2) ((double a).1.diag ++ diag) ((double a).1.subdiag ++ subdiag)) := by
  set solution := fun x y => solveDouble (a.get 0 0) (a.get 1 0) (a.get 1 1) x y with hsolution
  set l := Array.zipWith (fun x y => (solution x y).1) (a.column 2 0) (a.column 2 1) with hl
  set m := Array.zipWith (fun x y => (solution x y).2) (a.column 2 0) (a.column 2 1) with hm
  have hcolumn : ∀ (i : Fin n) (j : Nat), (a.column 2 j).getD i 0 = a.get (2 + i) j :=
    fun i j => a.getD_column (by omega)
  have hzip : ∀ (f : ℝ → ℝ → ℝ) (i : Fin n),
      (Array.zipWith f (a.column 2 0) (a.column 2 1)).getD i 0 =
        f (a.get (2 + i) 0) (a.get (2 + i) 1) := by
    intro f i
    rw [← hcolumn i 0, ← hcolumn i 1]
    simp [Symmetric.column, hsize]
  have hsolves := fun i : Fin n =>
    solveDouble_solves hcoupled hregular (a.get (2 + i) 0) (a.get (2 + i) 1)
  apply decomposed_of_rest
    (Matrix.of fun (i : Fin n) (c : Fin 2) => if c = 0 then l.getD i 0 else m.getD i 0)
    rfl rfl rfl _ _ _
    (f := fun i j => a.get (i + 2) (j + 2) - l.getD i 0 * (a.column 2 0).getD j 0 -
      m.getD i 0 * (a.column 2 1).getD j 0)
  · have hrest : (double a).2.2 = Symmetric.ofFn n fun i j => a.get (i + 2) (j + 2) -
        l.getD i 0 * (a.column 2 0).getD j 0 - m.getD i 0 * (a.column 2 1).getD j 0 := by
      unfold double
      rw [hsize]
      rfl
    rwa [hrest] at h
  · intro i j
    fin_cases i <;> fin_cases j <;> rfl
  · intro i c
    rw [Fin.sum_univ_two]
    simp only [Matrix.of_apply, hl, hm, hzip]
    fin_cases c
    · exact (hsolves i).1
    · simpa [a.get_comm 0 1] using (hsolves i).2
  · intro i j
    simp [hcolumn, Nat.add_comm 2, Fin.sum_univ_two, sub_sub]

end BlockLdl

section Steps

open BlockLdl

def Decomposition.ofBlocks {α : Type} [Scalar α] (blocks : List (Block α))
    (solve : Array α → Array α) : Decomposition α :=
  ⟨blocks.flatMap Block.diag, blocks.flatMap Block.subdiag, solve⟩

theorem Block.Marks.cons_zero {n : Nat} {subdiag : List ℝ} (h : Marks n subdiag) :
    Marks (n + 1) (0 :: subdiag) := by
  intro k hk hne
  cases k with
  | zero => exact absurd rfl hne
  | succ k => exact h k (by omega) hne

theorem Block.Marks.cons_coupled {n : Nat} {b : ℝ} {subdiag : List ℝ}
    (h : Marks (n + 1) (0 :: subdiag)) : Marks (n + 2) (b :: 0 :: subdiag) := by
  intro k hk hne
  cases k with
  | zero => rfl
  | succ k => exact h k (by omega) hne

variable {n : Nat} {a : Symmetric ℝ} {solve : Array ℝ → Array ℝ} {blocks : List (Block ℝ)}

theorem Decomposition.splits_nil : (ofBlocks [] solve).Splits 0 a :=
  ⟨rfl, fun k hk => absurd hk (by omega), 1, 1, fun i => i.elim0, fun i => i.elim0,
    Subsingleton.elim _ _⟩

theorem Decomposition.Splits.single (hsize : a.size = n + 1) {r : Nat}
    (hchosen : Chosen a (false, r))
    (h : (ofBlocks blocks solve).Splits n (BlockLdl.single (a.swap 0 r)).2.2) :
    (ofBlocks ((BlockLdl.single (a.swap 0 r)).1 :: blocks) solve).Splits (n + 1) a := by
  obtain ⟨hr, hpivot⟩ := hchosen
  refine ⟨congrArg (· + 1) h.length, h.marks.cons_zero, ?_⟩
  apply Decomposed.of_submatrix (Equiv.swap 0 ⟨r, hsize ▸ hr⟩)
  rw [← Symmetric.matrix_swap hsize]
  apply decomposed_single (a := a.swap 0 r) hsize _ h.product
  intro hzero i hpos hi
  rw [a.get_swap 0 r (by omega) (by omega), Equiv.swap_apply_left] at hzero
  obtain ⟨rfl, hcolumn⟩ := hpivot hzero
  rw [a.get_swap 0 0 hi (by omega), Equiv.swap_self]
  exact hcolumn i hpos hi

theorem Decomposition.Splits.double (hsize : a.size = n + 2) {r : Nat}
    (hchosen : Chosen a (true, r))
    (h : (ofBlocks blocks solve).Splits n (BlockLdl.double (a.swap 1 r)).2.2) :
    (ofBlocks ((BlockLdl.double (a.swap 1 r)).1 :: blocks) solve).Splits (n + 2) a := by
  obtain ⟨hpos, hr, hcoupled, hregular⟩ := hchosen
  have hfirst : Equiv.swap 1 r 0 = 0 :=
    Equiv.swap_apply_of_ne_of_ne (Nat.zero_ne_one) hpos.ne
  refine ⟨congrArg (· + 2) h.length, h.marks.cons_zero.cons_coupled, ?_⟩
  apply Decomposed.of_submatrix (Equiv.swap 1 ⟨r, hsize ▸ hr⟩)
  rw [← Symmetric.matrix_swap hsize]
  apply decomposed_double (a := a.swap 1 r) hsize _ _ h.product
  · rwa [a.get_swap 1 r (by omega) (by omega), Equiv.swap_apply_left, hfirst]
  · rwa [a.get_swap 1 r (by omega) (by omega), a.get_swap 1 r (by omega) (by omega),
      a.get_swap 1 r (by omega) (by omega), Equiv.swap_apply_left, hfirst]

theorem Decomposition.splits_factor (fuel n : Nat) (a : Symmetric ℝ) (hsize : a.size = n)
    (hfuel : n ≤ fuel) : (ofBlocks (BlockLdl.blocks (factor fuel a)) solve).Splits n a := by
  induction fuel generalizing n a with
  | zero =>
    obtain rfl : n = 0 := by omega
    exact splits_nil
  | succ fuel ih =>
    rcases Nat.eq_zero_or_pos n with rfl | hpos
    · rw [factor, if_pos hsize]
      exact splits_nil
    · rw [factor, if_neg (by omega)]
      have hchosen := chosen_choose (hsize ▸ hpos)
      revert hchosen
      cases choose a with
      | mk coupled r =>
        intro hchosen
        cases coupled with
        | false =>
          obtain ⟨m, rfl⟩ : ∃ m, n = m + 1 := ⟨n - 1, by omega⟩
          exact (ih m _ (congrArg (· - 1) hsize) (by omega)).single hsize hchosen
        | true =>
          have hlt : 0 < r ∧ r < a.size := ⟨hchosen.1, hchosen.2.1⟩
          obtain ⟨m, rfl⟩ : ∃ m, n = m + 2 := ⟨n - 2, by omega⟩
          exact (ih m _ (congrArg (· - 2) hsize) (by omega)).double hsize hchosen

end Steps

/-- Elimination decomposes every matrix. -/
theorem BlockLdl.splits_decompose (a : Symmetric ℝ) : (decompose a).Splits a.size a :=
  Decomposition.splits_factor a.size a.size a rfl (Nat.le_refl _)

end NonlinearOpt
