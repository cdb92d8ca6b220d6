import Mathlib
import NonlinearOpt.Proofs.Ldl.Defined
import NonlinearOpt.Proofs.Ldl.Inertia

/-!
Solutions of factored systems. A right hand side is brought into the order of elimination, swept down
and up the columns of the factor with a scaling in between, and put back in the order of the matrix;
what comes out is the only solution there is.
-/

namespace NonlinearOpt

variable {K : Type} [LinearOrder K] [ExactScalar K]

structure Csc.Solves (a : Csc K) (b x : Array K) : Prop where
  size : x.size = a.rows
  equation : a.symmetricMatrix.mulVec (fun i : Fin a.rows => x.getD i 0) =
    fun i : Fin a.rows => b.getD i 0

/-- The one vector that solves a system. -/
def Csc.IsSolution (a : Csc K) (b x : Array K) : Prop := ∀ x', a.Solves b x' ↔ x' = x

namespace Ldl

namespace Factorization

section Sweeps

def StrictlyLower (n : Nat) (columns : List (List (Nat × K))) : Prop :=
  ∀ (c : Nat) column, columns[c]? = some column → ∀ e ∈ column, c < e.1 ∧ e.1 < n

variable {n : Nat} {columns : List (List (Nat × K))}

omit [LinearOrder K] [ExactScalar K] in
theorem StrictlyLower.init {column : List (Nat × K)}
    (h : StrictlyLower n (columns ++ [column])) : StrictlyLower n columns := by
  intro c column' hc
  have hlt := (List.getElem?_eq_some_iff.mp hc).1
  exact h c column' (by rw [List.getElem?_append_left hlt, hc])

omit [LinearOrder K] [ExactScalar K] in
theorem StrictlyLower.last {column : List (Nat × K)}
    (h : StrictlyLower n (columns ++ [column])) :
    ∀ e ∈ column, columns.length < e.1 ∧ e.1 < n :=
  h _ column (by simp)

theorem StrictlyLower.sumAt_last {column : List (Nat × K)}
    (h : StrictlyLower n (columns ++ [column])) {i : Nat} (hi : i ≤ columns.length) :
    sumAt column i = 0 := by
  apply sumAt_eq_zero
  intro hmem
  obtain ⟨e, he, rfl⟩ := List.mem_map.mp hmem
  exact absurd (h.last e he).1 (not_lt.mpr hi)

omit [LinearOrder K] [ExactScalar K] in
theorem getD_concat_of_lt {column : List (Nat × K)} {c : Nat} (hc : c < columns.length) :
    (columns ++ [column]).getD c [] = columns.getD c [] := by
  rw [List.getD_append _ _ _ _ hc]

/-- Column by column, a sweep down solves the system of the unit lower triangle. -/
theorem exists_forward? (hlower : StrictlyLower n columns) (hlength : columns.length ≤ n)
    {y : Array K} (hy : y.size = n) :
    ∃ z, forward? columns y = some z ∧ z.size = n ∧ ∀ i : Nat, z.getD i 0 +
      ∑ c ∈ Finset.range columns.length, sumAt (columns.getD c []) i * z.getD c 0 =
        y.getD i 0 := by
  induction columns using List.reverseRecOn with
  | nil => exact ⟨y, rfl, hy, by simp⟩
  | append_singleton columns column ih =>
    rw [List.length_append, List.length_singleton] at hlength
    obtain ⟨z, hz, hsize, hsolves⟩ := ih hlower.init (by omega)
    have hlast := hlower.last
    have hx : z[columns.length]? = some (z.getD columns.length 0) := by
      simp [show columns.length < z.size by omega]
    obtain ⟨w, hw, hwsize⟩ := exists_subtract? (y := z.getD columns.length 0) (v := z)
      fun e he => hsize.symm ▸ (hlast e he).2
    obtain ⟨-, hget⟩ := subtract?_getD hw
    refine ⟨w, ?_, hwsize.trans hsize, ?_⟩
    · unfold forward?
      rw [List.zipIdx_append, List.foldlM_append]
      refine Option.bind_eq_some_iff.mpr ⟨z, hz, foldlM_cons_eq_some.mpr ⟨w, ?_, rfl⟩⟩
      simp only [Nat.zero_add, hx, Option.bind_eq_bind, Option.bind_some]
      exact hw
    · -- the numbers above the last column stay as they are
      have hkept : ∀ c, c ≤ columns.length → w.getD c 0 = z.getD c 0 := by
        intro c hc
        rw [hget, hlower.sumAt_last hc, zero_mul, sub_zero]
      have hterms : ∀ i, ∑ c ∈ Finset.range columns.length,
          sumAt ((columns ++ [column]).getD c []) i * w.getD c 0 =
            ∑ c ∈ Finset.range columns.length, sumAt (columns.getD c []) i * z.getD c 0 := by
        intro i
        apply Finset.sum_congr rfl
        intro c hc
        have hlt := Finset.mem_range.mp hc
        rw [getD_concat_of_lt hlt, hkept c hlt.le]
      intro i
      rw [List.length_append, List.length_singleton, Finset.sum_range_succ, hterms,
        hkept _ (Nat.le_refl _), hget, ← hsolves i]
      simp

theorem gather_eq {x : Array K} {column : List (Nat × K)}
    (hcolumn : ∀ e ∈ column, e.1 < x.size) (start : K) :
    column.foldlM (fun s (r, l) => do return s + l * (← x[r]?)) start =
      some (start + ∑ r ∈ Finset.range x.size, sumAt column r * x.getD r 0) := by
  rw [Csc.sum_sumAt_mul column hcolumn]
  induction column generalizing start with
  | nil => simp
  | cons e column ih =>
    have he : x[e.1]? = some (x.getD e.1 0) := by
      simp [hcolumn e (by simp)]
    refine foldlM_cons_eq_some.mpr ⟨start + e.2 * x.getD e.1 0, ?_, ?_⟩
    · simp only [he, Option.bind_eq_bind, Option.bind_some, Option.pure_def]
    · rw [ih fun e' he' => hcolumn e' (by simp [he']), List.map_cons, List.sum_cons, add_assoc]

/-- Column by column, a sweep up solves the system of the transposed triangle. -/
theorem exists_backward? (hlower : StrictlyLower n columns) (hlength : columns.length ≤ n)
    {w : Array K} (hw : w.size = n) :
    ∃ v, backward? columns w = some v ∧ v.size = n ∧
      (∀ i : Nat, columns.length ≤ i → v.getD i 0 = w.getD i 0) ∧
      ∀ i, i < columns.length → v.getD i 0 +
        ∑ r ∈ Finset.range n, sumAt (columns.getD i []) r * v.getD r 0 = w.getD i 0 := by
  induction columns using List.reverseRecOn generalizing w with
  | nil => exact ⟨w, rfl, hw, by simp, by simp⟩
  | append_singleton columns column ih =>
    rw [List.length_append, List.length_singleton] at hlength
    have hlast := hlower.last
    have hbound : columns.length < w.size := by omega
    obtain ⟨w', hw', hsize⟩ := exists_replace? w (i := columns.length)
      (w.getD columns.length 0 - ∑ r ∈ Finset.range n, sumAt column r * w.getD r 0) hbound
    have hget : ∀ i : Nat, w'.getD i 0 = if columns.length = i then
        w.getD columns.length 0 - ∑ r ∈ Finset.range n, sumAt column r * w.getD r 0
        else w.getD i 0 := getD_of_replace? hw'
    obtain ⟨v, hv, hvsize, hkept, hsolves⟩ := ih hlower.init (by omega) (hsize.trans hw)
    refine ⟨v, ?_, hvsize, ?_, ?_⟩
    · unfold backward?
      rw [List.zipIdx_append, List.reverse_append, List.zipIdx_singleton, List.reverse_singleton,
        List.singleton_append]
      refine foldlM_cons_eq_some.mpr ⟨w', ?_, hv⟩
      have hgather := gather_eq (x := w) (fun e he => hw.symm ▸ (hlast e he).2) 0
      rw [hw, zero_add] at hgather
      simp only [Nat.zero_add]
      refine Option.bind_eq_some_iff.mpr ⟨_, hgather, ?_⟩
      exact modify?_eq_some.mpr ⟨w.getD columns.length 0, by simp [hbound], hw'⟩
    · intro i hi
      rw [List.length_append, List.length_singleton] at hi
      rw [hkept i (by omega), hget, if_neg (by omega)]
    · intro i hi
      rw [List.length_append, List.length_singleton] at hi
      rcases Nat.lt_succ_iff_lt_or_eq.mp hi with hlt | rfl
      · rw [getD_concat_of_lt hlt, hsolves i hlt, hget, if_neg (Nat.ne_of_gt hlt)]
      · -- the last column only meets numbers that are not changed any more
        have hterms : ∑ r ∈ Finset.range n, sumAt column r * v.getD r 0 =
            ∑ r ∈ Finset.range n, sumAt column r * w.getD r 0 := by
          apply Finset.sum_congr rfl
          intro r _
          rcases Nat.lt_or_ge columns.length r with hr | hr
          · rw [hkept r hr.le, hget, if_neg hr.ne]
          · rw [hlower.sumAt_last hr, zero_mul, zero_mul]
        rw [List.getD_append_right _ _ _ _ (Nat.le_refl _), Nat.sub_self, List.getD_cons_zero, hterms,
          hkept _ (Nat.le_refl _), hget, if_pos rfl, sub_add_cancel]

end Sweeps

section Scatter

omit [LinearOrder K] [ExactScalar K] in
theorem foldlM_replace? (ws : List (Nat × K)) (xs : Array K) (hws : ∀ w ∈ ws, w.1 < xs.size) :
    ws.foldlM (fun x (i, v) => replace? x i v) xs =
      some (ws.foldl (fun xs w => xs.setIfInBounds w.1 w.2) xs) := by
  induction ws generalizing xs with
  | nil => rfl
  | cons w ws ih =>
    have hfirst : replace? xs w.1 w.2 = some (xs.setIfInBounds w.1 w.2) :=
      replace?_eq_some.mpr ⟨hws w (by simp), rfl⟩
    refine foldlM_cons_eq_some.mpr ⟨xs.setIfInBounds w.1 w.2, hfirst, ih _ ?_⟩
    intro w' hw'
    rw [Array.size_setIfInBounds]
    exact hws w' (by simp [hw'])

theorem exists_scatter {places : List Nat} {b v : Array K} (hplaces : places.Nodup)
    (hlength : places.length = v.size) (hbound : ∀ i ∈ places, i < b.size) :
    ∃ x, (places.zip v.toList).foldlM (fun x (i, v) => replace? x i v) b = some x ∧
      x.size = b.size ∧ ∀ k i : Nat, places[k]? = some i → x.getD i 0 = v.getD k 0 := by
  have hin : ∀ w ∈ places.zip v.toList, w.1 < b.size :=
    fun w hw => hbound w.1 (List.of_mem_zip hw).1
  refine ⟨_, foldlM_replace? _ b hin, size_foldl_set Prod.fst Prod.snd _ b, ?_⟩
  intro k i hk
  have hv : k < v.size := hlength ▸ (List.getElem?_eq_some_iff.mp hk).1
  have hmem : (i, v.getD k 0) ∈ places.zip v.toList := by
    apply List.mem_of_getElem? (i := k)
    rw [List.getElem?_zip_eq_some]
    simp [hk, hv]
  have hnodup : ((places.zip v.toList).map Prod.fst).Nodup := by
    rwa [List.map_fst_zip (by simp [hlength])]
  have hset := getElem?_foldl_set_of_mem Prod.fst Prod.snd b hnodup hmem (hin _ hmem)
  rw [Array.getD_eq_getD_getElem?, hset, Option.getD_some]

end Scatter

section Solve

variable {a : Csc K} {options : Options K} {f f' : Factorization K} {tolerance : K}

structure Shaped (f : Factorization K) (n : Nat) : Prop where
  cols : f.lower.cols = n
  diag : f.diag.size = n
  invDiag : f.invDiag.size = n

theorem cols_of_refactor? {result : Except Error Unit} (h : f.refactor? = some (result, f')) :
    f'.lower.cols = f.lower.cols := by
  obtain ⟨columns, rows, failure, -, -, hresult⟩ := refactor?_eq_some.mp h
  cases failure <;> cases hresult <;> rfl

theorem InUse.cols (h : InUse options a f) : f.lower.cols = a.rows := by
  induction h with
  | made h =>
    rw [new?_eq] at h
    obtain ⟨result, hanalyze, h⟩ := Option.bind_eq_some_iff.mp h
    cases result with
    | error e => cases h
    | ok blank =>
      obtain ⟨-, order, inverse, permuted, rows, symbolic, -, -, -, -, rfl⟩ :=
        analyze?_eq_ok.mp hanalyze
      obtain ⟨⟨result, f'⟩, hrefactor, h⟩ := Option.map_eq_some_iff.mp h
      cases result with
      | error e => cases h
      | ok _ =>
        cases h
        exact cols_of_refactor? hrefactor
  | updated _ hf ih =>
    unfold updateValues? at hf
    split at hf
    · cases hf
    · cases hf
      exact ih
  | refactored _ hf ih => exact (cols_of_refactor? hf).trans ih

theorem Serves.diag_size (h : f.Serves a) (hdistinct : a.NoRepeats) (htolerance : 0 ≤ f.tolerance)
    (hf : f.refactor? = some (.ok (), f')) : f'.diag.size = a.rows := by
  obtain ⟨columns, rows, hlength, -, -, -, hfactored, hresult⟩ :=
    h.factored hdistinct htolerance hf
  cases hresult
  exact hfactored.diagSize.trans hlength

theorem Computed.shaped (h : Computed options a f) (horder : options.Permutes a)
    (hdistinct : a.NoRepeats) (htolerance : 0 ≤ options.tolerance) : f.Shaped a.rows := by
  cases h with
  | made h =>
    obtain ⟨blank, hserves, htol, -, hrefactor⟩ := exists_blank_of_new? horder h
    exact ⟨InUse.cols (.made h), hserves.diag_size hdistinct (htol ▸ htolerance) hrefactor,
      (hserves.refactor hrefactor).1.invDiag⟩
  | refactored h hrefactor =>
    obtain ⟨hserves, htol⟩ := h.serves horder
    exact ⟨InUse.cols (.refactored h hrefactor),
      hserves.diag_size hdistinct (htol ▸ htolerance) hrefactor,
      (hserves.refactor hrefactor).1.invDiag⟩

theorem Factors.columns (h : f.Factors a tolerance) :
    ∃ columns, (List.range a.rows).mapM f.lower.column? = some columns ∧
      columns.length = a.rows ∧ StrictlyLower a.rows columns ∧
      ∀ i c, c < a.rows → f.lower.entryAt i c = sumAt (columns.getD c []) i := by
  have hdefined : ∃ columns, (List.range a.rows).mapM f.lower.column? = some columns :=
    exists_mapM fun c hc => (h.lower c (List.mem_range.mp hc)).imp fun _ h => h.1
  obtain ⟨columns, hcolumns⟩ := hdefined
  have hlength : columns.length = a.rows := by simpa using length_of_mapM hcolumns
  have hget : ∀ (c : Nat) column, columns[c]? = some column →
      c < a.rows ∧ f.lower.column? c = some column := by
    intro c column hc
    have hlt : c < a.rows := hlength ▸ (List.getElem?_eq_some_iff.mp hc).1
    rw [getElem?_of_mapM hcolumns, List.getElem?_range hlt] at hc
    exact ⟨hlt, hc⟩
  refine ⟨columns, hcolumns, hlength, ?_, ?_⟩
  · intro c column hc e he
    obtain ⟨hlt, hcolumn⟩ := hget c column hc
    obtain ⟨column', hcolumn', hbelow⟩ := h.lower c hlt
    rw [hcolumn, Option.some.injEq] at hcolumn'
    exact hbelow e (hcolumn' ▸ he)
  · intro i c hc
    have hcolumn := List.getElem?_eq_getElem (hlength.symm ▸ hc : c < columns.length)
    rw [Csc.entryAt_eq_sumAt (Csc.entries?_of_column? (hget c _ hcolumn).2),
      List.getD_eq_getElem?_getD, hcolumn, Option.getD_some]

section Products

variable {columns : List (List (Nat × K))}
  (hentries : ∀ i c, c < a.rows → f.lower.entryAt i c = sumAt (columns.getD c []) i)
include hentries

theorem unitLower_mulVec (z : Nat → K) (i : Fin a.rows) :
    (f.unitLower a.rows).mulVec (fun c => z c) i =
      z i + ∑ c ∈ Finset.range a.rows, sumAt (columns.getD c []) i * z c := by
  rw [unitLower, Matrix.add_mulVec, Matrix.one_mulVec, Pi.add_apply, Finset.sum_range]
  congr 1
  rw [Matrix.mulVec, dotProduct]
  apply Finset.sum_congr rfl
  intro c _
  rw [Matrix.of_apply, hentries i c c.isLt]

theorem unitLower_transpose_mulVec (v : Nat → K) (i : Fin a.rows) :
    (f.unitLower a.rows).transpose.mulVec (fun r => v r) i =
      v i + ∑ r ∈ Finset.range a.rows, sumAt (columns.getD i []) r * v r := by
  rw [unitLower, Matrix.transpose_add, Matrix.transpose_one, Matrix.add_mulVec, Matrix.one_mulVec,
    Pi.add_apply, Finset.sum_range]
  congr 1
  rw [Matrix.mulVec, dotProduct]
  apply Finset.sum_congr rfl
  intro r _
  rw [Matrix.transpose_apply, Matrix.of_apply, hentries r i i.isLt]

end Products

/-- The three systems that a solve goes through make up the system of the matrix. -/
theorem Factors.equation (h : f.Factors a tolerance) {columns : List (List (Nat × K))}
    (hentries : ∀ i c, c < a.rows → f.lower.entryAt i c = sumAt (columns.getD c []) i)
    {b x z v : Nat → K}
    (hforward : ∀ k, k < a.rows →
      z k + ∑ c ∈ Finset.range a.rows, sumAt (columns.getD c []) k * z c = b (f.order.getD k 0))
    (hbackward : ∀ k, k < a.rows →
      v k + ∑ r ∈ Finset.range a.rows, sumAt (columns.getD k []) r * v r =
        z k * f.invDiag.getD k 0)
    (hscatter : ∀ k, k < a.rows → x (f.order.getD k 0) = v k) :
    a.symmetricMatrix.mulVec (fun i : Fin a.rows => x i) = fun i : Fin a.rows => b i := by
  obtain ⟨σ, hσ, hreordered⟩ := h.exists_perm
  have hx : (fun i : Fin a.rows => x i) ∘ σ = fun k : Fin a.rows => v k := by
    funext k
    rw [Function.comp_apply, hσ, hscatter k k.isLt]
  have hup : (f.unitLower a.rows).transpose.mulVec (fun k : Fin a.rows => v k) =
      fun k : Fin a.rows => z k * f.invDiag.getD k 0 := by
    funext k
    rw [unitLower_transpose_mulVec hentries, hbackward k k.isLt]
  have hscale : (Matrix.diagonal (f.pivots a.rows)).mulVec
      (fun k : Fin a.rows => z k * f.invDiag.getD k 0) = fun k : Fin a.rows => z k := by
    funext k
    rw [Matrix.mulVec_diagonal, pivots]
    linear_combination z k * h.inverse k k.isLt
  have hdown : (f.unitLower a.rows).mulVec (fun k : Fin a.rows => z k) =
      (fun i : Fin a.rows => b i) ∘ σ := by
    funext k
    rw [unitLower_mulVec hentries, hforward k k.isLt, Function.comp_apply, hσ]
  have hpermuted : a.symmetricMatrix.mulVec (fun i : Fin a.rows => x i) ∘ σ =
      (fun i : Fin a.rows => b i) ∘ σ := by
    have hsubmatrix := Matrix.submatrix_mulVec_equiv a.symmetricMatrix
      ((fun i : Fin a.rows => x i) ∘ σ) σ σ
    rw [Function.comp_assoc, Equiv.self_comp_symm, Function.comp_id] at hsubmatrix
    rw [← hsubmatrix, hx, hreordered, h.product, ← Matrix.mulVec_mulVec, ← Matrix.mulVec_mulVec,
      hup, hscale, hdown]
  exact σ.surjective.injective_comp_right hpermuted

theorem Factors.exists_solution (h : f.Factors a tolerance) (hshaped : f.Shaped a.rows)
    {b : Array K} (hb : b.size = a.rows) : ∃ x, f.solve? b = some x ∧ a.Solves b x := by
  obtain ⟨columns, hcolumns, hlength, hlower, hentries⟩ := h.columns
  have hsize : f.order.toList.length = a.rows := by simpa using h.order.length_eq
  have hplace : ∀ k, k < a.rows → f.order.toList[k]? = some (f.order.getD k 0) := by
    intro k hk
    have hlt : k < f.order.size := by rwa [← Array.length_toList, hsize]
    simp [hlt]
  have hbound : ∀ i ∈ f.order.toList, i < b.size := by
    intro i hi
    exact hb ▸ List.mem_range.mp (h.order.mem_iff.mp hi)
  have hdefined : ∃ y, f.order.toList.mapM (b[·]?) = some y :=
    exists_mapM fun i hi => ⟨_, Array.getElem?_eq_getElem (hbound i hi)⟩
  obtain ⟨y, hy⟩ := hdefined
  have hysize : y.toArray.size = a.rows := by simpa [hsize] using length_of_mapM hy
  have hgather : ∀ k, k < a.rows → y.toArray.getD k 0 = b.getD (f.order.getD k 0) 0 := by
    intro k hk
    have hget := getElem?_of_mapM hy k
    rw [hplace k hk, Option.bind_some] at hget
    simp [hget]
  obtain ⟨z, hz, hzsize, hforward⟩ := exists_forward? hlower hlength.le hysize
  obtain ⟨v, hv, hvsize, -, hbackward⟩ := exists_backward? hlower hlength.le
    (w := Array.zipWith (· * ·) z f.invDiag) (by simp [hzsize, hshaped.invDiag])
  obtain ⟨x, hx, hxsize, hscatter⟩ := exists_scatter (v := v) (b := b)
    (h.order.nodup_iff.mpr List.nodup_range) (hsize.trans hvsize.symm) hbound
  rw [hlength] at hforward hbackward
  have hscaled : ∀ k, k < a.rows → (Array.zipWith (· * ·) z f.invDiag).getD k 0 =
      z.getD k 0 * f.invDiag.getD k 0 := by
    intro k hk
    have hinv := hshaped.invDiag
    simp [hzsize, hinv, hk]
  refine ⟨x, ?_, hxsize.trans hb, ?_⟩
  · have htake : f.order.toList.take f.diag.size = f.order.toList :=
      List.take_of_length_le (by rw [hsize, hshaped.diag])
    unfold solve?
    rw [if_neg (not_not.mpr (hb.trans hshaped.diag.symm)), htake, hshaped.cols]
    simp only [hy, hcolumns, hz, hv, Option.bind_eq_bind, Option.bind_some]
    exact hx
  · exact h.equation hentries (b := (b.getD · 0)) (x := (x.getD · 0)) (z := (z.getD · 0))
      (v := (v.getD · 0)) (fun k hk => (hforward k).trans (hgather k hk))
      (fun k hk => (hbackward k hk).trans (hscaled k hk)) fun k hk => hscatter k _ (hplace k hk)

theorem Factors.solves_unique (h : f.Factors a tolerance) {b x x' : Array K} (hx : a.Solves b x)
    (hx' : a.Solves b x') : x' = x := by
  obtain ⟨σ, -, hreordered⟩ := h.exists_perm
  have hdet : a.symmetricMatrix.det ≠ 0 := by
    rw [← Matrix.det_submatrix_equiv_self σ, hreordered, h.product, Matrix.det_mul, Matrix.det_mul,
      Matrix.det_transpose, h.det_unitLower, Matrix.det_diagonal, one_mul, mul_one]
    exact Finset.prod_ne_zero_iff.mpr fun k _ => left_ne_zero_of_mul_eq_one (h.inverse k k.isLt)
  have hequal := Matrix.mulVec_injective_of_isUnit ((Matrix.isUnit_iff_isUnit_det _).mpr
    (isUnit_iff_ne_zero.mpr hdet)) (hx'.equation.trans hx.equation.symm)
  have hsizes : x'.size = x.size := hx'.size.trans hx.size.symm
  apply Array.ext hsizes
  intro i hi hi'
  have hentry := congrFun hequal ⟨i, hx'.size ▸ hi⟩
  simpa [hi, hi'] using hentry

theorem Computed.exists_isSolution (h : Computed options a f) (horder : options.Permutes a)
    (hdistinct : a.NoRepeats) (htolerance : 0 ≤ options.tolerance) {b : Array K}
    (hb : b.size = a.rows) : ∃ x, f.solve? b = some x ∧ a.IsSolution b x := by
  have hfactors := h.factors horder hdistinct htolerance
  obtain ⟨x, hx, hsolves⟩ :=
    hfactors.exists_solution (h.shaped horder hdistinct htolerance) hb
  refine ⟨x, hx, fun x' => ⟨fun hx' => hfactors.solves_unique hsolves hx', ?_⟩⟩
  rintro rfl
  exact hsolves

end Solve

end Factorization

end Ldl

end NonlinearOpt
