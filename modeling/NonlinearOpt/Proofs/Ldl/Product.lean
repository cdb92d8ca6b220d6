import Mathlib
import NonlinearOpt.Ordering.MinimumDegree
import NonlinearOpt.Proofs.Ldl.Elimination
import NonlinearOpt.Proofs.Ldl.Refresh
import NonlinearOpt.Proofs.Sparse.Reordered

namespace NonlinearOpt

namespace Ldl

section Storage

variable {α : Type}

theorem flatMap_zipIdx_eq (blocks : List (List (Nat × α))) (start : Nat → Nat)
    (hstart : ∀ c, c < blocks.length → start c = ((blocks.map List.length).take c).sum) :
    (blocks.zipIdx.flatMap fun w => w.1.zipIdx (start w.2)) = blocks.flatten.zipIdx := by
  induction blocks using List.reverseRecOn with
  | nil => rfl
  | append_singleton blocks block ih =>
    have hinit : ∀ c, c < blocks.length → start c = ((blocks.map List.length).take c).sum := by
      intro c hc
      rw [hstart c (by simp; omega), List.map_append,
        List.take_append_of_le_length (by simp; omega)]
    have hlast : start blocks.length = blocks.flatten.length := by
      rw [hstart _ (by simp), List.length_flatten, List.map_append,
        List.take_append_of_le_length (by simp), List.take_of_length_le (by simp)]
    rw [List.zipIdx_append, List.flatMap_append, ih hinit, List.flatten_append, List.zipIdx_append]
    simp [hlast]

theorem foldl_set_zipIdx {β γ : Type} (f : β → γ) (list : List β) (xs : Array γ)
    (hsize : xs.size = list.length) :
    list.zipIdx.foldl (fun xs w => xs.setIfInBounds w.2 (f w.1)) xs = (list.map f).toArray := by
  apply Array.ext_getElem?
  intro k
  by_cases hk : k < list.length
  · have hnodup : (list.zipIdx.map Prod.snd).Nodup := by
      rw [List.zipIdx_map_snd]
      exact List.nodup_range'
    have hmem : (list[k], k) ∈ list.zipIdx := by
      rw [List.mem_zipIdx_iff_getElem?]
      exact List.getElem?_eq_getElem hk
    have hset := getElem?_foldl_set_of_mem Prod.snd (fun w => f w.1) xs hnodup hmem (hsize ▸ hk)
    rw [hset]
    simp [hk]
  · have hlength := size_foldl_set Prod.snd (fun w => f w.1) list.zipIdx xs
    rw [Array.getElem?_eq_none (by omega), Array.getElem?_eq_none (by simpa using hk)]

theorem overlay_stores {lower : Csc α} {columns : Array (Array (Nat × α))}
    (hstart : lower.colStart = cumulative (columns.map Array.size))
    (hrows : lower.rowIndex.size = (columns.toList.map Array.size).sum)
    (hvalues : lower.values.size = (columns.toList.map Array.size).sum) :
    (overlay lower columns).Stores (columns.toList.map Array.toList) := by
  have hlengths : (columns.toList.map Array.toList).map List.length =
      columns.toList.map Array.size := by
    rw [List.map_map]
    rfl
  have hplaces : placements lower.colStart columns =
      (columns.toList.map Array.toList).flatten.zipIdx := by
    rw [← flatMap_zipIdx_eq _ fun c => lower.colStart.getD c 0]
    · rw [List.zipIdx_map, List.flatMap_map]
      rfl
    · intro c hc
      have hle : c ≤ (columns.map Array.size).size := by simpa using Nat.le_of_lt hc
      rw [hlengths, hstart, getD_cumulative _ hle]
      simp
  have htotal : (columns.toList.map Array.toList).flatten.length =
      (columns.toList.map Array.size).sum := by
    rw [List.length_flatten, hlengths]
  rw [overlay_eq, hplaces]
  constructor
  · have hsizes : (columns.toList.map Array.size).toArray = columns.map Array.size := by
      apply Array.ext_getElem?
      intro c
      simp
    rw [hlengths, hsizes]
    exact hstart
  · exact foldl_set_zipIdx _ _ _ (hrows.trans htotal.symm)
  · exact foldl_set_zipIdx _ _ _ (hvalues.trans htotal.symm)

end Storage

/-- The order that is used for a matrix is a permutation of its rows. -/
def Options.Permutes {α : Type} (options : Options α) (a : Csc α) : Prop :=
  ∀ order inverse, orderOf a options = .ok (order, inverse) →
    order.toList.Perm (List.range a.rows)

theorem Options.permutes_of_none {α : Type} {options : Options α} (h : options.order = none)
    (a : Csc α) : options.Permutes a := by
  intro order inverse horder
  rw [orderOf, h] at horder
  simp only at horder
  split at horder
  · next hfound =>
    cases horder
    obtain ⟨hsize, hinverse⟩ := options.ordering.inverse_of_find? hfound
    exact hsize ▸ Permutation.perm_of_inverse? hinverse
  · cases horder

namespace Factorization

/-- A factorization that was made for the pattern of a matrix and holds its values. The factor may
be any, but its storage has the right size. -/
structure Serves {α : Type} [Scalar α] (f : Factorization α) (a : Csc α) : Prop where
  checked : checkStructure? a = some (.ok ())
  order : f.order.toList.Perm (List.range a.rows)
  permuted : ∃ inverse, Permutation.inverse? f.order = some inverse ∧
    a.permuteSymmetric? inverse = some f.permuted
  symbolic : ∃ rows, (List.range a.rows).mapM f.permuted.matrix.rowsOf? = some rows ∧
    Symbolic.ofColumns? rows = some f.symbolic
  colStart : f.lower.colStart = cumulative f.symbolic.count
  rowIndex : f.lower.rowIndex.size = f.symbolic.count.toList.sum
  values : f.lower.values.size = f.symbolic.count.toList.sum
  invDiag : f.invDiag.size = a.rows

variable {K : Type} [LinearOrder K] [ExactScalar K]

def unitLower (f : Factorization K) (n : Nat) : Matrix (Fin n) (Fin n) K :=
  (1 : Matrix (Fin n) (Fin n) K) + Matrix.of fun i j : Fin n => f.lower.entryAt i j

def pivots (f : Factorization K) (n : Nat) (k : Fin n) : K := f.diag.getD k 0

def reordered (f : Factorization K) (a : Csc K) : Matrix (Fin a.rows) (Fin a.rows) K :=
  Matrix.of fun i j => a.symmetricAt (f.order.getD i 0) (f.order.getD j 0)

/-- The factors of a matrix. -/
structure Factors (f : Factorization K) (a : Csc K) (tolerance : K) : Prop where
  order : f.order.toList.Perm (List.range a.rows)
  lower : ∀ c, c < a.rows → ∃ column, f.lower.column? c = some column ∧
    ∀ e ∈ column, c < e.1 ∧ e.1 < a.rows
  pivot : ∀ k, k < a.rows → tolerance < |f.diag.getD k 0|
  inverse : ∀ k, k < a.rows → f.diag.getD k 0 * f.invDiag.getD k 0 = 1
  product : f.reordered a =
    f.unitLower a.rows * Matrix.diagonal (f.pivots a.rows) * (f.unitLower a.rows).transpose
  positive : f.positive = ((List.range a.rows).filter fun k => 0 < f.diag.getD k 0).length
  negative : f.negative = a.rows - f.positive

structure Holds (f : Factorization K) (n : Nat) (rows : Rows K) : Prop where
  column : ∀ c, c < n → ∃ column, rows.columns[c]? = some column ∧
    f.lower.column? c = some column.toList
  diag : f.diag = rows.diag
  invDiag : f.invDiag = rows.invDiag
  positive : f.positive = rows.positive

section Held

variable {f : Factorization K} {n : Nat} {rows : Rows K}

theorem Holds.unitLower (h : f.Holds n rows) (i c : Fin n) :
    f.unitLower n i c = rows.unitEntry i c := by
  obtain ⟨column, hget, hstored⟩ := h.column c c.isLt
  have hentry : f.lower.entryAt i c = rows.entry i c := by
    rw [Csc.entryAt_eq_sumAt (Csc.entries?_of_column? hstored), Rows.entry,
      Array.getD_eq_getD_getElem?, hget, Option.getD_some]
  rw [Factorization.unitLower, Matrix.add_apply, Matrix.one_apply, Matrix.of_apply, hentry,
    Rows.unitEntry, add_comm]
  simp only [Fin.ext_iff]

theorem Holds.product (h : f.Holds n rows) (i j : Fin n) :
    (f.unitLower n * Matrix.diagonal (f.pivots n) * (f.unitLower n).transpose) i j =
      ∑ c ∈ Finset.range n, rows.unitEntry i c * rows.diag.getD c 0 * rows.unitEntry j c := by
  rw [Matrix.mul_apply, Finset.sum_range]
  apply Finset.sum_congr rfl
  intro c _
  rw [Matrix.mul_diagonal, Matrix.transpose_apply, h.unitLower, h.unitLower, pivots, h.diag]

end Held

section Input

variable {a : Csc K} {f f' : Factorization K}

theorem Serves.columns (h : f.Serves a) (hdistinct : a.NoRepeats) :
    ∃ columns, (List.range f.permuted.matrix.cols).mapM f.permuted.matrix.column? = some columns ∧
      columns.length = a.rows ∧ Patterned f.symbolic.parent columns ∧
      f.symbolic.Describes (rowsOf columns) ∧
      ∀ i k, i ≤ k → k < a.rows → sumAt (columns.getD k []) i =
        a.symmetricAt (f.order.getD i 0) (f.order.getD k 0) := by
  obtain ⟨hsquare, hupper⟩ := checkStructure?_ok h.checked
  obtain ⟨inverse, hinverse, hpermuted⟩ := h.permuted
  have hsize : inverse.size = a.rows := by
    rw [(Permutation.getElem?_inverse? hinverse).1]
    simpa using h.order.length_eq
  obtain ⟨columns, hlength, hstores, hcols, hblocks, hentries⟩ :=
    Csc.blocks_of_permuteSymmetric? hpermuted hsquare hupper hdistinct
      (Permutation.inverts_of_inverse? h.order hinverse) hsize
  obtain ⟨rows, hrows, hsymbolic⟩ := h.symbolic
  have hrows' := hstores.mapM_rowsOf?
  rw [hlength, hrows, Option.some.injEq] at hrows'
  subst hrows'
  have hdescribes : f.symbolic.Describes (rowsOf columns) :=
    Symbolic.ofColumns?_describes hsymbolic
      (Symbolic.upper_map_fst fun k column hk => (hblocks k column hk).2)
  refine ⟨columns, ?_, hlength, ?_, hdescribes, hentries⟩
  · rw [hcols, ← hlength]
    exact hstores.mapM_column?
  · constructor
    · rw [hdescribes.size, rowsOf, List.length_map]
    · exact hdescribes.rising
    · intro k column hk
      exact (hblocks k column hk).1
    · intro k column hk e he
      exact hdescribes.ancestor k (column.map Prod.fst) (by simp [rowsOf, hk]) e.1
        (List.mem_map_of_mem he)

end Input

section Result

variable {a : Csc K} {f f' : Factorization K} {columns : List (List (Nat × K))} {tolerance : K}
  {rows : Rows K}

theorem Serves.stores (h : f.Serves a) (hdescribes : f.symbolic.Describes (rowsOf columns))
    (hfactored : Factored f.symbolic.parent tolerance columns columns.length rows) :
    (overlay f.lower rows.columns).Stores (rows.columns.toList.map Array.toList) := by
  have hcount := hfactored.placed.count_eq_sizes hdescribes
  have hsum : f.symbolic.count.toList.sum = (rows.columns.toList.map Array.size).sum := by
    rw [hcount, Array.toList_map]
  apply overlay_stores
  · rw [h.colStart, hcount]
  · rw [h.rowIndex, hsum]
  · rw [h.values, hsum]

theorem Serves.holds (h : f.Serves a) (hdescribes : f.symbolic.Describes (rowsOf columns))
    (hfactored : Factored f.symbolic.parent tolerance columns columns.length rows)
    (hf : outcome f rows none = (.ok (), f')) : f'.Holds columns.length rows := by
  have hstores := h.stores hdescribes hfactored
  have hlower : f'.lower = overlay f.lower rows.columns := (congrArg (·.2.lower) hf).symm
  constructor
  · intro c hc
    obtain ⟨column, hget⟩ := hfactored.exists_column hc
    have hblock : (rows.columns.toList.map Array.toList)[c]? = some column.toList := by
      simp [hget]
    obtain ⟨hbound, hblock⟩ := List.getElem?_eq_some_iff.mp hblock
    exact ⟨column, hget, by rw [hlower, hstores.column? hbound, hblock]⟩
  · exact (congrArg (·.2.diag) hf).symm
  · exact (congrArg (·.2.invDiag) hf).symm
  · exact (congrArg (·.2.positive) hf).symm

theorem Serves.factored (h : f.Serves a) (hdistinct : a.NoRepeats) (htolerance : 0 ≤ f.tolerance)
    (hf : f.refactor? = some (.ok (), f')) :
    ∃ columns rows, columns.length = a.rows ∧ columns.length = f.permuted.matrix.cols ∧
      f.symbolic.Describes (rowsOf columns) ∧
      (∀ i k, i ≤ k → k < a.rows → sumAt (columns.getD k []) i =
        a.symmetricAt (f.order.getD i 0) (f.order.getD k 0)) ∧
      Factored f.symbolic.parent f.tolerance columns columns.length rows ∧
      outcome f rows none = (.ok (), f') := by
  obtain ⟨columns, hcolumns, hlength, hpatterned, hdescribes, hentries⟩ := h.columns hdistinct
  obtain ⟨columns', rows, failure, hcolumns', hnumeric, hresult⟩ := refactor?_eq_some.mp hf
  rw [hcolumns, Option.some.injEq] at hcolumns'
  subst hcolumns'
  have hcols := length_of_mapM hcolumns
  rw [List.length_range] at hcols
  cases failure with
  | some e => cases hresult
  | none =>
    exact ⟨columns, rows, hlength, hcols, hdescribes, hentries,
      factored_of_numeric? hpatterned htolerance (h.invDiag.trans hlength.symm) hnumeric,
      hresult.symm⟩

theorem Serves.factors (h : f.Serves a) (hdistinct : a.NoRepeats) (htolerance : 0 ≤ f.tolerance)
    (hf : f.refactor? = some (.ok (), f')) : f'.Factors a f.tolerance := by
  obtain ⟨columns, rows, hlength, hcols, hdescribes, hentries, hfactored, hresult⟩ :=
    h.factored hdistinct htolerance hf
  have hholds := h.holds hdescribes hfactored hresult
  have horder : f'.order = f.order := (congrArg (·.2.order) hresult).symm
  rw [hlength] at hholds
  have hproduct : ∀ i j, i ≤ j → j < a.rows →
      ∑ c ∈ Finset.range a.rows, rows.unitEntry i c * rows.diag.getD c 0 * rows.unitEntry j c =
        a.symmetricAt (f.order.getD i 0) (f.order.getD j 0) := by
    intro i j hij hj
    rw [← hentries i j hij hj, hfactored.product_eq hij (hj.trans_eq hlength.symm), hlength]
  constructor
  · rw [horder]
    exact h.order
  · intro c hc
    obtain ⟨column, hget, hstored⟩ := hholds.column c hc
    refine ⟨column.toList, hstored, ?_⟩
    intro e he
    have hmem := hfactored.rows c column hget ▸ List.mem_map_of_mem he
    obtain ⟨hlt, hfills⟩ := mem_fillRows.mp hmem
    exact ⟨hfills.1, hlength ▸ hlt⟩
  · intro k hk
    rw [hholds.diag]
    exact hfactored.pivot k (hlength ▸ hk)
  · intro k hk
    rw [hholds.diag, hholds.invDiag]
    exact hfactored.inverse k (hlength ▸ hk)
  · ext i j
    rw [hholds.product, reordered, Matrix.of_apply, horder]
    rcases Nat.le_total i j with hij | hij
    · exact (hproduct i j hij j.isLt).symm
    · rw [Csc.symmetricAt_comm, ← hproduct j i hij i.isLt]
      exact Finset.sum_congr rfl fun c _ => by ring
  · rw [hholds.diag, hholds.positive, ← hlength]
    exact hfactored.positive
  · rw [← hlength, hcols]
    cases hresult
    rfl

end Result

section Steps

variable {α : Type} [Scalar α] {a : Csc α} {f f' : Factorization α}

theorem Serves.refactor (h : f.Serves a) {result : Except Error Unit}
    (hf : f.refactor? = some (result, f')) :
    f'.Serves a ∧ f'.tolerance = f.tolerance ∧ f'.order = f.order := by
  obtain ⟨columns, rows, failure, -, hnumeric, hresult⟩ := refactor?_eq_some.mp hf
  have hkept : f'.order = f.order ∧ f'.permuted = f.permuted ∧ f'.symbolic = f.symbolic ∧
      f'.tolerance = f.tolerance ∧ f'.lower = overlay f.lower rows.columns ∧
      f'.invDiag = rows.invDiag := by
    cases failure <;> cases hresult <;> exact ⟨rfl, rfl, rfl, rfl, rfl, rfl⟩
  obtain ⟨horder, hpermuted, hsymbolic, htolerance, hlower, hinv⟩ := hkept
  refine ⟨?_, htolerance, horder⟩
  constructor
  · exact h.checked
  · rw [horder]
    exact h.order
  · rw [horder, hpermuted]
    exact h.permuted
  · rw [hpermuted, hsymbolic]
    exact h.symbolic
  · rw [hlower, hsymbolic]
    exact h.colStart
  · rw [hlower, hsymbolic, size_rowIndex_overlay]
    exact h.rowIndex
  · rw [hlower, hsymbolic, size_values_overlay]
    exact h.values
  · rw [hinv, ← (rows?_grows hnumeric).invDiag]
    exact h.invDiag

theorem Serves.update (h : f.Serves a) {vs : Array α} (hf : f.updateValues? vs = some f') :
    f'.Serves { a with values := vs } ∧ f'.tolerance = f.tolerance ∧ f'.order = f.order := by
  have hvs : vs.size = f.permuted.position.size := by
    by_contra hne
    unfold updateValues? at hf
    rw [if_pos hne] at hf
    cases hf
  rw [updateValues?_eq hvs] at hf
  cases hf
  obtain ⟨hsquare, hupper⟩ := checkStructure?_ok h.checked
  obtain ⟨inverse, hinverse, hpermuted⟩ := h.permuted
  refine ⟨?_, rfl, rfl⟩
  constructor
  · exact (checkStructure?_revalue a vs).trans h.checked
  · exact h.order
  · exact ⟨inverse, hinverse,
      Csc.permuteSymmetric?_revalue hsquare (Csc.ordered_of_isUpper? hupper) hpermuted hvs rfl⟩
  · exact h.symbolic
  · exact h.colStart
  · exact h.rowIndex
  · exact h.values
  · exact h.invDiag

end Steps

section Analysis

variable {α : Type} [Scalar α] {a : Csc α} {options : Options α} {f : Factorization α}

theorem serves_of_analyze? (h : analyze? a options = some (.ok f))
    (horder : options.Permutes a) :
    f.Serves a ∧ f.tolerance = options.tolerance ∧
      ∃ inverse, orderOf a options = .ok (f.order, inverse) := by
  obtain ⟨hcheck, order, inverse, permuted, rows, symbolic, hordered, hpermuted, hrows, hsymbolic,
    rfl⟩ := analyze?_eq_ok.mp h
  have hperm := horder order inverse hordered
  have htotal : symbolic.count.foldl (· + ·) 0 = symbolic.count.toList.sum := by
    rw [← Array.foldl_toList, List.sum_eq_foldl]
  refine ⟨⟨hcheck, hperm, ⟨inverse, inverse?_of_orderOf hordered, hpermuted⟩,
    ⟨rows, hrows, hsymbolic⟩, rfl, ?_, ?_, ?_⟩, rfl, inverse, hordered⟩
  · exact Array.size_replicate.trans htotal
  · exact Array.size_replicate.trans htotal
  · exact Array.size_replicate

theorem exists_blank_of_new? (horder : options.Permutes a) (h : new? a options = some (.ok f)) :
    ∃ blank : Factorization α, blank.Serves a ∧ blank.tolerance = options.tolerance ∧
      (∃ inverse, orderOf a options = .ok (blank.order, inverse)) ∧
      blank.refactor? = some (.ok (), f) := by
  rw [new?_eq] at h
  obtain ⟨result, hanalyze, h⟩ := Option.bind_eq_some_iff.mp h
  cases result with
  | error e => cases h
  | ok blank =>
    obtain ⟨hserves, htolerance, hordered⟩ := serves_of_analyze? hanalyze horder
    obtain ⟨⟨result, f'⟩, hrefactor, h⟩ := Option.map_eq_some_iff.mp h
    cases result with
    | error e => cases h
    | ok _ =>
      cases h
      exact ⟨blank, hserves, htolerance, hordered, hrefactor⟩

end Analysis

section Product

variable {a : Csc K} {options : Options K} {f : Factorization K}

/-- Factorizations of an upper triangle, in the order that was asked for, multiply to the symmetric
matrix that it stands for. -/
theorem factors_of_new? (horder : options.Permutes a) (hdistinct : a.NoRepeats)
    (htolerance : 0 ≤ options.tolerance) (h : new? a options = some (.ok f)) :
    (∃ inverse, orderOf a options = .ok (f.order, inverse)) ∧
      f.Factors a options.tolerance := by
  obtain ⟨blank, hserves, htol, hordered, hrefactor⟩ := exists_blank_of_new? horder h
  obtain ⟨-, -, horderEq⟩ := hserves.refactor hrefactor
  rw [horderEq, ← htol]
  exact ⟨hordered, hserves.factors hdistinct (htol ▸ htolerance) hrefactor⟩

end Product

section Arrow

/-- An upper triangle with unordered columns, whose factor has one entry more than the matrix. -/
def arrowMatrix : Csc (Exact ℚ) :=
  ⟨3, 3, #[0, 1, 3, 5], #[0, 1, 0, 2, 0], #[1, -1, 1, 1 + 1, 1]⟩

def arrowOptions : Options (Exact ℚ) := ⟨1.0, some #[0, 2, 1], 0⟩

def arrowPermuted : Permuted (Exact ℚ) :=
  ⟨⟨3, 3, #[0, 1, 3, 5], #[0, 1, 0, 2, 0], #[1, 1 + 1, 1, -1, 1]⟩, #[0, 3, 4, 1, 2]⟩

def arrowSymbolic : Symbolic := ⟨#[some 1, some 2, none], #[2, 1, 0]⟩

theorem arrowMatrix_noRepeats : arrowMatrix.NoRepeats := by
  intro j column h
  match j, h with
  | 0, h => cases h; decide
  | 1, h => cases h; decide
  | 2, h => cases h; decide
  | j + 3, h => simp [Csc.entries?, Csc.span?, arrowMatrix] at h

theorem orderOf_arrow : orderOf arrowMatrix arrowOptions = .ok (#[0, 2, 1], #[0, 2, 1]) :=
  orderOf_ordered rfl (by decide +kernel)

theorem arrowOptions_permutes : arrowOptions.Permutes arrowMatrix := by
  intro order inverse h
  rw [orderOf_arrow] at h
  cases h
  decide

theorem permuteSymmetric?_arrow :
    arrowMatrix.permuteSymmetric? #[0, 2, 1] = some arrowPermuted := by
  have hsort : Moved.sort [⟨0, 0, 0, 1⟩, ⟨1, 2, 2, -1⟩, ⟨2, 0, 2, 1⟩, ⟨3, 1, 1, 1 + 1⟩,
      ⟨4, 0, 1, 1⟩] = ([⟨0, 0, 0, 1⟩, ⟨3, 1, 1, 1 + 1⟩, ⟨4, 0, 1, 1⟩, ⟨1, 2, 2, -1⟩,
        ⟨2, 0, 2, 1⟩] : List (Moved (Exact ℚ))) := by
    simp [Moved.sort, List.mergeSort, List.MergeSort.Internal.splitInTwo]
  apply Csc.permuteSymmetric?_eq_some.mpr
  refine ⟨[[⟨0, 0, 0, 1⟩], [⟨1, 2, 2, -1⟩, ⟨2, 0, 2, 1⟩], [⟨3, 1, 1, 1 + 1⟩, ⟨4, 0, 1, 1⟩]], 5,
    rfl, rfl, ?_⟩
  simp only [Moved.assemble, List.flatten_cons, List.flatten_nil, List.cons_append,
    List.nil_append, hsort]
  rfl

theorem exists_arrow : ∃ f, new? arrowMatrix arrowOptions = some (.ok f) ∧
    f.positive = 2 ∧ f.negative = 1 := by
  have hsymbolic : (List.range 3).mapM arrowPermuted.matrix.rowsOf? =
      some [[0], [1, 0], [2, 0]] ∧
        Symbolic.ofColumns? [[0], [1, 0], [2, 0]] = some arrowSymbolic := by decide +kernel
  have hanalyze : analyze? arrowMatrix arrowOptions =
      some (.ok (blank 3 #[0, 2, 1] arrowPermuted arrowSymbolic 0)) :=
    analyze?_eq_ok.mpr ⟨rfl, _, _, _, _, _, orderOf_arrow, permuteSymmetric?_arrow, hsymbolic.1,
      hsymbolic.2, rfl⟩
  have hrun : ((blank 3 #[0, 2, 1] arrowPermuted arrowSymbolic 0).refactor?.any
      fun r => r.1.isOk && r.2.positive == 2 && r.2.negative == 1) = true := by decide +kernel
  obtain ⟨⟨result, f⟩, hf, hok⟩ := (Option.any_eq_true ..).mp hrun
  cases result with
  | error e => cases hok
  | ok _ =>
    refine ⟨f, ?_, by simpa [Except.isOk, Except.toBool] using hok⟩
    rw [new?_eq, hanalyze, Option.bind_some, complete?, hf]
    rfl

theorem factors_of_new?_arrow :
    arrowOptions.Permutes arrowMatrix ∧ arrowMatrix.NoRepeats ∧ 0 ≤ arrowOptions.tolerance ∧
      ∃ f, new? arrowMatrix arrowOptions = some (.ok f) ∧ f.Factors arrowMatrix 0 := by
  obtain ⟨f, hf, -⟩ := exists_arrow
  exact ⟨arrowOptions_permutes, arrowMatrix_noRepeats, le_refl _, f, hf,
    (factors_of_new? arrowOptions_permutes arrowMatrix_noRepeats (le_refl _) hf).2⟩

end Arrow

end Factorization

end Ldl

end NonlinearOpt
