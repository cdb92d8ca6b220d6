import Mathlib
import NonlinearOpt.Proofs.Ldl.Defined
import NonlinearOpt.Proofs.Ldl.Fill
import NonlinearOpt.Proofs.Ldl.History
import NonlinearOpt.Proofs.Sparse.Sorted

namespace NonlinearOpt

namespace Csc

variable {α : Type} {a : Csc α}

theorem divided_of_checkFormat (h : a.checkFormat = .ok ()) : a.Divided := by
  obtain ⟨hvalues, hpointers, hlast, hrising, -⟩ := checkFormat_eq_ok.mp h
  refine ⟨hpointers, (isChain_of_chained hrising).imp fun _ _ hle => of_decide_eq_true hle, ?_⟩
  intro last hnnz
  rw [nnz?, hlast, Option.some.injEq] at hnnz
  exact ⟨hnnz.ge, (hnnz.symm.trans hvalues).le⟩

theorem Divided.upperTriangle (h : a.Divided)
    (hcheck : Ldl.checkStructure? a = some (.ok ())) : a.UpperTriangle := by
  obtain ⟨hsquare, hupper⟩ := Ldl.Factorization.checkStructure?_ok hcheck
  refine ⟨h, hsquare, ?_⟩
  intro j rows hrows
  obtain ⟨rows', hrows', hle⟩ := isUpper?_go_eq_true hupper j
    (List.mem_range.mpr (Divided.lt_of_rowsOf? h.pointers hrows))
  rw [hrows, Option.some.injEq] at hrows'
  exact hrows' ▸ hle

end Csc

namespace Ldl

namespace Factorization

variable {α : Type} [Scalar α] {a : Csc α} {options : Options α} {f : Factorization α}
  {patterns : List (List Nat)}

/-- A factorization whose matrix has the given rows in its columns, and whose storage has room for
their fill. The numbers may be any. -/
structure Reserves (f : Factorization α) (patterns : List (List Nat)) : Prop where
  cols : f.permuted.matrix.cols = patterns.length
  columns : ∃ columns, (List.range patterns.length).mapM f.permuted.matrix.column? = some columns ∧
    rowsOf columns = patterns
  upper : ∀ (k : Nat) rows, patterns[k]? = some rows → ∀ i ∈ rows, i ≤ k
  describes : f.symbolic.Describes patterns
  shape : f.lower.rows = patterns.length ∧ f.lower.cols = patterns.length
  colStart : f.lower.colStart = cumulative f.symbolic.count
  rowIndex : f.lower.rowIndex.size = f.symbolic.count.toList.sum
  values : f.lower.values.size = f.symbolic.count.toList.sum
  diag : f.diag.size = patterns.length
  invDiag : f.invDiag.size = patterns.length

theorem exists_analysis_of_permuted (hcheck : checkStructure? a = some (.ok ()))
    {order inverse : Array Nat} (horder : orderOf a options = .ok (order, inverse))
    {p : Permuted α} (hp : a.permuteSymmetric? inverse = some p) :
    ∃ blank, analyze? a options = some (.ok blank) := by
  obtain ⟨-, columns, -, -, hrows, hupper⟩ := Csc.exists_columns_of_permuteSymmetric? hp
  obtain ⟨symbolic, hsymbolic⟩ := Symbolic.exists_ofColumns? (Symbolic.upper_map_fst hupper)
  exact ⟨_, analyze?_eq_ok.mpr ⟨hcheck, order, inverse, p, _, symbolic, horder, hp, hrows,
    hsymbolic, rfl⟩⟩

theorem reserves_of_analyze? (h : analyze? a options = some (.ok f)) :
    ∃ patterns, patterns.length = a.rows ∧ f.Reserves patterns := by
  obtain ⟨-, order, inverse, p, rows, symbolic, -, hp, hrows, hsymbolic, rfl⟩ :=
    analyze?_eq_ok.mp h
  obtain ⟨hcols, columns, hlength, hcolumns, hrows', hupper⟩ :=
    Csc.exists_columns_of_permuteSymmetric? hp
  rw [hrows, Option.some.injEq] at hrows'
  have hpatterns : rowsOf columns = rows := hrows'.symm
  have hsize : rows.length = a.rows := by rw [hrows', List.length_map, hlength]
  have hrowsUpper : Symbolic.Upper rows := hrows' ▸ Symbolic.upper_map_fst hupper
  have htotal : symbolic.count.foldl (· + ·) 0 = symbolic.count.toList.sum := by
    rw [← Array.foldl_toList, List.sum_eq_foldl]
  refine ⟨rows, hsize, hcols.trans hsize.symm, ⟨columns, hsize ▸ hcolumns, hpatterns⟩, hrowsUpper,
    Symbolic.ofColumns?_describes hsymbolic hrowsUpper, ⟨hsize.symm, hsize.symm⟩, rfl, ?_, ?_, ?_,
    ?_⟩
  · exact Array.size_replicate.trans htotal
  · exact Array.size_replicate.trans htotal
  · exact Array.size_replicate.trans hsize.symm
  · exact Array.size_replicate.trans hsize.symm

namespace Reserves

omit [Scalar α] in
theorem planted (h : f.Reserves patterns) {columns : List (List (Nat × α))}
    (hcolumns : rowsOf columns = patterns) : Planted f.symbolic.parent columns := by
  subst hcolumns
  refine ⟨h.describes.size.trans (by simp [rowsOf]), h.describes.rising, ?_⟩
  intro k column hk e he
  exact h.upper k (column.map Prod.fst) (by simp [rowsOf, hk]) e.1 (List.mem_map_of_mem he)

omit [Scalar α] in
theorem overwritten (h : f.Reserves patterns) {g : Factorization α}
    {columns : Array (Array (Nat × α))} (hpermuted : g.permuted = f.permuted)
    (hsymbolic : g.symbolic = f.symbolic) (hlower : g.lower = overlay f.lower columns)
    (hdiag : g.diag.size = patterns.length) (hinv : g.invDiag.size = patterns.length) :
    g.Reserves patterns := by
  constructor
  · rw [hpermuted]
    exact h.cols
  · rw [hpermuted]
    exact h.columns
  · exact h.upper
  · rw [hsymbolic]
    exact h.describes
  · rw [hlower]
    exact h.shape
  · rw [hlower, hsymbolic]
    exact h.colStart
  · rw [hlower, hsymbolic, size_rowIndex_overlay]
    exact h.rowIndex
  · rw [hlower, hsymbolic, size_values_overlay]
    exact h.values
  · exact hdiag
  · exact hinv

theorem exists_refactor? (h : f.Reserves patterns) :
    ∃ result g, f.refactor? = some (result, g) ∧ g.Reserves patterns := by
  obtain ⟨columns, hcolumns, hpatterns⟩ := h.columns
  have hlength : columns.length = patterns.length := by rw [← hpatterns, rowsOf, List.length_map]
  obtain ⟨rows, failure, m, hnumeric, hplaced, -⟩ := exists_numeric? f.tolerance
    (h.planted hpatterns) (h.invDiag.trans hlength.symm)
  refine ⟨_, _, refactor?_eq_some.mpr ⟨columns, rows, failure, h.cols ▸ hcolumns, hnumeric, rfl⟩,
    ?_⟩
  have hdiag := hplaced.diagSize.trans hlength
  have hinv := hplaced.invSize.trans hlength
  cases failure with
  | some e => exact h.overwritten rfl rfl rfl hdiag hinv
  | none => exact h.overwritten rfl rfl rfl hdiag hinv

omit [Scalar α] in
theorem revalue (h : f.Reserves patterns) {vs : Array α}
    (hvs : vs.size = f.permuted.matrix.values.size) : (f.revalue vs).Reserves patterns := by
  obtain ⟨columns, hcolumns, hpatterns⟩ := h.columns
  obtain ⟨columns', hcolumns', hsame⟩ := mapM_parallel
    (g := (f.revalue vs).permuted.matrix.column?) (List.forall₂_same.mpr fun _ _ => rfl) hcolumns
    (by
      rintro j _ column rfl hj
      exact Csc.column?_revalue hj hvs)
  have hrows : rowsOf columns' = patterns := by
    rw [← hpatterns]
    exact (map_eq_of_forall₂ hsame).symm
  exact ⟨h.cols, ⟨columns', hcolumns', hrows⟩, h.upper, h.describes, h.shape, h.colStart,
    h.rowIndex, h.values, h.diag, h.invDiag⟩

theorem after (h : f.Reserves patterns) (call : Call α) : (f.after call).Reserves patterns := by
  cases call with
  | solve b => exact h
  | updateValues vs =>
    by_cases hvs : vs.size = f.permuted.position.size
    · rw [Factorization.after, updateValues?_eq hvs]
      exact h.revalue (size_scattered f vs)
    · rw [Factorization.after, updateValues?, if_pos hvs]
      exact h
  | refactor =>
    obtain ⟨result, g, hg, hreserves⟩ := h.exists_refactor?
    rw [Factorization.after, hg]
    exact hreserves

theorem used (h : f.Reserves patterns) (calls : List (Call α)) :
    (f.used calls).Reserves patterns := by
  induction calls generalizing f with
  | nil => exact h
  | cons call calls ih => exact ih (h.after call)

end Reserves

end Factorization

end Ldl

end NonlinearOpt
