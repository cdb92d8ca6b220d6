import NonlinearOpt.Proofs.Ldl.Analysis
import Mathlib

namespace NonlinearOpt

namespace Ldl

variable {α : Type}

section Storage

def placements (colStart : Array Nat) (columns : Array (Array (Nat × α))) :
    List ((Nat × α) × Nat) :=
  columns.toList.zipIdx.flatMap fun (column, c) => column.toList.zipIdx (colStart.getD c 0)

theorem overlay_eq (lower : Csc α) (columns : Array (Array (Nat × α))) :
    overlay lower columns = { lower with
      rowIndex := (placements lower.colStart columns).foldl
        (fun rs w => rs.setIfInBounds w.2 w.1.1) lower.rowIndex
      values := (placements lower.colStart columns).foldl
        (fun vs w => vs.setIfInBounds w.2 w.1.2) lower.values } :=
  rfl

theorem size_rowIndex_overlay (lower : Csc α) (columns : Array (Array (Nat × α))) :
    (overlay lower columns).rowIndex.size = lower.rowIndex.size := by
  rw [overlay_eq, size_foldl_set]

theorem size_values_overlay (lower : Csc α) (columns : Array (Array (Nat × α))) :
    (overlay lower columns).values.size = lower.values.size := by
  rw [overlay_eq, size_foldl_set]

def Occupied (colStart : Array Nat) (columns : Array (Array (Nat × α))) (k : Nat) : Prop :=
  ∃ (c : Nat) (column : Array (Nat × α)), columns[c]? = some column ∧
    colStart.getD c 0 ≤ k ∧ k < colStart.getD c 0 + column.size

theorem mem_placements {colStart : Array Nat} {columns : Array (Array (Nat × α))} {e : Nat × α}
    {k : Nat} : (e, k) ∈ placements colStart columns ↔
      ∃ (c : Nat) (column : Array (Nat × α)) (m : Nat), columns[c]? = some column ∧
        column[m]? = some e ∧ colStart.getD c 0 + m = k := by
  unfold placements
  rw [List.mem_flatMap]
  constructor
  · rintro ⟨⟨column, c⟩, hc, hw⟩
    rw [List.mem_zipIdx_iff_getElem?] at hc
    obtain ⟨hle, hget⟩ := List.mem_zipIdx_iff_le_and_getElem?_sub.mp hw
    exact ⟨c, column, _, by simpa using hc, by simpa using hget, Nat.add_sub_cancel' hle⟩
  · rintro ⟨c, column, m, hc, he, rfl⟩
    refine ⟨(column, c), ?_, ?_⟩
    · rw [List.mem_zipIdx_iff_getElem?]
      simpa using hc
    · rw [List.mem_zipIdx_iff_le_and_getElem?_sub]
      simpa using he

theorem occupied_iff {colStart : Array Nat} {columns : Array (Array (Nat × α))} {k : Nat} :
    Occupied colStart columns k ↔ ∃ w ∈ placements colStart columns, w.2 = k := by
  constructor
  · rintro ⟨c, column, hc, hle, hlt⟩
    have hget : column[k - colStart.getD c 0]? = some column[k - colStart.getD c 0] :=
      Array.getElem?_eq_getElem (by omega)
    exact ⟨(_, k), mem_placements.mpr ⟨c, column, _, hc, hget, Nat.add_sub_cancel' hle⟩, rfl⟩
  · rintro ⟨⟨e, k'⟩, hw, rfl⟩
    obtain ⟨c, column, m, hc, he, rfl⟩ := mem_placements.mp hw
    have hm := (Array.getElem?_eq_some_iff.mp he).1
    exact ⟨c, column, hc, Nat.le_add_right _ _, by simpa using hm⟩

theorem Occupied.mono {colStart : Array Nat} {columns columns' : Array (Array (Nat × α))}
    {k : Nat} (hwithin : Within columns columns') (h : Occupied colStart columns k) :
    Occupied colStart columns' k := by
  obtain ⟨c, column, hc, hle, hlt⟩ := h
  obtain ⟨column', hc', hsize⟩ := hwithin.column c column hc
  exact ⟨c, column', hc', hle, by omega⟩

end Storage

namespace Factorization

structure Ready [Scalar α] (blank : Factorization α) (filled : Array (Array (Nat × α))) : Prop where
  run : ∃ columns rows,
    (List.range blank.permuted.matrix.cols).mapM blank.permuted.matrix.column? = some columns ∧
    numeric? blank.symbolic.parent blank.tolerance columns blank.invDiag = some (rows, none) ∧
    rows.columns = filled
  upper : ∀ j < blank.permuted.matrix.cols, ∀ rows,
    blank.permuted.matrix.rowsOf? j = some rows → ∀ i ∈ rows, i ≤ j
  invDiag : blank.invDiag.size = blank.permuted.matrix.cols

/-- Factors made with an analysis. Their storage was written at most where a completed factor has
its entries; the values of the matrix and of the factor may be any. -/
structure Retains (blank : Factorization α) (filled : Array (Array (Nat × α)))
    (f : Factorization α) : Prop where
  order : f.order = blank.order
  symbolic : f.symbolic = blank.symbolic
  tolerance : f.tolerance = blank.tolerance
  position : f.permuted.position = blank.permuted.position
  matrix : f.permuted.matrix =
    { blank.permuted.matrix with values := f.permuted.matrix.values }
  values : f.permuted.matrix.values.size = blank.permuted.matrix.values.size
  lower : f.lower =
    { blank.lower with rowIndex := f.lower.rowIndex, values := f.lower.values }
  lowerRows : f.lower.rowIndex.size = blank.lower.rowIndex.size
  lowerValues : f.lower.values.size = blank.lower.values.size
  untouched : ∀ k, ¬ Occupied blank.lower.colStart filled k →
    f.lower.rowIndex[k]? = blank.lower.rowIndex[k]? ∧
      f.lower.values[k]? = blank.lower.values[k]?
  invDiag : f.invDiag.size = blank.invDiag.size

theorem Retains.refl (blank : Factorization α) (filled : Array (Array (Nat × α))) :
    Retains blank filled blank := by
  constructor <;> simp

variable {blank f g : Factorization α} {filled : Array (Array (Nat × α))}

theorem Retains.colStart (h : Retains blank filled f) :
    f.lower.colStart = blank.lower.colStart := by
  rw [h.lower]

theorem Retains.cols (h : Retains blank filled f) :
    f.permuted.matrix.cols = blank.permuted.matrix.cols := by
  rw [h.matrix]

def revalue (f : Factorization α) (vs : Array α) : Factorization α :=
  { f with permuted := { f.permuted with matrix := { f.permuted.matrix with values := vs } } }

theorem Retains.revalue (h : Retains blank filled f) {vs : Array α}
    (hvs : vs.size = blank.permuted.matrix.values.size) :
    Retains blank filled (f.revalue vs) := by
  have hmatrix : { f.permuted.matrix with values := vs } =
      { blank.permuted.matrix with values := vs } := by
    rw [h.matrix]
  exact { h with matrix := hmatrix, values := hvs }

def scattered (f : Factorization α) (vs : Array α) : Array α :=
  (f.permuted.position.toList.zip vs.toList).foldl (fun vs (k, v) => vs.setIfInBounds k v)
    f.permuted.matrix.values

theorem updateValues?_eq {vs : Array α} (hvs : vs.size = f.permuted.position.size) :
    f.updateValues? vs = some (f.revalue (f.scattered vs)) := by
  unfold updateValues?
  rw [if_neg (not_not.mpr hvs)]
  rfl

theorem size_scattered (f : Factorization α) (vs : Array α) :
    (f.scattered vs).size = f.permuted.matrix.values.size :=
  size_foldl_set Prod.fst Prod.snd _ _

theorem outcome_retains (h : Retains blank filled f) {rows : Rows α}
    (hwithin : Within rows.columns filled) (hinv : rows.invDiag.size = blank.invDiag.size)
    (failure : Option PivotError) : Retains blank filled (outcome f rows failure).2 := by
  have hlower : (outcome f rows failure).2.lower = overlay f.lower rows.columns := by
    cases failure <;> rfl
  have huntouched : ∀ k, ¬ Occupied blank.lower.colStart filled k →
      ∀ w ∈ placements f.lower.colStart rows.columns, w.2 ≠ k := by
    intro k hk w hw hwk
    apply hk
    apply Occupied.mono hwithin
    rw [← h.colStart]
    exact occupied_iff.mpr ⟨w, hw, hwk⟩
  constructor
  · cases failure <;> exact h.order
  · cases failure <;> exact h.symbolic
  · cases failure <;> exact h.tolerance
  · cases failure <;> exact h.position
  · cases failure <;> exact h.matrix
  · cases failure <;> exact h.values
  · have hrows := congrArg Csc.rows h.lower
    have hcols := congrArg Csc.cols h.lower
    rw [hlower, overlay_eq, Csc.mk.injEq]
    exact ⟨hrows, hcols, h.colStart, rfl, rfl⟩
  · rw [hlower, size_rowIndex_overlay]
    exact h.lowerRows
  · rw [hlower, size_values_overlay]
    exact h.lowerValues
  · intro k hk
    rw [hlower, overlay_eq]
    obtain ⟨hrow, hvalue⟩ := h.untouched k hk
    constructor
    · rw [← hrow]
      exact getElem?_foldl_set_of_ne _ _ (huntouched k hk)
    · rw [← hvalue]
      exact getElem?_foldl_set_of_ne _ _ (huntouched k hk)
  · cases failure <;> exact hinv

theorem overlay_agree (hf : Retains blank filled f) (hg : Retains blank filled g)
    {columns : Array (Array (Nat × α))} (hpattern : pattern filled = pattern columns) :
    overlay f.lower columns = overlay g.lower columns := by
  have hoccupied : ∀ k, (∀ w ∈ placements f.lower.colStart columns, w.2 ≠ k) →
      ¬ Occupied blank.lower.colStart filled k := by
    intro k hk hocc
    have hocc := hocc.mono (within_of_pattern hpattern)
    rw [← hf.colStart] at hocc
    obtain ⟨w, hw, hwk⟩ := occupied_iff.mp hocc
    exact hk w hw hwk
  have hplaces : placements g.lower.colStart columns = placements f.lower.colStart columns := by
    rw [hf.colStart, hg.colStart]
  rw [overlay_eq, overlay_eq, hplaces, Csc.mk.injEq]
  refine ⟨?_, ?_, ?_, ?_, ?_⟩
  · rw [hf.lower, hg.lower]
  · rw [hf.lower, hg.lower]
  · rw [hf.colStart, hg.colStart]
  · apply foldl_set_congr
    · rw [hf.lowerRows, hg.lowerRows]
    · intro k hk
      have hk := hoccupied k hk
      rw [(hf.untouched k hk).1, (hg.untouched k hk).1]
  · apply foldl_set_congr
    · rw [hf.lowerValues, hg.lowerValues]
    · intro k hk
      have hk := hoccupied k hk
      rw [(hf.untouched k hk).2, (hg.untouched k hk).2]

theorem outcome_agree (hf : Retains blank filled f) (hg : Retains blank filled g)
    (hmatrix : f.permuted.matrix = g.permuted.matrix) {rows : Rows α}
    (hpattern : pattern filled = pattern rows.columns) :
    outcome f rows none = outcome g rows none := by
  have hpermuted : f.permuted = g.permuted := by
    have hposition : f.permuted.position = g.permuted.position := by
      rw [hf.position, hg.position]
    cases hfp : f.permuted
    cases hgp : g.permuted
    rw [hfp, hgp] at hmatrix hposition
    rw [Permuted.mk.injEq]
    exact ⟨hmatrix, hposition⟩
  unfold outcome
  rw [overlay_agree hf hg hpattern, hf.order, hg.order, hf.symbolic, hg.symbolic, hf.tolerance,
    hg.tolerance, hpermuted]

theorem Retains.columns (h : Retains blank filled f) {columns : List (List (Nat × α))}
    (hcolumns : (List.range blank.permuted.matrix.cols).mapM blank.permuted.matrix.column? =
      some columns) :
    ∃ columns', (List.range f.permuted.matrix.cols).mapM f.permuted.matrix.column? =
        some columns' ∧
      List.Forall₂ (fun x x' => x.map Prod.fst = x'.map Prod.fst) columns columns' := by
  rw [h.cols, h.matrix]
  apply mapM_parallel (List.forall₂_same.mpr fun _ _ => rfl) hcolumns
  rintro j j' column rfl hj
  exact Csc.column?_revalue hj h.values

variable [Scalar α]

theorem Retains.upper (h : Retains blank filled f) (hready : Ready blank filled)
    {columns : List (List (Nat × α))}
    (hcolumns : (List.range f.permuted.matrix.cols).mapM f.permuted.matrix.column? =
      some columns) : ∀ item ∈ columns.zipIdx, ∀ e ∈ item.1, e.1 ≤ item.2 := by
  rintro ⟨column, j⟩ hitem e he
  rw [List.mem_zipIdx_iff_getElem?] at hitem
  rw [getElem?_of_mapM hcolumns] at hitem
  obtain ⟨i, hi, hcolumn⟩ := Option.bind_eq_some_iff.mp hitem
  obtain ⟨hj, rfl⟩ := List.getElem?_eq_some_iff.mp hi
  rw [List.getElem_range] at hcolumn
  rw [List.length_range, h.cols] at hj
  have hrows := Csc.rowsOf?_of_column? hcolumn
  rw [h.matrix] at hrows
  exact hready.upper j hj _ hrows e.1 (List.mem_map.mpr ⟨e, he, rfl⟩)

theorem numeric?_retains (hready : Ready blank filled) (h : Retains blank filled f) :
    ∃ columns rows failure,
      (List.range f.permuted.matrix.cols).mapM f.permuted.matrix.column? = some columns ∧
      numeric? f.symbolic.parent f.tolerance columns f.invDiag = some (rows, failure) ∧
      Within rows.columns filled ∧ rows.invDiag.size = blank.invDiag.size ∧
      (failure = none → pattern filled = pattern rows.columns) := by
  obtain ⟨columns₀, rows₀, hcolumns₀, hrows₀, rfl⟩ := hready.run
  obtain ⟨columns, hcolumns, hpattern⟩ := h.columns hcolumns₀
  have hlength := hpattern.length_eq
  have hstart : Alike
      { columns := Array.replicate columns₀.length #[], diag := Vec.zero columns₀.length
        invDiag := blank.invDiag, positive := 0 }
      { columns := Array.replicate columns.length #[], diag := Vec.zero columns.length
        invDiag := f.invDiag, positive := 0 } := by
    rw [hlength]
    exact ⟨rfl, rfl, h.invDiag.symm⟩
  obtain ⟨rows, failure, hrows, hwithin, hsize, hdone⟩ :=
    rows?_replay (forall₂_zipIdx hpattern 0) hrows₀ hstart
  refine ⟨columns, rows, failure, hcolumns, ?_, hwithin, ?_, fun hf => (hdone hf).columns⟩
  · rw [h.symbolic, h.tolerance]
    exact hrows
  · rw [hsize]
    exact (rows?_grows hrows₀).invDiag.symm

/-- Two factors made with one analysis for one matrix: the factorization has one result, and leaves
them equal if it succeeds. -/
theorem refactor?_agree (hready : Ready blank filled) (hf : Retains blank filled f)
    (hg : Retains blank filled g) (hmatrix : f.permuted.matrix = g.permuted.matrix) :
    ∃ result f' g', f.refactor? = some (result, f') ∧ g.refactor? = some (result, g') ∧
      Retains blank filled f' ∧ Retains blank filled g' ∧ (result = .ok () → f' = g') := by
  obtain ⟨columns, rows, failure, hcolumns, hrows, hwithin, hsize, hpattern⟩ :=
    numeric?_retains hready hf
  have hcolumns' := hcolumns
  rw [hmatrix] at hcolumns'
  have hsame : SameUpTo 0
      { columns := Array.replicate columns.length #[], diag := Vec.zero columns.length
        invDiag := f.invDiag, positive := 0 }
      { columns := Array.replicate columns.length #[], diag := Vec.zero columns.length
        invDiag := g.invDiag, positive := 0 } :=
    ⟨rfl, rfl, rfl, hf.invDiag.trans hg.invDiag.symm, nofun⟩
  obtain ⟨rows', hrows', hsame, hdone⟩ := rows?_sameUpTo hrows (hf.upper hready hcolumns) hsame
  have hg' : g.refactor? = some (outcome g rows' failure) := by
    apply refactor?_eq_some.mpr
    refine ⟨columns, rows', failure, hcolumns', ?_, rfl⟩
    rw [hg.symbolic, hg.tolerance, ← hf.symbolic, ← hf.tolerance]
    exact hrows'
  have hf' : f.refactor? = some (outcome f rows failure) :=
    refactor?_eq_some.mpr ⟨columns, rows, failure, hcolumns, hrows, rfl⟩
  have hretains := outcome_retains hf hwithin hsize failure
  have hretains' := outcome_retains hg (hsame.columns ▸ hwithin) (hsame.size ▸ hsize) failure
  cases failure with
  | some e => exact ⟨_, _, _, hf', hg', hretains, hretains', nofun⟩
  | none =>
    have hlength : rows.invDiag.size ≤ 0 + columns.length := by
      rw [hsize, hready.invDiag, length_of_mapM hcolumns, List.length_range, hf.cols]
      omega
    have heq := (hdone rfl).eq hlength
    subst heq
    have hagree := outcome_agree hf hg hmatrix (hpattern rfl)
    exact ⟨_, _, _, hf', hg', hretains, hretains', fun _ => congrArg Prod.snd hagree⟩

end Factorization

end Ldl

end NonlinearOpt
