import Mathlib
import NonlinearOpt.Proofs.Ldl.Defined
import NonlinearOpt.Proofs.Ldl.History

namespace NonlinearOpt

namespace Permutation

theorem lt_of_inverse? {n : Nat} {p q : Array Nat} (h : inverse? p = some q)
    (hq : ∀ j, j < n → ∃ c, q[j]? = some c ∧ c < n) :
    n ≤ p.size ∧ ∀ i ∈ p.toList.take n, i < n := by
  have hinverts := inverts_of_inverse? (perm_of_inverse? h) h
  have hsize : q.size = p.size := (getElem?_inverse? h).1
  have hle : n ≤ p.size := by
    rcases Nat.eq_zero_or_pos n with rfl | hpos
    · exact Nat.zero_le _
    · obtain ⟨c, hc, -⟩ := hq (n - 1) (by omega)
      have hlt := (Array.getElem?_eq_some_iff.mp hc).1
      omega
  refine ⟨hle, ?_⟩
  have hlt : ∀ j : Fin n, q.getD j 0 < n := by
    intro j
    obtain ⟨c, hc, hcn⟩ := hq j j.isLt
    rwa [Array.getD_eq_getD_getElem?, hc, Option.getD_some]
  let f : Fin n → Fin n := fun j => ⟨q.getD j 0, hlt j⟩
  have hback : ∀ j : Fin n, p.getD (f j) 0 = j :=
    fun j => (hinverts.backward j (j.isLt.trans_le hle)).2
  have hinjective : Function.Injective f := by
    intro j j' heq
    exact Fin.ext ((hback j).symm.trans ((congrArg (fun c : Fin n => p.getD c 0) heq).trans
      (hback j')))
  intro i hi
  obtain ⟨k, hk⟩ := List.getElem?_of_mem hi
  obtain ⟨hkn, hk⟩ : k < n ∧ p.toList[k]? = some i := by
    rw [List.getElem?_take] at hk
    split at hk
    · next hkn => exact ⟨hkn, hk⟩
    · cases hk
  obtain ⟨j, hj⟩ := Finite.surjective_of_injective hinjective ⟨k, hkn⟩
  have hvalue := hback j
  rw [hj] at hvalue
  have hpk : p.getD k 0 = i := by
    rw [Array.getElem?_toList] at hk
    rw [Array.getD_eq_getD_getElem?, hk, Option.getD_some]
  have hji : (j : Nat) = i := hvalue.symm.trans hpk
  omega

end Permutation

namespace Csc

variable {α : Type} {a : Csc α}

theorem lt_of_permuteSymmetric? {inverse : Array Nat} {p : Permuted α}
    (hincreasing : chained (fun x y => decide (x < y)) a.colStart.toList = true)
    (h : a.permuteSymmetric? inverse = some p) {j : Nat} (hj : j < a.rows) :
    ∃ c, inverse[j]? = some c ∧ c < a.rows := by
  obtain ⟨moved, nnz, hmoved, -, -⟩ := permuteSymmetric?_eq_some.mp h
  obtain ⟨ms, -, hms⟩ := exists_mem_of_mapM hmoved (List.mem_range.mpr hj)
  obtain ⟨⟨first, last⟩, hspan, hms⟩ := Option.bind_eq_some_iff.mp hms
  obtain ⟨col, hcol, hms⟩ := Option.bind_eq_some_iff.mp hms
  have hlt : first < last := by
    obtain ⟨x, hx, hspan⟩ := Option.bind_eq_some_iff.mp hspan
    obtain ⟨y, hy, hspan⟩ := Option.bind_eq_some_iff.mp hspan
    cases hspan
    obtain ⟨hj, rfl⟩ := Array.getElem?_eq_some_iff.mp hx
    obtain ⟨hj', rfl⟩ := Array.getElem?_eq_some_iff.mp hy
    have hchain := List.isChain_iff_getElem.mp (isChain_of_chained hincreasing)
    exact of_decide_eq_true (hchain j (by simpa using hj'))
  have hmem : first ∈ List.range' first (last - first) := by
    rw [List.mem_range'_1]
    omega
  obtain ⟨m, -, hm⟩ := exists_mem_of_mapM hms hmem
  simp only [Option.bind_eq_bind, Option.bind_eq_some_iff] at hm
  obtain ⟨i, -, row, -, value, -, hm⟩ := hm
  split at hm
  · next hmax => exact ⟨col, hcol, by omega⟩
  · cases hm

end Csc

namespace Ldl

variable {α : Type} [Scalar α] {n : Nat}

section Sweeps

def Bounded (n : Nat) (columns : List (List (Nat × α))) : Prop :=
  ∀ column ∈ columns, ∀ e ∈ column, e.1 < n

variable {columns : List (List (Nat × α))} {x : Array α}

theorem Bounded.forward? (h : Bounded n columns) (hlength : columns.length ≤ n) (hx : x.size = n) :
    ∃ y, Factorization.forward? columns x = some y ∧ y.size = n := by
  refine exists_foldlM (P := fun y : Array α => y.size = n) hx ?_
  rintro ⟨column, i⟩ hmem y hy
  have hi : i < y.size := by
    have hlt := List.snd_lt_of_mem_zipIdx hmem
    omega
  obtain ⟨z, hz, hsize⟩ := exists_subtract? (y := y[i]) (v := y) fun e he =>
    hy.symm ▸ h column (List.fst_mem_of_mem_zipIdx hmem) e he
  refine ⟨z, ?_, hsize.trans hy⟩
  simp only [Array.getElem?_eq_getElem hi, Option.bind_eq_bind, Option.bind_some]
  exact hz

theorem Bounded.backward? (h : Bounded n columns) (hlength : columns.length ≤ n) (hx : x.size = n) :
    ∃ y, Factorization.backward? columns x = some y ∧ y.size = n := by
  refine exists_foldlM (P := fun y : Array α => y.size = n) hx ?_
  rintro ⟨column, i⟩ hmem y hy
  rw [List.mem_reverse] at hmem
  have hi : i < y.size := by
    have hlt := List.snd_lt_of_mem_zipIdx hmem
    omega
  have hstep : ∀ e ∈ column, ∀ s : α, True →
      ∃ s', (do return s + e.2 * (← y[e.1]?)) = some s' ∧ True := by
    intro e he s _
    have hrow := h column (List.fst_mem_of_mem_zipIdx hmem) e he
    exact ⟨s + e.2 * y.getD e.1 0, by simp [hy, hrow], trivial⟩
  obtain ⟨s, hs, -⟩ := exists_foldlM (d := (0 : α)) trivial hstep
  have hmodify : (Vec.modify? y i (· - s)).isSome := isSome_modify?.mpr hi
  obtain ⟨z, hz⟩ := Option.isSome_iff_exists.mp hmodify
  refine ⟨z, ?_, (size_of_modify? hz).trans hy⟩
  simp only [Option.bind_eq_bind]
  exact Option.bind_eq_some_iff.mpr ⟨s, hs, hz⟩

end Sweeps

section Storage

structure Rows.Fits (n : Nat) (s : Rows α) : Prop where
  rows : RowsBelow n s.columns
  diag : s.diag.size = n
  invDiag : s.invDiag.size = n

variable {parent : Array (Option Nat)} {tolerance : α} {s s' : Rows α}
  {failure : Option PivotError}

theorem Rows.Fits.row? {k : Nat} (h : s.Fits n) (hk : k < n) {column : List (Nat × α)}
    (hrow : row? parent tolerance k column s = some (s', failure)) : s'.Fits n := by
  obtain ⟨order, y, d, p, -, -, hfold, -, hsettle⟩ := row?_eq_some.mp hrow
  have hrows : RowsBelow n p.columns := by
    refine foldlM_invariant (P := fun q : Pending α => RowsBelow n q.columns) h.rows ?_ hfold
    exact fun c _ q q' hq hstep => eliminate?_rows hk hq hstep
  obtain ⟨hcolumns, hdiag, hinv⟩ := settle?_sizes hsettle
  exact ⟨hcolumns ▸ hrows, hdiag.trans h.diag, hinv.trans h.invDiag⟩

theorem Rows.Fits.rows? {list : List (List (Nat × α) × Nat)} (h : s.Fits n)
    (hlist : ∀ w ∈ list, w.2 < n) (hrun : rows? parent tolerance list s = some (s', failure)) :
    s'.Fits n := by
  induction list generalizing s with
  | nil =>
    cases hrun
    exact h
  | cons item list ih =>
    obtain ⟨hitem, hlist⟩ := List.forall_mem_cons.mp hlist
    rcases rows?_cons_eq_some.mp hrun with ⟨mid, hrow, hrest⟩ | ⟨e, hrow, -⟩
    · exact ih (h.row? hitem hrow) hlist hrest
    · exact h.row? hitem hrow

theorem fits_of_numeric? {columns : List (List (Nat × α))} {invDiag : Array α} {rows : Rows α}
    (hlength : columns.length = n) (hinv : invDiag.size = n)
    (h : numeric? parent tolerance columns invDiag = some (rows, failure)) : rows.Fits n := by
  refine Rows.Fits.rows? ⟨?_, Array.size_replicate.trans hlength, hinv⟩ ?_ h
  · intro c column hc e he
    rw [Array.getElem?_replicate] at hc
    split at hc
    · cases hc
      cases he
    · cases hc
  · intro w hw
    have hlt := List.snd_lt_of_mem_zipIdx hw
    omega

omit [Scalar α] in
theorem forall_mem_foldl_set {β γ : Type} {P : β → Prop} (key : γ → Nat) (val : γ → β)
    {ws : List γ} {xs : Array β} (hxs : ∀ x ∈ xs, P x) (hws : ∀ w ∈ ws, P (val w)) :
    ∀ x ∈ ws.foldl (fun xs w => xs.setIfInBounds (key w) (val w)) xs, P x := by
  induction ws generalizing xs with
  | nil => exact hxs
  | cons w ws ih =>
    obtain ⟨hw, hws⟩ := List.forall_mem_cons.mp hws
    refine ih (fun x hx => ?_) hws
    rcases Array.mem_or_eq_of_mem_setIfInBounds hx with hx | rfl
    · exact hxs x hx
    · exact hw

omit [Scalar α] in
theorem forall_mem_rowIndex_overlay {columns : Array (Array (Nat × α))} (hrows : RowsBelow n columns)
    {lower : Csc α} (hlower : ∀ r ∈ lower.rowIndex, r < n) :
    ∀ r ∈ (overlay lower columns).rowIndex, r < n := by
  rw [overlay_eq]
  refine forall_mem_foldl_set (fun w : (Nat × α) × Nat => w.2) (fun w => w.1.1) hlower ?_
  intro w hw
  obtain ⟨⟨column, c⟩, hc, hw⟩ := List.mem_flatMap.mp hw
  rw [List.mem_zipIdx_iff_getElem?] at hc
  exact hrows c column (by simpa using hc) w.1 (List.fst_mem_of_mem_zipIdx hw)

omit [Scalar α] in
theorem exists_column?_of_cumulative {counts : Array Nat} {lower : Csc α}
    (hcolStart : lower.colStart = cumulative counts)
    (hrowIndex : lower.rowIndex.size = counts.toList.sum)
    (hvalues : lower.values.size = counts.toList.sum) {c : Nat} (hc : c < counts.size) :
    ∃ column, lower.column? c = some column ∧ ∀ e ∈ column, e.1 ∈ lower.rowIndex := by
  have hspan : lower.span? c =
      some ((counts.toList.take c).sum, (counts.toList.take (c + 1)).sum) := by
    rw [Csc.span?, hcolStart, getElem?_cumulative counts hc.le, getElem?_cumulative counts hc]
    rfl
  have hle : (counts.toList.take c).sum ≤ (counts.toList.take (c + 1)).sum :=
    (List.take_sublist_take_left (Nat.le_succ c)).sum_le_sum (by simp)
  have htotal : (counts.toList.take (c + 1)).sum ≤ counts.toList.sum :=
    (List.take_sublist (c + 1) counts.toList).sum_le_sum (by simp)
  refine ⟨_, Csc.column?_eq_some.mpr ⟨_, _, _, _, hspan, if_pos ⟨hle, hrowIndex ▸ htotal⟩,
    if_pos ⟨hle, hvalues ▸ htotal⟩, rfl⟩, ?_⟩
  intro e he
  have hmem := (List.of_mem_zip he).1
  rw [Array.toList_extract] at hmem
  exact Array.mem_toList_iff.mp (List.mem_of_mem_drop (List.mem_of_mem_take hmem))

omit [Scalar α] in
/-- Columns that are written over the storage of a factor can be read back, whatever they are. -/
theorem exists_columns_overlay {counts : Array Nat} (hcounts : counts.size = n)
    {columns : Array (Array (Nat × α))} (hrows : RowsBelow n columns)
    {lower : Csc α} (hcolStart : lower.colStart = cumulative counts)
    (hrowIndex : lower.rowIndex = Array.replicate counts.toList.sum 0)
    (hvalues : lower.values.size = counts.toList.sum) :
    ∃ read, (List.range n).mapM (overlay lower columns).column? = some read ∧ Bounded n read := by
  have hsize : (overlay lower columns).rowIndex.size = counts.toList.sum := by
    rw [size_rowIndex_overlay, hrowIndex, Array.size_replicate]
  have hsize' : (overlay lower columns).values.size = counts.toList.sum := by
    rw [size_values_overlay, hvalues]
  have hcolumn : ∀ c, c < n → ∃ column, (overlay lower columns).column? c = some column ∧
      ∀ e ∈ column, e.1 < n := by
    intro c hc
    have hzero : ∀ r ∈ lower.rowIndex, r < n := by
      intro r hr
      rw [hrowIndex] at hr
      rw [(Array.mem_replicate.mp hr).2]
      exact Nat.zero_lt_of_lt hc
    obtain ⟨column, hread, hmem⟩ := exists_column?_of_cumulative
      (show (overlay lower columns).colStart = _ from hcolStart) hsize hsize' (hcounts.symm ▸ hc)
    exact ⟨column, hread, fun e he => forall_mem_rowIndex_overlay hrows hzero e.1 (hmem e he)⟩
  obtain ⟨read, hread⟩ := exists_mapM fun c hc =>
    (hcolumn c (List.mem_range.mp hc)).imp fun _ h => h.1
  refine ⟨read, hread, ?_⟩
  intro column hmem e he
  obtain ⟨c, hc, hcol⟩ := (mem_of_mapM hread).mp hmem
  obtain ⟨column', hcol', hbounded⟩ := hcolumn c (List.mem_range.mp hc)
  rw [hcol, Option.some.injEq] at hcol'
  exact hbounded e (hcol' ▸ he)

end Storage

namespace Factorization

variable {a : Csc α} {options : Options α} {f : Factorization α}

omit [Scalar α] in
theorem increasing_of_checkStructure? (h : checkStructure? a = some (.ok ())) :
    chained (fun x y => decide (x < y)) a.colStart.toList = true := by
  unfold checkStructure? at h
  split at h
  · cases h
  · obtain ⟨upper, -, h⟩ := Option.bind_eq_some_iff.mp h
    cases upper with
    | false => cases h
    | true =>
      cases hincreasing : chained (fun x y => decide (x < y)) a.colStart.toList with
      | true => rfl
      | false =>
        rw [hincreasing] at h
        cases h

structure Solvable (n : Nat) (f : Factorization α) : Prop where
  diag : f.diag.size = n
  invDiag : f.invDiag.size = n
  cols : f.lower.cols = n
  order : n ≤ f.order.size ∧ ∀ i ∈ f.order.toList.take n, i < n
  lower : ∃ columns, (List.range n).mapM f.lower.column? = some columns ∧ Bounded n columns

theorem Solvable.solve? (h : f.Solvable n) {b : Array α} (hb : b.size = n) :
    ∃ x, f.solve? b = some x ∧ x.size = n := by
  obtain ⟨columns, hcolumns, hbounded⟩ := h.lower
  have hlength : columns.length = n := by simpa using length_of_mapM hcolumns
  obtain ⟨y, hy⟩ : ∃ y, (f.order.toList.take n).mapM (b[·]?) = some y :=
    exists_mapM fun i hi =>
      ⟨_, Array.getElem?_eq_getElem (hb.symm ▸ h.order.2 i hi : i < b.size)⟩
  have hysize : y.toArray.size = n := by
    have hle := h.order.1
    simpa [hle] using length_of_mapM hy
  obtain ⟨z, hz, hzsize⟩ := hbounded.forward? hlength.le hysize
  obtain ⟨w, hw, hwsize⟩ := hbounded.backward? (x := Array.zipWith (· * ·) z f.invDiag) hlength.le
    (by simp [hzsize, h.invDiag])
  have hstep : ∀ e ∈ (f.order.toList.take n).zip w.toList, ∀ x : Array α, x.size = n →
      ∃ x', replace? x e.1 e.2 = some x' ∧ x'.size = n := by
    intro e he x hx
    obtain ⟨x', hx', hsize⟩ := exists_replace? x e.2
      (hx.symm ▸ h.order.2 e.1 (List.of_mem_zip he).1)
    exact ⟨x', hx', hsize.trans hx⟩
  obtain ⟨x, hx, hxsize⟩ := exists_foldlM (P := fun x : Array α => x.size = n)
    (f := fun x (e : Nat × α) => replace? x e.1 e.2) hb hstep
  refine ⟨x, ?_, hxsize⟩
  unfold Factorization.solve?
  rw [if_neg (by simp [hb, h.diag])]
  simp only [h.diag, h.cols, hy, hcolumns, hz, hw, Option.bind_eq_bind, Option.bind_some]
  exact hx

theorem solvable_of_new? (h : new? a options = some (.ok f)) : f.Solvable a.rows := by
  rw [new?_eq] at h
  obtain ⟨result, hanalyze, h⟩ := Option.bind_eq_some_iff.mp h
  cases result with
  | error e => cases h
  | ok blank =>
    obtain ⟨⟨result, f'⟩, hrefactor, h⟩ := Option.map_eq_some_iff.mp h
    cases result with
    | error e => cases h
    | ok _ =>
      cases h
      obtain ⟨hcheck, order, inverse, permuted, patterns, symbolic, horder, hpermuted, hpatterns,
        hsymbolic, rfl⟩ := analyze?_eq_ok.mp hanalyze
      obtain ⟨columns, rows, failure, hcolumns, hnumeric, hresult⟩ := refactor?_eq_some.mp hrefactor
      have hcols : permuted.matrix.cols = a.rows := by
        obtain ⟨moved, nnz, -, -, rfl⟩ := Csc.permuteSymmetric?_eq_some.mp hpermuted
        rfl
      have hlength : columns.length = a.rows := by
        have hlength := length_of_mapM hcolumns
        rw [List.length_range] at hlength
        exact hlength.trans hcols
      have hfits := fits_of_numeric? hlength Array.size_replicate hnumeric
      have hcount : symbolic.count.size = a.rows := by
        have hpatternsLength : patterns.length = a.rows := by simpa using length_of_mapM hpatterns
        refine ((Symbolic.ofColumns?_describes hsymbolic ?_).countSize).trans hpatternsLength
        intro k rowList hk i hi
        have hlt : k < a.rows := hpatternsLength ▸ (List.getElem?_eq_some_iff.mp hk).1
        rw [getElem?_of_mapM hpatterns, List.getElem?_range hlt, Option.bind_some] at hk
        exact Csc.le_of_permuteSymmetric? hpermuted (hcols.symm ▸ hlt) hk hi
      have htotal : symbolic.count.foldl (· + ·) 0 = symbolic.count.toList.sum := by
        rw [← Array.foldl_toList, List.sum_eq_foldl]
      have hinverse := inverse?_of_orderOf horder
      have horderBound := Permutation.lt_of_inverse? hinverse fun j hj =>
        Csc.lt_of_permuteSymmetric? (increasing_of_checkStructure? hcheck) hpermuted hj
      cases failure with
      | some e => cases hresult
      | none =>
        cases hresult
        refine ⟨hfits.diag, hfits.invDiag, rfl, horderBound, ?_⟩
        exact exists_columns_overlay hcount hfits.rows rfl (by rw [← htotal]; rfl)
          (by rw [← htotal]; exact Array.size_replicate)

end Factorization

end Ldl

end NonlinearOpt
