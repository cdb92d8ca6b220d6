import Mathlib
import NonlinearOpt.Proofs.Ldl.Product
import NonlinearOpt.Proofs.Sparse.Relocation

namespace NonlinearOpt

namespace Csc

section Triangular

variable {α : Type}

/-- The upper triangle of a square matrix, with an entry in every column and no position stored
twice. -/
structure Triangular (a : Csc α) : Prop where
  square : a.rows = a.cols
  paired : a.rowIndex.size = a.values.size
  pointers : a.colStart.size = a.cols + 1
  total : a.colStart[a.cols]? = some a.rowIndex.size
  nonempty : ∀ j first last, a.span? j = some (first, last) → first < last
  upper : ∀ j rows, a.rowsOf? j = some rows → ∀ i ∈ rows, i ≤ j
  distinct : a.NoRepeats

variable {a : Csc α}

theorem Triangular.isChain (h : a.Triangular) : a.colStart.toList.IsChain (· < ·) := by
  rw [List.isChain_iff_getElem]
  intro j hj
  apply h.nonempty j
  rw [Array.length_toList] at hj
  simp [span?, show j < a.colStart.size by omega, hj]

theorem Triangular.span? (h : a.Triangular) {j : Nat} (hj : j < a.cols) :
    ∃ first last, a.span? j = some (first, last) ∧ first < last ∧ last ≤ a.rowIndex.size := by
  have hpointers := h.pointers
  have hspan : a.span? j = some (a.colStart[j], a.colStart[j + 1]) := by
    simp [Csc.span?, hpointers, show j < a.cols + 1 by omega, show j + 1 < a.cols + 1 by omega]
  refine ⟨_, _, hspan, h.nonempty j _ _ hspan, ?_⟩
  have hsorted := List.pairwise_iff_getElem.mp (List.isChain_iff_pairwise.mp h.isChain)
  obtain ⟨hcols, htotal⟩ := Array.getElem?_eq_some_iff.mp h.total
  rcases Nat.lt_or_eq_of_le (Nat.succ_le_of_lt hj) with hlt | heq
  · have := hsorted (j + 1) a.cols (by simp; omega) (by simp; omega) hlt
    simp only [Array.getElem_toList] at this
    omega
  · simp only [← htotal, ← heq]
    exact Nat.le_refl _

theorem Triangular.rowsOf? (h : a.Triangular) {j : Nat} (hj : j < a.cols) :
    ∃ rows, a.rowsOf? j = some rows ∧ ∀ i ∈ rows, i ≤ j := by
  obtain ⟨first, last, hspan, hlt, hle⟩ := h.span? hj
  have hrows : a.rowsOf? j = some (a.rowIndex.extract first last).toList := by
    simp [Csc.rowsOf?, hspan, slice?, hlt.le, hle]
  exact ⟨_, hrows, h.upper j _ hrows⟩

theorem Triangular.entries? (h : a.Triangular) {j : Nat} (hj : j < a.cols) :
    ∃ column, a.entries? j = some column ∧ ∀ e ∈ column, e.1 ≤ j := by
  obtain ⟨first, last, hspan, hlt, hle⟩ := h.span? hj
  have hdefined : ∃ column, a.entries? j = some column := by
    unfold Csc.entries?
    rw [hspan]
    apply exists_mapM
    intro k hk
    have hbound := (List.mem_range'_1.mp hk).2
    have hpaired := h.paired
    simp [show k < a.rowIndex.size by omega, show k < a.values.size by omega]
  obtain ⟨column, hcolumn⟩ := hdefined
  obtain ⟨rows, hrows, hupper⟩ := h.rowsOf? hj
  refine ⟨column, hcolumn, ?_⟩
  intro e he
  apply hupper
  rw [← map_fst_of_entries? hrows hcolumn]
  exact List.mem_map_of_mem he

theorem Triangular.isUpper? (h : a.Triangular) : a.isUpper? = some true :=
  isUpper?_go_of_le fun _ hj => h.rowsOf? (List.mem_range.mp hj)

theorem Triangular.increasing (h : a.Triangular) :
    chained (fun x y => decide (x < y)) a.colStart.toList = true :=
  chained_of_pairwise ((List.isChain_iff_pairwise.mp h.isChain).imp decide_eq_true)

theorem Triangular.revalue (h : a.Triangular) {vs : Array α} (hvs : vs.size = a.values.size) :
    ({ a with values := vs }).Triangular := by
  refine ⟨h.square, h.paired.trans hvs.symm, h.pointers, h.total, h.nonempty, h.upper, ?_⟩
  intro j column hcolumn
  have hj : j < a.cols := by
    obtain ⟨span, hspan, -⟩ := Option.bind_eq_some_iff.mp hcolumn
    obtain ⟨first, -, hspan⟩ := Option.bind_eq_some_iff.mp hspan
    obtain ⟨last, hlast, -⟩ := Option.bind_eq_some_iff.mp hspan
    have hlt : j + 1 < a.colStart.size := (Array.getElem?_eq_some_iff.mp hlast).1
    have hpointers := h.pointers
    omega
  obtain ⟨rows, hrows, -⟩ := h.rowsOf? hj
  obtain ⟨old, hold, -⟩ := h.entries? hj
  have hrows' : ({ a with values := vs }).rowsOf? j = some rows := hrows
  rw [map_fst_of_entries? hrows' hcolumn, ← map_fst_of_entries? hrows hold]
  exact h.distinct j old hold

end Triangular

section Permuted

variable {α : Type} {a : Csc α} {order inverse : Array Nat}

theorem Triangular.upperTriangle (h : a.Triangular) : a.UpperTriangle := by
  refine ⟨⟨h.pointers, h.isChain.imp fun _ _ hlt => hlt.le, ?_⟩, h.square, h.upper⟩
  intro last hlast
  have htotal : a.nnz? = some a.rowIndex.size := h.total
  rw [htotal, Option.some.injEq] at hlast
  exact ⟨hlast.ge, (hlast.symm.trans h.paired).le⟩

theorem Triangular.permuteSymmetric? (h : a.Triangular)
    (hinverts : Permutation.Inverts a.rows order inverse) (hsize : inverse.size = a.rows) :
    ∃ p columns, a.permuteSymmetric? inverse = some p ∧ columns.length = a.rows ∧
      (List.range a.rows).mapM p.matrix.rowsOf? = some columns ∧
      Symbolic.Upper columns := by
  have hinverse : ∀ j, j < a.rows → ∃ c, inverse[j]? = some c ∧ c < a.rows := by
    intro j hj
    have hget : inverse[j]? = some inverse[j] := Array.getElem?_eq_getElem (hsize ▸ hj)
    refine ⟨_, hget, ?_⟩
    have hbound := (hinverts.backward j hj).1
    rwa [Array.getD_eq_getD_getElem?, hget, Option.getD_some] at hbound
  obtain ⟨p, hp⟩ := h.upperTriangle.exists_permuteSymmetric? hinverse
  obtain ⟨-, columns, hlength, -, hrows, hupper⟩ := exists_columns_of_permuteSymmetric? hp
  exact ⟨p, _, hp, by rw [List.length_map, hlength], hrows, Symbolic.upper_map_fst hupper⟩

end Permuted

end Csc

namespace Symbolic

open Ldl

variable {start s : Progress} {j i : Nat} {seen : List Nat} {visited : Finset Nat}

theorem Climbing.reachedSize (h : Climbing start j seen visited i s) :
    s.reached.size = start.reached.size := by
  have hnone : ∀ c : Nat, s.reached[c]? = none ↔ start.reached[c]? = none := by
    intro c
    rw [h.reached c]
    split <;> simp
  simp only [Array.getElem?_eq_none_iff] at hnone
  exact Nat.le_antisymm ((hnone _).mpr (Nat.le_refl _)) ((hnone _).mp (Nat.le_refl _))

theorem exists_climb {n fuel : Nat} (hstart : Before j start) (hj : j < n)
    (hsize : start.parent.size = n) (hcount : start.count.size = n)
    (hreached : start.reached.size = n) (h : Climbing start j seen visited i s) (hi : i ≤ j)
    (habove : ∃ i₀ ∈ seen, Ancestor s.parent i₀ i) (hfuel : j < i + fuel) :
    ∃ s', climb j fuel i s = some s' := by
  induction fuel generalizing i s visited with
  | zero => omega
  | succ fuel ih =>
    have hparentSize := h.size.trans hsize
    have hcountSize := h.countSize.trans hcount
    have hreachedSize := h.reachedSize.trans hreached
    have hr : s.reached[i]? = some s.reached[i] := Array.getElem?_eq_getElem (by omega)
    have hp : s.parent[i]? = some s.parent[i] := Array.getElem?_eq_getElem (by omega)
    have hm : s.count[i]? = some s.count[i] := Array.getElem?_eq_getElem (by omega)
    rw [climb, hr, Option.bind_eq_bind, Option.bind_some]
    by_cases hrj : s.reached[i] = j
    · exact ⟨s, if_pos hrj⟩
    · obtain ⟨parent, hparent, -⟩ := exists_replace? s.parent (i := i)
        (some (s.parent[i].getD j)) (by omega)
      obtain ⟨count, hcount', -⟩ := exists_replace? s.count (i := i) (s.count[i] + 1)
        (by omega)
      obtain ⟨reached, hreached', -⟩ := exists_replace? s.reached (i := i) j (by omega)
      obtain ⟨hup, hle, hnext, hvisit⟩ :=
        h.visit hstart hi habove hr hrj hp hm hparent hcount' hreached'
      rw [if_neg hrj, hp, hm]
      simp only [Option.bind_eq_bind, Option.bind_some, hparent, hcount', hreached']
      exact ih hvisit hle hnext (by omega)

theorem exists_rows {n : Nat} (hstart : Before j start) (hj : j < n)
    (hsize : start.parent.size = n) (hcount : start.count.size = n)
    (hreached : start.reached.size = n) {rows : List Nat} (hrows : ∀ i ∈ rows, i ≤ j) :
    ∃ s, rows.foldlM (fun s i => climb j (n + 1) i s) start = some s ∧ s.reached.size = n := by
  induction rows using List.reverseRecOn with
  | nil => exact ⟨start, rfl, hreached⟩
  | append_singleton rows i ih =>
    obtain ⟨mid, hmid, -⟩ := ih fun i' hi' => hrows i' (by simp [hi'])
    obtain ⟨visited, -, hclimbing⟩ := rows_climbing hstart (climbing_refl start j) (by simp)
      (fun i' hi' => hrows i' (by simp [hi'])) hmid
    have hclimb : ∃ s, climb j (n + 1) i mid = some s :=
      exists_climb hstart hj hsize hcount hreached (hclimbing.turn i) (hrows i (by simp))
        ⟨i, by simp, .refl⟩ (by omega)
    obtain ⟨s, hs⟩ := hclimb
    have hfold : (rows ++ [i]).foldlM (fun s i => climb j (n + 1) i s) start = some s := by
      rw [List.foldlM_append, hmid, Option.bind_eq_bind, Option.bind_some]
      exact foldlM_cons_eq_some.mpr ⟨s, hs, rfl⟩
    obtain ⟨visited, -, hdone⟩ := rows_climbing hstart (climbing_refl start j) (by simp) hrows hfold
    exact ⟨s, hfold, hdone.reachedSize.trans hreached⟩

theorem exists_columns {n : Nat} {columns : List (List Nat)} (hlength : columns.length ≤ n)
    (hupper : Upper columns) :
    ∃ s, columns.zipIdx.foldlM
        (fun s w => w.1.foldlM (fun s i => climb w.2 (n + 1) i s) s)
        { parent := Array.replicate n none, count := Array.replicate n 0,
          reached := Array.range n } = some s ∧ s.reached.size = n := by
  induction columns using List.reverseRecOn with
  | nil => exact ⟨_, rfl, by simp⟩
  | append_singleton columns rows ih =>
    rw [List.length_append, List.length_singleton] at hlength
    obtain ⟨mid, hmid, hreached⟩ := ih (by omega) hupper.init
    obtain ⟨visited, hanalyzed⟩ := analyzed_of_foldlM hupper.init hmid
    obtain ⟨s, hs, hreached⟩ := exists_rows hanalyzed.toBefore (by omega) hanalyzed.size
      hanalyzed.countSize hreached (hupper _ rows (by simp))
    refine ⟨s, ?_, hreached⟩
    rw [List.zipIdx_append, List.foldlM_append, hmid, Option.bind_eq_bind, Option.bind_some]
    exact foldlM_cons_eq_some.mpr ⟨s, by simpa using hs, rfl⟩

/-- Every upper triangular pattern has an elimination tree. -/
theorem exists_ofColumns? {columns : List (List Nat)}
    (hupper : Upper columns) :
    ∃ symbolic, ofColumns? columns = some symbolic := by
  obtain ⟨s, hs, -⟩ := exists_columns (Nat.le_refl columns.length) hupper
  exact ⟨s.toSymbolic, Option.bind_eq_some_iff.mpr ⟨s, hs, rfl⟩⟩

end Symbolic

end NonlinearOpt
