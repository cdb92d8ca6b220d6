import Mathlib
import NonlinearOpt.Proofs.Sparse.Dense
import NonlinearOpt.Proofs.Sparse.Permute

namespace NonlinearOpt

namespace Csc

section Moves

variable {α : Type} {a : Csc α} {inverse : Array Nat}

/-- No position is stored twice. -/
def NoRepeats (a : Csc α) : Prop :=
  ∀ j column, a.entries? j = some column → (column.map Prod.fst).Nodup

def movedTo (inverse : Array Nat) (j r : Nat) : Nat × Nat :=
  (min (inverse.getD r 0) (inverse.getD j 0), max (inverse.getD r 0) (inverse.getD j 0))

def target (m : Moved α) : (Nat × Nat) × α := ((m.row, m.col), m.value)

theorem moveColumn?_eq_some {j : Nat} {ms : List (Moved α)}
    (h : a.moveColumn? inverse j = some ms) :
    ∃ column, a.entries? j = some column ∧ (∀ e ∈ column, e.1 < inverse.size) ∧
      ms.map target = column.map fun e => (movedTo inverse j e.1, e.2) := by
  unfold moveColumn? at h
  obtain ⟨⟨first, last⟩, hspan, h⟩ := Option.bind_eq_some_iff.mp h
  obtain ⟨col, hcol, h⟩ := Option.bind_eq_some_iff.mp h
  have hcol' : inverse.getD j 0 = col := by simp [hcol]
  obtain ⟨column, hcolumn, hall⟩ := mapM_parallel
    (g := fun k => do
      let row ← a.rowIndex[k]?
      let value ← a.values[k]?
      return (row, value))
    (R := fun m e => e.1 < inverse.size ∧ target m = (movedTo inverse j e.1, e.2))
    (List.forall₂_same.mpr fun _ _ => rfl) h (by
      rintro k k' m rfl hm
      obtain ⟨r, hr, hm⟩ := Option.bind_eq_some_iff.mp hm
      obtain ⟨row, hrow, hm⟩ := Option.bind_eq_some_iff.mp hm
      obtain ⟨value, hvalue, hm⟩ := Option.bind_eq_some_iff.mp hm
      split at hm
      · cases hm
        have hrow' : inverse.getD r 0 = row := by simp [hrow]
        refine ⟨(r, value), by simp [hr, hvalue], (Array.getElem?_eq_some_iff.mp hrow).1, ?_⟩
        rw [target, movedTo, hrow', hcol']
      · cases hm)
  obtain ⟨hsize, htargets⟩ := (List.forall₂_and_left _ _).mp hall.flip
  refine ⟨column, ?_, hsize, (map_eq_of_forall₂ htargets.flip)⟩
  unfold entries?
  rw [hspan]
  exact hcolumn

theorem map_target_moved {n : Nat} {moved : List (List (Moved α))}
    (h : (List.range n).mapM (a.moveColumn? inverse) = some moved) :
    (∀ j, j < n → ∃ column, a.entries? j = some column ∧ ∀ e ∈ column, e.1 < inverse.size) ∧
      moved.flatten.map target = (List.range n).flatMap fun j =>
        ((a.entries? j).getD []).map fun e => (movedTo inverse j e.1, e.2) := by
  have hall := mapM_eq_some_iff.mp h
  have hcolumns : List.Forall₂ (fun j ms => (∃ column, a.entries? j = some column ∧
      ∀ e ∈ column, e.1 < inverse.size) ∧
        (((a.entries? j).getD []).map fun e => (movedTo inverse j e.1, e.2)) = ms.map target)
      (List.range n) moved := by
    refine hall.imp ?_
    intro j ms hj
    obtain ⟨column, hcolumn, hsize, htargets⟩ := moveColumn?_eq_some hj
    exact ⟨⟨column, hcolumn, hsize⟩, by rw [hcolumn, Option.getD_some, htargets]⟩
  obtain ⟨hdefined, htargets⟩ := (List.forall₂_and_left _ _).mp hcolumns
  refine ⟨fun j hj => hdefined j (List.mem_range.mpr hj), ?_⟩
  rw [List.map_flatten, List.flatMap_def, map_eq_of_forall₂ htargets]

end Moves

section Positions

variable {n : Nat} {order inverse : Array Nat}

theorem movedTo_eq_iff (h : Permutation.Inverts n order inverse) {j r i k : Nat} (hj : j < n)
    (hr : r < n) (hi : i < n) (hk : k < n) (hik : i ≤ k) :
    movedTo inverse j r = (i, k) ↔
      r = order.getD i 0 ∧ j = order.getD k 0 ∨ r = order.getD k 0 ∧ j = order.getD i 0 := by
  have hat : ∀ r x, r < n → x < n → (inverse.getD r 0 = x ↔ r = order.getD x 0) := by
    intro r x hr hx
    constructor
    · rintro rfl
      exact (h.backward r hr).2.symm
    · rintro rfl
      exact (h.forward x hx).2
  rw [← hat r i hr hi, ← hat j k hj hk, ← hat r k hr hk, ← hat j i hj hi, movedTo, Prod.mk.injEq]
  omega

theorem movedTo_injective (h : Permutation.Inverts n order inverse) {j j' r r' : Nat}
    (hj : j < n) (hj' : j' < n) (hr : r ≤ j) (hr' : r' ≤ j')
    (heq : movedTo inverse j r = movedTo inverse j' r') : r = r' ∧ j = j' := by
  have hinjective : ∀ x y, x < n → y < n → inverse.getD x 0 = inverse.getD y 0 → x = y := by
    intro x y hx hy hxy
    rw [← (h.backward x hx).2, hxy, (h.backward y hy).2]
  rw [movedTo, movedTo, Prod.mk.injEq] at heq
  have hcases : inverse.getD r 0 = inverse.getD r' 0 ∧ inverse.getD j 0 = inverse.getD j' 0 ∨
      inverse.getD r 0 = inverse.getD j' 0 ∧ inverse.getD j 0 = inverse.getD r' 0 := by
    omega
  rcases hcases with ⟨hrows, hcols⟩ | ⟨hrow, hcol⟩
  · exact ⟨hinjective r r' (by omega) (by omega) hrows, hinjective j j' hj hj' hcols⟩
  · have := hinjective r j' (by omega) hj' hrow
    have := hinjective j r' hj (by omega) hcol
    omega

end Positions

section Blocks

variable {α : Type} {a : Csc α} {order inverse : Array Nat} {n : Nat}

theorem nodup_targets (hinverts : Permutation.Inverts n order inverse) (hdistinct : a.NoRepeats)
    (hupper : ∀ j, j < n → ∀ column, a.entries? j = some column → ∀ e ∈ column, e.1 ≤ j)
    {moved : List (List (Moved α))}
    (h : (List.range n).mapM (a.moveColumn? inverse) = some moved) :
    (moved.flatten.map fun m => (m.row, m.col)).Nodup := by
  obtain ⟨hdefined, htargets⟩ := map_target_moved h
  have hplaces : (moved.flatten.map fun m => (m.row, m.col)) = (List.range n).flatMap fun j =>
      (((a.entries? j).getD []).map Prod.fst).map (movedTo inverse j) := by
    calc _ = (moved.flatten.map target).map Prod.fst := by
          rw [List.map_map]
          rfl
      _ = _ := by
          rw [htargets, List.map_flatMap]
          simp only [List.map_map]
          rfl
  rw [hplaces, List.nodup_flatMap]
  constructor
  · intro j hj
    have hj := List.mem_range.mp hj
    obtain ⟨column, hcolumn, -⟩ := hdefined j hj
    rw [hcolumn, Option.getD_some]
    apply (hdistinct j column hcolumn).map_on
    intro r hr r' hr' heq
    obtain ⟨e, he, rfl⟩ := List.mem_map.mp hr
    obtain ⟨e', he', rfl⟩ := List.mem_map.mp hr'
    exact (movedTo_injective hinverts hj hj (hupper j hj column hcolumn e he)
      (hupper j hj column hcolumn e' he') heq).1
  · apply List.Pairwise.imp_of_mem _ List.pairwise_lt_range
    intro j j' hj hj' hlt
    have hj := List.mem_range.mp hj
    have hj' := List.mem_range.mp hj'
    obtain ⟨column, hcolumn, -⟩ := hdefined j hj
    obtain ⟨column', hcolumn', -⟩ := hdefined j' hj'
    simp only [Function.onFun, hcolumn, hcolumn', Option.getD_some]
    intro w hw hw'
    obtain ⟨r, hr, rfl⟩ := List.mem_map.mp hw
    obtain ⟨r', hr', heq⟩ := List.mem_map.mp hw'
    obtain ⟨e, he, rfl⟩ := List.mem_map.mp hr
    obtain ⟨e', he', rfl⟩ := List.mem_map.mp hr'
    have := (movedTo_injective hinverts hj' hj (hupper j' hj' column' hcolumn' e' he')
      (hupper j hj column hcolumn e he) heq).2
    omega

theorem nodup_block {ms : List (Moved α)} (h : (ms.map fun m => (m.row, m.col)).Nodup) (k : Nat) :
    ((Moved.block ms k).map Prod.fst).Nodup := by
  have hsorted : ((Moved.sort ms).map fun m => (m.row, m.col)).Nodup :=
    ((Moved.sort_perm ms).map _).nodup_iff.mpr h
  have hinjective := List.inj_on_of_nodup_map hsorted
  have hrows : (Moved.block ms k).map Prod.fst =
      ((Moved.sort ms).filter (·.col = k)).map (·.row) := by
    rw [Moved.block, List.map_map]
    rfl
  rw [hrows]
  apply (hsorted.of_map.filter _).map_on
  intro m hm m' hm' heq
  obtain ⟨hm, hcol⟩ := List.mem_filter.mp hm
  obtain ⟨hm', hcol'⟩ := List.mem_filter.mp hm'
  apply hinjective hm hm'
  rw [heq, of_decide_eq_true hcol, of_decide_eq_true hcol']

end Blocks

section Sums

variable {K : Type} [LinearOrder K] [ExactScalar K] {a : Csc K} {order inverse : Array Nat}
  {n : Nat}

theorem sumAt_block (ms : List (Moved K)) (i k : Nat) :
    sumAt (Moved.block ms k) i =
      ((ms.map target).map fun w => if w.1 = (i, k) then w.2 else 0).sum := by
  have hfilter : ∀ l : List (Moved K),
      (((l.filter (·.col = k)).map Moved.entry).map fun e => if e.1 = i then e.2 else 0).sum =
        ((l.map target).map fun w => if w.1 = (i, k) then w.2 else 0).sum := by
    intro l
    induction l with
    | nil => rfl
    | cons m l ih =>
      simp only [List.map_map] at ih
      by_cases hcol : m.col = k
      · simp [hcol, ih, Moved.entry, target]
      · simp [hcol, ih, target]
  rw [sumAt, Moved.block, hfilter]
  exact (((Moved.sort_perm ms).map target).map _).sum_eq

theorem sum_range_eq (n : Nat) (f : Nat → K) :
    ((List.range n).map f).sum = ∑ j ∈ Finset.range n, f j := by
  rw [← List.sum_toFinset f List.nodup_range, List.toFinset_range]

theorem sum_movedTo (hinverts : Permutation.Inverts n order inverse) {i j k : Nat} (hik : i ≤ k)
    (hk : k < n) (hj : j < n) {column : List (Nat × K)} (hcolumn : ∀ e ∈ column, e.1 < n) :
    (column.map fun e => if movedTo inverse j e.1 = (i, k) then e.2 else 0).sum =
      (if j = order.getD k 0 then sumAt column (order.getD i 0) else 0) +
        if i ≠ k ∧ j = order.getD i 0 then sumAt column (order.getD k 0) else 0 := by
  have hi : i < n := by omega
  have hinjective : order.getD i 0 = order.getD k 0 → i = k := by
    intro heq
    rw [← (hinverts.forward i hi).2, heq, (hinverts.forward k hk).2]
  induction column with
  | nil => simp [sumAt_nil]
  | cons e column ih =>
    have hr := hcolumn e (by simp)
    have hplace := movedTo_eq_iff hinverts hj hr hi hk hik
    rw [List.map_cons, List.sum_cons, ih fun e' he' => hcolumn e' (by simp [he']), sumAt_cons,
      sumAt_cons]
    -- as it is if column `j` becomes column `k`, as its mirror image if it becomes row `i`
    by_cases hjk : j = order.getD k 0
    · have hne : ¬ (i ≠ k ∧ j = order.getD i 0) := by
        rintro ⟨hne, heq⟩
        exact hne (hinjective (heq.symm.trans hjk))
      have hsame : movedTo inverse j e.1 = (i, k) ↔ e.1 = order.getD i 0 := by
        rw [hplace]
        constructor
        · rintro (⟨hrow, -⟩ | ⟨hrow, hcol⟩)
          · exact hrow
          · rw [hrow, ← hjk, hcol]
        · exact fun hrow => .inl ⟨hrow, hjk⟩
      simp only [hsame, if_pos hjk, if_neg hne, add_zero]
    · by_cases hji : j = order.getD i 0
      · have hne : i ≠ k := by
          rintro rfl
          exact hjk hji
        have hsame : movedTo inverse j e.1 = (i, k) ↔ e.1 = order.getD k 0 := by
          rw [hplace]
          constructor
          · rintro (⟨-, hcol⟩ | ⟨hrow, -⟩)
            · exact absurd hcol hjk
            · exact hrow
          · exact fun hrow => .inr ⟨hrow, hji⟩
        simp only [hsame, if_neg hjk, if_pos (And.intro hne hji), zero_add]
      · have hnone : ¬ movedTo inverse j e.1 = (i, k) := by
          rw [hplace]
          rintro (⟨-, hcol⟩ | ⟨-, hcol⟩)
          · exact hjk hcol
          · exact hji hcol
        simp only [if_neg hnone, if_neg hjk, if_neg fun h : i ≠ k ∧ j = order.getD i 0 => hji h.2,
          add_zero]

/-- A block holds the numbers of the permuted symmetric matrix. -/
theorem sumAt_block_eq (hinverts : Permutation.Inverts n order inverse)
    {moved : List (List (Moved K))} (hsize : inverse.size = n)
    (h : (List.range n).mapM (a.moveColumn? inverse) = some moved) {i k : Nat} (hik : i ≤ k)
    (hk : k < n) : sumAt (Moved.block moved.flatten k) i =
      a.symmetricAt (order.getD i 0) (order.getD k 0) := by
  obtain ⟨hdefined, htargets⟩ := map_target_moved h
  have hi : i < n := by omega
  have hinjective : order.getD i 0 = order.getD k 0 → i = k := by
    intro heq
    rw [← (hinverts.forward i hi).2, heq, (hinverts.forward k hk).2]
  have hpi := Finset.mem_range.mpr (hinverts.forward i hi).1
  have hpk := Finset.mem_range.mpr (hinverts.forward k hk).1
  have hcolumns : ∀ j ∈ Finset.range n, (((a.entries? j).getD []).map fun e =>
      if movedTo inverse j e.1 = (i, k) then e.2 else 0).sum =
        (if j = order.getD k 0 then a.entryAt (order.getD i 0) j else 0) +
          if i ≠ k ∧ j = order.getD i 0 then a.entryAt (order.getD k 0) j else 0 := by
    intro j hj
    have hj := Finset.mem_range.mp hj
    obtain ⟨column, hcolumn, hrows⟩ := hdefined j hj
    rw [entryAt_eq_sumAt hcolumn, entryAt_eq_sumAt hcolumn, hcolumn, Option.getD_some,
      sum_movedTo hinverts hik hk hj (hsize ▸ hrows)]
  calc sumAt (Moved.block moved.flatten k) i
    _ = ∑ j ∈ Finset.range n, (((a.entries? j).getD []).map fun e =>
        if movedTo inverse j e.1 = (i, k) then e.2 else 0).sum := by
      rw [sumAt_block, htargets, List.map_flatMap, List.flatMap_def, List.sum_flatten,
        List.map_map, ← sum_range_eq]
      simp only [Function.comp_def, List.map_map]
    _ = a.entryAt (order.getD i 0) (order.getD k 0) +
        if i ≠ k then a.entryAt (order.getD k 0) (order.getD i 0) else 0 := by
      rw [Finset.sum_congr rfl hcolumns, Finset.sum_add_distrib, Finset.sum_ite_eq', if_pos hpk]
      by_cases hne : i ≠ k
      · simp only [hne, true_and, if_true, Finset.sum_ite_eq', if_pos hpi, ne_eq, not_false_eq_true]
      · simp only [hne, false_and, if_false, Finset.sum_const_zero]
    _ = a.symmetricAt (order.getD i 0) (order.getD k 0) := by
      unfold symmetricAt
      by_cases hne : i = k
      · rw [if_pos (congrArg (order.getD · 0) hne), if_neg (not_not.mpr hne), add_zero]
      · rw [if_neg fun heq => hne (hinjective heq), if_pos hne]

theorem blocks_of_permuteSymmetric? {p : Permuted K} (h : a.permuteSymmetric? inverse = some p)
    (hsquare : a.rows = a.cols) (hupper : a.isUpper? = some true) (hdistinct : a.NoRepeats)
    (hinverts : Permutation.Inverts a.rows order inverse) (hsize : inverse.size = a.rows) :
    ∃ blocks, blocks.length = a.rows ∧ p.matrix.Stores blocks ∧ p.matrix.cols = a.rows ∧
      (∀ (k : Nat) block, blocks[k]? = some block →
        (block.map Prod.fst).Nodup ∧ ∀ e ∈ block, e.1 ≤ k) ∧
      ∀ i k, i ≤ k → k < a.rows → sumAt (blocks.getD k []) i =
        a.symmetricAt (order.getD i 0) (order.getD k 0) := by
  obtain ⟨moved, nnz, hmoved, -, rfl⟩ := permuteSymmetric?_eq_some.mp h
  have hnodup := nodup_targets hinverts hdistinct
    (fun j hj column hcolumn => le_of_isUpper? hupper (hsquare ▸ hj) hcolumn) hmoved
  refine ⟨(List.range a.rows).map (Moved.block moved.flatten), by simp,
    Moved.assemble_stores fun e he => (mem_moved hmoved he).2.1, rfl, ?_, ?_⟩
  · intro k block hk
    rw [List.getElem?_map, Option.map_eq_some_iff] at hk
    obtain ⟨k', hk', rfl⟩ := hk
    obtain ⟨hlt, rfl⟩ := List.getElem?_eq_some_iff.mp hk'
    rw [List.getElem_range]
    exact ⟨nodup_block hnodup k, fun e he => row_le_of_mem_block hmoved he⟩
  · intro i k hik hk
    rw [← sumAt_block_eq hinverts hsize hmoved hik hk]
    simp [hk]

end Sums

end Csc

end NonlinearOpt
