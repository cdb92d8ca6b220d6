import Mathlib
import NonlinearOpt.Proofs.Arithmetic.Exact
import NonlinearOpt.Proofs.Sparse.Permute
import NonlinearOpt.Proofs.Sparse.Sorted

/-!
Where a symmetric permutation puts each entry of an upper triangle. An entry goes behind the entries
of the columns before its own and behind the earlier entries of its column, so a pass that writes
the entries one by one behind running cursors fills the same arrays.
-/

namespace NonlinearOpt

namespace Moved

variable {α : Type} {n nnz : Nat} {ms : List (Moved α)}

theorem filter_sort (ms : List (Moved α)) (c : Nat) :
    (sort ms).filter (·.col = c) = ms.filter (·.col = c) := by
  have hsub : (ms.filter (·.col = c)).Sublist (sort ms) := by
    apply List.sublist_mergeSort
    · intro s t u hst htu
      simp only [decide_eq_true_eq] at *
      omega
    · intro s t
      simp only [Bool.or_eq_true, decide_eq_true_eq]
      omega
    · apply List.pairwise_of_forall_mem_list
      intro s hs t ht
      have hs := of_decide_eq_true (List.mem_filter.mp hs).2
      have ht := of_decide_eq_true (List.mem_filter.mp ht).2
      simp only [decide_eq_true_eq]
      omega
    · exact List.filter_sublist
  have hsub' := hsub.filter (·.col = c)
  rw [List.filter_filter, List.filter_congr fun e _ => Bool.and_self _] at hsub'
  exact (hsub'.eq_of_length ((sort_perm ms).filter _).length_eq.symm).symm

def before (ms : List (Moved α)) (c : Nat) : Nat := ms.countP (·.col < c)

theorem before_sort (ms : List (Moved α)) (c : Nat) : before (sort ms) c = before ms c :=
  (sort_perm ms).countP_eq _

theorem before_succ (ms : List (Moved α)) (c : Nat) :
    before ms (c + 1) = before ms c + ms.countP (·.col = c) := by
  induction ms with
  | nil => rfl
  | cons e ms ih =>
    unfold before at ih ⊢
    simp only [List.countP_cons, ih, decide_eq_true_eq]
    split_ifs <;> omega

def slot (ms : List (Moved α)) (c k : Nat) : Nat :=
  before ms c + (ms.take k).countP (·.col = c)

theorem slot_succ {k : Nat} {e : Moved α} (hk : ms[k]? = some e) (c : Nat) :
    slot ms c (k + 1) = slot ms c k + if e.col = c then 1 else 0 := by
  simp only [slot, List.take_add_one, hk, Option.toList_some, List.countP_append,
    List.countP_singleton, decide_eq_true_eq]
  omega

theorem slot_mono (ms : List (Moved α)) (c : Nat) {k l : Nat} (hkl : k ≤ l) :
    slot ms c k ≤ slot ms c l :=
  Nat.add_le_add_left ((List.take_sublist_take_left hkl).countP_le) _

theorem getElem?_sort_slot {k : Nat} {e : Moved α} (hk : ms[k]? = some e) :
    (sort ms)[slot ms e.col k]? = some e := by
  have hsplit := Csc.filter_append_filter (pairwise_sort ms) e.col
  have hrest := Csc.filter_append_filter ((pairwise_sort ms).filter (e.col ≤ ·.col)) (e.col + 1)
  have hcolumn : ((sort ms).filter (e.col ≤ ·.col)).filter (·.col < e.col + 1) =
      ms.filter (·.col = e.col) := by
    rw [List.filter_filter, ← filter_sort ms]
    apply List.filter_congr
    intro t _
    rw [Bool.eq_iff_iff]
    simp only [Bool.and_eq_true, decide_eq_true_eq]
    omega
  have hms : ms = ms.take k ++ e :: ms.drop (k + 1) := by
    obtain ⟨hlt, hget⟩ := List.getElem?_eq_some_iff.mp hk
    rw [← hget, List.cons_getElem_drop_succ, List.take_append_drop]
  have hfilter : ms.filter (·.col = e.col) = (ms.take k).filter (·.col = e.col) ++
      e :: (ms.drop (k + 1)).filter (·.col = e.col) := by
    conv_lhs => rw [hms]
    simp
  have hbefore : ((sort ms).filter (·.col < e.col)).length = before ms e.col := by
    rw [← List.countP_eq_length_filter]
    exact before_sort ms e.col
  rw [hsplit, hrest, hcolumn, hfilter, slot, ← hbefore, List.getElem?_append_right (by omega),
    List.countP_eq_length_filter]
  simp

theorem lt_before_iff {c k : Nat} {e : Moved α} (hk : (sort ms)[k]? = some e) :
    k < before ms c ↔ e.col < c := by
  have hsplit := Csc.filter_append_filter (pairwise_sort ms) c
  have hlength : ((sort ms).filter (·.col < c)).length = before ms c := by
    rw [← List.countP_eq_length_filter]
    exact before_sort ms c
  rw [hsplit, List.getElem?_append, hlength] at hk
  split at hk
  · next hlt =>
    have := of_decide_eq_true (List.mem_filter.mp (List.mem_of_getElem? hk)).2
    omega
  · next hle =>
    have := of_decide_eq_true (List.mem_filter.mp (List.mem_of_getElem? hk)).2
    omega

section Pointers

variable (hbound : ∀ e ∈ ms, e.col < n)
include hbound

theorem tally_sort : Csc.tally n ((sort ms).map (·.col)) = Csc.tally n (ms.map (·.col)) := by
  have hperm : ((sort ms).map (·.col)).Perm (ms.map (·.col)) := (sort_perm ms).map _
  have hcols : ∀ c ∈ ms.map (·.col), c < n := List.forall_mem_map.mpr hbound
  rw [Csc.tally_eq hcols, Csc.tally_eq fun c hc => hcols c (hperm.mem_iff.mp hc)]
  simp only [hperm.count_eq]

theorem getElem?_colStart {c : Nat} (hc : c ≤ n) :
    (cumulative (Csc.tally n (ms.map (·.col))))[c]? = some (before ms c) := by
  rw [getElem?_cumulative _ (by simp [Csc.tally_eq (List.forall_mem_map.mpr hbound), hc]),
    Csc.tally_eq (List.forall_mem_map.mpr hbound)]
  congr 1
  induction c with
  | zero => simp [before]
  | succ c ih =>
    have hget : ((List.range n).map fun k => (ms.map (·.col)).count k)[c]? =
        some ((ms.map (·.col)).count c) := by
      simp [show c < n by omega]
    rw [List.take_add_one, List.sum_append, ih (by omega), hget, before_succ, List.count_eq_countP,
      List.countP_map]
    simp only [Option.toList_some, List.sum_singleton]
    rfl

end Pointers

end Moved

/-- What a pass over the entries has written, and the next free place of each column. -/
structure Scatter (α : Type) where
  next : Array Nat
  rowIndex : Array Nat
  values : Array α
  position : Array Nat

namespace Scatter

variable {α : Type}

def write? (s : Scatter α) (e : Moved α) : Option (Scatter α) := do
  let k ← s.next[e.col]?
  return {
    next := ← replace? s.next e.col (k + 1)
    rowIndex := ← replace? s.rowIndex k e.row
    values := ← replace? s.values k e.value
    position := ← replace? s.position e.source k }

def start [Scalar α] (colStart : Array Nat) (nnz : Nat) : Scatter α :=
  ⟨colStart.pop, Array.replicate nnz 0, Vec.zero nnz, Array.replicate nnz 0⟩

structure Wrote (n nnz : Nat) (ms : List (Moved α)) (m : Nat) (s : Scatter α) : Prop where
  next : ∀ c, c < n → s.next[c]? = some (Moved.slot ms c m)
  rows : s.rowIndex.size = nnz
  stored : s.values.size = nnz
  places : s.position.size = nnz
  written : ∀ (k : Nat) (e : Moved α), (Moved.sort ms)[k]? = some e → e.source < m →
    s.rowIndex[k]? = some e.row ∧ s.values[k]? = some e.value ∧ s.position[e.source]? = some k

variable {n nnz m : Nat} {ms : List (Moved α)}

section Pass

variable (hbound : ∀ e ∈ ms, e.col < n) (hsources : ms.map (·.source) = List.range nnz)

include hbound in
theorem wrote_start [Scalar α] :
    Wrote n nnz ms 0 (start (cumulative (Csc.tally n (ms.map (·.col)))) nnz) := by
  refine ⟨?_, by simp [start], by simp [start, Vec.zero], by simp [start], by simp⟩
  intro c hc
  have hget := Moved.getElem?_colStart hbound hc.le
  have hsize := (Array.getElem?_eq_some_iff.mp (Moved.getElem?_colStart hbound (Nat.le_refl n))).1
  simp only [start, Moved.slot, List.take_zero, List.countP_nil, Nat.add_zero]
  rw [Array.getElem?_pop, if_pos (by omega), hget]

include hsources

theorem source_of_getElem? {k : Nat} {e : Moved α} (hk : ms[k]? = some e) : e.source = k := by
  have hget : (ms.map (·.source))[k]? = some e.source := by rw [List.getElem?_map, hk]; rfl
  rw [hsources] at hget
  obtain ⟨hlt, hget⟩ := List.getElem?_eq_some_iff.mp hget
  rw [← hget, List.getElem_range]

theorem eq_of_getElem?_sort {k l : Nat} {e t : Moved α} (hk : (Moved.sort ms)[k]? = some e)
    (hl : (Moved.sort ms)[l]? = some t) (heq : e.source = t.source) : k = l := by
  have hnodup : ((Moved.sort ms).map (·.source)).Nodup := by
    rw [((Moved.sort_perm ms).map _).nodup_iff, hsources]
    exact List.nodup_range
  have hlt := (List.getElem?_eq_some_iff.mp hk).1
  apply (List.getElem?_inj (by simpa using hlt) hnodup).mp
  rw [List.getElem?_map, List.getElem?_map, hk, hl, Option.map_some, Option.map_some, heq]

include hbound

theorem Wrote.write? {s : Scatter α} (h : Wrote n nnz ms m s) (hm : m < ms.length) :
    ∃ s', s.write? ms[m] = some s' ∧ Wrote n nnz ms (m + 1) s' := by
  have hget : ms[m]? = some ms[m] := List.getElem?_eq_getElem hm
  have hcol : ms[m].col < n := hbound _ (List.getElem_mem hm)
  have hnext := h.next _ hcol
  have hslot := Moved.getElem?_sort_slot hget
  have hsource := source_of_getElem? hsources hget
  have hlength : ms.length = nnz := by simpa using congrArg List.length hsources
  have hlt : Moved.slot ms ms[m].col m < nnz := by
    rw [← hlength, ← (Moved.sort_perm ms).length_eq]
    exact (List.getElem?_eq_some_iff.mp hslot).1
  obtain ⟨next, hnext', -⟩ := exists_replace? s.next (Moved.slot ms ms[m].col m + 1)
    (Array.getElem?_eq_some_iff.mp hnext).1
  obtain ⟨rows, hrows, hrowsSize⟩ := exists_replace? s.rowIndex ms[m].row (h.rows ▸ hlt)
  obtain ⟨values, hvalues, hvaluesSize⟩ := exists_replace? s.values ms[m].value (h.stored ▸ hlt)
  obtain ⟨places, hplaces, hplacesSize⟩ := exists_replace? s.position
    (Moved.slot ms ms[m].col m) (i := ms[m].source) (by rw [hsource, h.places]; omega)
  refine ⟨⟨next, rows, values, places⟩, ?_, ?_⟩
  · unfold Scatter.write?
    simp only [hnext, hnext', hrows, hvalues, hplaces, Option.bind_eq_bind, Option.bind_some,
      Option.pure_def]
  · refine ⟨?_, hrowsSize.trans h.rows, hvaluesSize.trans h.stored, hplacesSize.trans h.places, ?_⟩
    · intro c hc
      rw [getElem?_of_replace? hnext', h.next c hc, Moved.slot_succ hget]
      split
      · next heq => rw [heq]
      · rfl
    · intro k e hk he
      rw [getElem?_of_replace? hrows, getElem?_of_replace? hvalues, getElem?_of_replace? hplaces]
      by_cases hlast : e.source = ms[m].source
      · have hplace := eq_of_getElem?_sort hsources hk hslot hlast
        subst hplace
        rw [hslot] at hk
        cases hk
        simp
      · have hne : Moved.slot ms ms[m].col m ≠ k := by
          rintro rfl
          rw [hslot] at hk
          cases hk
          exact hlast rfl
        rw [if_neg hne, if_neg hne, if_neg (Ne.symm hlast)]
        exact h.written k e hk (by omega)

theorem exists_foldlM_write? [Scalar α] (hm : m ≤ ms.length) :
    ∃ s, (ms.take m).foldlM Scatter.write?
      (start (cumulative (Csc.tally n (ms.map (·.col)))) nnz) = some s ∧ Wrote n nnz ms m s := by
  induction m with
  | zero => exact ⟨_, rfl, wrote_start hbound⟩
  | succ m ih =>
    obtain ⟨s, hs, hwrote⟩ := ih (by omega)
    obtain ⟨s', hs', hwrote'⟩ := hwrote.write? hbound hsources (by omega)
    refine ⟨s', ?_, hwrote'⟩
    rw [List.take_add_one, List.getElem?_eq_getElem (by omega), Option.toList_some,
      List.foldlM_append, hs]
    simpa using hs'

theorem exists_scatter [Scalar α] :
    ∃ s, ms.foldlM Scatter.write? (start (cumulative (Csc.tally n (ms.map (·.col)))) nnz) =
        some s ∧
      s.rowIndex = (Moved.assemble n nnz ms).matrix.rowIndex ∧
      s.values = (Moved.assemble n nnz ms).matrix.values ∧
      s.position = (Moved.assemble n nnz ms).position := by
  obtain ⟨s, hs, hwrote⟩ := exists_foldlM_write? hbound hsources (Nat.le_refl ms.length)
  rw [List.take_length] at hs
  have hlength : ms.length = nnz := by simpa using congrArg List.length hsources
  have hsorted : (Moved.sort ms).length = nnz := (Moved.sort_perm ms).length_eq.trans hlength
  -- every place of the sorted list is that of some entry, and all entries were written
  have hwritten : ∀ k (hk : k < (Moved.sort ms).length),
      s.rowIndex[k]? = some (Moved.sort ms)[k].row ∧
        s.values[k]? = some (Moved.sort ms)[k].value := by
    intro k hk
    have hget : (Moved.sort ms)[k]? = some (Moved.sort ms)[k] := List.getElem?_eq_getElem hk
    obtain ⟨l, hl⟩ := List.getElem?_of_mem ((Moved.sort_perm ms).mem_iff.mp (List.getElem_mem hk))
    have hsource := source_of_getElem? hsources hl
    have := hwrote.written k _ hget (hsource ▸ (List.getElem?_eq_some_iff.mp hl).1)
    exact ⟨this.1, this.2.1⟩
  refine ⟨s, hs, ?_, ?_, ?_⟩
  · apply Array.ext_getElem?
    intro k
    by_cases hk : k < (Moved.sort ms).length
    · rw [(hwritten k hk).1]
      simp [Moved.assemble, hk]
    · rw [Array.getElem?_eq_none (by rw [hwrote.rows]; omega)]
      simp [Moved.assemble, Nat.not_lt.mp hk]
  · apply Array.ext_getElem?
    intro k
    by_cases hk : k < (Moved.sort ms).length
    · rw [(hwritten k hk).2]
      simp [Moved.assemble, hk]
    · rw [Array.getElem?_eq_none (by rw [hwrote.stored]; omega)]
      simp [Moved.assemble, Nat.not_lt.mp hk]
  · apply Array.ext_getElem?
    intro k
    have hsources' : ms.map (·.source) = List.range' 0 (nnz - 0) := by
      rw [hsources, Nat.sub_zero, List.range_eq_range']
    by_cases hk : k < ms.length
    · have hget : ms[k]? = some ms[k] := List.getElem?_eq_getElem hk
      have hslot := Moved.getElem?_sort_slot hget
      have hsource := source_of_getElem? hsources hget
      have hplace := (hwrote.written _ _ hslot (hsource.symm ▸ hk)).2.2
      rw [← hsource, hplace, Moved.getElem?_position hsources' hslot]
    · rw [Array.getElem?_eq_none (by rw [hwrote.places]; omega),
        Array.getElem?_eq_none (by rw [Moved.size_position]; omega)]

end Pass

end Scatter

namespace Csc

variable {α : Type} {a : Csc α} {inverse : Array Nat}

/-- Columns that follow each other in the storage. They may be empty, and a row may be there more than
once. -/
structure Divided (a : Csc α) : Prop where
  pointers : a.colStart.size = a.cols + 1
  rising : a.colStart.toList.IsChain (· ≤ ·)
  stored : ∀ last, a.nnz? = some last → last ≤ a.rowIndex.size ∧ last ≤ a.values.size

structure UpperTriangle (a : Csc α) : Prop extends Divided a where
  square : a.rows = a.cols
  upper : ∀ j rows, a.rowsOf? j = some rows → ∀ i ∈ rows, i ≤ j

/-- Entry number `k` of the storage is in row `i` and column `j`. -/
structure StoredAt (a : Csc α) (k i j : Nat) (v : α) : Prop where
  column : ∃ first last, a.span? j = some (first, last) ∧ first ≤ k ∧ k < last
  row : a.rowIndex[k]? = some i
  value : a.values[k]? = some v

namespace Divided

theorem span? (h : a.Divided) {j : Nat} (hj : j < a.cols) :
    ∃ first last nnz, a.span? j = some (first, last) ∧ a.nnz? = some nnz ∧ first ≤ last ∧
      last ≤ nnz := by
  have hpointers := h.pointers
  have hsorted := List.pairwise_iff_getElem.mp (List.isChain_iff_pairwise.mp h.rising)
  refine ⟨a.colStart[j], a.colStart[j + 1], a.colStart[a.cols], ?_, ?_, ?_, ?_⟩
  · simp [Csc.span?, show j < a.colStart.size by omega, show j + 1 < a.colStart.size by omega]
  · simp [Csc.nnz?, hpointers]
  · exact hsorted j (j + 1) (by simp; omega) (by simp; omega) (Nat.lt_succ_self j)
  · rcases Nat.lt_or_eq_of_le (Nat.succ_le_of_lt hj) with hlt | heq
    · exact hsorted (j + 1) a.cols (by simp; omega) (by simp; omega) hlt
    · exact Nat.le_of_eq (getElem_congr_idx heq)

theorem ordered (h : a.Divided) : a.Ordered := by
  intro j x y hj hspan
  obtain ⟨first, last, -, hspan', -, hle, -⟩ := h.span? hj
  rw [hspan] at hspan'
  cases hspan'
  exact hle

theorem exists_rowsOf? (h : a.Divided) {j : Nat} (hj : j < a.cols) :
    ∃ rows, a.rowsOf? j = some rows := by
  obtain ⟨first, last, nnz, hspan, hnnz, hle, htotal⟩ := h.span? hj
  have hrows := (h.stored nnz hnnz).1
  exact ⟨(a.rowIndex.extract first last).toList, by
    simp [Csc.rowsOf?, hspan, slice?, hle, show last ≤ a.rowIndex.size by omega]⟩

theorem lt_of_rowsOf? (hpointers : a.colStart.size = a.cols + 1) {j : Nat} {rows : List Nat}
    (hrows : a.rowsOf? j = some rows) : j < a.cols := by
  obtain ⟨span, hspan, -⟩ := Option.bind_eq_some_iff.mp hrows
  obtain ⟨first, -, hspan⟩ := Option.bind_eq_some_iff.mp hspan
  obtain ⟨last, hlast, -⟩ := Option.bind_eq_some_iff.mp hspan
  have hlt : j + 1 < a.colStart.size := (Array.getElem?_eq_some_iff.mp hlast).1
  omega

end Divided

namespace UpperTriangle

theorem exists_storedAt (h : a.UpperTriangle) {j k first last : Nat} (hj : j < a.cols)
    (hspan : a.span? j = some (first, last)) (hfirst : first ≤ k) (hlast : k < last) :
    ∃ i v, a.StoredAt k i j v ∧ i ≤ j := by
  obtain ⟨first', last', nnz, hspan', hnnz, hle, htotal⟩ := h.span? hj
  rw [hspan] at hspan'
  cases hspan'
  obtain ⟨hrows, hvalues⟩ := h.stored nnz hnnz
  have hslice : a.rowsOf? j = some (a.rowIndex.extract first last).toList := by
    simp [Csc.rowsOf?, hspan, slice?, hle, show last ≤ a.rowIndex.size by omega]
  have hrow : a.rowIndex[k]? = some (a.rowIndex[k]) := Array.getElem?_eq_getElem (by omega)
  have hvalue : a.values[k]? = some (a.values[k]) := Array.getElem?_eq_getElem (by omega)
  refine ⟨_, _, ⟨⟨first, last, hspan, hfirst, hlast⟩, hrow, hvalue⟩, h.upper j _ hslice _ ?_⟩
  rw [Array.mem_toList_iff, Array.mem_iff_getElem?]
  refine ⟨k - first, ?_⟩
  rw [Array.getElem?_extract, if_pos (by omega), Nat.add_sub_cancel' hfirst]
  exact hrow

theorem exists_moveColumn? (h : a.UpperTriangle)
    (hinverse : ∀ j, j < a.rows → ∃ c, inverse[j]? = some c ∧ c < a.rows) {j : Nat}
    (hj : j < a.rows) : ∃ ms, a.moveColumn? inverse j = some ms := by
  obtain ⟨first, last, -, hspan, -⟩ := h.span? (h.square ▸ hj)
  obtain ⟨col, hcol, hcolBound⟩ := hinverse j hj
  unfold Csc.moveColumn?
  simp only [hspan, hcol, Option.bind_eq_bind, Option.bind_some]
  apply exists_mapM
  intro k hk
  have hk := List.mem_range'_1.mp hk
  obtain ⟨i, v, hstored, hi⟩ :=
    h.exists_storedAt (h.square ▸ hj) hspan hk.1 (by omega)
  obtain ⟨row, hrow, hrowBound⟩ := hinverse i (by omega)
  simp [hstored.row, hstored.value, hrow, hrowBound, hcolBound]

theorem exists_permuteSymmetric? (h : a.UpperTriangle)
    (hinverse : ∀ j, j < a.rows → ∃ c, inverse[j]? = some c ∧ c < a.rows) :
    ∃ p, a.permuteSymmetric? inverse = some p := by
  obtain ⟨moved, hmoved⟩ := exists_mapM fun j hj =>
    h.exists_moveColumn? hinverse (List.mem_range.mp hj)
  have hlast : a.cols < a.colStart.size := by
    have := h.pointers
    omega
  have hnnz : a.nnz? = some a.colStart[a.cols] := Array.getElem?_eq_getElem hlast
  exact ⟨_, permuteSymmetric?_eq_some.mpr ⟨moved, _, hmoved, hnnz, rfl⟩⟩

end UpperTriangle

theorem StoredAt.mem_moveColumn? {j k i : Nat} {v : α} {ms : List (Moved α)}
    (hstored : a.StoredAt k i j v) (h : a.moveColumn? inverse j = some ms) :
    ∃ row col, inverse[i]? = some row ∧ inverse[j]? = some col ∧
      ⟨k, min row col, max row col, v⟩ ∈ ms := by
  obtain ⟨first, last, hspan, hfirst, hlast⟩ := hstored.column
  unfold Csc.moveColumn? at h
  obtain ⟨span, hspan', h⟩ := Option.bind_eq_some_iff.mp h
  rw [hspan] at hspan'
  cases hspan'
  obtain ⟨col, hcol, h⟩ := Option.bind_eq_some_iff.mp h
  obtain ⟨e, he, hmove⟩ := exists_mem_of_mapM h (x := k) (List.mem_range'_1.mpr (by omega))
  simp only [hstored.row, hstored.value, Option.bind_eq_bind, Option.bind_some] at hmove
  obtain ⟨row, hrow, hmove⟩ := Option.bind_eq_some_iff.mp hmove
  split at hmove
  · cases hmove
    exact ⟨row, col, hrow, hcol, he⟩
  · cases hmove

def scatterSymmetric? [Scalar α] (a : Csc α) (inverse : Array Nat) : Option (Permuted α) := do
  let n := a.rows
  let nnz ← a.nnz?
  let moved ← (List.range n).mapM (a.moveColumn? inverse)
  let colStart := cumulative (tally n (moved.flatten.map (·.col)))
  let s ← moved.flatten.foldlM Scatter.write? (Scatter.start colStart nnz)
  return ⟨⟨n, n, colStart, s.rowIndex, s.values⟩, s.position⟩

/-- A permuted upper triangle with all entries of `a`, each at its place. -/
structure Relocated (a : Csc α) (inverse : Array Nat) (p : Permuted α) : Prop where
  rows : p.matrix.rows = a.rows
  cols : p.matrix.cols = a.rows
  pointers : p.matrix.colStart.size = p.matrix.cols + 1
  first : p.matrix.colStart[0]? = some 0
  rising : p.matrix.colStart.toList.IsChain (· ≤ ·)
  count : p.matrix.nnz? = a.nnz?
  paired : p.matrix.nnz? = some p.matrix.rowIndex.size ∧ p.matrix.nnz? = some p.matrix.values.size
  upper : p.matrix.isUpper? = some true
  bijective : p.matrix.nnz? = some p.position.size ∧
    p.position.toList.Perm (List.range p.position.size)
  moved : ∀ k i j v, a.StoredAt k i j v → ∃ row col k',
    inverse[i]? = some row ∧ inverse[j]? = some col ∧ p.position[k]? = some k' ∧
      p.matrix.StoredAt k' (min row col) (max row col) v
  stable : ∀ (k l k' l' c i i' : Nat) (v v' : α), k < l →
    p.position[k]? = some k' → p.position[l]? = some l' →
    p.matrix.StoredAt k' i c v → p.matrix.StoredAt l' i' c v' → k' < l'

section Relocation

variable {nnz : Nat} {moved : List (List (Moved α))}

structure Moves (a : Csc α) (inverse : Array Nat) (nnz : Nat) (ms : List (Moved α)) : Prop where
  bound : ∀ e ∈ ms, e.col < a.rows
  upper : ∀ e ∈ ms, e.row ≤ e.col
  sources : ms.map (·.source) = List.range nnz
  all : ∀ k i j v, a.StoredAt k i j v → ∃ row col, inverse[i]? = some row ∧
    inverse[j]? = some col ∧ ⟨k, min row col, max row col, v⟩ ∈ ms

theorem UpperTriangle.moves (h : a.UpperTriangle) (hfirst : a.colStart[0]? = some 0)
    (hnnz : a.nnz? = some nnz)
    (hmoved : (List.range a.rows).mapM (a.moveColumn? inverse) = some moved) :
    a.Moves inverse nnz moved.flatten := by
  refine ⟨fun e he => (mem_moved hmoved he).2.1, fun e he => (mem_moved hmoved he).1, ?_, ?_⟩
  · obtain ⟨c, hc, -, hsources⟩ := map_source_moved h.ordered (Nat.le_of_eq h.square) hfirst hmoved
    unfold nnz? at hnnz
    rw [h.square, hnnz] at hc
    cases hc
    rw [hsources, Nat.sub_zero, List.range_eq_range']
  · intro k i j v hstored
    obtain ⟨first, last, hspan, -⟩ := hstored.column
    have hj : j < a.rows := by
      obtain ⟨first', -, hspan⟩ := Option.bind_eq_some_iff.mp hspan
      obtain ⟨last', hlast, -⟩ := Option.bind_eq_some_iff.mp hspan
      have hlt : j + 1 < a.colStart.size := (Array.getElem?_eq_some_iff.mp hlast).1
      have hpointers := h.pointers
      have hsquare := h.square
      omega
    obtain ⟨ms, hms, hcolumn⟩ := exists_mem_of_mapM hmoved (List.mem_range.mpr hj)
    obtain ⟨row, col, hrow, hcol, hmem⟩ := hstored.mem_moveColumn? hcolumn
    exact ⟨row, col, hrow, hcol, List.mem_flatten.mpr ⟨ms, hms, hmem⟩⟩

namespace Moves

variable {ms : List (Moved α)}

theorem length_sort (h : a.Moves inverse nnz ms) : (Moved.sort ms).length = nnz := by
  rw [(Moved.sort_perm ms).length_eq]
  simpa using congrArg List.length h.sources

theorem colStart (h : a.Moves inverse nnz ms) {c : Nat} (hc : c ≤ a.rows) :
    (Moved.assemble a.rows nnz ms).matrix.colStart[c]? = some (Moved.before ms c) := by
  have hget := Moved.getElem?_colStart h.bound hc
  rw [← Moved.tally_sort h.bound] at hget
  exact hget

theorem size_colStart (h : a.Moves inverse nnz ms) :
    (Moved.assemble a.rows nnz ms).matrix.colStart.size = a.rows + 1 := by
  have hcols : ∀ c ∈ (Moved.sort ms).map (·.col), c < a.rows :=
    List.forall_mem_map.mpr fun e he => h.bound e ((Moved.sort_perm ms).mem_iff.mp he)
  simp [Moved.assemble, tally_eq hcols, cumulative_eq]

theorem before_rows (h : a.Moves inverse nnz ms) : Moved.before ms a.rows = nnz := by
  rw [← h.length_sort, (Moved.sort_perm ms).length_eq]
  exact List.countP_eq_length.mpr fun e he => decide_eq_true (h.bound e he)

theorem storedAt_iff (h : a.Moves inverse nnz ms) {k i c : Nat} {v : α} :
    (Moved.assemble a.rows nnz ms).matrix.StoredAt k i c v ↔
      ∃ e, (Moved.sort ms)[k]? = some e ∧ e.row = i ∧ e.col = c ∧ e.value = v := by
  have hrow : (Moved.assemble a.rows nnz ms).matrix.rowIndex[k]? =
      (Moved.sort ms)[k]?.map (·.row) := by simp [Moved.assemble]
  have hvalue : (Moved.assemble a.rows nnz ms).matrix.values[k]? =
      (Moved.sort ms)[k]?.map (·.value) := by simp [Moved.assemble]
  constructor
  · rintro ⟨⟨first, last, hspan, hfirst, hlast⟩, hi, hv⟩
    obtain ⟨x, hx, hspan⟩ := Option.bind_eq_some_iff.mp hspan
    obtain ⟨y, hy, hspan⟩ := Option.bind_eq_some_iff.mp hspan
    cases hspan
    have hc : c + 1 ≤ a.rows := by
      have hlt := (Array.getElem?_eq_some_iff.mp hy).1
      rw [h.size_colStart] at hlt
      omega
    rw [h.colStart (by omega)] at hx
    rw [h.colStart hc] at hy
    cases hx
    cases hy
    rw [hrow, Option.map_eq_some_iff] at hi
    obtain ⟨e, he, rfl⟩ := hi
    rw [hvalue, he, Option.map_some, Option.some.injEq] at hv
    have hstart := Moved.lt_before_iff (c := c) he
    have hend := Moved.lt_before_iff (c := c + 1) he
    exact ⟨e, he, rfl, by omega, hv⟩
  · rintro ⟨e, he, rfl, rfl, rfl⟩
    have hbound : e.col < a.rows :=
      h.bound e ((Moved.sort_perm ms).mem_iff.mp (List.mem_of_getElem? he))
    have hstart := Moved.lt_before_iff (c := e.col) he
    have hend := Moved.lt_before_iff (c := e.col + 1) he
    refine ⟨⟨Moved.before ms e.col, Moved.before ms (e.col + 1), ?_, by omega, by omega⟩, ?_, ?_⟩
    · simp only [Csc.span?, h.colStart hbound.le, h.colStart hbound, Option.bind_eq_bind,
        Option.bind_some, Option.pure_def]
    · rw [hrow, he, Option.map_some]
    · rw [hvalue, he, Option.map_some]

theorem position (h : a.Moves inverse nnz ms) {k : Nat} {e : Moved α} (hk : ms[k]? = some e) :
    (Moved.assemble a.rows nnz ms).position[k]? = some (Moved.slot ms e.col k) := by
  have hsources : ms.map (·.source) = List.range' 0 (nnz - 0) := by
    rw [h.sources, Nat.sub_zero, List.range_eq_range']
  have hsource := Scatter.source_of_getElem? h.sources hk
  have hplace := Moved.getElem?_position (n := a.rows) hsources (Moved.getElem?_sort_slot hk)
  rwa [hsource] at hplace

theorem getElem?_of_position (h : a.Moves inverse nnz ms) {k k' : Nat}
    (hk : (Moved.assemble a.rows nnz ms).position[k]? = some k') :
    ∃ e, ms[k]? = some e ∧ k' = Moved.slot ms e.col k ∧ (Moved.sort ms)[k']? = some e := by
  have hlt := (Array.getElem?_eq_some_iff.mp hk).1
  rw [Moved.size_position, ← h.length_sort, (Moved.sort_perm ms).length_eq] at hlt
  have hget : ms[k]? = some ms[k] := List.getElem?_eq_getElem hlt
  rw [h.position hget, Option.some.injEq] at hk
  exact ⟨ms[k], hget, hk.symm, hk ▸ Moved.getElem?_sort_slot hget⟩

theorem perm_position (h : a.Moves inverse nnz ms) :
    (Moved.assemble a.rows nnz ms).position.toList.Perm (List.range nnz) := by
  have hsubset : List.range nnz ⊆ (Moved.assemble a.rows nnz ms).position.toList := by
    intro k hk
    have hlt : k < (Moved.sort ms).length := by
      rw [h.length_sort]
      exact List.mem_range.mp hk
    have hmem := (Moved.sort_perm ms).mem_iff.mp (List.getElem_mem hlt)
    obtain ⟨l, hl⟩ := List.getElem?_of_mem hmem
    have hslot := Scatter.eq_of_getElem?_sort h.sources (Moved.getElem?_sort_slot hl)
      (List.getElem?_eq_getElem hlt) rfl
    have hplace := h.position hl
    rw [hslot] at hplace
    exact Array.mem_toList_iff.mpr (Array.mem_of_getElem? hplace)
  refine ((List.subperm_of_subset List.nodup_range hsubset).perm_of_length_le ?_).symm
  rw [Array.length_toList, Moved.size_position, List.length_range]

theorem isChain_colStart (h : a.Moves inverse nnz ms) :
    (Moved.assemble a.rows nnz ms).matrix.colStart.toList.IsChain (· ≤ ·) := by
  rw [List.isChain_iff_getElem]
  intro c hc
  rw [Array.length_toList, h.size_colStart] at hc
  have hstart := h.colStart (c := c) (by omega)
  have hend := h.colStart (c := c + 1) (by omega)
  obtain ⟨_, hstart⟩ := Array.getElem?_eq_some_iff.mp hstart
  obtain ⟨_, hend⟩ := Array.getElem?_eq_some_iff.mp hend
  rw [Array.getElem_toList, Array.getElem_toList, hstart, hend, Moved.before_succ]
  exact Nat.le_add_right _ _

theorem isUpper? (h : a.Moves inverse nnz ms) :
    (Moved.assemble a.rows nnz ms).matrix.isUpper? = some true := by
  have hstores : (Moved.assemble a.rows nnz ms).matrix.Stores
      ((List.range a.rows).map (Moved.block ms)) := Moved.assemble_stores h.bound
  apply isUpper?_go_of_le
  intro c hc
  have hlt : c < ((List.range a.rows).map (Moved.block ms)).length := by
    rw [List.length_map, List.length_range]
    exact List.mem_range.mp hc
  refine ⟨_, hstores.rowsOf? hlt, ?_⟩
  intro i hi
  obtain ⟨entry, hentry, rfl⟩ := List.mem_map.mp hi
  rw [List.getElem_map, List.getElem_range] at hentry
  obtain ⟨e, he, rfl⟩ := List.mem_map.mp hentry
  obtain ⟨he, hcol⟩ := List.mem_filter.mp he
  rw [← of_decide_eq_true hcol]
  exact h.upper e ((Moved.sort_perm ms).mem_iff.mp he)

theorem stable (h : a.Moves inverse nnz ms) {k l k' l' c i i' : Nat} {v v' : α} (hkl : k < l)
    (hk : (Moved.assemble a.rows nnz ms).position[k]? = some k')
    (hl : (Moved.assemble a.rows nnz ms).position[l]? = some l')
    (hstored : (Moved.assemble a.rows nnz ms).matrix.StoredAt k' i c v)
    (hstored' : (Moved.assemble a.rows nnz ms).matrix.StoredAt l' i' c v') : k' < l' := by
  obtain ⟨e, hget, hslot, hsorted⟩ := h.getElem?_of_position hk
  obtain ⟨t, hget', hslot', hsorted'⟩ := h.getElem?_of_position hl
  obtain ⟨e', he', -, hcol, -⟩ := h.storedAt_iff.mp hstored
  obtain ⟨t', ht', -, hcol', -⟩ := h.storedAt_iff.mp hstored'
  rw [hsorted, Option.some.injEq] at he'
  rw [hsorted', Option.some.injEq] at ht'
  subst he' ht'
  rw [hslot, hslot', hcol, hcol']
  calc Moved.slot ms c k
    _ < Moved.slot ms c (k + 1) := by
      rw [Moved.slot_succ hget, if_pos hcol]
      exact Nat.lt_succ_self _
    _ ≤ Moved.slot ms c l := Moved.slot_mono ms c hkl

theorem nnz? (h : a.Moves inverse nnz ms) :
    (Moved.assemble a.rows nnz ms).matrix.nnz? = some nnz := by
  rw [← h.before_rows]
  exact h.colStart (Nat.le_refl _)

theorem relocated (h : a.Moves inverse nnz ms) (hnnz : a.nnz? = some nnz) :
    a.Relocated inverse (Moved.assemble a.rows nnz ms) where
  rows := rfl
  cols := rfl
  pointers := h.size_colStart
  first := by
    rw [h.colStart (Nat.zero_le _)]
    simp [Moved.before]
  rising := h.isChain_colStart
  count := h.nnz?.trans hnnz.symm
  paired := by
    rw [h.nnz?, ← h.length_sort]
    simp [Moved.assemble]
  upper := h.isUpper?
  bijective := by
    rw [h.nnz?, Moved.size_position]
    exact ⟨rfl, h.perm_position⟩
  moved := by
    intro k i j v hstored
    obtain ⟨row, col, hrow, hcol, hmem⟩ := h.all k i j v hstored
    obtain ⟨l, hl⟩ := List.getElem?_of_mem hmem
    obtain rfl : k = l := Scatter.source_of_getElem? h.sources hl
    exact ⟨row, col, _, hrow, hcol, h.position hl,
      h.storedAt_iff.mpr ⟨_, Moved.getElem?_sort_slot hl, rfl, rfl, rfl⟩⟩
  stable := fun _ _ _ _ _ _ _ _ _ hkl hk hl hstored hstored' => h.stable hkl hk hl hstored hstored'

end Moves

end Relocation

/-- A symmetric permutation keeps every entry: each one is found at the place noted for it, in the
row and the column that the permutation gives it, and no two of them at one place. Writing the
entries behind running cursors gives the same matrix. -/
theorem relocated_of_permutation [Scalar α] (ha : a.UpperTriangle)
    (hfirst : a.colStart[0]? = some 0) (hperm : inverse.toList.Perm (List.range a.rows)) :
    ∃ p, a.permuteSymmetric? inverse = some p ∧ a.scatterSymmetric? inverse = some p ∧
      a.Relocated inverse p := by
  have hinverse : ∀ j, j < a.rows → ∃ c, inverse[j]? = some c ∧ c < a.rows := by
    intro j hj
    have hsize : inverse.size = a.rows := by simpa using hperm.length_eq
    have hget : inverse[j]? = some inverse[j] := Array.getElem?_eq_getElem (hsize ▸ hj)
    have hmem : inverse[j] ∈ inverse.toList := Array.mem_toList_iff.mpr (Array.getElem_mem _)
    exact ⟨_, hget, List.mem_range.mp (hperm.mem_iff.mp hmem)⟩
  obtain ⟨p, hp⟩ := ha.exists_permuteSymmetric? hinverse
  obtain ⟨moved, nnz, hmoved, hnnz, rfl⟩ := permuteSymmetric?_eq_some.mp hp
  have hmoves := ha.moves hfirst hnnz hmoved
  refine ⟨_, hp, ?_, hmoves.relocated hnnz⟩
  obtain ⟨s, hs, hrows, hvalues, hplaces⟩ := Scatter.exists_scatter hmoves.bound hmoves.sources
  unfold scatterSymmetric?
  simp only [hnnz, hmoved, hs, hrows, hvalues, hplaces, Option.bind_eq_bind, Option.bind_some,
    Option.pure_def]
  rw [← Moved.tally_sort hmoves.bound]
  rfl

/-- An upper triangle with an empty column and a position stored twice, with different values. -/
def doubled : Csc (Exact ℚ) :=
  ⟨3, 3, #[0, 1, 1, 4], #[0, 0, 2, 0], #[1, 1, -1, 1 + 1]⟩

theorem upperTriangle_doubled : doubled.UpperTriangle := by
  refine ⟨⟨rfl, by decide, ?_⟩, rfl, ?_⟩
  · intro last hlast
    cases hlast
    exact ⟨Nat.le_refl 4, Nat.le_refl 4⟩
  · intro j rows hj
    have hlt : j < 3 := Divided.lt_of_rowsOf? rfl hj
    have hupper : ∀ j < 3, ∀ rows ∈ doubled.rowsOf? j, ∀ i ∈ rows, i ≤ j := by decide
    exact hupper j hlt rows hj

theorem exists_relocated_doubled : doubled.UpperTriangle ∧ doubled.colStart[0]? = some 0 ∧
    (#[2, 0, 1].toList).Perm (List.range doubled.rows) ∧
    ∃ p, doubled.permuteSymmetric? #[2, 0, 1] = some p ∧
      doubled.scatterSymmetric? #[2, 0, 1] = some p ∧ doubled.Relocated #[2, 0, 1] p :=
  ⟨upperTriangle_doubled, rfl, by decide,
    relocated_of_permutation upperTriangle_doubled rfl (by decide)⟩

example : (doubled.scatterSymmetric? #[2, 0, 1]).map
    (fun p => (p.matrix.colStart, p.matrix.rowIndex, p.position)) =
      some (#[0, 0, 1, 4], #[1, 2, 1, 1], #[1, 2, 0, 3]) := by
  decide

end Csc

end NonlinearOpt
