import NonlinearOpt.Proofs.Sparse.Blocks
import NonlinearOpt.Ldl.Permutation
import Mathlib

namespace NonlinearOpt

namespace Permutation

theorem slots_filled {pairs : List (Nat × Nat)} {start slots : Array (Option Nat)}
    (h : pairs.foldlM (fun slots (j, i) =>
      match slots[j]? with
      | some none => replace? slots j (some i)
      | _ => none) start = some slots) :
    slots.size = start.size ∧
      (∀ j i : Nat, start[j]? = some (some i) → slots[j]? = some (some i)) ∧
      ∀ j i : Nat, (j, i) ∈ pairs → slots[j]? = some (some i) := by
  induction pairs generalizing start with
  | nil =>
    cases h
    simp
  | cons pair pairs ih =>
    obtain ⟨next, hnext, h⟩ := foldlM_cons_eq_some.mp h
    obtain ⟨hsize, hkept, hfilled⟩ := ih h
    simp only at hnext
    split at hnext
    case h_2 => cases hnext
    case h_1 hfree =>
      rw [size_of_replace? hnext] at hsize
      refine ⟨hsize, ?_, ?_⟩
      · intro j i hj
        apply hkept
        rw [getElem?_of_replace? hnext, if_neg]
        · exact hj
        · rintro rfl
          rw [hfree] at hj
          cases hj
      · intro j i hmem
        rcases List.mem_cons.mp hmem with rfl | hmem
        · apply hkept
          rw [getElem?_of_replace? hnext, if_pos rfl]
        · exact hfilled j i hmem

theorem getElem?_inverse? {p q : Array Nat} (h : inverse? p = some q) :
    q.size = p.size ∧ ∀ i j : Nat, p[i]? = some j → q[j]? = some i := by
  unfold inverse? at h
  obtain ⟨slots, hfold, h⟩ := Option.bind_eq_some_iff.mp h
  cases h
  obtain ⟨hsize, -, hfilled⟩ := slots_filled hfold
  constructor
  · simpa using hsize
  · intro i j hij
    have hmem : (j, i) ∈ p.toList.zipIdx := by
      rw [List.mem_zipIdx_iff_getElem?]
      simpa using hij
    simp [hfilled j i hmem]

theorem perm_of_inverse? {p q : Array Nat} (h : inverse? p = some q) :
    p.toList.Perm (List.range p.size) := by
  obtain ⟨slots, hfold, -⟩ := Option.bind_eq_some_iff.mp h
  obtain ⟨hsize, -, hfilled⟩ := slots_filled hfold
  have hslot : ∀ i j : Nat, p[i]? = some j → slots[j]? = some (some i) := by
    intro i j hij
    apply hfilled
    rw [List.mem_zipIdx_iff_getElem?]
    simpa using hij
  have hnodup : p.toList.Nodup := by
    rw [List.nodup_iff_injective_getElem]
    rintro ⟨i, hi⟩ ⟨i', hi'⟩ heq
    have hi : i < p.size := by simpa using hi
    have hi' : i' < p.size := by simpa using hi'
    have hsame : p[i] = p[i'] := by simpa using heq
    have hfirst := hslot i p[i] (Array.getElem?_eq_getElem hi)
    have hsecond := hslot i' p[i'] (Array.getElem?_eq_getElem hi')
    rw [← hsame, hfirst, Option.some.injEq, Option.some.injEq] at hsecond
    exact Fin.ext hsecond
  have hsubset : p.toList ⊆ List.range p.size := by
    intro j hj
    obtain ⟨i, hi⟩ := List.getElem?_of_mem hj
    have hlt := (Array.getElem?_eq_some_iff.mp (hslot i j (by simpa using hi))).1
    rw [hsize, Array.size_replicate] at hlt
    exact List.mem_range.mpr hlt
  exact (List.subperm_of_subset hnodup hsubset).perm_of_length_le (by simp)

theorem exists_slots {pairs : List (Nat × Nat)} {start : Array (Option Nat)}
    (hnodup : (pairs.map Prod.fst).Nodup) (hfree : ∀ w ∈ pairs, start[w.1]? = some none) :
    ∃ slots, pairs.foldlM (fun slots (j, i) =>
      match slots[j]? with
      | some none => replace? slots j (some i)
      | _ => none) start = some slots := by
  induction pairs generalizing start with
  | nil => exact ⟨start, rfl⟩
  | cons pair pairs ih =>
    obtain ⟨j, i⟩ := pair
    rw [List.map_cons, List.nodup_cons] at hnodup
    have hj : start[j]? = some none := hfree (j, i) (by simp)
    have hdefined : (replace? start j (some i)).isSome :=
      isSome_replace?.mpr (Array.getElem?_eq_some_iff.mp hj).1
    obtain ⟨next, hnext⟩ := Option.isSome_iff_exists.mp hdefined
    have hrest : ∀ w ∈ pairs, next[w.1]? = some none := by
      intro w hw
      rw [getElem?_of_replace? hnext, if_neg]
      · exact hfree w (by simp [hw])
      · intro heq
        exact hnodup.1 (List.mem_map.mpr ⟨w, hw, heq.symm⟩)
    obtain ⟨slots, hslots⟩ := ih hnodup.2 hrest
    refine ⟨slots, foldlM_cons_eq_some.mpr ⟨next, ?_, hslots⟩⟩
    simp only [hj]
    exact hnext

theorem exists_inverse? {p : Array Nat} (h : p.toList.Perm (List.range p.size)) :
    ∃ q, inverse? p = some q := by
  have hfst : p.toList.zipIdx.map Prod.fst = p.toList := List.zipIdx_map_fst 0 p.toList
  obtain ⟨slots, hslots⟩ := @exists_slots p.toList.zipIdx (Array.replicate p.size none)
    (by rw [hfst]; exact h.nodup_iff.mpr List.nodup_range)
    (by
      intro w hw
      have hmem : w.1 ∈ p.toList := hfst ▸ List.mem_map_of_mem hw
      have hlt := List.mem_range.mp (h.mem_iff.mp hmem)
      simp [hlt])
  exact ⟨slots.map (·.getD 0), Option.bind_eq_some_iff.mpr ⟨slots, hslots, rfl⟩⟩

/-- Permutations of `0 … n - 1` that undo each other. -/
structure Inverts (n : Nat) (p q : Array Nat) : Prop where
  forward : ∀ i, i < n → p.getD i 0 < n ∧ q.getD (p.getD i 0) 0 = i
  backward : ∀ r, r < n → q.getD r 0 < n ∧ p.getD (q.getD r 0) 0 = r

theorem inverts_of_inverse? {n : Nat} {p q : Array Nat} (hperm : p.toList.Perm (List.range n))
    (h : inverse? p = some q) : Inverts n p q := by
  obtain ⟨-, hinverse⟩ := getElem?_inverse? h
  have hsize : p.size = n := by simpa using hperm.length_eq
  constructor
  · intro i hi
    have hget : p[i]? = some p[i] := Array.getElem?_eq_getElem (hsize ▸ hi)
    have hmem : p[i] ∈ p.toList := Array.mem_toList_iff.mpr (Array.getElem_mem (hsize ▸ hi))
    have hlt := List.mem_range.mp (hperm.mem_iff.mp hmem)
    simp [hget, hinverse i p[i] hget, hlt]
  · intro r hr
    obtain ⟨i, hi⟩ := List.getElem?_of_mem (hperm.mem_iff.mpr (List.mem_range.mpr hr))
    have hget : p[i]? = some r := by simpa using hi
    have hlt := (Array.getElem?_eq_some_iff.mp hget).1
    simp [hget, hinverse i r hget, hsize ▸ hlt]

end Permutation

namespace Moved

variable {α : Type}

def sort (ms : List (Moved α)) : List (Moved α) := ms.mergeSort fun s t => decide (s.col ≤ t.col)

def entry (e : Moved α) : Nat × α := (e.row, e.value)

def revalue [Scalar α] (vs : Array α) (e : Moved α) : Moved α :=
  { e with value := vs.getD e.source 0 }

def block (ms : List (Moved α)) (k : Nat) : List (Nat × α) :=
  ((sort ms).filter (·.col = k)).map entry

theorem sort_perm (ms : List (Moved α)) : (sort ms).Perm ms := List.mergeSort_perm ms _

theorem pairwise_sort (ms : List (Moved α)) : (sort ms).Pairwise fun s t => s.col ≤ t.col := by
  have h := @List.pairwise_mergeSort _ (fun s t : Moved α => decide (s.col ≤ t.col))
    (fun a b c hab hbc => by simp only [decide_eq_true_eq] at *; omega)
    (fun a b => by simp only [Bool.or_eq_true, decide_eq_true_eq]; omega) ms
  unfold sort
  simpa only [decide_eq_true_eq] using h

theorem sort_map_revalue [Scalar α] (vs : Array α) (ms : List (Moved α)) :
    sort (ms.map (revalue vs)) = (sort ms).map (revalue vs) := by
  unfold sort
  rw [List.map_mergeSort]
  intro s _ t _
  rfl

def assemble (n nnz : Nat) (ms : List (Moved α)) : Permuted α :=
  { matrix :=
      { rows := n, cols := n
        colStart := cumulative (Csc.tally n ((sort ms).map (·.col)))
        rowIndex := ((sort ms).map (·.row)).toArray
        values := ((sort ms).map (·.value)).toArray }
    position := (sort ms).zipIdx.foldl (fun ps (e, k) => ps.setIfInBounds e.source k)
      (Array.replicate nnz 0) }

theorem assemble_revalue [Scalar α] (n nnz : Nat) (vs : Array α) (ms : List (Moved α)) :
    assemble n nnz (ms.map (revalue vs)) = { assemble n nnz ms with
      matrix := { (assemble n nnz ms).matrix with
        values := (assemble n nnz (ms.map (revalue vs))).matrix.values } } := by
  unfold assemble
  simp only [sort_map_revalue, List.map_map, Permuted.mk.injEq, Csc.mk.injEq, true_and]
  refine ⟨⟨rfl, rfl, trivial⟩, ?_⟩
  rw [List.zipIdx_map, List.foldl_map]
  rfl

theorem assemble_stores {n nnz : Nat} {ms : List (Moved α)} (hbound : ∀ e ∈ ms, e.col < n) :
    (assemble n nnz ms).matrix.Stores ((List.range n).map (block ms)) := by
  have hsorted : ∀ e ∈ sort ms, e.col < n := by
    intro e he
    exact hbound e ((sort_perm ms).mem_iff.mp he)
  exact Csc.stores_of_sorted entry (pairwise_sort ms) hsorted

section Positions

variable {n nnz : Nat} {ms : List (Moved α)}

theorem size_position : (assemble n nnz ms).position.size = nnz := by
  have h := size_foldl_set (fun w : Moved α × Nat => w.1.source) (fun w => w.2)
    (sort ms).zipIdx (Array.replicate nnz 0)
  rw [Array.size_replicate] at h
  exact h

section Sources

variable {first : Nat} (hsources : ms.map (·.source) = List.range' first (nnz - first))
include hsources

theorem source_mem_range {e : Moved α} (he : e ∈ ms) : first ≤ e.source ∧ e.source < nnz := by
  have hmem : e.source ∈ List.range' first (nnz - first) := hsources ▸ List.mem_map_of_mem he
  have := List.mem_range'_1.mp hmem
  omega

theorem getElem?_position {e : Moved α} {k : Nat} (hk : (sort ms)[k]? = some e) :
    (assemble n nnz ms).position[e.source]? = some k := by
  have hsorted : ((sort ms).zipIdx.map fun w => w.1.source).Nodup := by
    have hfst : (sort ms).zipIdx.map (fun w => w.1.source) = (sort ms).map (·.source) := by
      conv_rhs => rw [← List.zipIdx_map_fst 0 (sort ms), List.map_map]
      rfl
    rw [hfst]
    rw [((sort_perm ms).map _).nodup_iff, hsources]
    exact List.nodup_range'
  have hmem : (e, k) ∈ (sort ms).zipIdx := by
    rw [List.mem_zipIdx_iff_getElem?]
    exact hk
  have hlt :=
    (source_mem_range hsources ((sort_perm ms).mem_iff.mp (List.mem_of_getElem? hk))).2
  exact getElem?_foldl_set_of_mem (fun w : Moved α × Nat => w.1.source) (fun w => w.2)
    (Array.replicate nnz 0) hsorted hmem (by simpa using hlt)

theorem position_ne_of_later {k : Nat} {e : Moved α} (hget : (sort ms)[k]? = some e)
    {i k' : Nat} (hi : e.source < i) (hnnz : i < nnz)
    (hk' : (assemble n nnz ms).position[i]? = some k') : k' ≠ k := by
  have hle := (source_mem_range hsources ((sort_perm ms).mem_iff.mp (List.mem_of_getElem? hget))).1
  have hmem : i ∈ ms.map (·.source) := by
    rw [hsources, List.mem_range'_1]
    omega
  obtain ⟨later, hlater, rfl⟩ := List.mem_map.mp hmem
  obtain ⟨l, hl⟩ := List.getElem?_of_mem ((sort_perm ms).mem_iff.mpr hlater)
  rw [getElem?_position hsources hl] at hk'
  cases hk'
  rintro rfl
  rw [hget] at hl
  cases hl
  exact Nat.lt_irrefl _ hi

/-- Writing new values to the places of the old ones gives the matrix of the new values. Places that
were stored but do not belong to a column come first, so what they write is overwritten. -/
theorem values_revalue [Scalar α] {vs old : Array α} (hvs : vs.size = nnz)
    (hold : old.size = ms.length) :
    ((assemble n nnz ms).position.toList.zip vs.toList).foldl
      (fun vs (k, v) => vs.setIfInBounds k v) old =
      (assemble n nnz (ms.map (revalue vs))).matrix.values := by
  have hlength : (sort ms).length = ms.length := (sort_perm ms).length_eq
  have hsize := size_foldl_set Prod.fst Prod.snd
    ((assemble n nnz ms).position.toList.zip vs.toList) old
  apply Array.ext_getElem?
  intro k
  by_cases hk : k < ms.length
  · have hget : (sort ms)[k]? = some (sort ms)[k] := List.getElem?_eq_getElem (by omega)
    have hpos := getElem?_position (n := n) hsources hget
    have hsource : (sort ms)[k].source < vs.size := by
      have hlt := (Array.getElem?_eq_some_iff.mp hpos).1
      rw [size_position] at hlt
      omega
    have hwrite : ((assemble n nnz ms).position.toList.zip vs.toList)[(sort ms)[k].source]? =
        some (k, vs[(sort ms)[k].source]) := by
      rw [List.getElem?_zip_eq_some]
      simp [hpos, hsource]
    have hlater : ∀ i w, (sort ms)[k].source < i →
        ((assemble n nnz ms).position.toList.zip vs.toList)[i]? = some w → w.1 ≠ k := by
      intro i w hi hw
      obtain ⟨hplace, hvalue⟩ := List.getElem?_zip_eq_some.mp hw
      have hlt := (List.getElem?_eq_some_iff.mp hvalue).1
      rw [Array.length_toList, hvs] at hlt
      rw [Array.getElem?_toList] at hplace
      exact position_ne_of_later hsources hget hi hlt hplace
    have hset := getElem?_foldl_set_of_last Prod.fst Prod.snd old hwrite hlater
      (by simpa [hold] using hk)
    calc _ = some vs[(sort ms)[k].source] := hset
      _ = _ := by simp [assemble, sort_map_revalue, hget, revalue, hsource]
  · rw [Array.getElem?_eq_none (by rw [hsize]; omega)]
    simp [assemble, sort_map_revalue, hlength, hk]

end Sources

end Positions

end Moved

namespace Csc

variable {α : Type} {a : Csc α} {inverse : Array Nat}

section Upper

theorem isUpper?_go_eq_true {js : List Nat} (h : isUpper?.go a js = some true) :
    ∀ j ∈ js, ∃ rows, a.rowsOf? j = some rows ∧ ∀ i ∈ rows, i ≤ j := by
  induction js with
  | nil => simp
  | cons j js ih =>
    rw [isUpper?.go] at h
    obtain ⟨rows, hrows, h⟩ := Option.bind_eq_some_iff.mp h
    split at h
    · next hall =>
      intro j' hj'
      rcases List.mem_cons.mp hj' with rfl | hj'
      · exact ⟨rows, hrows, by simpa using hall⟩
      · exact ih h j' hj'
    · cases h

theorem le_of_isUpper? (h : a.isUpper? = some true) {j : Nat} (hj : j < a.cols)
    {column : List (Nat × α)} (hcolumn : a.entries? j = some column) : ∀ e ∈ column, e.1 ≤ j := by
  obtain ⟨rows, hrows, hle⟩ := isUpper?_go_eq_true h j (List.mem_range.mpr hj)
  intro e he
  apply hle
  rw [← map_fst_of_entries? hrows hcolumn]
  exact List.mem_map_of_mem he

def Ordered (a : Csc α) : Prop := ∀ j x y, j < a.cols → a.span? j = some (x, y) → x ≤ y

theorem ordered_of_isUpper? (h : a.isUpper? = some true) : a.Ordered := by
  intro j x y hj hspan
  obtain ⟨rows, hrows, -⟩ := isUpper?_go_eq_true h j (List.mem_range.mpr hj)
  unfold rowsOf? at hrows
  obtain ⟨span, hspan', hslice⟩ := Option.bind_eq_some_iff.mp hrows
  rw [hspan, Option.some.injEq] at hspan'
  subst hspan'
  by_contra hxy
  simp only [slice?, hxy, false_and, if_false] at hslice
  cases hslice

end Upper

theorem mem_moveColumn? {j : Nat} {ms : List (Moved α)} (h : a.moveColumn? inverse j = some ms)
    {e : Moved α} (he : e ∈ ms) :
    e.row ≤ e.col ∧ e.col < a.rows ∧ a.values[e.source]? = some e.value := by
  unfold moveColumn? at h
  obtain ⟨⟨first, last⟩, -, h⟩ := Option.bind_eq_some_iff.mp h
  obtain ⟨col, -, h⟩ := Option.bind_eq_some_iff.mp h
  obtain ⟨k, -, hk⟩ := (mem_of_mapM h).mp he
  obtain ⟨r, -, hk⟩ := Option.bind_eq_some_iff.mp hk
  obtain ⟨row, -, hk⟩ := Option.bind_eq_some_iff.mp hk
  obtain ⟨value, hvalue, hk⟩ := Option.bind_eq_some_iff.mp hk
  split at hk
  · next hbound =>
    cases hk
    exact ⟨Nat.le_trans (Nat.min_le_left _ _) (Nat.le_max_left _ _), hbound, hvalue⟩
  · cases hk

theorem permuteSymmetric?_eq_some {p : Permuted α} :
    a.permuteSymmetric? inverse = some p ↔
      ∃ moved nnz, (List.range a.rows).mapM (a.moveColumn? inverse) = some moved ∧
        a.nnz? = some nnz ∧ p = Moved.assemble a.rows nnz moved.flatten := by
  constructor
  · intro h
    unfold permuteSymmetric? at h
    obtain ⟨moved, hmoved, h⟩ := Option.bind_eq_some_iff.mp h
    obtain ⟨nnz, hnnz, h⟩ := Option.bind_eq_some_iff.mp h
    cases h
    exact ⟨moved, nnz, hmoved, hnnz, rfl⟩
  · rintro ⟨moved, nnz, hmoved, hnnz, rfl⟩
    unfold permuteSymmetric?
    simp only [hmoved, hnnz, Option.bind_eq_bind, Option.bind_some]
    rfl

theorem mem_moved {moved : List (List (Moved α))}
    (hmoved : (List.range a.rows).mapM (a.moveColumn? inverse) = some moved) {e : Moved α}
    (he : e ∈ moved.flatten) :
    e.row ≤ e.col ∧ e.col < a.rows ∧ a.values[e.source]? = some e.value := by
  obtain ⟨ms, hms, hmem⟩ := List.mem_flatten.mp he
  obtain ⟨j, -, hj⟩ := (mem_of_mapM hmoved).mp hms
  exact mem_moveColumn? hj hmem

theorem row_le_of_mem_block {moved : List (List (Moved α))}
    (hmoved : (List.range a.rows).mapM (a.moveColumn? inverse) = some moved) {k : Nat}
    {entry : Nat × α} (hentry : entry ∈ Moved.block moved.flatten k) : entry.1 ≤ k := by
  obtain ⟨e, he, rfl⟩ := List.mem_map.mp hentry
  obtain ⟨he, hcol⟩ := List.mem_filter.mp he
  rw [← of_decide_eq_true hcol]
  exact (mem_moved hmoved ((Moved.sort_perm _).mem_iff.mp he)).1

theorem exists_columns_of_permuteSymmetric? {p : Permuted α}
    (h : a.permuteSymmetric? inverse = some p) :
    p.matrix.cols = a.rows ∧ ∃ columns, columns.length = a.rows ∧
      (List.range a.rows).mapM p.matrix.column? = some columns ∧
      (List.range a.rows).mapM p.matrix.rowsOf? = some (columns.map (List.map Prod.fst)) ∧
      ∀ (k : Nat) column, columns[k]? = some column → ∀ e ∈ column, e.1 ≤ k := by
  obtain ⟨moved, nnz, hmoved, -, rfl⟩ := permuteSymmetric?_eq_some.mp h
  have hstores : (Moved.assemble a.rows nnz moved.flatten).matrix.Stores
      ((List.range a.rows).map (Moved.block moved.flatten)) :=
    Moved.assemble_stores fun e he => (mem_moved hmoved he).2.1
  have hcolumns := hstores.mapM_column?
  have hrows := hstores.mapM_rowsOf?
  rw [List.length_map, List.length_range] at hcolumns hrows
  refine ⟨rfl, _, by simp, hcolumns, hrows, ?_⟩
  intro k column hk e he
  rw [List.getElem?_map, Option.map_eq_some_iff] at hk
  obtain ⟨k', hk', rfl⟩ := hk
  obtain ⟨hlt, rfl⟩ := List.getElem?_eq_some_iff.mp hk'
  rw [List.getElem_range] at he
  exact row_le_of_mem_block hmoved he

theorem le_of_permuteSymmetric? {p : Permuted α} (h : a.permuteSymmetric? inverse = some p)
    {j : Nat} (hj : j < p.matrix.cols) {rows : List Nat} (hrows : p.matrix.rowsOf? j = some rows)
    {i : Nat} (hi : i ∈ rows) : i ≤ j := by
  obtain ⟨hcols, columns, hlength, -, hrowsOf, hupper⟩ := exists_columns_of_permuteSymmetric? h
  have hget := getElem?_of_mapM hrowsOf j
  rw [List.getElem?_range (hcols ▸ hj), Option.bind_some, hrows, List.getElem?_map,
    Option.map_eq_some_iff] at hget
  obtain ⟨column, hcolumn, rfl⟩ := hget
  obtain ⟨e, he, rfl⟩ := List.mem_map.mp hi
  exact hupper j column hcolumn e he

theorem map_source_moveColumn? {j : Nat} {ms : List (Moved α)}
    (h : a.moveColumn? inverse j = some ms) :
    ∃ x y, a.span? j = some (x, y) ∧ ms.map (·.source) = List.range' x (y - x) := by
  unfold moveColumn? at h
  obtain ⟨⟨x, y⟩, hspan, h⟩ := Option.bind_eq_some_iff.mp h
  obtain ⟨col, -, h⟩ := Option.bind_eq_some_iff.mp h
  refine ⟨x, y, hspan, map_of_mapM h ?_⟩
  intro k e hk
  obtain ⟨r, -, hk⟩ := Option.bind_eq_some_iff.mp hk
  obtain ⟨row, -, hk⟩ := Option.bind_eq_some_iff.mp hk
  obtain ⟨value, -, hk⟩ := Option.bind_eq_some_iff.mp hk
  split at hk
  · cases hk
    rfl
  · cases hk

theorem map_source_moved (hordered : a.Ordered) {m : Nat} (hm : m ≤ a.cols) {first : Nat}
    (hfirst : a.colStart[0]? = some first) {moved : List (List (Moved α))}
    (hmoved : (List.range m).mapM (a.moveColumn? inverse) = some moved) :
    ∃ c, a.colStart[m]? = some c ∧ first ≤ c ∧
      moved.flatten.map (·.source) = List.range' first (c - first) := by
  induction m generalizing moved with
  | zero =>
    cases hmoved
    exact ⟨first, hfirst, Nat.le_refl _, by simp⟩
  | succ m ih =>
    rw [List.range_succ, mapM_concat_eq_some] at hmoved
    obtain ⟨init, last, hinit, hlast, rfl⟩ := hmoved
    obtain ⟨c, hc, hle, hsources⟩ := ih (by omega) hinit
    obtain ⟨x, y, hspan, hlast⟩ := map_source_moveColumn? hlast
    have hxy := hordered m x y hm hspan
    obtain ⟨x', hx, hspan⟩ := Option.bind_eq_some_iff.mp hspan
    obtain ⟨y', hy, hspan⟩ := Option.bind_eq_some_iff.mp hspan
    cases hspan
    rw [hc] at hx
    cases hx
    refine ⟨y, hy, by omega, ?_⟩
    rw [List.flatten_append, List.map_append, hsources, List.flatten_singleton, hlast]
    have happend := List.range'_append_1 (s := first) (m := c - first) (n := y - c)
    rw [Nat.add_sub_cancel' hle] at happend
    rw [happend]
    congr 1
    omega

theorem moveColumn?_revalue [Scalar α] {j : Nat} {ms : List (Moved α)}
    (h : a.moveColumn? inverse j = some ms) {vs : Array α} (hvs : ∀ e ∈ ms, e.source < vs.size) :
    ({ a with values := vs }).moveColumn? inverse j = some (ms.map (Moved.revalue vs)) := by
  unfold moveColumn? at h ⊢
  obtain ⟨⟨x, y⟩, hspan, h⟩ := Option.bind_eq_some_iff.mp h
  obtain ⟨col, hcol, h⟩ := Option.bind_eq_some_iff.mp h
  have hspan' : ({ a with values := vs }).span? j = some (x, y) := hspan
  rw [hspan', hcol]
  apply mapM_map_of_mem h
  intro k e he hk
  obtain ⟨r, hr, hk⟩ := Option.bind_eq_some_iff.mp hk
  obtain ⟨row, hrow, hk⟩ := Option.bind_eq_some_iff.mp hk
  obtain ⟨value, -, hk⟩ := Option.bind_eq_some_iff.mp hk
  split at hk
  · next hlt =>
    cases hk
    have hsource : k < vs.size := hvs _ he
    have hvalue : vs[k]? = some vs[k] := Array.getElem?_eq_getElem hsource
    simp only [hr, hrow, hvalue, Option.bind_eq_bind, Option.bind_some, if_pos hlt]
    simp [Moved.revalue, hsource]
  · cases hk

theorem size_of_permuteSymmetric? {p : Permuted α} (h : a.permuteSymmetric? inverse = some p) :
    a.nnz? = some p.position.size := by
  obtain ⟨moved, nnz, -, hnnz, rfl⟩ := permuteSymmetric?_eq_some.mp h
  rw [Moved.size_position]
  exact hnnz

theorem permuteSymmetric?_revalue [Scalar α] (hsquare : a.rows = a.cols) (hordered : a.Ordered)
    {p : Permuted α} (h : a.permuteSymmetric? inverse = some p) {vs old : Array α}
    (hvs : vs.size = p.position.size) (hold : old.size = p.matrix.values.size) :
    ({ a with values := vs }).permuteSymmetric? inverse = some { p with
      matrix := { p.matrix with
        values := (p.position.toList.zip vs.toList).foldl
          (fun vs (k, v) => vs.setIfInBounds k v) old } } := by
  obtain ⟨moved, nnz, hmoved, hnnz, rfl⟩ := permuteSymmetric?_eq_some.mp h
  rw [Moved.size_position] at hvs
  have hlength : old.size = moved.flatten.length := by
    rw [hold]
    simp [Moved.assemble, (Moved.sort_perm moved.flatten).length_eq]
  have hfirst : ∃ first, a.colStart[0]? = some first := by
    unfold nnz? at hnnz
    have hlt := (Array.getElem?_eq_some_iff.mp hnnz).1
    exact ⟨_, Array.getElem?_eq_getElem (Nat.zero_lt_of_lt hlt)⟩
  obtain ⟨first, hfirst⟩ := hfirst
  obtain ⟨c, hc, -, hsources⟩ := map_source_moved hordered (Nat.le_of_eq hsquare) hfirst hmoved
  unfold nnz? at hnnz
  rw [hsquare, hnnz] at hc
  cases hc
  rw [Moved.values_revalue hsources hvs hlength]
  apply permuteSymmetric?_eq_some.mpr
  refine ⟨moved.map (List.map (Moved.revalue vs)), nnz, ?_, hnnz, ?_⟩
  · apply mapM_map_of_mem hmoved
    intro j ms hms hj
    apply moveColumn?_revalue hj
    intro e he
    rw [hvs]
    exact (Moved.source_mem_range hsources (List.mem_flatten.mpr ⟨ms, hms, he⟩)).2
  · rw [← List.map_flatten]
    exact (Moved.assemble_revalue a.rows nnz vs moved.flatten).symm

end Csc

end NonlinearOpt
