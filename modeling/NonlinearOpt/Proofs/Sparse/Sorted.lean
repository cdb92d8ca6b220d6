import NonlinearOpt.Proofs.Sparse.Blocks
import NonlinearOpt.Sparse.Format
import Mathlib

namespace NonlinearOpt

namespace Triplet

section Places

variable {α β : Type}

def place (t : Triplet α) : Nat × Nat := (t.row, t.col)

/-- The order by columns and then by rows. -/
def Precedes (s t : Triplet α) : Prop := s.col < t.col ∨ s.col = t.col ∧ s.row ≤ t.row

def PlaceLt (x y : Nat × Nat) : Prop := x.2 < y.2 ∨ x.2 = y.2 ∧ x.1 < y.1

theorem PlaceLt.asymm {x y : Nat × Nat} (h : PlaceLt x y) : ¬ PlaceLt y x := by
  unfold PlaceLt at *
  omega

theorem before_iff {s t : Triplet α} : s.before t = true ↔ s.Precedes t := by
  simp [before, Precedes]

theorem pairwise_sort (ts : List (Triplet α)) : (ts.mergeSort before).Pairwise Precedes := by
  have hsorted := @List.pairwise_mergeSort _ before
    (fun a b c hab hbc => by
      rw [before_iff, Precedes] at *
      omega)
    (fun a b => by
      rw [Bool.or_eq_true, before_iff, before_iff, Precedes, Precedes]
      omega) ts
  exact hsorted.imp before_iff.mp

variable [Scalar α] [Scalar β]

theorem mem_places_combine_go {x : Nat × Nat} (t : Triplet α) (ts : List (Triplet α)) :
    x ∈ (combine.go t ts).map place ↔ x ∈ (t :: ts).map place := by
  induction ts generalizing t with
  | nil => rfl
  | cons u us ih =>
    unfold combine.go
    split
    · next hsame =>
      simp only [samePlace, Bool.and_eq_true, beq_iff_eq] at hsame
      rw [ih]
      simp [place, hsame.1, hsame.2]
    · have hrest := ih u
      simp only [List.map_cons, List.mem_cons] at hrest ⊢
      rw [hrest]

theorem mem_places_combine {x : Nat × Nat} (ts : List (Triplet α)) :
    x ∈ (combine ts).map place ↔ x ∈ ts.map place := by
  cases ts with
  | nil => rfl
  | cons t ts => exact mem_places_combine_go t ts

theorem pairwise_combine_go {t : Triplet α} {ts : List (Triplet α)}
    (h : (t :: ts).Pairwise Precedes) : ((combine.go t ts).map place).Pairwise PlaceLt := by
  induction ts generalizing t with
  | nil => exact List.pairwise_singleton _ _
  | cons u us ih =>
    rw [List.pairwise_cons] at h
    obtain ⟨hfirst, hrest⟩ := h
    unfold combine.go
    split
    · apply ih
      rw [List.pairwise_cons] at hrest ⊢
      exact ⟨fun v hv => hfirst v (List.mem_cons_of_mem _ hv), hrest.2⟩
    · next hother =>
      simp only [samePlace, Bool.and_eq_true, beq_iff_eq] at hother
      rw [List.map_cons, List.pairwise_cons]
      refine ⟨?_, ih hrest⟩
      -- The next place is another one, and all later ones are not before it.
      intro x hx
      rw [mem_places_combine_go, List.map_cons, List.mem_cons] at hx
      have htu := hfirst u List.mem_cons_self
      rw [Precedes] at htu
      rcases hx with rfl | hx
      · show t.col < u.col ∨ t.col = u.col ∧ t.row < u.row
        omega
      · obtain ⟨v, hv, rfl⟩ := List.mem_map.mp hx
        have huv := (List.pairwise_cons.mp hrest).1 v hv
        rw [Precedes] at huv
        show t.col < v.col ∨ t.col = v.col ∧ t.row < v.row
        omega

theorem pairwise_combine {ts : List (Triplet α)} (h : ts.Pairwise Precedes) :
    ((combine ts).map place).Pairwise PlaceLt := by
  cases ts with
  | nil => exact List.Pairwise.nil
  | cons t ts => exact pairwise_combine_go h

theorem mem_combine_sort {t : Triplet α} {ts : List (Triplet α)}
    (h : t ∈ combine (ts.mergeSort before)) : ∃ t' ∈ ts, t'.row = t.row ∧ t'.col = t.col := by
  have hplace := (mem_places_combine _).mp (List.mem_map_of_mem h)
  obtain ⟨t', ht', hsame⟩ := List.mem_map.mp hplace
  obtain ⟨hrow, hcol⟩ := Prod.mk.inj hsame
  exact ⟨t', (List.mergeSort_perm ts before).mem_iff.mp ht', hrow, hcol⟩

theorem mem_places_combine_sort {x : Nat × Nat} (ts : List (Triplet α)) :
    x ∈ (combine (ts.mergeSort before)).map place ↔ x ∈ ts.map place := by
  rw [mem_places_combine]
  exact ((List.mergeSort_perm ts before).map place).mem_iff

theorem places_combine_sort_eq {ts : List (Triplet α)} {us : List (Triplet β)}
    (h : ∀ x, x ∈ ts.map place ↔ x ∈ us.map place) :
    (combine (ts.mergeSort before)).map place = (combine (us.mergeSort before)).map place := by
  have hts := pairwise_combine (pairwise_sort ts)
  have hus := pairwise_combine (pairwise_sort us)
  have hne : ∀ {x y : Nat × Nat}, PlaceLt x y → x ≠ y := by
    rintro x _ hlt rfl
    exact hlt.asymm hlt
  have hperm : ((combine (ts.mergeSort before)).map place).Perm
      ((combine (us.mergeSort before)).map place) := by
    rw [List.perm_ext_iff_of_nodup (hts.imp hne) (hus.imp hne)]
    intro x
    rw [mem_places_combine_sort, mem_places_combine_sort, h x]
  exact hperm.eq_of_pairwise (fun x y _ _ hxy hyx => absurd hyx hxy.asymm) hts hus

end Places

end Triplet

namespace Csc

open Triplet

variable {α : Type}

def SamePattern {β : Type} (a : Csc α) (b : Csc β) : Prop :=
  a.rows = b.rows ∧ a.cols = b.cols ∧ a.colStart = b.colStart ∧ a.rowIndex = b.rowIndex

/-- A matrix that stores the given columns, with all entries inside. -/
structure Holds (a : Csc α) (blocks : List (List (Nat × α))) : Prop where
  stores : a.Stores blocks
  cols : blocks.length = a.cols
  rows : ∀ block ∈ blocks, ∀ e ∈ block, e.1 < a.rows

/-- Every column ends with its diagonal entry. -/
def EndsOnDiagonal (blocks : List (List (Nat × α))) : Prop :=
  ∀ c (hc : c < blocks.length), ∃ init v, blocks[c] = init ++ [(c, v)]

theorem EndsOnDiagonal.set {blocks : List (List (Nat × α))} (h : EndsOnDiagonal blocks) (c : Nat)
    (init : List (Nat × α)) (v : α) : EndsOnDiagonal (blocks.set c (init ++ [(c, v)])) := by
  intro j hj
  rw [List.length_set] at hj
  by_cases hcj : c = j
  · subst hcj
    exact ⟨init, v, List.getElem_set_self _⟩
  · rw [List.getElem_set_ne hcj]
    exact h j hj

def Ascending (blocks : List (List (Nat × α))) : Prop :=
  ∀ block ∈ blocks, (block.map Prod.fst).Pairwise (· < ·)

section Format

theorem chained_of_pairwise {r : Nat → Nat → Bool} {xs : List Nat}
    (h : xs.Pairwise fun x y => r x y = true) : chained r xs = true := by
  induction xs with
  | nil => rfl
  | cons x xs ih =>
    cases xs with
    | nil => rfl
    | cons y ys =>
      rw [chained, Bool.and_eq_true]
      exact ⟨(List.pairwise_cons.mp h).1 y List.mem_cons_self, ih h.tail⟩

theorem isChain_of_chained {r : Nat → Nat → Bool} {xs : List Nat} (h : chained r xs = true) :
    xs.IsChain fun x y => r x y = true := by
  induction xs with
  | nil => exact List.IsChain.nil
  | cons x xs ih =>
    cases xs with
    | nil => exact List.IsChain.singleton x
    | cons y ys =>
      rw [chained, Bool.and_eq_true] at h
      exact List.IsChain.cons_cons h.1 (ih h.2)

theorem pairwise_of_chained {xs : List Nat} (h : chained (fun x y => decide (x < y)) xs = true) :
    xs.Pairwise (· < ·) :=
  List.isChain_iff_pairwise.mp ((isChain_of_chained h).imp fun _ _ hlt => of_decide_eq_true hlt)

theorem checkFormat_eq_ok {a : Csc α} : a.checkFormat = .ok () ↔
    a.rowIndex.size = a.values.size ∧ a.colStart.size = a.cols + 1 ∧
      a.colStart[a.cols]? = some a.rowIndex.size ∧
      chained (fun x y => decide (x ≤ y)) a.colStart.toList = true ∧
      (List.range a.cols).all a.columnOrdered = true ∧
      a.rowIndex.all (· < a.rows) = true := by
  unfold checkFormat
  constructor
  · intro h
    split_ifs at h with hstored hpointers hmonotone hcolumns hrows
    rw [not_not] at hstored
    rw [not_or, not_not, not_not] at hpointers
    rw [Bool.not_eq_true', Bool.not_eq_false] at hmonotone hcolumns hrows
    exact ⟨hstored, hpointers.1, hpointers.2, hmonotone, hcolumns, hrows⟩
  · rintro ⟨hstored, hpointers, hlast, hmonotone, hcolumns, hrows⟩
    rw [if_neg (not_not.mpr hstored),
      if_neg (not_or.mpr ⟨not_not.mpr hpointers, not_not.mpr hlast⟩), hmonotone, hcolumns, hrows]
    rfl

theorem column?_of_checkFormat {a : Csc α} (h : a.checkFormat = .ok ()) {j : Nat}
    (hj : j < a.cols) : ∃ column, a.column? j = some column ∧ ∀ e ∈ column, e.1 < a.rows := by
  obtain ⟨hvalues, -, -, -, hcolumns, hrows⟩ := checkFormat_eq_ok.mp h
  have hordered := List.all_eq_true.mp hcolumns j (List.mem_range.mpr hj)
  unfold columnOrdered at hordered
  split at hordered
  case h_2 => cases hordered
  next rows hrowsOf =>
  obtain ⟨⟨first, last⟩, hspan, hslice⟩ := Option.bind_eq_some_iff.mp hrowsOf
  have hslice : slice? a.rowIndex first last = some rows := hslice
  obtain ⟨values, hvaluesOf⟩ := slice?_of_size hslice hvalues.symm
  refine ⟨_, column?_eq_some.mpr ⟨first, last, rows, values, hspan, hslice, hvaluesOf, rfl⟩, ?_⟩
  intro e he
  have hrow : e.1 ∈ a.rowIndex := by
    unfold slice? at hslice
    split at hslice
    · cases hslice
      have hmem := (List.of_mem_zip he).1
      rw [Array.toList_extract] at hmem
      exact Array.mem_toList_iff.mp (List.mem_of_mem_drop (List.mem_of_mem_take hmem))
    · cases hslice
  rw [Array.all_eq_true_iff_forall_mem] at hrows
  exact of_decide_eq_true (hrows _ hrow)

theorem pairwise_cumulative (counts : List Nat) :
    (cumulative counts.toArray).toList.Pairwise (· ≤ ·) := by
  rw [cumulative_eq, List.toList_toArray, List.pairwise_map]
  apply List.pairwise_le_range.imp
  intro m n hmn
  exact (List.take_sublist_take_left hmn).sum_le_sum (by simp)

theorem isUpper?_go_of_le {a : Csc α} {js : List Nat}
    (h : ∀ j ∈ js, ∃ rows, a.rowsOf? j = some rows ∧ ∀ i ∈ rows, i ≤ j) :
    isUpper?.go a js = some true := by
  induction js with
  | nil => rfl
  | cons j js ih =>
    rw [List.forall_mem_cons] at h
    obtain ⟨⟨rows, hrows, hle⟩, hrest⟩ := h
    have hall : rows.all (· ≤ j) = true := by simpa using hle
    rw [isUpper?.go, hrows, Option.bind_eq_bind, Option.bind_some, if_pos hall]
    exact ih hrest

namespace Holds

variable {a : Csc α} {blocks : List (List (Nat × α))}

theorem checkFormat (h : Holds a blocks) (hascending : Ascending blocks) :
    a.checkFormat = .ok () := by
  have hstored : a.rowIndex.size = a.values.size := by
    rw [h.stores.rowIndex, h.stores.values, List.size_toArray, List.size_toArray, List.length_map,
      List.length_map]
  have hpointers : a.colStart.size = a.cols + 1 := by
    rw [h.stores.colStart, size_cumulative, ← h.cols]
    simp
  have hlast : a.colStart[a.cols]? = some a.rowIndex.size := by
    rw [h.stores.colStart, getElem?_cumulative _ (by simp [h.cols]), h.stores.rowIndex,
      List.toList_toArray, List.take_of_length_le (by simp [h.cols]), List.size_toArray,
      List.length_map, List.length_flatten]
  have hmonotone : chained (fun x y => decide (x ≤ y)) a.colStart.toList = true := by
    apply chained_of_pairwise
    rw [h.stores.colStart]
    exact (pairwise_cumulative _).imp decide_eq_true
  have hcolumns : (List.range a.cols).all a.columnOrdered = true := by
    rw [List.all_eq_true]
    intro j hj
    have hlt : j < blocks.length := h.cols ▸ List.mem_range.mp hj
    rw [columnOrdered, h.stores.rowsOf? hlt]
    exact chained_of_pairwise ((hascending _ (List.getElem_mem hlt)).imp decide_eq_true)
  have hrows : a.rowIndex.all (· < a.rows) = true := by
    rw [h.stores.rowIndex, Array.all_eq_true_iff_forall_mem]
    intro r hr
    obtain ⟨e, he, rfl⟩ := List.mem_map.mp (List.mem_toArray.mp hr)
    obtain ⟨block, hblock, he⟩ := List.mem_flatten.mp he
    exact decide_eq_true (h.rows block hblock e he)
  exact checkFormat_eq_ok.mpr ⟨hstored, hpointers, hlast, hmonotone, hcolumns, hrows⟩

theorem modify_last (h : Holds a blocks) {c : Nat} (hc : c < blocks.length)
    {init : List (Nat × α)} {v : α} (hlast : blocks[c] = init ++ [(c, v)]) (f : α → α) :
    Holds { a with values := a.values.modify (a.colStart.getD (c + 1) 0 - 1) f }
      (blocks.set c (init ++ [(c, f v)])) := by
  refine ⟨h.stores.modify_last hc hlast f, by simpa using h.cols, ?_⟩
  intro block hblock e he
  rcases List.mem_or_eq_of_mem_set hblock with hblock | rfl
  · exact h.rows block hblock e he
  · have hrows := h.rows _ (List.getElem_mem hc)
    rw [hlast] at hrows
    rcases List.mem_append.mp he with he | he
    · exact hrows e (by simp [he])
    · rw [List.mem_singleton.mp he]
      exact hrows (c, v) (by simp)

theorem isUpper? (h : Holds a blocks)
    (hupper : ∀ c (hc : c < blocks.length), ∀ e ∈ blocks[c], e.1 ≤ c) :
    a.isUpper? = some true := by
  apply isUpper?_go_of_le
  intro j hj
  have hlt : j < blocks.length := h.cols ▸ List.mem_range.mp hj
  refine ⟨blocks[j].map Prod.fst, h.stores.rowsOf? hlt, ?_⟩
  intro i hi
  obtain ⟨e, he, rfl⟩ := List.mem_map.mp hi
  exact hupper j hlt e he

end Holds

end Format

section Triplets

variable {β : Type} [Scalar α] [Scalar β]

def tripletBlocks (cols : Nat) (ts : List (Triplet α)) : List (List (Nat × α)) :=
  (List.range cols).map fun c =>
    ((combine (ts.mergeSort before)).filter (·.col = c)).map fun t => (t.row, t.value)

theorem ofTriplets_stores {rows cols : Nat} {ts : List (Triplet α)}
    (hcols : ∀ t ∈ ts, t.col < cols) :
    (ofTriplets rows cols ts).Stores (tripletBlocks cols ts) := by
  have hsorted := List.pairwise_map.mp (pairwise_combine (pairwise_sort ts))
  have hbound : ∀ t ∈ combine (ts.mergeSort before), t.col < cols := by
    intro t ht
    obtain ⟨t', ht', -, hcol⟩ := mem_combine_sort ht
    exact hcol ▸ hcols t' ht'
  refine stores_of_sorted (fun t => (t.row, t.value)) (hsorted.imp ?_) hbound
  rintro s t (hlt | ⟨heq, -⟩)
  · exact Nat.le_of_lt hlt
  · exact Nat.le_of_eq heq

theorem holds_ofTriplets {rows cols : Nat} {ts : List (Triplet α)}
    (hbound : ∀ t ∈ ts, t.row < rows ∧ t.col < cols) :
    Holds (ofTriplets rows cols ts) (tripletBlocks cols ts) := by
  constructor
  · exact ofTriplets_stores fun t ht => (hbound t ht).2
  · simp [tripletBlocks, ofTriplets]
  · intro block hblock e he
    obtain ⟨c, -, rfl⟩ := List.mem_map.mp hblock
    obtain ⟨t, ht, rfl⟩ := List.mem_map.mp he
    obtain ⟨t', ht', hrow, -⟩ := mem_combine_sort (List.mem_filter.mp ht).1
    exact hrow ▸ (hbound t' ht').1

theorem ascending_tripletBlocks (cols : Nat) (ts : List (Triplet α)) :
    Ascending (tripletBlocks cols ts) := by
  intro block hblock
  obtain ⟨c, -, rfl⟩ := List.mem_map.mp hblock
  have hsorted := List.pairwise_map.mp (pairwise_combine (pairwise_sort ts))
  rw [List.map_map, List.pairwise_map]
  refine (hsorted.filter (·.col = c)).imp_of_mem ?_
  intro s t hs ht hlt
  have hs : s.col = c := of_decide_eq_true (List.mem_filter.mp hs).2
  have ht : t.col = c := of_decide_eq_true (List.mem_filter.mp ht).2
  rcases hlt with hcol | ⟨-, hrow⟩
  · exact absurd (hs.trans ht.symm) (Nat.ne_of_lt hcol)
  · exact hrow

theorem row_le_tripletBlocks {cols : Nat} {ts : List (Triplet α)}
    (hupper : ∀ t ∈ ts, t.row ≤ t.col) :
    ∀ c (hc : c < (tripletBlocks cols ts).length), ∀ e ∈ (tripletBlocks cols ts)[c], e.1 ≤ c := by
  intro c hc e he
  simp only [tripletBlocks, List.getElem_map, List.getElem_range] at he
  obtain ⟨t, ht, rfl⟩ := List.mem_map.mp he
  obtain ⟨ht, hcol⟩ := List.mem_filter.mp ht
  obtain ⟨t', ht', hrow', hcol'⟩ := mem_combine_sort ht
  have hle := hupper t' ht'
  have hcol : t.col = c := of_decide_eq_true hcol
  show t.row ≤ c
  omega

theorem endsOnDiagonal_tripletBlocks {cols : Nat} {ts : List (Triplet α)}
    (hupper : ∀ t ∈ ts, t.row ≤ t.col)
    (hdiagonal : ∀ c, c < cols → ∃ t ∈ ts, t.row = c ∧ t.col = c) :
    EndsOnDiagonal (tripletBlocks cols ts) := by
  intro c hc
  have hrows := row_le_tripletBlocks hupper c hc
  have hsorted := ascending_tripletBlocks cols ts _ (List.getElem_mem hc)
  have hentry : ∃ e ∈ (tripletBlocks cols ts)[c], e.1 = c := by
    simp only [tripletBlocks, List.length_map, List.length_range] at hc
    obtain ⟨t, ht, hrow, hcol⟩ := hdiagonal c hc
    have hplace := (mem_places_combine_sort ts).mpr (List.mem_map_of_mem (f := place) ht)
    obtain ⟨t', ht', hsame⟩ := List.mem_map.mp hplace
    obtain ⟨hrow', hcol'⟩ := Prod.mk.inj hsame
    simp only [tripletBlocks, List.getElem_map, List.getElem_range]
    refine ⟨_, List.mem_map_of_mem (List.mem_filter.mpr ⟨ht', ?_⟩), hrow'.trans hrow⟩
    exact decide_eq_true (hcol'.trans hcol)
  generalize (tripletBlocks cols ts)[c] = column at *
  rcases List.eq_nil_or_concat column with rfl | ⟨init, last, rfl⟩
  · obtain ⟨e, he, -⟩ := hentry
    cases he
  · obtain ⟨e, he, hrow⟩ := hentry
    rw [List.concat_eq_append] at *
    have hlast : last.1 = c := by
      rcases List.mem_append.mp he with hinit | hlast
      · rw [List.map_append, List.pairwise_append] at hsorted
        have hlt := hsorted.2.2 e.1 (List.mem_map_of_mem hinit) last.1 (by simp)
        have hle := hrows last (by simp)
        omega
      · rw [← List.mem_singleton.mp hlast]
        exact hrow
    exact ⟨init, last.2, by rw [← hlast]⟩

/-- Where the entries are does not depend on the values. -/
theorem samePattern_ofTriplets {rows cols : Nat} {ts : List (Triplet α)} {us : List (Triplet β)}
    (h : ∀ x, x ∈ ts.map place ↔ x ∈ us.map place) :
    SamePattern (ofTriplets rows cols ts) (ofTriplets rows cols us) := by
  have hplaces := places_combine_sort_eq h
  have hcols := congrArg (List.map Prod.snd) hplaces
  have hrows := congrArg (List.map Prod.fst) hplaces
  simp only [List.map_map] at hcols hrows
  exact ⟨rfl, rfl, congrArg (fun cs => cumulative (tally cols cs)) hcols,
    congrArg List.toArray hrows⟩

end Triplets

section Reading

variable {β : Type} {a : Csc α} {b : Csc β}

theorem triplets?_eq_flatten {ts : List (Triplet α)} (h : a.triplets? = some ts) :
    (∀ j, j < a.cols → ∃ column, a.entries? j = some column) ∧
      ts = ((List.range a.cols).map fun j =>
        ((a.entries? j).getD []).map fun e => (⟨e.1, j, e.2⟩ : Triplet α)).flatten := by
  obtain ⟨columns, hcolumns, h⟩ := Option.bind_eq_some_iff.mp h
  cases h
  have hdefined : ∀ j, j < a.cols → ∃ column, a.entries? j = some column ∧
      columns[j]? = some (column.map fun e => ⟨e.1, j, e.2⟩) := by
    intro j hj
    have hget := getElem?_of_mapM hcolumns j
    have hlt : j < columns.length := by simpa [length_of_mapM hcolumns] using hj
    rw [List.getElem?_range hj, Option.bind_some, List.getElem?_eq_getElem hlt] at hget
    obtain ⟨column, hcolumn, hmap⟩ := Option.bind_eq_some_iff.mp hget.symm
    refine ⟨column, hcolumn, ?_⟩
    rw [List.getElem?_eq_getElem hlt]
    exact hmap.symm
  refine ⟨fun j hj => (hdefined j hj).imp fun _ h => h.1, congrArg List.flatten ?_⟩
  apply List.ext_getElem?
  intro j
  by_cases hj : j < a.cols
  · obtain ⟨column, hcolumn, hget⟩ := hdefined j hj
    rw [hget]
    simp [hj, hcolumn]
  · have hlength : columns.length = a.cols := by simpa using length_of_mapM hcolumns
    rw [List.getElem?_eq_none (by omega), List.getElem?_eq_none (by simpa using hj)]

theorem map_fst_of_samePattern (h : SamePattern a b) {j : Nat} {column : List (Nat × α)}
    {column' : List (Nat × β)} (ha : a.entries? j = some column)
    (hb : b.entries? j = some column') : column.map Prod.fst = column'.map Prod.fst := by
  obtain ⟨-, -, hcolStart, hrowIndex⟩ := h
  obtain ⟨⟨first, last⟩, hspan, ha⟩ := Option.bind_eq_some_iff.mp ha
  obtain ⟨span', hspan', hb⟩ := Option.bind_eq_some_iff.mp hb
  have hsame : a.span? j = b.span? j := by
    unfold span?
    rw [hcolStart]
  rw [← hsame, hspan] at hspan'
  cases hspan'
  have hrows : ∀ {γ : Type} {c : Csc γ} {column : List (Nat × γ)}, c.rowIndex = b.rowIndex →
      ((List.range' first (last - first)).mapM fun k => do
        let row ← c.rowIndex[k]?
        let value ← c.values[k]?
        return (row, value)) = some column →
      (List.range' first (last - first)).mapM (b.rowIndex[·]?) = some (column.map Prod.fst) := by
    intro γ c column hrowIndex hcolumn
    rw [mapM_eq_some_iff] at hcolumn ⊢
    rw [List.forall₂_map_right_iff]
    refine hcolumn.imp ?_
    intro k e hk
    obtain ⟨row, hrow, hk⟩ := Option.bind_eq_some_iff.mp hk
    obtain ⟨value, -, hk⟩ := Option.bind_eq_some_iff.mp hk
    cases hk
    rw [← hrowIndex]
    exact hrow
  exact Option.some.inj ((hrows hrowIndex ha).symm.trans (hrows rfl hb))

theorem places_of_samePattern (h : SamePattern a b) {ts : List (Triplet α)}
    {us : List (Triplet β)} (ha : a.triplets? = some ts) (hb : b.triplets? = some us) :
    ts.map place = us.map place := by
  obtain ⟨hdefined, rfl⟩ := triplets?_eq_flatten ha
  obtain ⟨hdefined', rfl⟩ := triplets?_eq_flatten hb
  rw [List.map_flatten, List.map_flatten, List.map_map, List.map_map, ← h.2.1]
  congr 1
  apply List.map_congr_left
  intro j hj
  obtain ⟨column, hcolumn⟩ := hdefined j (List.mem_range.mp hj)
  obtain ⟨column', hcolumn'⟩ := hdefined' j (h.2.1 ▸ List.mem_range.mp hj)
  have hrows := congrArg (List.map fun r => (r, j)) (map_fst_of_samePattern h hcolumn hcolumn')
  simp only [List.map_map] at hrows
  simp only [Function.comp_apply, hcolumn, hcolumn', Option.getD_some, List.map_map]
  exact hrows

end Reading

end Csc

end NonlinearOpt
