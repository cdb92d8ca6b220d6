import Mathlib
import NonlinearOpt.Proofs.Sparse.Relocation

namespace NonlinearOpt.Csc

variable {α : Type} {a : Csc α}

section Columns

/-- Entry number `k` of the storage belongs to column `j`. -/
def Owns (a : Csc α) (j k : Nat) : Prop :=
  ∃ first last, a.span? j = some (first, last) ∧ first ≤ k ∧ k < last

theorem span?_eq_some {j first last : Nat} : a.span? j = some (first, last) ↔
    a.colStart[j]? = some first ∧ a.colStart[j + 1]? = some last := by
  simp [span?, Option.bind_eq_some_iff]

theorem le_of_rising (h : a.colStart.toList.IsChain (· ≤ ·)) {i j x y : Nat} (hij : i ≤ j)
    (hx : a.colStart[i]? = some x) (hy : a.colStart[j]? = some y) : x ≤ y := by
  obtain ⟨hi, rfl⟩ := Array.getElem?_eq_some_iff.mp hx
  obtain ⟨hj, rfl⟩ := Array.getElem?_eq_some_iff.mp hy
  rcases Nat.lt_or_eq_of_le hij with hlt | rfl
  · exact List.pairwise_iff_getElem.mp (List.isChain_iff_pairwise.mp h) i j hi hj hlt
  · exact Nat.le_refl _

theorem Owns.unique (h : a.colStart.toList.IsChain (· ≤ ·)) {i j k : Nat} (hi : a.Owns i k)
    (hj : a.Owns j k) : i = j := by
  obtain ⟨x, y, hx, hxk, hky⟩ := hi
  obtain ⟨x', y', hx', hxk', hky'⟩ := hj
  rw [span?_eq_some] at hx hx'
  by_contra hne
  rcases Nat.lt_or_gt_of_ne hne with hlt | hlt
  · have := le_of_rising h (Nat.succ_le_of_lt hlt) hx.2 hx'.1
    omega
  · have := le_of_rising h (Nat.succ_le_of_lt hlt) hx'.2 hx.1
    omega

theorem exists_owns {k first last n : Nat} (hfirst : a.colStart[0]? = some first)
    (hlast : a.colStart[n]? = some last) (hle : first ≤ k) (hlt : k < last) :
    ∃ j, j < n ∧ a.Owns j k := by
  induction n generalizing last with
  | zero =>
    rw [hfirst] at hlast
    cases hlast
    omega
  | succ n ih =>
    have hn : n < a.colStart.size := by
      have := (Array.getElem?_eq_some_iff.mp hlast).1
      omega
    have hpointer : a.colStart[n]? = some a.colStart[n] := Array.getElem?_eq_getElem hn
    by_cases hk : k < a.colStart[n]
    · obtain ⟨j, hj, howns⟩ := ih hpointer hk
      exact ⟨j, Nat.lt_succ_of_lt hj, howns⟩
    · exact ⟨n, Nat.lt_succ_self n, _, _, span?_eq_some.mpr ⟨hpointer, hlast⟩, Nat.not_lt.mp hk, hlt⟩

theorem storedAt_of_rowsOf? (hpaired : a.rowIndex.size = a.values.size) {j first last p i : Nat}
    {rows : List Nat} (hspan : a.span? j = some (first, last)) (hrows : a.rowsOf? j = some rows)
    (hp : rows[p]? = some i) : ∃ v, a.StoredAt (first + p) i j v := by
  obtain ⟨span, hspan', hslice⟩ := Option.bind_eq_some_iff.mp hrows
  rw [hspan] at hspan'
  cases hspan'
  have hlt : p < last - first := by
    rw [← length_of_slice? hslice]
    exact (List.getElem?_eq_some_iff.mp hp).1
  have hrow := (getElem?_of_slice? hslice hlt).trans hp
  have hstored : first + p < a.values.size := hpaired ▸ (Array.getElem?_eq_some_iff.mp hrow).1
  exact ⟨_, ⟨first, last, hspan, by omega, by omega⟩, hrow, Array.getElem?_eq_getElem hstored⟩

theorem StoredAt.lt_colStart {k i j : Nat} {v : α} (h : a.StoredAt k i j v) :
    j + 1 < a.colStart.size := by
  obtain ⟨first, last, hspan, -⟩ := h.column
  exact (Array.getElem?_eq_some_iff.mp (span?_eq_some.mp hspan).2).1

theorem StoredAt.getElem?_rows {k i j : Nat} {v : α} {rows : List Nat} (h : a.StoredAt k i j v)
    (hrows : a.rowsOf? j = some rows) :
    ∃ first last, a.span? j = some (first, last) ∧ first ≤ k ∧ rows[k - first]? = some i := by
  obtain ⟨first, last, hspan, hfirst, hlast⟩ := h.column
  obtain ⟨span, hspan', hslice⟩ := Option.bind_eq_some_iff.mp hrows
  rw [hspan] at hspan'
  cases hspan'
  refine ⟨first, last, hspan, hfirst, ?_⟩
  rw [← getElem?_of_slice? hslice (by omega), Nat.add_sub_cancel' hfirst]
  exact h.row

end Columns

section Check

def columnOrdered? (a : Csc α) (j : Nat) : Option Bool := do
  return chained (fun x y => decide (x < y)) (← a.rowsOf? j)

/-- The format check, undefined from the first access outside an array on. -/
def checkFormat? (a : Csc α) : Option (Except FormatError Unit) :=
  if a.rowIndex.size ≠ a.values.size then some (.error .dimensions)
  else if a.colStart.isEmpty ∨ a.colStart.size - 1 ≠ a.cols then some (.error .dimensions)
  else do
    if (← a.colStart[a.cols]?) ≠ a.rowIndex.size then return .error .dimensions
    if !chained (fun x y => decide (x ≤ y)) a.colStart.toList then return .error .colStart
    if !(← (List.range a.cols).allM a.columnOrdered?) then return .error .rowIndex
    if !a.rowIndex.all (· < a.rows) then return .error .rowIndex
    return .ok ()

theorem allM_columnOrdered? (h : a.Divided) {js : List Nat} (hjs : ∀ j ∈ js, j < a.cols) :
    js.allM a.columnOrdered? = some (js.all a.columnOrdered) := by
  induction js with
  | nil => rfl
  | cons j js ih =>
    rw [List.forall_mem_cons] at hjs
    obtain ⟨rows, hrows⟩ := h.exists_rowsOf? hjs.1
    have hfirst : a.columnOrdered? j = some (a.columnOrdered j) := by
      simp [columnOrdered?, columnOrdered, hrows]
    rw [List.allM, hfirst, List.all_cons, ih hjs.2]
    cases a.columnOrdered j <;> rfl

theorem checkFormat?_eq (a : Csc α) : a.checkFormat? = some a.checkFormat := by
  unfold checkFormat? checkFormat
  by_cases hpaired : a.rowIndex.size = a.values.size
  case neg => rw [if_pos hpaired, if_pos hpaired]
  rw [if_neg (not_not.mpr hpaired), if_neg (not_not.mpr hpaired)]
  have hempty : (a.colStart.isEmpty = true ∨ a.colStart.size - 1 ≠ a.cols) ↔
      a.colStart.size ≠ a.cols + 1 := by
    rw [Array.isEmpty_iff_size_eq_zero]
    omega
  by_cases hpointers : a.colStart.size = a.cols + 1
  case neg => rw [if_pos (hempty.mpr hpointers), if_pos (.inl hpointers)]
  rw [if_neg (not_not.mpr hpointers ∘ hempty.mp)]
  have hread : a.colStart[a.cols]? = some a.colStart[a.cols] := Array.getElem?_eq_getElem (by omega)
  rw [hread, Option.bind_eq_bind, Option.bind_some]
  by_cases hlast : a.colStart[a.cols] = a.rowIndex.size
  case neg =>
    rw [if_pos hlast, if_pos (.inr fun h => hlast (Option.some.inj h))]
    rfl
  have hpass : ¬ (a.colStart.size ≠ a.cols + 1 ∨
      some a.colStart[a.cols] ≠ some a.rowIndex.size) := by simp [hpointers, hlast]
  rw [if_neg (not_not.mpr hlast), if_neg hpass]
  cases hrising : chained (fun x y => decide (x ≤ y)) a.colStart.toList with
  | false => rfl
  | true =>
    have hdivided : a.Divided := by
      refine ⟨hpointers, (isChain_of_chained hrising).imp fun _ _ => of_decide_eq_true, ?_⟩
      intro last hnnz
      rw [nnz?, hread, hlast, Option.some.injEq] at hnnz
      omega
    rw [allM_columnOrdered? hdivided fun j => List.mem_range.mp]
    cases (List.range a.cols).all a.columnOrdered with
    | false => rfl
    | true => cases a.rowIndex.all (· < a.rows) <;> rfl

/-- Columns that follow each other up to the end of the storage. Each lists its rows in order, and all
rows that are stored lie in the matrix. -/
structure Formatted (a : Csc α) : Prop where
  paired : a.rowIndex.size = a.values.size
  pointers : a.colStart.size = a.cols + 1
  rising : a.colStart.toList.IsChain (· ≤ ·)
  last : a.nnz? = some a.rowIndex.size
  ascending : ∀ j rows, a.rowsOf? j = some rows → rows.Pairwise (· < ·)
  inside : ∀ i ∈ a.rowIndex, i < a.rows

theorem Formatted.divided (h : a.Formatted) : a.Divided := by
  refine ⟨h.pointers, h.rising, ?_⟩
  intro last hlast
  rw [h.last, Option.some.injEq] at hlast
  have hpaired := h.paired
  omega

theorem checkFormat_eq_ok_iff : a.checkFormat = .ok () ↔ a.Formatted := by
  rw [checkFormat_eq_ok]
  constructor
  · rintro ⟨hpaired, hpointers, hlast, hrising, hcolumns, hrows⟩
    refine ⟨hpaired, hpointers, (isChain_of_chained hrising).imp fun _ _ => of_decide_eq_true,
      hlast, ?_, ?_⟩
    · intro j rows hj
      have hlt : j < a.cols := Divided.lt_of_rowsOf? hpointers hj
      have hordered := List.all_eq_true.mp hcolumns j (List.mem_range.mpr hlt)
      rw [columnOrdered, hj] at hordered
      exact pairwise_of_chained hordered
    · intro i hi
      exact of_decide_eq_true (Array.all_eq_true_iff_forall_mem.mp hrows i hi)
  · intro h
    refine ⟨h.paired, h.pointers, h.last, ?_, ?_, ?_⟩
    · exact chained_of_pairwise ((List.isChain_iff_pairwise.mp h.rising).imp decide_eq_true)
    · rw [List.all_eq_true]
      intro j hj
      obtain ⟨rows, hrows⟩ := h.divided.exists_rowsOf? (List.mem_range.mp hj)
      rw [columnOrdered, hrows]
      exact chained_of_pairwise ((h.ascending j rows hrows).imp decide_eq_true)
    · rw [Array.all_eq_true_iff_forall_mem]
      exact fun i hi => decide_eq_true (h.inside i hi)

end Check

section CompressedForm

/-- The compressed column form: the columns divide the whole storage, and each lists distinct rows of
the matrix in order. -/
structure WellFormed (a : Csc α) : Prop where
  paired : a.rowIndex.size = a.values.size
  pointers : a.colStart.size = a.cols + 1
  first : a.colStart[0]? = some 0
  rising : a.colStart.toList.IsChain (· ≤ ·)
  last : a.nnz? = some a.rowIndex.size
  columns : ∀ j, j < a.cols → ∃ rows, a.rowsOf? j = some rows ∧ rows.Pairwise (· < ·) ∧
    ∀ i ∈ rows, i < a.rows

structure Listed (a : Csc α) : Prop where
  paired : a.rowIndex.size = a.values.size
  pointers : a.colStart.size = a.cols + 1
  rising : a.colStart.toList.IsChain (· ≤ ·)
  last : a.nnz? = some a.rowIndex.size
  sorted : ∀ j rows, a.rowsOf? j = some rows → rows.Pairwise (· ≤ ·)

structure Allotted (a : Csc α) : Prop where
  owner : ∀ k, k < a.values.size → ∃! j, a.Owns j k
  inside : ∀ k i j v, a.StoredAt k i j v → i < a.rows ∧ j < a.cols
  distinct : ∀ k k' i j v v', a.StoredAt k i j v → a.StoredAt k' i j v' → k = k'

theorem wellFormed_iff_checkFormat :
    a.WellFormed ↔ a.checkFormat = .ok () ∧ a.colStart[0]? = some 0 := by
  rw [checkFormat_eq_ok_iff]
  constructor
  · intro h
    refine ⟨⟨h.paired, h.pointers, h.rising, h.last, ?_, ?_⟩, h.first⟩
    · intro j rows hrows
      obtain ⟨rows', hrows', hascending, -⟩ := h.columns j (Divided.lt_of_rowsOf? h.pointers hrows)
      rw [hrows] at hrows'
      cases hrows'
      exact hascending
    · -- Every stored row is in a column, as nothing is stored in front of the first one.
      intro i hi
      obtain ⟨k, hk⟩ := Array.mem_iff_getElem?.mp hi
      have hlt : k < a.rowIndex.size := (Array.getElem?_eq_some_iff.mp hk).1
      obtain ⟨j, hj, first, last, hspan, hfirst, hlast⟩ :=
        exists_owns h.first h.last (Nat.zero_le k) hlt
      obtain ⟨rows, hrows, -, hinside⟩ := h.columns j hj
      have hvalue : k < a.values.size := h.paired ▸ hlt
      have hstored : a.StoredAt k i j a.values[k] :=
        ⟨⟨first, last, hspan, hfirst, hlast⟩, hk, Array.getElem?_eq_getElem _⟩
      obtain ⟨_, _, -, -, hget⟩ := hstored.getElem?_rows hrows
      exact hinside i (List.mem_of_getElem? hget)
  · rintro ⟨h, hfirst⟩
    refine ⟨h.paired, h.pointers, hfirst, h.rising, h.last, ?_⟩
    intro j hj
    obtain ⟨rows, hrows⟩ := h.divided.exists_rowsOf? hj
    refine ⟨rows, hrows, h.ascending j rows hrows, ?_⟩
    intro i hi
    obtain ⟨p, hp⟩ := List.getElem?_of_mem hi
    obtain ⟨first, last, -, hspan, -⟩ := h.divided.span? hj
    obtain ⟨v, hstored⟩ := storedAt_of_rowsOf? h.paired hspan hrows hp
    exact h.inside i (Array.mem_of_getElem? hstored.row)

theorem WellFormed.allotted (h : a.WellFormed) : a.Allotted := by
  constructor
  · intro k hk
    obtain ⟨j, -, howns⟩ := exists_owns h.first h.last (Nat.zero_le k) (h.paired ▸ hk)
    exact ⟨j, howns, fun j' howns' => howns'.unique h.rising howns⟩
  · intro k i j v hstored
    have hj : j < a.cols := by
      have := h.pointers ▸ hstored.lt_colStart
      omega
    obtain ⟨rows, hrows, -, hinside⟩ := h.columns j hj
    obtain ⟨_, _, -, -, hget⟩ := hstored.getElem?_rows hrows
    exact ⟨hinside i (List.mem_of_getElem? hget), hj⟩
  · intro k k' i j v v' hstored hstored'
    obtain ⟨first, last, hspan, -⟩ := hstored.column
    have hj : j < a.cols := by
      have := h.pointers ▸ hstored.lt_colStart
      omega
    obtain ⟨rows, hrows, hascending, -⟩ := h.columns j hj
    obtain ⟨x, y, hx, hxk, hget⟩ := hstored.getElem?_rows hrows
    obtain ⟨x', y', hx', hxk', hget'⟩ := hstored'.getElem?_rows hrows
    rw [hspan] at hx hx'
    cases hx
    cases hx'
    have hnodup : rows.Nodup := hascending.imp Nat.ne_of_lt
    have hsame := (List.getElem?_inj (List.getElem?_eq_some_iff.mp hget).1 hnodup).mp
      (hget.trans hget'.symm)
    omega

theorem Allotted.first (h : a.Allotted) (hlisted : a.Listed) : a.colStart[0]? = some 0 := by
  have hsize : 0 < a.colStart.size := hlisted.pointers ▸ Nat.succ_pos _
  have hpointer : a.colStart[0]? = some a.colStart[0] := Array.getElem?_eq_getElem hsize
  have hle := le_of_rising hlisted.rising (Nat.zero_le a.cols) hpointer hlisted.last
  rw [hpointer, Option.some.injEq]
  by_contra hpos
  have hstored : 0 < a.values.size := by
    have := hlisted.paired
    omega
  obtain ⟨j, ⟨first, last, hspan, hfirst, -⟩, -⟩ := h.owner 0 hstored
  have := le_of_rising hlisted.rising (Nat.zero_le j) hpointer (span?_eq_some.mp hspan).1
  omega

/-- For columns in order, the compressed form says that each stored value has one column and a
position of its own in the matrix. -/
theorem wellFormed_iff_allotted : a.WellFormed ↔ a.Listed ∧ a.Allotted := by
  constructor
  · intro h
    refine ⟨⟨h.paired, h.pointers, h.rising, h.last, ?_⟩, h.allotted⟩
    intro j rows hrows
    obtain ⟨rows', hrows', hascending, -⟩ := h.columns j (Divided.lt_of_rowsOf? h.pointers hrows)
    rw [hrows] at hrows'
    cases hrows'
    exact hascending.imp Nat.le_of_lt
  · rintro ⟨h, hallotted⟩
    have hdivided : a.Divided := by
      refine ⟨h.pointers, h.rising, ?_⟩
      intro last hlast
      rw [h.last, Option.some.injEq] at hlast
      have hpaired := h.paired
      omega
    refine ⟨h.paired, h.pointers, hallotted.first h, h.rising, h.last, ?_⟩
    intro j hj
    obtain ⟨rows, hrows⟩ := hdivided.exists_rowsOf? hj
    obtain ⟨first, last, -, hspan, -⟩ := hdivided.span? hj
    refine ⟨rows, hrows, ?_, ?_⟩
    · rw [List.pairwise_iff_getElem]
      intro p q hp hq hpq
      have hle := List.pairwise_iff_getElem.mp (h.sorted j rows hrows) p q hp hq hpq
      refine Nat.lt_of_le_of_ne hle ?_
      intro heq
      obtain ⟨v, hstored⟩ :=
        storedAt_of_rowsOf? h.paired hspan hrows (List.getElem?_eq_getElem hp)
      obtain ⟨v', hstored'⟩ :=
        storedAt_of_rowsOf? h.paired hspan hrows (List.getElem?_eq_getElem hq)
      have := hallotted.distinct _ _ _ _ _ _ hstored (heq ▸ hstored')
      omega
    · intro i hi
      obtain ⟨p, hp⟩ := List.getElem?_of_mem hi
      obtain ⟨v, hstored⟩ := storedAt_of_rowsOf? h.paired hspan hrows hp
      exact (hallotted.inside _ _ _ _ hstored).1

/-- The format check is defined for all contents of the fields. It accepts the compressed column form
with any first pointer. -/
theorem checkFormat_formatted (a : Csc α) :
    a.checkFormat? = some a.checkFormat ∧ (a.checkFormat = .ok () ↔ a.Formatted) ∧
      (a.WellFormed ↔ a.checkFormat = .ok () ∧ a.colStart[0]? = some 0) ∧
      (a.WellFormed ↔ a.Listed ∧ a.Allotted) :=
  ⟨checkFormat?_eq a, checkFormat_eq_ok_iff, wellFormed_iff_checkFormat, wellFormed_iff_allotted⟩

/-- The only column starts behind the first value. -/
def strayMatrix : Csc (Exact ℚ) := ⟨1, 1, #[1, 2], #[0, 0], #[1, 1]⟩

theorem checkFormat_stray :
    strayMatrix.checkFormat = .ok () ∧ ¬ strayMatrix.WellFormed ∧ ¬ strayMatrix.Allotted := by
  refine ⟨by decide +kernel, fun h => absurd h.first (by decide), ?_⟩
  intro h
  obtain ⟨j, ⟨first, last, hspan, hfirst, -⟩, -⟩ := h.owner 0 (by decide)
  have hmem : first ∈ strayMatrix.colStart := Array.mem_of_getElem? (span?_eq_some.mp hspan).1
  rw [Nat.le_zero.mp hfirst] at hmem
  exact absurd hmem (by simp [strayMatrix])

end CompressedForm

end NonlinearOpt.Csc
