import Mathlib
import NonlinearOpt.Proofs.Ldl.Fill
import NonlinearOpt.Proofs.Ldl.Placement
import NonlinearOpt.Proofs.Ldl.Storage
import NonlinearOpt.Proofs.Ldl.Workspace

namespace NonlinearOpt

namespace Ldl

variable {α : Type}

section Room

variable {symbolic : Symbolic} {columns : List (List (Nat × α))} {k : Nat} {s : Rows α}

theorem fillRows_sublist (parent : Array (Option Nat)) (rows : List (List Nat)) (c : Nat)
    {m m' : Nat} (h : m ≤ m') :
    (fillRows parent rows c m).Sublist (fillRows parent rows c m') :=
  (List.range_sublist.mpr h).filter _

theorem room_of_fill (h : symbolic.Describes (rowsOf columns)) {stored : Array (Array (Nat × α))}
    (hsize : stored.size = columns.length)
    (hrows : ∀ (c : Nat) column, stored[c]? = some column →
      (column.toList.map Prod.fst).Sublist
        (fillRows symbolic.parent (rowsOf columns) c columns.length)) :
    Room (cumulative symbolic.count) symbolic.count.toList.sum stored := by
  have hlength : (rowsOf columns).length = columns.length := List.length_map _
  have hcount : symbolic.count.size = columns.length := h.countSize.trans hlength
  refine room_cumulative (hsize.trans hcount.symm) ?_
  intro c column hc
  have hbound : c < columns.length := hsize ▸ (Array.getElem?_eq_some_iff.mp hc).1
  refine ⟨_, h.count c (hlength.symm ▸ hbound), ?_⟩
  have hle := (hrows c column hc).length_le
  rwa [List.length_map, Array.length_toList, ← hlength] at hle

theorem Placed.room (hplaced : Placed symbolic.parent columns k s)
    (h : symbolic.Describes (rowsOf columns)) (hk : k ≤ columns.length) :
    Room (cumulative symbolic.count) symbolic.count.toList.sum s.columns := by
  refine room_of_fill h hplaced.size ?_
  intro c column hc
  rw [hplaced.rows c column hc]
  exact fillRows_sublist _ _ _ hk

theorem Placed.room_appended (hplaced : Placed symbolic.parent columns k s)
    (h : symbolic.Describes (rowsOf columns)) {column : List (Nat × α)}
    (hk : columns[k]? = some column) {done : List Nat}
    (hdone : ∀ c ∈ done, Fills symbolic.parent (column.map Prod.fst) k c)
    {after : Array (Array (Nat × α))} (happended : Appended k done s.columns after) :
    Room (cumulative symbolic.count) symbolic.count.toList.sum after := by
  have hlt := (List.getElem?_eq_some_iff.mp hk).1
  refine room_of_fill h (happended.size.trans hplaced.size) ?_
  intro c filled hc
  obtain ⟨old, hold, hrows⟩ := happended.rows c filled hc
  refine List.Sublist.trans ?_ (fillRows_sublist _ _ _ hlt)
  rw [hrows, hplaced.rows c old hold, fillRows_succ, getD_rowsOf hk]
  refine (List.Sublist.refl _).append ?_
  by_cases hc : c ∈ done
  · rw [if_pos hc, if_pos (hdone c hc)]
  · rw [if_neg hc]
    exact List.nil_sublist _

end Room

section Subtraction

variable [Scalar α]

theorem subtractStored?_eq {column : List (Nat × α)} {first : Nat} {rowIndex : Array Nat}
    {values : Array α} (y : α) (v : Array α)
    (hstored : ∀ (m : Nat) e, column[m]? = some e →
      rowIndex[first + m]? = some e.1 ∧ values[first + m]? = some e.2) :
    Workspace.subtractStored? rowIndex values first (first + column.length) y v =
      subtract? column y v := by
  unfold Workspace.subtractStored? subtract?
  rw [Nat.add_sub_cancel_left]
  induction column generalizing first v with
  | nil => rfl
  | cons e column ih =>
    obtain ⟨hrow, hvalue⟩ := hstored 0 e rfl
    have hlater : ∀ (m : Nat) e', column[m]? = some e' →
        rowIndex[first + 1 + m]? = some e'.1 ∧ values[first + 1 + m]? = some e'.2 := by
      intro m e' he'
      rw [Nat.add_assoc, Nat.add_comm 1 m]
      exact hstored (m + 1) e' he'
    rw [Nat.add_zero] at hrow hvalue
    rw [List.length_cons, List.range'_succ, List.foldlM_cons, List.foldlM_cons]
    simp only [hrow, hvalue, Option.bind_eq_bind, Option.bind_some]
    exact congrArg _ (funext fun v' => ih v' hlater)

theorem subtract?_within {column : List (Nat × α)} {y : α} {v v' w : Array α}
    (h : subtract? column y v = some v') {rows : List Nat} (hrows : ∀ e ∈ column, e.1 ∈ rows)
    (hagree : ∀ i ∈ rows, w[i]? = v[i]?) :
    ∃ w', subtract? column y w = some w' ∧ w'.size = w.size ∧ (∀ i ∈ rows, w'[i]? = v'[i]?) ∧
      ∀ i, i ∉ rows → w'[i]? = w[i]? := by
  induction column generalizing v w with
  | nil =>
    cases h
    exact ⟨w, rfl, rfl, hagree, fun _ _ => rfl⟩
  | cons e column ih =>
    obtain ⟨v₁, hfirst, hrest⟩ := foldlM_cons_eq_some.mp h
    obtain ⟨x, hx, hv₁⟩ := modify?_eq_some.mp hfirst
    have he : e.1 ∈ rows := hrows e (by simp)
    have hwx : w[e.1]? = some x := (hagree e.1 he).trans hx
    obtain ⟨w₁, hw₁, hsize⟩ := exists_replace? w (i := e.1) (x - e.2 * y)
      (Array.getElem?_eq_some_iff.mp hwx).1
    have hagree₁ : ∀ i ∈ rows, w₁[i]? = v₁[i]? := by
      intro i hi
      rw [getElem?_of_replace? hw₁, getElem?_of_replace? hv₁, hagree i hi]
    obtain ⟨w', hw', hsize', hin, hout⟩ := ih hrest (fun e' he' => hrows e' (by simp [he'])) hagree₁
    refine ⟨w', foldlM_cons_eq_some.mpr ⟨w₁, modify?_eq_some.mpr ⟨x, hwx, hw₁⟩, hw'⟩,
      hsize'.trans hsize, hin, ?_⟩
    intro i hi
    have hne : e.1 ≠ i := fun heq => hi (heq ▸ he)
    rw [hout i hi, getElem?_of_replace? hw₁, if_neg hne]

end Subtraction

namespace Workspace

structure Shelves (start : Array Nat) (lower : Csc α) (columns : Array (Array (Nat × α)))
    (w : Workspace α) : Prop where
  next : ∀ (c : Nat) column, columns[c]? = some column →
    w.next[c]? = some (start.getD c 0 + column.size)
  rowIndex : Stocked start columns Prod.fst lower.rowIndex w.rowIndex
  values : Stocked start columns Prod.snd lower.values w.values

/-- Row `k` on its way in the shared arrays. The columns `todo` are still to be eliminated. -/
structure Sweeps [Scalar α] (start : Array Nat) (lower : Csc α) (n k : Nat) (s : Rows α)
    (todo : List Nat) (p : Pending α) (w : Workspace α) : Prop
    extends Shelves start lower p.columns w where
  marksSize : w.marks.size = n
  marks : ∀ c < n, w.marks[c]? = some (decide (c ∈ todo))
  restSize : w.rest.size = n
  rest : ∀ c < n, w.rest[c]? = if c ∈ todo then p.rest[c]? else some 0
  metSize : w.met.size = n
  met : todo.reverse <+: w.met.toList
  waySize : w.way.size = n
  nextSize : w.next.size = n
  diag : w.diag = s.diag.setIfInBounds k p.pivot
  invDiag : w.invDiag = s.invDiag
  positive : w.positive = s.positive

variable [Scalar α] {start : Array Nat} {lower : Csc α} {n k : Nat} {s : Rows α} {todo : List Nat}
  {p p' : Pending α} {w : Workspace α}

section Storage

variable {columns columns' : Array (Array (Nat × α))} {c : Nat} {column : Array (Nat × α)}

theorem Shelves.subtractStored?_eq (h : Shelves start lower columns w)
    (hcolumn : columns[c]? = some column) (y : α) (v : Array α) :
    subtractStored? w.rowIndex w.values (start.getD c 0) (start.getD c 0 + column.size) y v =
      subtract? column.toList y v := by
  rw [← Array.length_toList]
  apply Ldl.subtractStored?_eq
  intro m e he
  rw [Array.getElem?_toList] at he
  exact ⟨h.rowIndex.stored c column hcolumn m e he, h.values.stored c column hcolumn m e he⟩

omit [Scalar α] in
theorem Shelves.push {e : Nat × α} (h : Shelves start lower columns w)
    (hcolumn : columns[c]? = some column)
    (hcolumns : replace? columns c (column.push e) = some columns')
    (hindexRoom : Room start lower.rowIndex.size columns')
    (hvaluesRoom : Room start lower.values.size columns') :
    ∃ rowIndex values next,
      replace? w.rowIndex (start.getD c 0 + column.size) e.1 = some rowIndex ∧
      replace? w.values (start.getD c 0 + column.size) e.2 = some values ∧
      replace? w.next c (start.getD c 0 + column.size + 1) = some next ∧
      next.size = w.next.size ∧
      ∀ w' : Workspace α, w'.rowIndex = rowIndex → w'.values = values → w'.next = next →
        Shelves start lower columns' w' := by
  obtain ⟨rowIndex, hrowIndex, hstockedRows⟩ := h.rowIndex.push hindexRoom hcolumn hcolumns
  obtain ⟨values, hvalues, hstockedValues⟩ := h.values.push hvaluesRoom hcolumn hcolumns
  obtain ⟨next, hnext, hnextSize⟩ := exists_replace? w.next (i := c)
    (start.getD c 0 + column.size + 1) (Array.getElem?_eq_some_iff.mp (h.next c column hcolumn)).1
  refine ⟨rowIndex, values, next, hrowIndex, hvalues, hnext, hnextSize, ?_⟩
  rintro w' rfl rfl rfl
  refine ⟨?_, hstockedRows, hstockedValues⟩
  intro c' column' hc'
  rw [getElem?_of_replace? hnext]
  rw [getElem?_of_replace? hcolumns] at hc'
  by_cases heq : c = c'
  · subst heq
    rw [if_pos rfl, Option.some.injEq] at hc'
    rw [if_pos rfl, ← hc', Array.size_push, Nat.add_assoc]
  · rw [if_neg heq] at hc' ⊢
    exact h.next c' column' hc'

end Storage

theorem Sweeps.subtract? {c : Nat} {column : Array (Nat × α)} {y : α} {rest : Array α}
    (h : Sweeps start lower n k s (c :: todo) p w) (hn : ∀ i ∈ c :: todo, i < n)
    (hrest : subtract? column.toList y p.rest = some rest)
    (hrows : ∀ e ∈ column.toList, e.1 ∈ todo) :
    ∃ left, Ldl.subtract? column.toList y w.rest = some left ∧ left.size = n ∧
      ∀ i < n, i ≠ c → left[i]? = if i ∈ todo then rest[i]? else some 0 := by
  have hagree : ∀ i ∈ todo, w.rest[i]? = p.rest[i]? := by
    intro i hi
    rw [h.rest i (hn i (by simp [hi])), if_pos (by simp [hi])]
  obtain ⟨left, hleft, hsize, hin, hout⟩ := subtract?_within hrest hrows hagree
  refine ⟨left, hleft, hsize.trans h.restSize, ?_⟩
  intro i hi hne
  by_cases hmem : i ∈ todo
  · rw [if_pos hmem, hin i hmem]
  · rw [if_neg hmem, hout i hmem, h.rest i hi, if_neg (by simp [hmem, hne])]

theorem Sweeps.step {c : Nat} (h : Sweeps start lower n k s (c :: todo) p w) (hfresh : c ∉ todo)
    (hn : ∀ i ∈ c :: todo, i < n) (hstart : n ≤ start.size) (hk : k < s.diag.size)
    (hstep : eliminate? k s.invDiag p c = some p')
    (hrows : ∀ column, p.columns[c]? = some column → ∀ e ∈ column.toList, e.1 ∈ todo)
    (hindexRoom : Room start lower.rowIndex.size p'.columns)
    (hvaluesRoom : Room start lower.values.size p'.columns) :
    ∃ w', w.clear? start k c = some w' ∧ Sweeps start lower n k s todo p' w' := by
  obtain ⟨y, column, rest, inv, columns, hy, hcolumn, hrest, hinv, hcolumns, rfl⟩ :=
    eliminate?_eq_some.mp hstep
  have hc : c < n := hn c (by simp)
  have hfree := h.next c column hcolumn
  have hfirst : start[c]? = some (start.getD c 0) := by
    rw [Array.getD_eq_getD_getElem?, Array.getElem?_eq_getElem (hc.trans_le hstart),
      Option.getD_some]
  have hwy : w.rest[c]? = some y := by rw [h.rest c hc, if_pos (by simp), hy]
  have hwinv : w.invDiag[c]? = some inv := by rw [h.invDiag, hinv]
  have hpivot : w.diag[k]? = some p.pivot := by
    rw [h.diag, Array.getElem?_setIfInBounds_self_of_lt hk]
  obtain ⟨left, hleft, hleftSize, hleftRest⟩ := h.subtract? hn hrest (hrows column hcolumn)
  rw [← h.subtractStored?_eq hcolumn] at hleft
  obtain ⟨rowIndex, values, next, hrowIndex, hvalues, hnext, hnextSize, hshelves⟩ :=
    h.toShelves.push hcolumn hcolumns hindexRoom hvaluesRoom
  obtain ⟨diag, hdiag, -⟩ := exists_replace? w.diag (i := k) (p.pivot - y * (y * inv))
    (Array.getElem?_eq_some_iff.mp hpivot).1
  obtain ⟨blank, hblank, hblankSize⟩ := exists_replace? left (i := c) (0 : α)
    (by rw [hleftSize]; exact hc)
  obtain ⟨marks, hmarks, hmarksSize⟩ := exists_replace? w.marks (i := c) false
    (by rw [h.marksSize]; exact hc)
  refine ⟨{ w with values, diag, rowIndex, next, rest := blank, marks }, ?_, ?_⟩
  · unfold clear?
    have hmodify := modify?_eq_some (f := (· - y * (y * inv))).mpr ⟨p.pivot, hpivot, hdiag⟩
    simp only [hfree, hwy, hfirst, hleft, hwinv, hvalues, hmodify,
      hrowIndex, hnext, hblank, hmarks, Option.bind_eq_bind, Option.bind_some, Option.pure_def]
  · refine ⟨hshelves _ rfl rfl rfl, hmarksSize.trans h.marksSize, ?_,
      hblankSize.trans hleftSize, ?_, h.metSize, ?_, h.waySize,
      hnextSize.trans h.nextSize, ?_, h.invDiag, h.positive⟩
    · intro i hi
      rw [getElem?_of_replace? hmarks]
      by_cases heq : c = i
      · subst heq
        simp [hfresh]
      · rw [if_neg heq, h.marks i hi]
        simp [Ne.symm heq]
    · intro i hi
      rw [getElem?_of_replace? hblank]
      by_cases heq : c = i
      · subst heq
        simp [hfresh]
      · rw [if_neg heq, hleftRest i hi (Ne.symm heq)]
    · -- columns are taken from the end of the list of those that were met
      have hmet := h.met
      rw [List.reverse_cons] at hmet
      exact (List.prefix_append _ _).trans hmet
    · obtain ⟨-, rfl⟩ := replace?_eq_some.mp hdiag
      rw [h.diag, Array.setIfInBounds_setIfInBounds]

section Rows

variable {symbolic : Symbolic} {columns : List (List (Nat × α))} {column : List (Nat × α)}
  {tolerance : α} {s' : Rows α} {failure : Option PivotError}

omit [Scalar α] in
theorem later_of_fillRows (hdescribes : symbolic.Describes (rowsOf columns)) {c : Nat}
    (hclosed : Closed symbolic.parent k (c :: todo)) {i : Nat}
    (hi : i ∈ fillRows symbolic.parent (rowsOf columns) c k) : i ∈ todo := by
  obtain ⟨hik, hfills⟩ := mem_fillRows.mp hi
  have hmem := mem_of_closed hdescribes.rising hclosed (List.mem_cons_self ..)
    (hdescribes.ancestor_of_fills hfills) hik
  exact (List.mem_cons.mp hmem).resolve_left hfills.1.ne'

theorem Sweeps.run (hdescribes : symbolic.Describes (rowsOf columns))
    (hplaced : Placed symbolic.parent columns k s) (hk : columns[k]? = some column)
    (hindex : lower.rowIndex.size = symbolic.count.toList.sum)
    (hvalues : lower.values.size = symbolic.count.toList.sum) {done : List Nat}
    (h : Sweeps (cumulative symbolic.count) lower columns.length k s todo p w)
    (happended : Appended k done s.columns p.columns) (hnodup : (done ++ todo).Nodup)
    (hclosed : Closed symbolic.parent k todo)
    (hfills : ∀ c ∈ done ++ todo, Fills symbolic.parent (column.map Prod.fst) k c)
    (hfold : todo.foldlM (eliminate? k s.invDiag) p = some p') :
    ∃ w', drain? (cumulative symbolic.count) k todo.length w = some w' ∧
      Sweeps (cumulative symbolic.count) lower columns.length k s [] p' w' := by
  induction todo generalizing done p w with
  | nil =>
    cases hfold
    exact ⟨w, rfl, h⟩
  | cons c todo ih =>
    obtain ⟨mid, hstep, hrest⟩ := foldlM_cons_eq_some.mp hfold
    have hlt := (List.getElem?_eq_some_iff.mp hk).1
    obtain ⟨-, hnodup', hdisjoint⟩ := List.nodup_append'.mp hnodup
    have hc : c ∉ done := fun hmem => hdisjoint hmem (by simp)
    have hmid := happended.step hc hstep
    have hroom := hplaced.room_appended hdescribes hk
      (fun c' hc' => hfills c' (by
        rcases List.mem_append.mp hc' with hc' | hc'
        · simp [hc']
        · simp [List.mem_singleton.mp hc'])) hmid
    have hrows : ∀ filled, p.columns[c]? = some filled → ∀ e ∈ filled.toList, e.1 ∈ todo := by
      intro filled hfilled e he
      obtain ⟨old, hold, hsame⟩ := happended.rows c filled hfilled
      rw [if_neg hc, List.append_nil, hplaced.rows c old hold] at hsame
      exact later_of_fillRows hdescribes hclosed (hsame ▸ List.mem_map_of_mem he)
    have hstart : columns.length ≤ (cumulative symbolic.count).size := by
      rw [size_cumulative, hdescribes.countSize, rowsOf, List.length_map]
      exact Nat.le_succ _
    obtain ⟨w₁, hclear, hw₁⟩ := h.step (List.nodup_cons.mp hnodup').1
      (fun i hi => (hfills i (by simp [List.mem_cons.mp hi])).1.trans hlt) hstart
      (hplaced.diagSize.symm ▸ hlt) hstep hrows (hindex.symm ▸ hroom) (hvalues.symm ▸ hroom)
    have hsplit : done ++ c :: todo = done ++ [c] ++ todo := by simp
    rw [hsplit] at hnodup hfills
    obtain ⟨w', hdrain, hw'⟩ := ih hw₁ hmid hnodup hclosed.2 hfills hrest
    have hmet := h.met
    rw [List.reverse_cons] at hmet
    have hlast := getElem?_of_prefix_concat hmet
    rw [List.length_reverse] at hlast
    refine ⟨w', ?_, hw'⟩
    rw [List.length_cons, drain?]
    simp only [hlast, hclear, hdrain, Option.bind_eq_bind, Option.bind_some]

/-- Before row `k`, the shared arrays are as they were before the first row, and what was computed
stands in its places. -/
structure Mirrors (start : Array Nat) (lower : Csc α) (n k : Nat) (s : Rows α)
    (w : Workspace α) : Prop extends Shelves start lower s.columns w where
  marks : w.marks = Array.replicate n false
  rest : w.rest = Vec.zero n
  metSize : w.met.size = n
  waySize : w.way.size = n
  nextSize : w.next.size = n
  diag : w.diag = s.diag
  invDiag : w.invDiag = s.invDiag
  positive : w.positive = s.positive
  unset : ∀ c, k ≤ c → c < n → s.diag[c]? = some 0

theorem getElem?_of_load? {y : Array α} {d : α} (h : load? n k column = some (y, d)) {c : Nat}
    (hc : c = k ∨ c ∉ column.map Prod.fst) : y[c]? = (Vec.zero n : Array α)[c]? := by
  rw [load?_eq] at h
  refine foldlM_invariant (P := fun s : Array α × α => s.1[c]? = (Vec.zero n : Array α)[c]?) rfl ?_ h
  intro e he s s' hs hstep
  unfold loadAt? at hstep
  split at hstep
  · cases hstep
    exact hs
  · next hek =>
    obtain ⟨y', hy', rfl⟩ := Option.map_eq_some_iff.mp hstep
    have hne : e.1 ≠ c := by
      rintro rfl
      exact hc.elim hek fun hmem => hmem (List.mem_map_of_mem he)
    rw [getElem?_of_replace? hy', if_neg hne, hs]

theorem sweeps_of_scans (h : Mirrors start lower n k s w) {order : List Nat} {marks : Array Bool}
    {y : Array α} {d : α} {w₁ : Workspace α} (hscans : Scans k w order marks y d w₁)
    (hreached : Reached parent k (column.map Prod.fst) (order, marks))
    (hmarks : marks.size = n) (hy : y.size = n) (hload : load? n k column = some (y, d)) :
    Sweeps start lower n k s order ⟨s.columns, y, d⟩ w₁ := by
  have hfields := hscans.fields
  have hnext : w₁.next = w.next := by rw [hfields]
  have hindex : w₁.rowIndex = w.rowIndex := by rw [hfields]
  have hvalues : w₁.values = w.values := by rw [hfields]
  have hw₁marks : w₁.marks = marks := by rw [hfields]
  have hw₁rest : w₁.rest = y := by rw [hfields]
  refine ⟨⟨?_, hindex ▸ h.rowIndex, hvalues ▸ h.values⟩, hw₁marks ▸ hmarks, ?_, hw₁rest ▸ hy, ?_,
    hscans.metSize.trans h.metSize, hscans.met, hscans.waySize.trans h.waySize,
    hnext ▸ h.nextSize, ?_, ?_, ?_⟩
  · rw [hnext]
    exact h.next
  · intro c hc
    have hget : marks[c]? = some marks[c] := Array.getElem?_eq_getElem (hmarks.symm ▸ hc)
    have hmem := hreached.marks c
    rw [hget, Option.some.injEq] at hmem
    rw [hw₁marks, hget, Option.some.injEq, Bool.eq_iff_iff, hmem, decide_eq_true_iff]
  · intro c hc
    rw [hw₁rest]
    by_cases hmem : c ∈ order
    · rw [if_pos hmem]
    · have hout : c = k ∨ c ∉ column.map Prod.fst := by
        by_contra hin
        rw [not_or, not_not] at hin
        exact hmem (hreached.start c hin.2 hin.1)
      rw [if_neg hmem, getElem?_of_load? hload hout, Vec.zero, Array.getElem?_replicate, if_pos hc]
  · rw [hfields]
    exact congrArg (·.setIfInBounds k d) h.diag
  · rw [hfields]
    exact h.invDiag
  · rw [hfields]
    exact h.positive

theorem Sweeps.marks_eq (h : Sweeps start lower n k s [] p w) :
    w.marks = Array.replicate n false := by
  apply Array.ext (by rw [h.marksSize, Array.size_replicate])
  intro c hc _
  have hget := h.marks c (h.marksSize ▸ hc)
  rw [Array.getElem?_eq_getElem hc, Option.some.injEq] at hget
  rw [hget, Array.getElem_replicate]
  rfl

theorem Sweeps.rest_eq (h : Sweeps start lower n k s [] p w) : w.rest = Vec.zero n := by
  apply Array.ext (by rw [h.restSize, Vec.zero, Array.size_replicate])
  intro c hc _
  have hget := h.rest c (h.restSize ▸ hc)
  rw [if_neg List.not_mem_nil, Array.getElem?_eq_getElem hc, Option.some.injEq] at hget
  rw [hget]
  exact (Array.getElem_replicate _).symm

theorem Sweeps.settle (h : Sweeps start lower n k s [] p w)
    (hunset : ∀ c, k ≤ c → c < n → s.diag[c]? = some 0)
    (hsettle : Ldl.settle? k s p failure = some s') :
    ∃ w', w.settle? k p.pivot failure = some w' ∧ Mirrors start lower n (k + 1) s' w' := by
  have hunset' : ∀ c, k + 1 ≤ c → c < n → (s.diag.setIfInBounds k p.pivot)[c]? = some 0 := by
    intro c hkc hc
    rw [Array.getElem?_setIfInBounds_ne (by omega)]
    exact hunset c (by omega) hc
  cases failure with
  | some e =>
    obtain ⟨diag, hdiag, hs'⟩ := Option.bind_eq_some_iff.mp hsettle
    cases hs'
    obtain ⟨-, rfl⟩ := replace?_eq_some.mp hdiag
    exact ⟨w, rfl, ⟨h.toShelves, h.marks_eq, h.rest_eq, h.metSize, h.waySize, h.nextSize, h.diag,
      h.invDiag, h.positive, hunset'⟩⟩
  | none =>
    obtain ⟨diag, hdiag, hs'⟩ := Option.bind_eq_some_iff.mp hsettle
    obtain ⟨inv, hinv, hs'⟩ := Option.bind_eq_some_iff.mp hs'
    cases hs'
    obtain ⟨-, rfl⟩ := replace?_eq_some.mp hdiag
    rw [← h.invDiag] at hinv
    refine ⟨_, Option.bind_eq_some_iff.mpr ⟨inv, hinv, rfl⟩, ⟨h.next, h.rowIndex, h.values⟩,
      h.marks_eq, h.rest_eq, h.metSize, h.waySize, h.nextSize, h.diag, rfl, ?_, hunset'⟩
    simp only [h.positive]

/-- A row is computed in place as it is computed apart, whether or not its pivot can be divided
by. -/
theorem Mirrors.row (hp : Planted symbolic.parent columns)
    (hdescribes : symbolic.Describes (rowsOf columns))
    (hplaced : Placed symbolic.parent columns k s) (hk : columns[k]? = some column)
    (hindex : lower.rowIndex.size = symbolic.count.toList.sum)
    (hvalues : lower.values.size = symbolic.count.toList.sum)
    (h : Mirrors (cumulative symbolic.count) lower columns.length k s w)
    (hrow : Ldl.row? symbolic.parent tolerance k column s = some (s', failure)) :
    ∃ w', w.row? symbolic.parent (cumulative symbolic.count) tolerance k column =
        some (w', failure) ∧
      Mirrors (cumulative symbolic.count) lower columns.length (k + 1) s' w' := by
  obtain ⟨order, y, d, p, horder, hload, hfold, rfl, hsettle⟩ := row?_eq_some.mp hrow
  have hlt := (List.getElem?_eq_some_iff.mp hk).1
  have hfills : ∀ c ∈ order, Fills symbolic.parent (column.map Prod.fst) k c :=
    fun c => (mem_reach?_iff hp.rising horder (hp.le hk)).mp
  rw [reach?_eq, Option.map_eq_some_iff] at horder
  obtain ⟨⟨order, marks⟩, hfollow, rfl⟩ := horder
  have hreached := reached_of_foldlM hp.rising hfollow
  have hmarks := size_of_followRows hfollow
  rw [Array.size_replicate] at hmarks
  -- the columns that are met are different, so there is room to list them
  have hlength : order.length ≤ columns.length := by
    have hsub : order.toFinset ⊆ Finset.range columns.length := fun c hc =>
      Finset.mem_range.mpr ((hfills c (List.mem_toFinset.mp hc)).1.trans hlt)
    have hcard := Finset.card_le_card hsub
    rwa [List.toFinset_card_of_nodup hreached.nodup, Finset.card_range] at hcard
  obtain ⟨y', d', hload', hy⟩ := exists_load? hlt (hp.upper k column hk)
  rw [hp.size] at hload hfollow hmarks
  rw [hload, Option.some.injEq, Prod.mk.injEq] at hload'
  obtain ⟨rfl, rfl⟩ := hload'
  have hdiag : w.diag.setIfInBounds k 0 = w.diag :=
    setIfInBounds_eq_self (h.diag ▸ h.unset k (Nat.le_refl _) hlt)
  have hstart : Scans k w [] (Array.replicate columns.length false) (Vec.zero columns.length) 0
      w := by
    refine ⟨?_, List.nil_prefix, rfl, rfl⟩
    rw [hdiag, ← h.marks, ← h.rest]
  rw [load?_eq] at hload
  obtain ⟨w₁, hscan, hw₁⟩ := hstart.run hfollow hload
    (by rw [h.diag, hplaced.diagSize]; exact hlt) (by rw [h.metSize]; exact hlength)
    (by rw [h.waySize]; exact hlength)
  have hsweeps := sweeps_of_scans h hw₁ hreached hmarks hy (by rw [load?_eq]; exact hload)
  obtain ⟨w₂, hdrain, hw₂⟩ := hsweeps.run hdescribes hplaced hk hindex hvalues
    (.refl k s.columns) (by simpa using hreached.nodup) hreached.closed (by simpa using hfills) hfold
  obtain ⟨w', hsettled, hw'⟩ := hw₂.settle h.unset hsettle
  have hpivot : w₂.diag[k]? = some p.pivot := by
    rw [hw₂.diag, Array.getElem?_setIfInBounds_self_of_lt (by rw [hplaced.diagSize]; exact hlt)]
  refine ⟨w', ?_, hw'⟩
  unfold row?
  rw [List.length_nil] at hscan
  simp only [hscan, hdrain, hpivot, hsettled, Option.bind_eq_bind, Option.bind_some, Option.pure_def]

theorem Mirrors.rows (hp : Planted symbolic.parent columns)
    (hdescribes : symbolic.Describes (rowsOf columns))
    (hplaced : Placed symbolic.parent columns k s)
    (hindex : lower.rowIndex.size = symbolic.count.toList.sum)
    (hvalues : lower.values.size = symbolic.count.toList.sum)
    (h : Mirrors (cumulative symbolic.count) lower columns.length k s w)
    {rest : List (List (Nat × α))} (hk : k ≤ columns.length) (hrest : rest <+: columns.drop k)
    (hrows : Ldl.rows? symbolic.parent tolerance (rest.zipIdx k) s = some (s', failure)) :
    ∃ w' m, w.rows? symbolic.parent (cumulative symbolic.count) tolerance (rest.zipIdx k) =
        some (w', failure) ∧ m ≤ columns.length ∧ Placed symbolic.parent columns m s' ∧
      Mirrors (cumulative symbolic.count) lower columns.length m s' w' ∧
      (failure = none → m = k + rest.length) := by
  induction rest generalizing k s w with
  | nil =>
    cases hrows
    exact ⟨w, k, rfl, hk, hplaced, h, fun _ => rfl⟩
  | cons column rest ih =>
    obtain ⟨hcolumn, hnext⟩ := getElem?_of_prefix_drop hrest
    have hlt := (List.getElem?_eq_some_iff.mp hcolumn).1
    rw [List.zipIdx_cons] at hrows ⊢
    rw [rows?]
    rcases rows?_cons_eq_some.mp hrows with ⟨mid, hrow, hrows⟩ | ⟨e, hrow, rfl⟩
    · obtain ⟨w₁, hw₁, hmirrors⟩ := h.row hp hdescribes hplaced hcolumn hindex hvalues hrow
      obtain ⟨w', m, hw', hm, hplaced', hmirrors', hdone⟩ :=
        ih (hplaced.next hp hcolumn hrow) hmirrors hlt hnext hrows
      refine ⟨w', m, ?_, hm, hplaced', hmirrors', ?_⟩
      · simp only [hw₁, hw', Option.bind_eq_bind, Option.bind_some]
      · rwa [List.length_cons, Nat.add_comm rest.length 1, ← Nat.add_assoc]
    · obtain ⟨w₁, hw₁, hmirrors⟩ := h.row hp hdescribes hplaced hcolumn hindex hvalues hrow
      refine ⟨w₁, k + 1, ?_, hlt, hplaced.next hp hcolumn hrow, hmirrors, nofun⟩
      simp only [hw₁, Option.bind_eq_bind, Option.bind_some, Option.pure_def]

end Rows

end Workspace

end Ldl

end NonlinearOpt
