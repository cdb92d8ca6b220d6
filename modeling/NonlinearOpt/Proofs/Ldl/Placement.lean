import Mathlib
import NonlinearOpt.Proofs.Ldl.Rows
import NonlinearOpt.Proofs.Ldl.Tree

namespace NonlinearOpt

namespace Ldl

section Ways

variable {parent : Array (Option Nat)} {k : Nat}

theorem exists_path (hrising : Rising parent) (hk : k ≤ parent.size) {fuel i : Nat}
    {marks : Array Bool} (hmarks : marks.size = parent.size) (hi : i < k) (hfuel : k ≤ i + fuel) :
    ∃ p marks', path parent k fuel i marks = some (p, marks') ∧ marks'.size = parent.size := by
  induction fuel generalizing i marks with
  | zero => omega
  | succ fuel ih =>
    obtain ⟨marked, hmarked, hsize⟩ := exists_replace? marks (i := i) true (by omega)
    have hup : parent[i]? = some parent[i] := Array.getElem?_eq_getElem (by omega)
    rw [path, hmarked, hup]
    simp only [Option.bind_eq_bind, Option.bind_some]
    cases hparent : parent[i] with
    | none => exact ⟨[i], marked, rfl, hsize.trans hmarks⟩
    | some up =>
      simp only
      by_cases hstop : k ≤ up
      · exact ⟨[i], marked, if_pos hstop, hsize.trans hmarks⟩
      · have hlt := hrising i up (hup.trans (congrArg some hparent))
        have hmark : marked[up]? = some marked[up] := Array.getElem?_eq_getElem (by omega)
        rw [if_neg hstop, hmark, Option.bind_some]
        cases marked[up] with
        | true => exact ⟨[i], marked, rfl, hsize.trans hmarks⟩
        | false =>
          obtain ⟨rest, marks', hrest, hsize'⟩ :=
            ih (hsize.trans hmarks) (by omega : up < k) (by omega)
          exact ⟨i :: rest, marks', by simp [hrest], hsize'⟩

theorem exists_reach? (hrising : Rising parent) (hk : k ≤ parent.size) {rows : List Nat}
    (hrows : ∀ i ∈ rows, i ≤ k) : ∃ order, reach? parent k rows = some order := by
  have hfold : ∃ s, rows.foldlM (followRow? parent k) ([], Array.replicate parent.size false) =
      some s ∧ s.2.size = parent.size := by
    refine exists_foldlM (P := fun s : List Nat × Array Bool => s.2.size = parent.size)
      Array.size_replicate ?_
    rintro i hi ⟨order, marks⟩ hmarks
    unfold followRow?
    by_cases hik : i = k
    · exact ⟨(order, marks), if_pos hik, hmarks⟩
    · have hlt : i < k := Nat.lt_of_le_of_ne (hrows i hi) hik
      have hbound : i < marks.size := hmarks.symm ▸ hlt.trans_le hk
      have hmark : marks[i]? = some marks[i] := Array.getElem?_eq_getElem hbound
      rw [if_neg hik]
      simp only [hmark, Option.bind_eq_bind, Option.bind_some]
      cases marks[i] with
      | true => exact ⟨(order, marks), rfl, hmarks⟩
      | false =>
        obtain ⟨p, marks', hpath, hsize⟩ :=
          exists_path hrising hk hmarks hlt (show k ≤ i + (parent.size + 1) by omega)
        exact ⟨(p ++ order, marks'), by simp [hpath], hsize⟩
  obtain ⟨s, hs, -⟩ := hfold
  exact ⟨s.1, by rw [reach?_eq, hs, Option.map_some]⟩

end Ways

theorem getElem?_of_prefix_drop {β : Type} {x : β} {xs ys : List β} {k : Nat}
    (h : x :: xs <+: ys.drop k) : ys[k]? = some x ∧ xs <+: ys.drop (k + 1) := by
  obtain ⟨tail, htail⟩ := h
  constructor
  · rw [← List.head?_drop, ← htail, List.cons_append, List.head?_cons]
  · rw [← List.tail_drop, ← htail, List.cons_append, List.tail_cons]
    exact List.prefix_append xs tail

variable {α : Type} [Scalar α]

theorem exists_load? {n k : Nat} (hk : k < n) {column : List (Nat × α)}
    (hcolumn : ∀ e ∈ column, e.1 ≤ k) :
    ∃ y d, load? n k column = some (y, d) ∧ y.size = n := by
  have hfold : ∃ s, load? n k column = some s ∧ s.1.size = n := by
    refine exists_foldlM (P := fun s : Array α × α => s.1.size = n) Array.size_replicate ?_
    rintro ⟨i, v⟩ he ⟨y, d⟩ hsize
    have hle : i ≤ k := hcolumn _ he
    by_cases hik : i = k
    · exact ⟨(y, v), if_pos hik, hsize⟩
    · obtain ⟨y', hy', hsize'⟩ := exists_replace? y v (hsize ▸ hle.trans_lt hk)
      exact ⟨(y', d), by simp [hik, hy'], hsize'.trans hsize⟩
  obtain ⟨⟨y, d⟩, hload, hsize⟩ := hfold
  exact ⟨y, d, hload, hsize⟩

theorem exists_subtract? {column : List (Nat × α)} {y : α} {v : Array α}
    (hcolumn : ∀ e ∈ column, e.1 < v.size) :
    ∃ w, subtract? column y v = some w ∧ w.size = v.size :=
  exists_foldlM (P := fun w : Array α => w.size = v.size) rfl (by
    intro e he w hw
    obtain ⟨w', hw'⟩ := Option.isSome_iff_exists.mp
      (isSome_modify?.mpr (hw ▸ hcolumn e he) : (Vec.modify? w e.1 (· - e.2 * y)).isSome)
    exact ⟨w', hw', (size_of_modify? hw').trans hw⟩)

omit [Scalar α] in
def RowsBelow (n : Nat) (columns : Array (Array (Nat × α))) : Prop :=
  ∀ (c : Nat) column, columns[c]? = some column → ∀ e ∈ column.toList, e.1 < n

structure Pending.Fits (n : Nat) (p : Pending α) : Prop where
  rest : p.rest.size = n
  columns : p.columns.size = n
  rows : RowsBelow n p.columns

theorem eliminate?_rows {n k c : Nat} {invDiag : Array α} {p p' : Pending α} (hk : k < n)
    (hrows : RowsBelow n p.columns) (hstep : eliminate? k invDiag p c = some p') :
    RowsBelow n p'.columns := by
  obtain ⟨y, column, rest, inv, columns, -, hcolumn, -, -, hcolumns, rfl⟩ :=
    eliminate?_eq_some.mp hstep
  intro c' column' hc' e he
  simp only [getElem?_of_replace? hcolumns] at hc'
  split at hc'
  · cases hc'
    rw [Array.toList_push] at he
    rcases List.mem_append.mp he with he | he
    · exact hrows c column hcolumn e he
    · rw [List.mem_singleton.mp he]
      exact hk
  · exact hrows c' column' hc' e he

theorem Pending.Fits.exists_eliminate? {n k c : Nat} {p : Pending α} (h : p.Fits n) (hk : k < n)
    (hc : c < n) {invDiag : Array α} (hinv : invDiag.size = n) :
    ∃ p', eliminate? k invDiag p c = some p' ∧ p'.Fits n := by
  have hstored : ∃ y column inv, p.rest[c]? = some y ∧ p.columns[c]? = some column ∧
      invDiag[c]? = some inv :=
    ⟨_, _, _, Array.getElem?_eq_getElem (h.rest.symm ▸ hc),
      Array.getElem?_eq_getElem (h.columns.symm ▸ hc),
      Array.getElem?_eq_getElem (hinv.symm ▸ hc)⟩
  obtain ⟨y, column, inv, hy, hcolumn, hinvc⟩ := hstored
  have hrows := h.rows c column hcolumn
  obtain ⟨rest, hrest, hsize⟩ := exists_subtract? (y := y) (v := p.rest) fun e he =>
    h.rest.symm ▸ hrows e he
  obtain ⟨columns, hcolumns, hcolumnsSize⟩ := exists_replace? p.columns (i := c)
    (column.push (k, y * inv)) (h.columns.symm ▸ hc)
  have hstep : eliminate? k invDiag p c = some ⟨columns, rest, p.pivot - y * (y * inv)⟩ :=
    eliminate?_eq_some.mpr
      ⟨y, column, rest, inv, columns, hy, hcolumn, hrest, hinvc, hcolumns, rfl⟩
  exact ⟨_, hstep, hsize.trans h.rest, hcolumnsSize.trans h.columns,
    eliminate?_rows hk h.rows hstep⟩

section Placement

variable {parent : Array (Option Nat)} {columns : List (List (Nat × α))} {tolerance : α} {k : Nat}
  {s s' : Rows α} {failure : Option PivotError}

def rowsOf (columns : List (List (Nat × α))) : List (List Nat) := columns.map (List.map Prod.fst)

omit [Scalar α] in
theorem getD_rowsOf {column : List (Nat × α)} (h : columns[k]? = some column) :
    (rowsOf columns).getD k [] = column.map Prod.fst := by
  simp [rowsOf, h]

structure Planted (parent : Array (Option Nat)) (columns : List (List (Nat × α))) : Prop where
  size : parent.size = columns.length
  rising : Rising parent
  upper : ∀ (k : Nat) column, columns[k]? = some column → ∀ e ∈ column, e.1 ≤ k

omit [Scalar α] in
theorem Planted.le (h : Planted parent columns) {column : List (Nat × α)}
    (hk : columns[k]? = some column) : ∀ i ∈ column.map Prod.fst, i ≤ k := by
  intro i hi
  obtain ⟨e, he, rfl⟩ := List.mem_map.mp hi
  exact h.upper k column hk e he

/-- The rows before `k` of a factor: the entries stand where the tree has them. -/
structure Placed (parent : Array (Option Nat)) (columns : List (List (Nat × α))) (k : Nat)
    (s : Rows α) : Prop where
  size : s.columns.size = columns.length
  diagSize : s.diag.size = columns.length
  invSize : s.invDiag.size = columns.length
  rows : ∀ (c : Nat) column, s.columns[c]? = some column →
    column.toList.map Prod.fst = fillRows parent (rowsOf columns) c k

structure Appended (k : Nat) (done : List Nat) (before after : Array (Array (Nat × α))) : Prop where
  size : after.size = before.size
  rows : ∀ (c : Nat) column, after[c]? = some column → ∃ column', before[c]? = some column' ∧
    column.toList.map Prod.fst = column'.toList.map Prod.fst ++ if c ∈ done then [k] else []

omit [Scalar α] in
theorem Appended.refl (k : Nat) (columns : Array (Array (Nat × α))) :
    Appended k [] columns columns :=
  ⟨rfl, fun _ column hc => ⟨column, hc, by simp⟩⟩

theorem Appended.step {done : List Nat} {before : Array (Array (Nat × α))} {p p' : Pending α}
    {invDiag : Array α} {c : Nat} (h : Appended k done before p.columns) (hc : c ∉ done)
    (hstep : eliminate? k invDiag p c = some p') :
    Appended k (done ++ [c]) before p'.columns := by
  obtain ⟨y, column, rest, inv, columns, -, hcolumn, -, -, hcolumns, rfl⟩ :=
    eliminate?_eq_some.mp hstep
  refine ⟨(size_of_replace? hcolumns).trans h.size, ?_⟩
  intro c' column' hc'
  rw [getElem?_of_replace? hcolumns] at hc'
  split at hc'
  · next heq =>
    cases hc'
    subst heq
    obtain ⟨old, hold, hrows⟩ := h.rows c column hcolumn
    refine ⟨old, hold, ?_⟩
    rw [if_neg hc, List.append_nil] at hrows
    simp [hrows]
  · next hne =>
    obtain ⟨old, hold, hrows⟩ := h.rows c' column' hc'
    refine ⟨old, hold, hrows.trans ?_⟩
    simp [Ne.symm hne]

theorem Appended.run {order : List Nat} {before : Array (Array (Nat × α))} {p p' : Pending α}
    {invDiag : Array α} (h : Appended k [] before p.columns) (hnodup : order.Nodup)
    (hfold : order.foldlM (eliminate? k invDiag) p = some p') :
    Appended k order before p'.columns := by
  refine foldlM_invariant_taken (P := fun done q => Appended k done before q.columns) h ?_ hfold
  intro done c todo hsplit q q' hq hstep
  subst hsplit
  exact hq.step (fun hmem => (List.nodup_append'.mp hnodup).2.2 hmem List.mem_cons_self) hstep

omit [Scalar α] in
theorem Placed.appended (h : Placed parent columns k s) {column : List (Nat × α)}
    (hk : columns[k]? = some column) {order : List Nat}
    (hmem : ∀ c, c ∈ order ↔ Fills parent (column.map Prod.fst) k c)
    {after : Array (Array (Nat × α))} (happended : Appended k order s.columns after) {c : Nat}
    {filled : Array (Nat × α)} (hc : after[c]? = some filled) :
    filled.toList.map Prod.fst = fillRows parent (rowsOf columns) c (k + 1) := by
  obtain ⟨old, hold, hrows⟩ := happended.rows c filled hc
  rw [hrows, h.rows c old hold, fillRows_succ, getD_rowsOf hk]
  by_cases hfills : c ∈ order
  · rw [if_pos hfills, if_pos ((hmem c).mp hfills)]
  · rw [if_neg hfills, if_neg fun hf => hfills ((hmem c).mpr hf)]

/-- The next row of a factor can be computed, whether or not its pivot can be divided by. -/
theorem Placed.exists_row? (tolerance : α) (hp : Planted parent columns)
    (h : Placed parent columns k s) {column : List (Nat × α)} (hk : columns[k]? = some column) :
    ∃ s' failure, row? parent tolerance k column s = some (s', failure) := by
  have hbound := (List.getElem?_eq_some_iff.mp hk).1
  have hrows := hp.le hk
  obtain ⟨order, horder⟩ := exists_reach? hp.rising (hp.size.symm ▸ hbound.le) hrows
  obtain ⟨y, d, hload, hy⟩ := exists_load? (hp.size.symm ▸ hbound) (hp.upper k column hk)
  have hstart : (⟨s.columns, y, d⟩ : Pending α).Fits columns.length := by
    refine ⟨hy.trans hp.size, h.size, ?_⟩
    intro c column' hc e he
    have hmem := h.rows c column' hc ▸ List.mem_map_of_mem he
    exact (mem_fillRows.mp hmem).1.trans hbound
  obtain ⟨p, hfold, -⟩ := exists_foldlM hstart fun c hc p hfits =>
    hfits.exists_eliminate? hbound ((reach?_lt horder hrows c hc).trans hbound) h.invSize
  obtain ⟨diag, hdiag, -⟩ := exists_replace? s.diag (i := k) p.pivot
    (h.diagSize.symm ▸ hbound)
  obtain ⟨inv, hinv, -⟩ := exists_replace? s.invDiag (i := k) (1 / p.pivot)
    (h.invSize.symm ▸ hbound)
  have hsettle : ∃ s', settle? k s p (checkPivot tolerance k p.pivot) = some s' := by
    cases checkPivot tolerance k p.pivot with
    | some e => exact ⟨_, Option.bind_eq_some_iff.mpr ⟨diag, hdiag, rfl⟩⟩
    | none =>
      exact ⟨_, Option.bind_eq_some_iff.mpr
        ⟨diag, hdiag, Option.bind_eq_some_iff.mpr ⟨inv, hinv, rfl⟩⟩⟩
  obtain ⟨s', hsettle⟩ := hsettle
  exact ⟨s', _, row?_eq_some.mpr ⟨order, y, d, p, horder, hload, hfold, rfl, hsettle⟩⟩

theorem Placed.next (hp : Planted parent columns) (h : Placed parent columns k s)
    {column : List (Nat × α)} (hk : columns[k]? = some column)
    (hrow : row? parent tolerance k column s = some (s', failure)) :
    Placed parent columns (k + 1) s' := by
  obtain ⟨order, y, d, p, horder, -, hfold, -, hsettle⟩ := row?_eq_some.mp hrow
  obtain ⟨marks, hreached⟩ := reached_of_reach? hp.rising horder
  have hstart : Appended k [] s.columns (⟨s.columns, y, d⟩ : Pending α).columns :=
    .refl k s.columns
  have happended := hstart.run hreached.nodup hfold
  have hmem : ∀ c, c ∈ order ↔ Fills parent (column.map Prod.fst) k c :=
    fun c => mem_reach?_iff hp.rising horder (hp.le hk)
  obtain ⟨hcolumns, hdiag, hinv⟩ := settle?_sizes hsettle
  refine ⟨?_, hdiag.trans h.diagSize, hinv.trans h.invSize, ?_⟩
  · rw [hcolumns, happended.size, h.size]
  · intro c filled hc
    rw [hcolumns] at hc
    exact h.appended hk hmem happended hc

theorem Placed.exists_rows? (tolerance : α) (hp : Planted parent columns)
    (h : Placed parent columns k s) {rest : List (List (Nat × α))}
    (hrest : rest <+: columns.drop k) :
    ∃ s' failure m, rows? parent tolerance (rest.zipIdx k) s = some (s', failure) ∧
      Placed parent columns m s' ∧ (failure = none → m = k + rest.length) := by
  induction rest generalizing k s with
  | nil => exact ⟨s, none, k, rfl, h, fun _ => rfl⟩
  | cons column rest ih =>
    obtain ⟨hk, hnext⟩ := getElem?_of_prefix_drop hrest
    obtain ⟨mid, failure, hrow⟩ := h.exists_row? tolerance hp hk
    have hmid := h.next hp hk hrow
    rw [List.zipIdx_cons]
    cases failure with
    | some e =>
      exact ⟨mid, some e, k + 1, rows?_cons_eq_some.mpr (.inr ⟨e, hrow, rfl⟩), hmid, nofun⟩
    | none =>
      obtain ⟨s', failure, m, hrows, hplaced, hdone⟩ := ih hmid hnext
      refine ⟨s', failure, m, rows?_cons_eq_some.mpr (.inl ⟨mid, hrow, hrows⟩), hplaced, ?_⟩
      rwa [List.length_cons, Nat.add_comm rest.length 1, ← Nat.add_assoc]

theorem placed_zero (parent : Array (Option Nat)) {invDiag : Array α}
    (hinv : invDiag.size = columns.length) :
    Placed parent columns 0
      { columns := Array.replicate columns.length #[], diag := Vec.zero columns.length
        invDiag, positive := 0 } := by
  refine ⟨Array.size_replicate, Array.size_replicate, hinv, ?_⟩
  intro c column hc
  rw [Array.getElem?_replicate] at hc
  split at hc
  · cases hc
    rfl
  · cases hc

theorem exists_numeric? (tolerance : α) (hp : Planted parent columns) {invDiag : Array α}
    (hinv : invDiag.size = columns.length) :
    ∃ s failure m, numeric? parent tolerance columns invDiag = some (s, failure) ∧
      Placed parent columns m s ∧ (failure = none → m = columns.length) := by
  have hrun := (placed_zero parent hinv).exists_rows? tolerance hp List.prefix_rfl
  rwa [List.drop_zero, Nat.zero_add] at hrun

omit [Scalar α] in
/-- The analysis counts the entries that the numeric phase finds. -/
theorem Placed.count_eq_sizes {symbolic : Symbolic} (hdescribes : symbolic.Describes (rowsOf columns))
    (h : Placed symbolic.parent columns columns.length s) :
    symbolic.count = s.columns.map Array.size := by
  have hlength : (rowsOf columns).length = columns.length := List.length_map _
  have hcount := hdescribes.countSize
  apply Array.ext_getElem?
  intro c
  by_cases hc : c < columns.length
  · have hbound : c < s.columns.size := h.size.symm ▸ hc
    have hget : s.columns[c]? = some s.columns[c] := Array.getElem?_eq_getElem hbound
    have hsize := congrArg List.length (h.rows c _ hget)
    rw [List.length_map, Array.length_toList] at hsize
    rw [hdescribes.count c (hlength ▸ hc), hlength, ← hsize, Array.getElem?_map, hget,
      Option.map_some]
  · have hsize := h.size
    rw [Array.getElem?_eq_none (by omega), Array.getElem?_eq_none (by simpa [hsize] using hc)]

end Placement

end Ldl

end NonlinearOpt
