import Mathlib
import NonlinearOpt.Proofs.Ldl.Product
import NonlinearOpt.Proofs.Ldl.Reserved
import NonlinearOpt.Proofs.Ldl.Sweep

/-!
Factorizations in place. The numeric phase writes into the storage that the analysis reserved, and
needs no more room than that. It is defined for all values, every row finds the shared arrays clean,
and a factor that was completed fills the storage with the rows of its fill.
-/

namespace NonlinearOpt

namespace Ldl

variable {α : Type} [Scalar α]

namespace Workspace

structure Sized {α : Type} (w : Workspace α) (n : Nat) : Prop where
  marks : w.marks.size = n
  rest : w.rest.size = n
  met : w.met.size = n
  way : w.way.size = n
  next : w.next.size = n

/-- What row `k` finds: no column is marked, nothing is left of the rows before, and the cursor of
each column stands behind the entries that these rows have in it. -/
structure Fresh (w : Workspace α) (count : Array Nat) (patterns : List (List Nat)) (k : Nat) :
    Prop where
  marks : w.marks = Array.replicate patterns.length false
  rest : w.rest = Vec.zero patterns.length
  next : ∀ c < patterns.length, w.next[c]? =
    some ((count.toList.take c).sum + {r | r < k ∧ Symbolic.Filled patterns r c}.ncard)

end Workspace

/-- A factor with exactly the entries that were counted for it: each column holds the rows of its
fill, which lie below the diagonal, in order. -/
structure StoresFill {α : Type} (lower : Csc α) (count : Array Nat) (patterns : List (List Nat)) :
    Prop where
  format : lower.checkFormat = .ok ()
  total : lower.nnz? = some count.toList.sum
  rows : ∀ c < patterns.length, ∃ rows, lower.rowsOf? c = some rows ∧ rows.Pairwise (· < ·) ∧
    (∀ r ∈ rows, c < r) ∧ ∀ r, r ∈ rows ↔ Symbolic.Filled patterns r c

omit [Scalar α] in
theorem storesFill_of_stores {lower : Csc α} {symbolic : Symbolic} {patterns : List (List Nat)}
    {blocks : List (List (Nat × α))} (hstores : lower.Stores blocks)
    (hshape : lower.rows = patterns.length ∧ lower.cols = patterns.length)
    (hsize : blocks.length = patterns.length) (hdescribes : symbolic.Describes patterns)
    (hupper : Symbolic.Upper patterns)
    (hfill : ∀ c (hc : c < blocks.length),
      blocks[c].map Prod.fst = fillRows symbolic.parent patterns c patterns.length) :
    StoresFill lower symbolic.count patterns := by
  have hcount : symbolic.count.toList = blocks.map List.length := by
    apply List.ext_getElem?
    intro c
    by_cases hc : c < blocks.length
    · rw [Array.getElem?_toList, hdescribes.count c (hsize ▸ hc), ← hfill c hc, List.length_map,
        List.getElem?_map, List.getElem?_eq_getElem hc]
      rfl
    · rw [List.getElem?_eq_none (by simpa [hdescribes.countSize, ← hsize] using hc),
        List.getElem?_eq_none (by simpa using hc)]
  have hascending : Csc.Ascending blocks := by
    intro block hblock
    obtain ⟨c, hc, rfl⟩ := List.getElem_of_mem hblock
    rw [hfill c hc]
    exact List.pairwise_lt_range.filter _
  have hholds : Csc.Holds lower blocks := by
    refine ⟨hstores, hsize.trans hshape.2.symm, ?_⟩
    intro block hblock e he
    obtain ⟨c, hc, rfl⟩ := List.getElem_of_mem hblock
    have hmem := hfill c hc ▸ List.mem_map_of_mem he
    rw [hshape.1]
    exact (mem_fillRows.mp hmem).1
  refine ⟨hholds.checkFormat hascending, ?_, ?_⟩
  · rw [Csc.nnz?, hstores.colStart, getElem?_cumulative _ (by simp [hshape.2, hsize]), hcount,
      List.toList_toArray, List.take_of_length_le (by simp [hshape.2, hsize])]
  · intro c hc
    have hbound : c < blocks.length := hsize.symm ▸ hc
    refine ⟨_, hstores.rowsOf? hbound, hascending _ (List.getElem_mem hbound), ?_, ?_⟩
    · intro r hr
      rw [hfill c hbound] at hr
      exact (mem_fillRows.mp hr).2.1
    · intro r
      have hset := Set.ext_iff.mp (hdescribes.coe_fillRows hupper c) r
      rw [Finset.mem_coe, List.mem_toFinset] at hset
      rw [hfill c hbound]
      exact hset.symm

namespace Factorization

def workspace {α : Type} (f : Factorization α) (scratch : Workspace α) : Workspace α :=
  { scratch with
    rowIndex := f.lower.rowIndex, values := f.lower.values, diag := f.diag, invDiag := f.invDiag }

def rowsInPlace? (f : Factorization α) (scratch : Workspace α) (m : Nat) :
    Option (Workspace α × Option PivotError) := do
  let columns ← (List.range f.permuted.matrix.cols).mapM f.permuted.matrix.column?
  let start := cumulative f.symbolic.count
  let w ← (f.workspace scratch).prepare? start
  w.rows? f.symbolic.parent start f.tolerance (columns.zipIdx.take m)

def refactorInPlace? (f : Factorization α) (scratch : Workspace α) :
    Option (Except Error Unit × Factorization α) := do
  let n := f.permuted.matrix.cols
  let (w, failure) ← f.rowsInPlace? scratch n
  let colStart := cumulative f.symbolic.count
  let f := { f with
    lower := { f.lower with colStart, rowIndex := w.rowIndex, values := w.values }
    diag := w.diag, invDiag := w.invDiag, positive := 0, negative := 0 }
  match failure with
  | some e => return (.error (.pivot e), f)
  | none => return (.ok (), { f with positive := w.positive, negative := n - w.positive })

/-- A factorization whose numeric phase runs in place, whatever the working arrays hold. -/
structure RunsInPlace (f : Factorization α) (patterns : List (List Nat)) (scratch : Workspace α) :
    Prop where
  rows : (List.range patterns.length).mapM f.permuted.matrix.rowsOf? = some patterns
  agrees : f.refactorInPlace? scratch = f.refactor?
  defined : ∃ result g, f.refactor? = some (result, g)
  fresh : ∀ k ≤ patterns.length, ∃ w failure, f.rowsInPlace? scratch k = some (w, failure) ∧
    (failure = none → w.Fresh f.symbolic.count patterns k)
  stores : ∀ g, f.refactor? = some (.ok (), g) → StoresFill g.lower f.symbolic.count patterns

variable {f : Factorization α} {patterns : List (List Nat)} {scratch : Workspace α}
  {columns : List (List (Nat × α))}

theorem Reserves.exists_prepare? (h : f.Reserves patterns) (hcolumns : rowsOf columns = patterns)
    (hscratch : scratch.Sized patterns.length) :
    ∃ w, (f.workspace scratch).prepare? (cumulative f.symbolic.count) = some w ∧
      Workspace.Mirrors (cumulative f.symbolic.count) f.lower columns.length 0
        { columns := Array.replicate columns.length #[], diag := Vec.zero columns.length
          invDiag := f.invDiag, positive := 0 } w := by
  have hlength : patterns.length = columns.length := by
    rw [← hcolumns, rowsOf, List.length_map]
  rw [hlength] at hscratch
  have hstart : (cumulative f.symbolic.count).size = columns.length + 1 := by
    rw [size_cumulative, h.describes.countSize, hlength]
  have hcopy : Vec.copy? (cumulative f.symbolic.count).pop scratch.next =
      some (cumulative f.symbolic.count).pop := by
    rw [Vec.copy?, if_pos (by rw [Array.size_pop, hstart, hscratch.next]; rfl)]
  have hfill : ∀ v : Array α, v.size = columns.length → Vec.fill 0 v = Vec.zero columns.length := by
    intro v hv
    rw [Vec.fill, Vec.zero, ← hv]
    exact Array.map_const' ..
  have hmarks : scratch.marks.map (fun _ => false) = Array.replicate columns.length false := by
    rw [← hscratch.marks]
    exact Array.map_const' ..
  have hempty : ∀ (c : Nat) column,
      (Array.replicate columns.length (#[] : Array (Nat × α)))[c]? = some column → column = #[] := by
    intro c column hc
    rw [Array.getElem?_replicate] at hc
    split at hc
    · exact (Option.some.inj hc).symm
    · cases hc
  refine ⟨{ f.workspace scratch with
      marks := scratch.marks.map fun _ => false, rest := Vec.fill 0 scratch.rest
      next := (cumulative f.symbolic.count).pop, diag := Vec.fill 0 f.diag, positive := 0 }, ?_,
    ⟨?_, stocked_of_empty hempty, stocked_of_empty hempty⟩, hmarks, hfill _ hscratch.rest,
    hscratch.met, hscratch.way, ?_, hfill _ (h.diag.trans hlength), rfl, rfl, ?_⟩
  · unfold Workspace.prepare?
    simp only [workspace, hcopy, Option.bind_eq_bind, Option.bind_some, Option.pure_def]
  · intro c column hc
    have hbound := (Array.getElem?_eq_some_iff.mp hc).1
    rw [Array.size_replicate] at hbound
    have hget : (cumulative f.symbolic.count)[c]? = some (cumulative f.symbolic.count)[c] :=
      Array.getElem?_eq_getElem (by omega)
    rw [hempty c column hc, Array.getElem?_pop, if_pos (by omega), Array.getD_eq_getD_getElem?, hget]
    rfl
  · rw [Array.size_pop, hstart]
    rfl
  · intro c _ hc
    rw [Vec.zero, Array.getElem?_replicate, if_pos hc]

theorem Reserves.exists_rowsInPlace? (h : f.Reserves patterns)
    (hread : (List.range patterns.length).mapM f.permuted.matrix.column? = some columns)
    (hcolumns : rowsOf columns = patterns) (hscratch : scratch.Sized patterns.length) {m : Nat}
    (hm : m ≤ columns.length) :
    ∃ w rows failure k, f.rowsInPlace? scratch m = some (w, failure) ∧
      rows? f.symbolic.parent f.tolerance (columns.zipIdx.take m)
        { columns := Array.replicate columns.length #[], diag := Vec.zero columns.length
          invDiag := f.invDiag, positive := 0 } = some (rows, failure) ∧
      k ≤ columns.length ∧ Placed f.symbolic.parent columns k rows ∧
      Workspace.Mirrors (cumulative f.symbolic.count) f.lower columns.length k rows w ∧
      (failure = none → k = m) := by
  have hlength : patterns.length = columns.length := by
    rw [← hcolumns, rowsOf, List.length_map]
  have hplanted := h.planted hcolumns
  have hdescribes : f.symbolic.Describes (rowsOf columns) := hcolumns.symm ▸ h.describes
  have htake := zipIdx_take columns m
  have hprefix : columns.take m <+: columns.drop 0 := by
    rw [List.drop_zero]
    exact List.take_prefix m columns
  have hinvDiag : f.invDiag.size = columns.length := h.invDiag.trans hlength
  have hzero := placed_zero f.symbolic.parent hinvDiag
  obtain ⟨w₀, hw₀, hmirrors⟩ := h.exists_prepare? hcolumns hscratch
  obtain ⟨rows, failure, -, hrows, -, -⟩ := hzero.exists_rows? f.tolerance hplanted hprefix
  obtain ⟨w, k, hw, hk, hplaced, hmirrors', hdone⟩ := hmirrors.rows hplanted hdescribes hzero
    h.rowIndex h.values (Nat.zero_le _) hprefix hrows
  refine ⟨w, rows, failure, k, ?_, htake ▸ hrows, hk, hplaced, hmirrors', fun hf => ?_⟩
  · unfold rowsInPlace?
    simp only [h.cols, hread, hw₀, ← htake, hw, Option.bind_eq_bind, Option.bind_some]
  · rw [hdone hf, Nat.zero_add, List.length_take_of_le hm]

omit [Scalar α] in
theorem Reserves.ncard_fill (h : f.Reserves patterns) (c k : Nat) :
    {r | r < k ∧ Symbolic.Filled patterns r c}.ncard =
      (fillRows f.symbolic.parent patterns c k).length := by
  have hset : {r | r < k ∧ Symbolic.Filled patterns r c} =
      ((fillRows f.symbolic.parent patterns c k).toFinset : Set Nat) := by
    ext r
    rw [Set.mem_ofPred_eq, Finset.mem_coe, List.mem_toFinset, mem_fillRows,
      h.describes.fills_iff h.upper]
  have hnodup : (fillRows f.symbolic.parent patterns c k).Nodup := List.nodup_range.filter _
  rw [hset, Set.ncard_coe_finset, List.toFinset_card_of_nodup hnodup]

theorem Reserves.fresh (h : f.Reserves patterns) (hcolumns : rowsOf columns = patterns)
    {rows : Rows α} {k : Nat} (hplaced : Placed f.symbolic.parent columns k rows)
    {w : Workspace α}
    (hmirrors : Workspace.Mirrors (cumulative f.symbolic.count) f.lower columns.length k rows w) :
    w.Fresh f.symbolic.count patterns k := by
  have hlength : patterns.length = columns.length := by
    rw [← hcolumns, rowsOf, List.length_map]
  refine ⟨hlength ▸ hmirrors.marks, hlength ▸ hmirrors.rest, ?_⟩
  intro c hc
  have hbound : c < rows.columns.size := by rw [hplaced.size, ← hlength]; exact hc
  have hget : rows.columns[c]? = some rows.columns[c] := Array.getElem?_eq_getElem hbound
  have hsize := congrArg List.length (hplaced.rows c _ hget)
  rw [List.length_map, Array.length_toList, hcolumns, ← h.ncard_fill] at hsize
  have hle : c ≤ f.symbolic.count.size := hc.le.trans_eq h.describes.countSize.symm
  rw [hmirrors.next c _ hget, hsize, getD_cumulative _ hle]

/-- The numeric phase in place does what it does on separate columns. -/
theorem Reserves.refactorInPlace?_eq (h : f.Reserves patterns)
    (hscratch : scratch.Sized patterns.length) : f.refactorInPlace? scratch = f.refactor? := by
  obtain ⟨columns, hread, hcolumns⟩ := h.columns
  have hlength : patterns.length = columns.length := by
    rw [← hcolumns, rowsOf, List.length_map]
  obtain ⟨w, rows, failure, k, hw, hrows, hk, hplaced, hmirrors, -⟩ :=
    h.exists_rowsInPlace? hread hcolumns hscratch (Nat.le_refl _)
  rw [List.take_of_length_le (by simp)] at hrows
  have hdescribes : f.symbolic.Describes (rowsOf columns) := hcolumns.symm ▸ h.describes
  have hroom := hplaced.room hdescribes hk
  have hoverlay : overlay f.lower rows.columns =
      { f.lower with rowIndex := w.rowIndex, values := w.values } := by
    apply overlay_eq_of_stocked
    · rw [h.colStart, h.rowIndex]
      exact hroom
    · rw [h.colStart, h.values]
      exact hroom
    · rw [h.colStart]
      exact hmirrors.rowIndex
    · rw [h.colStart]
      exact hmirrors.values
  have hrefactor : f.refactor? = some (outcome f rows failure) :=
    refactor?_eq_some.mpr ⟨columns, rows, failure, h.cols.symm ▸ hread, hrows, rfl⟩
  rw [hrefactor]
  unfold refactorInPlace?
  cases failure with
  | some e =>
    simp only [outcome, hoverlay, hw, h.cols, hlength, hmirrors.diag, hmirrors.invDiag,
      h.colStart, Option.bind_eq_bind, Option.bind_some, Option.pure_def]
  | none =>
    simp only [outcome, hoverlay, hw, h.cols, hlength, hmirrors.diag, hmirrors.invDiag,
      hmirrors.positive, h.colStart, Option.bind_eq_bind, Option.bind_some, Option.pure_def]

theorem Reserves.stores (h : f.Reserves patterns) {g : Factorization α}
    (hg : f.refactor? = some (.ok (), g)) : StoresFill g.lower f.symbolic.count patterns := by
  obtain ⟨columns, hread, hcolumns⟩ := h.columns
  have hlength : patterns.length = columns.length := by
    rw [← hcolumns, rowsOf, List.length_map]
  obtain ⟨columns', rows, failure, hread', hnumeric, houtcome⟩ := refactor?_eq_some.mp hg
  rw [h.cols, hread, Option.some.injEq] at hread'
  subst hread'
  obtain ⟨rows', failure', m, hnumeric', hplaced, hdone⟩ := exists_numeric? f.tolerance
    (h.planted hcolumns) (h.invDiag.trans hlength)
  rw [hnumeric, Option.some.injEq, Prod.mk.injEq] at hnumeric'
  obtain ⟨rfl, rfl⟩ := hnumeric'
  cases failure with
  | some e => cases houtcome
  | none =>
    have hlower : g.lower = overlay f.lower rows.columns := congrArg (·.2.lower) houtcome
    have hdescribes : f.symbolic.Describes (rowsOf columns) := hcolumns.symm ▸ h.describes
    rw [hdone rfl] at hplaced
    have hcount := hplaced.count_eq_sizes hdescribes
    have hsum : f.symbolic.count.toList.sum = (rows.columns.toList.map Array.size).sum := by
      rw [hcount, Array.toList_map]
    have hstores : g.lower.Stores (rows.columns.toList.map Array.toList) := by
      rw [hlower]
      exact overlay_stores (h.colStart.trans (congrArg cumulative hcount)) (h.rowIndex.trans hsum)
        (h.values.trans hsum)
    have hshape : g.lower.rows = patterns.length ∧ g.lower.cols = patterns.length :=
      hlower.symm ▸ h.shape
    have hsize : (rows.columns.toList.map Array.toList).length = patterns.length := by
      rw [List.length_map, Array.length_toList, hplaced.size, hlength]
    have hfill : ∀ c (hc : c < (rows.columns.toList.map Array.toList).length),
        ((rows.columns.toList.map Array.toList)[c]).map Prod.fst =
          fillRows f.symbolic.parent patterns c patterns.length := by
      intro c hc
      rw [List.length_map, Array.length_toList] at hc
      have hget : rows.columns[c]? = some rows.columns[c] := Array.getElem?_eq_getElem hc
      have hrows := hplaced.rows c _ hget
      rw [hcolumns, ← hlength] at hrows
      rw [List.getElem_map, Array.getElem_toList, hrows]
    exact storesFill_of_stores hstores hshape hsize h.describes h.upper hfill

theorem Reserves.runsInPlace (h : f.Reserves patterns) (hscratch : scratch.Sized patterns.length) :
    f.RunsInPlace patterns scratch := by
  obtain ⟨columns, hread, hcolumns⟩ := h.columns
  have hlength : patterns.length = columns.length := by
    rw [← hcolumns, rowsOf, List.length_map]
  refine ⟨?_, h.refactorInPlace?_eq hscratch, ?_, ?_, fun g hg => h.stores hg⟩
  · rw [mapM_eq_some_iff] at hread ⊢
    subst hcolumns
    exact List.forall₂_map_right_iff.mpr (hread.imp fun _ _ hj => Csc.rowsOf?_of_column? hj)
  · obtain ⟨result, g, hg, -⟩ := h.exists_refactor?
    exact ⟨result, g, hg⟩
  · intro k hk
    obtain ⟨w, rows, failure, m, hw, -, -, hplaced, hmirrors, hdone⟩ :=
      h.exists_rowsInPlace? hread hcolumns hscratch (hlength ▸ hk)
    refine ⟨w, failure, hw, fun hf => ?_⟩
    obtain rfl := hdone hf
    exact h.fresh hcolumns hplaced hmirrors

section Defined

variable {a : Csc α} {options : Options α}

omit [Scalar α] in
theorem exists_checkStructure? (h : a.Divided) : ∃ result, checkStructure? a = some result := by
  have hgo : ∀ js : List Nat, (∀ j ∈ js, j < a.cols) → ∃ b, Csc.isUpper?.go a js = some b := by
    intro js
    induction js with
    | nil => exact fun _ => ⟨true, rfl⟩
    | cons j js ih =>
      intro hjs
      obtain ⟨rows, hrows⟩ := h.exists_rowsOf? (hjs j (by simp))
      obtain ⟨b, hb⟩ := ih fun j' hj' => hjs j' (by simp [hj'])
      rw [Csc.isUpper?.go, hrows]
      simp only [Option.bind_eq_bind, Option.bind_some]
      split
      · exact ⟨b, hb⟩
      · exact ⟨false, rfl⟩
  obtain ⟨upper, hupper⟩ := hgo (List.range a.cols) fun j hj => List.mem_range.mp hj
  have hisUpper : a.isUpper? = some upper := hupper
  unfold checkStructure?
  split
  · exact ⟨_, rfl⟩
  · simp only [hisUpper, Option.bind_eq_bind, Option.bind_some]
    split
    · exact ⟨_, rfl⟩
    · split
      · exact ⟨_, rfl⟩
      · exact ⟨_, rfl⟩

omit [Scalar α] in
theorem exists_permuted (ha : a.UpperTriangle) {order inverse : Array Nat}
    (hinverse : Permutation.inverse? order = some inverse)
    (hperm : order.toList.Perm (List.range a.rows)) :
    ∃ p, a.permuteSymmetric? inverse = some p := by
  apply ha.exists_permuteSymmetric?
  intro j hj
  obtain ⟨k, hk⟩ := List.getElem?_of_mem (hperm.mem_iff.mpr (List.mem_range.mpr hj))
  have hbound := (List.getElem?_eq_some_iff.mp hk).1
  rw [hperm.length_eq, List.length_range] at hbound
  exact ⟨k, (Permutation.getElem?_inverse? hinverse).2 k j (by simpa using hk), hbound⟩

theorem exists_analyze? (h : a.Divided) (horder : options.Permutes a) :
    ∃ result, analyze? a options = some result := by
  obtain ⟨check, hcheck⟩ := exists_checkStructure? h
  cases check with
  | error e =>
    exact ⟨.error e, by unfold analyze?; rw [hcheck]; rfl⟩
  | ok _ =>
    cases hresult : orderOf a options with
    | error e =>
      exact ⟨.error e, by
        unfold analyze?
        simp only [hcheck, hresult, Option.bind_eq_bind, Option.bind_some, Option.pure_def]⟩
    | ok pair =>
      have hperm := horder pair.1 pair.2 hresult
      obtain ⟨p, hp⟩ := exists_permuted (h.upperTriangle hcheck)
        (inverse?_of_orderOf hresult) hperm
      obtain ⟨blank, hblank⟩ := exists_analysis_of_permuted hcheck hresult hp
      exact ⟨_, hblank⟩

/-- A factorization can be made of every matrix whose columns are divided, in every order that
permutes its rows, and all the numbers that it is ever given are factored in the storage that was
reserved for it. -/
theorem runsInPlace_of_order (h : a.Divided) (horder : options.Permutes a) :
    (∃ result, new? a options = some result) ∧
      ∀ blank, analyze? a options = some (.ok blank) →
        ∃ patterns, patterns.length = a.rows ∧ ∀ scratch : Workspace α, scratch.Sized a.rows →
          new? a options = (blank.refactorInPlace? scratch).map completed ∧
          ∀ calls, (blank.used calls).RunsInPlace patterns scratch := by
  constructor
  · obtain ⟨result, hresult⟩ := exists_analyze? h horder
    rw [new?_eq, hresult, Option.bind_some]
    cases result with
    | error e => exact ⟨_, rfl⟩
    | ok blank =>
      obtain ⟨patterns, -, hreserves⟩ := reserves_of_analyze? hresult
      obtain ⟨result, g, hg, -⟩ := hreserves.exists_refactor?
      exact ⟨completed (result, g), by rw [complete?, hg, Option.map_some]⟩
  · intro blank hblank
    obtain ⟨patterns, hlength, hreserves⟩ := reserves_of_analyze? hblank
    refine ⟨patterns, hlength, fun scratch hscratch => ?_⟩
    rw [← hlength] at hscratch
    refine ⟨?_, fun calls => (hreserves.used calls).runsInPlace hscratch⟩
    rw [new?_eq, hblank, Option.bind_some, complete?, hreserves.refactorInPlace?_eq hscratch]

end Defined

section Tilted

theorem permutes_tilted : tiltedOptions.Permutes tiltedMatrix := by
  intro order inverse h
  have hinverse : Permutation.inverse? #[1, 0] = some #[1, 0] := by decide +kernel
  rw [orderOf_ordered rfl hinverse] at h
  cases h
  decide

theorem divided_tilted : tiltedMatrix.Divided := by
  refine ⟨rfl, by decide, ?_⟩
  intro last hlast
  cases hlast
  exact ⟨Nat.le_refl 3, Nat.le_refl 3⟩

/-- Working arrays with the marks and numbers of some other matrix in them. -/
def tiltedScratch : Workspace (Exact ℚ) :=
  { marks := #[true, true], rest := #[1, 1], met := #[7, 7], way := #[7, 7], next := #[9, 9]
    rowIndex := #[], values := #[], diag := #[], invDiag := #[], positive := 9 }

theorem runsInPlace_tilted :
    tiltedMatrix.Divided ∧ tiltedOptions.Permutes tiltedMatrix ∧
      analyze? tiltedMatrix tiltedOptions = some (.ok tiltedBlank) ∧
      tiltedScratch.Sized tiltedMatrix.rows ∧
      (∃ result, new? tiltedMatrix tiltedOptions = some result) ∧
      ∃ patterns, patterns.length = 2 ∧
        (tiltedBlank.used tiltedCalls).RunsInPlace patterns tiltedScratch := by
  have hscratch : tiltedScratch.Sized tiltedMatrix.rows := ⟨rfl, rfl, rfl, rfl, rfl⟩
  obtain ⟨hnew, hruns⟩ := runsInPlace_of_order divided_tilted permutes_tilted
  obtain ⟨patterns, hlength, hpatterns⟩ := hruns tiltedBlank analyze?_tilted
  exact ⟨divided_tilted, permutes_tilted, analyze?_tilted, hscratch, hnew, patterns, hlength,
    (hpatterns tiltedScratch hscratch).2 tiltedCalls⟩

end Tilted

end Factorization

end Ldl

end NonlinearOpt
