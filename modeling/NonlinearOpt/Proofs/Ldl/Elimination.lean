import Mathlib
import NonlinearOpt.Proofs.Ldl.Placement
import NonlinearOpt.Proofs.Sparse.Dense

/-!
The numeric phase in exact arithmetic. What is left of a row after the columns that it meets were
eliminated solves a triangular system, so the rows computed so far multiply to the leading part of
the matrix.
-/

namespace NonlinearOpt

namespace Ldl

variable {K : Type} [LinearOrder K] [ExactScalar K]

section Steps

theorem subtract?_getD {column : List (Nat × K)} {y : K} {v w : Array K}
    (h : subtract? column y v = some w) :
    w.size = v.size ∧ ∀ i : Nat, w.getD i 0 = v.getD i 0 - sumAt column i * y := by
  induction column generalizing v with
  | nil =>
    cases h
    simp [sumAt_nil]
  | cons e column ih =>
    obtain ⟨u, hmodify, h⟩ := foldlM_cons_eq_some.mp h
    obtain ⟨x, hx, hu⟩ := modify?_eq_some.mp hmodify
    obtain ⟨hsize, hget⟩ := ih h
    refine ⟨hsize.trans (size_of_replace? hu), ?_⟩
    intro i
    rw [hget i, sumAt_cons, Array.getD_eq_getD_getElem?, getElem?_of_replace? hu,
      Array.getD_eq_getD_getElem?]
    by_cases hi : e.1 = i
    · subst hi
      rw [if_pos rfl, if_pos rfl, hx]
      simp only [Option.getD_some]
      ring
    · rw [if_neg hi, if_neg hi]
      ring

theorem loadAt?_getD {k : Nat} {column : List (Nat × K)} {e : Nat × K} {y y' : Array K} {d d' : K}
    (hrow : e.1 ∉ column.map Prod.fst)
    (hy : ∀ i : Nat, y.getD i 0 = if i = k then 0 else sumAt column i) (hd : d = sumAt column k)
    (h : loadAt? k (y, d) e = some (y', d')) :
    y'.size = y.size ∧ (∀ i : Nat, y'.getD i 0 = if i = k then 0 else sumAt (column ++ [e]) i) ∧
      d' = sumAt (column ++ [e]) k := by
  obtain ⟨r, v⟩ := e
  unfold loadAt? at h
  by_cases hrk : r = k
  · rw [if_pos hrk] at h
    cases h
    subst hrk
    refine ⟨rfl, ?_, ?_⟩
    · intro i
      rw [hy i, sumAt_concat]
      by_cases hi : i = r
      · rw [if_pos hi, if_pos hi]
      · rw [if_neg hi, if_neg hi, if_neg (Ne.symm hi), add_zero]
    · rw [sumAt_concat, sumAt_eq_zero hrow, if_pos rfl, zero_add]
  · rw [if_neg hrk] at h
    obtain ⟨y'', hy', h⟩ := Option.map_eq_some_iff.mp h
    cases h
    refine ⟨size_of_replace? hy', ?_, ?_⟩
    · intro i
      rw [sumAt_concat, Array.getD_eq_getD_getElem?, getElem?_of_replace? hy']
      by_cases hi : r = i
      · subst hi
        rw [if_pos rfl, if_neg hrk, if_pos rfl, sumAt_eq_zero hrow, zero_add]
        rfl
      · rw [if_neg hi, if_neg hi, add_zero, ← Array.getD_eq_getD_getElem?]
        exact hy i
    · rw [hd, sumAt_concat, if_neg hrk, add_zero]

theorem load?_getD {n k : Nat} {column : List (Nat × K)} {y : Array K} {d : K}
    (hnodup : (column.map Prod.fst).Nodup) (h : load? n k column = some (y, d)) :
    y.size = n ∧ (∀ i : Nat, y.getD i 0 = if i = k then 0 else sumAt column i) ∧
      d = sumAt column k := by
  rw [load?_eq] at h
  refine foldlM_invariant_taken (P := fun taken (s : Array K × K) => s.1.size = n ∧
    (∀ i : Nat, s.1.getD i 0 = if i = k then 0 else sumAt taken i) ∧ s.2 = sumAt taken k) ?_ ?_ h
  · refine ⟨Array.size_replicate, ?_, rfl⟩
    intro i
    rw [sumAt_nil, ite_self, Vec.zero, Array.getD_eq_getD_getElem?, Array.getElem?_replicate]
    split <;> rfl
  · rintro taken e rest hsplit ⟨y₀, d₀⟩ ⟨y₁, d₁⟩ ⟨hsize, hy, hd⟩ hstep
    rw [← hsplit, List.map_append, List.nodup_append'] at hnodup
    have hrow : e.1 ∉ taken.map Prod.fst := fun hmem => hnodup.2.2 hmem (by simp)
    obtain ⟨hsize', hy', hd'⟩ := loadAt?_getD hrow hy hd hstep
    exact ⟨hsize'.trans hsize, hy', hd'⟩

end Steps

namespace Rows

/-- An entry of `L`. -/
def entry (s : Rows K) (i c : Nat) : K := sumAt (s.columns.getD c #[]).toList i

def unitEntry (s : Rows K) (i c : Nat) : K := s.entry i c + if i = c then 1 else 0

end Rows

section Row

/-- Row `k` after some of its columns were eliminated from the right hand side `y` and the diagonal
entry `d`. -/
structure Eliminated (s : Rows K) (k : Nat) (y : Nat → K) (d : K) (done : List Nat)
    (p : Pending K) : Prop where
  columns : ∀ c : Nat, p.columns[c]? = s.columns[c]?.map fun column =>
    if c ∈ done then column.push (k, p.rest.getD c 0 * s.invDiag.getD c 0) else column
  rest : ∀ i : Nat, p.rest.getD i 0 = y i - (done.map fun c => s.entry i c * p.rest.getD c 0).sum
  pivot : p.pivot =
    d - (done.map fun c => p.rest.getD c 0 * (p.rest.getD c 0 * s.invDiag.getD c 0)).sum

variable {parent : Array (Option Nat)} {s : Rows K} {k : Nat} {y : Nat → K} {d : K}
  {done : List Nat} {p p' : Pending K}

theorem Eliminated.step (h : Eliminated s k y d done p) {c : Nat}
    (hstep : eliminate? k s.invDiag p c = some p') (hc : c ∉ done)
    (hzero : ∀ c' ∈ done ++ [c], s.entry c' c = 0) : Eliminated s k y d (done ++ [c]) p' := by
  obtain ⟨x, column, rest, inv, columns, hx, hcolumn, hrest, hinv, hcolumns, rfl⟩ :=
    eliminate?_eq_some.mp hstep
  have hx' : p.rest.getD c 0 = x := by simp [hx]
  have hinv' : s.invDiag.getD c 0 = inv := by simp [hinv]
  have hcolumn' : s.columns[c]? = some column := by
    have hold := h.columns c
    rw [hcolumn, eq_comm, Option.map_eq_some_iff] at hold
    obtain ⟨column', hcolumn', heq⟩ := hold
    rw [if_neg hc] at heq
    exact heq ▸ hcolumn'
  have hentry : ∀ i, sumAt column.toList i = s.entry i c := by
    intro i
    simp [Rows.entry, hcolumn']
  have hget : ∀ i : Nat, rest.getD i 0 = p.rest.getD i 0 - s.entry i c * x := by
    intro i
    rw [(subtract?_getD hrest).2 i, hentry]
  -- column `c` has no entry in the rows of columns that are done, and none in its own
  have hsame : ∀ c' ∈ done ++ [c], rest.getD c' 0 = p.rest.getD c' 0 := by
    intro c' hc'
    rw [hget, hzero c' hc', zero_mul, sub_zero]
  have hdone : ∀ f : Nat → K → K, (done.map fun c' => f c' (rest.getD c' 0)) =
      done.map fun c' => f c' (p.rest.getD c' 0) := by
    intro f
    apply List.map_congr_left
    intro c' hc'
    rw [hsame c' (by simp [hc'])]
  constructor
  · intro c'
    show columns[c']? = _
    rw [getElem?_of_replace? hcolumns]
    by_cases hcc' : c = c'
    · subst hcc'
      rw [if_pos rfl, hcolumn', Option.map_some, if_pos (by simp), hsame c (by simp), hx', hinv']
    · rw [if_neg hcc', h.columns c']
      have hmem : c' ∈ done ++ [c] ↔ c' ∈ done := by simp [Ne.symm hcc']
      simp only [hmem]
      congr 1
      funext column'
      split
      · next hdone' => rw [hsame c' (by simp [hdone'])]
      · rfl
  · intro i
    show rest.getD i 0 = _
    rw [List.map_append, List.sum_append, hdone fun c' x => s.entry i c' * x, List.map_singleton,
      List.sum_singleton, hsame c (by simp), hx', hget, h.rest i]
    ring
  · show p.pivot - x * (x * inv) = _
    rw [List.map_append, List.sum_append, hdone fun c' x => x * (x * s.invDiag.getD c' 0),
      List.map_singleton, List.sum_singleton, hsame c (by simp), hx', hinv', h.pivot]
    ring

theorem Eliminated.run {order : List Nat} (h : Eliminated s k y d [] p)
    (hfold : order.foldlM (eliminate? k s.invDiag) p = some p') (hnodup : order.Nodup)
    (hlater : ∀ c i, s.entry i c ≠ 0 → c < i ∧ i < k ∧ Ancestor parent c i)
    (hrising : Rising parent) (hclosed : Closed parent k order) :
    Eliminated s k y d order p' := by
  refine foldlM_invariant_taken (P := Eliminated s k y d) h ?_ hfold
  intro done c todo hsplit q q' hq hstep
  subst hsplit
  obtain ⟨-, hnodup, hdisjoint⟩ := List.nodup_append'.mp hnodup
  have hc : c ∉ done := fun hmem => hdisjoint hmem List.mem_cons_self
  have hzero : ∀ c' ∈ done ++ [c], s.entry c' c = 0 := by
    intro c' hc'
    by_contra hentry
    obtain ⟨hlt, hck, hancestor⟩ := hlater c c' hentry
    have hmem := mem_of_closed hrising (closed_of_append hclosed) List.mem_cons_self hancestor hck
    rcases List.mem_append.mp hc' with hdone | hself
    · exact hdisjoint hdone hmem
    · exact hlt.ne (List.mem_singleton.mp hself).symm
  exact hq.step hstep hc hzero

theorem eliminated_refl (s : Rows K) (k : Nat) (y : Array K) (d : K) :
    Eliminated s k (fun i => y.getD i 0) d [] ⟨s.columns, y, d⟩ := by
  constructor <;> simp

end Row

section Product

theorem sum_map_eq {order : List Nat} {k : Nat} (hnodup : order.Nodup) (hlt : ∀ c ∈ order, c < k)
    {g : Nat → K} (hg : ∀ c ∉ order, c < k → g c = 0) :
    (order.map g).sum = ∑ c ∈ Finset.range k, g c := by
  rw [← List.sum_toFinset g hnodup]
  apply Finset.sum_subset
  · intro c hc
    exact Finset.mem_range.mpr (hlt c (List.mem_toFinset.mp hc))
  · intro c hc hnot
    exact hg c (fun h => hnot (List.mem_toFinset.mpr h)) (Finset.mem_range.mp hc)

structure Patterned (parent : Array (Option Nat)) (columns : List (List (Nat × K))) : Prop where
  size : parent.size = columns.length
  rising : Rising parent
  nodup : ∀ (k : Nat) column, columns[k]? = some column → (column.map Prod.fst).Nodup
  ancestor : ∀ (k : Nat) column, columns[k]? = some column →
    ∀ e ∈ column, Ancestor parent e.1 k

variable {parent : Array (Option Nat)} {columns : List (List (Nat × K))}

omit [LinearOrder K] [ExactScalar K] in
theorem Patterned.upper (h : Patterned parent columns) {k : Nat} {column : List (Nat × K)}
    (hk : columns[k]? = some column) : ∀ e ∈ column, e.1 ≤ k :=
  fun e he => le_of_ancestor h.rising (h.ancestor k column hk e he)

omit [LinearOrder K] [ExactScalar K] in
theorem Patterned.planted (h : Patterned parent columns) : Planted parent columns :=
  ⟨h.size, h.rising, fun _ _ hk => h.upper hk⟩

omit [LinearOrder K] [ExactScalar K] in
theorem Patterned.ancestor_rows (h : Patterned parent columns) {k : Nat} :
    ∀ i ∈ (rowsOf columns).getD k [], Ancestor parent i k := by
  intro i hi
  cases hk : columns[k]? with
  | none => simp [rowsOf, hk] at hi
  | some column =>
    rw [getD_rowsOf hk] at hi
    obtain ⟨e, he, rfl⟩ := List.mem_map.mp hi
    exact h.ancestor k column hk e he

/-- The rows up to `k` of a factor: the entries stand where the tree has them, the pivots can be
divided by, and the product is the leading part of the matrix. -/
structure Factored (parent : Array (Option Nat)) (tolerance : K) (columns : List (List (Nat × K)))
    (k : Nat) (s : Rows K) : Prop where
  size : s.columns.size = columns.length
  diagSize : s.diag.size = columns.length
  invSize : s.invDiag.size = columns.length
  rows : ∀ (c : Nat) column, s.columns[c]? = some column →
    column.toList.map Prod.fst = fillRows parent (rowsOf columns) c k
  pivot : ∀ c, c < k → tolerance < |s.diag.getD c 0|
  inverse : ∀ c, c < k → s.diag.getD c 0 * s.invDiag.getD c 0 = 1
  product : ∀ i j, i ≤ j → j < k → sumAt (columns.getD j []) i =
    ∑ c ∈ Finset.range (j + 1), s.unitEntry i c * s.diag.getD c 0 * s.unitEntry j c
  positive : s.positive = ((List.range k).filter fun c => 0 < s.diag.getD c 0).length

variable {tolerance : K} {k : Nat} {s s' : Rows K}

theorem Factored.placed (h : Factored parent tolerance columns k s) : Placed parent columns k s :=
  ⟨h.size, h.diagSize, h.invSize, h.rows⟩

theorem Factored.fills_of_entry (h : Factored parent tolerance columns k s) {i c : Nat}
    (hentry : s.entry i c ≠ 0) : i < k ∧ Fills parent ((rowsOf columns).getD i []) i c := by
  cases hc : s.columns[c]? with
  | none => simp [Rows.entry, hc, sumAt_nil] at hentry
  | some column =>
    have hmem : i ∈ column.toList.map Prod.fst := by
      by_contra hnot
      apply hentry
      rw [Rows.entry, Array.getD_eq_getD_getElem?, hc, Option.getD_some]
      exact sumAt_eq_zero hnot
    rw [h.rows c column hc] at hmem
    exact mem_fillRows.mp hmem

theorem Factored.solved (hp : Patterned parent columns) (h : Factored parent tolerance columns k s)
    {column : List (Nat × K)} (hk : columns[k]? = some column) {order : List Nat}
    (horder : reach? parent k (column.map Prod.fst) = some order) {y : Array K} {d : K}
    (hload : load? parent.size k column = some (y, d)) {p : Pending K}
    (hfold : order.foldlM (eliminate? k s.invDiag) ⟨s.columns, y, d⟩ = some p) :
    (∀ c, c ∈ order ↔ Fills parent (column.map Prod.fst) k c) ∧
      (∀ c ∉ order, c < k → p.rest.getD c 0 = 0) ∧
      Eliminated s k (fun i => y.getD i 0) d order p ∧
      (∀ i, i < k → sumAt column i = p.rest.getD i 0 +
        ∑ c ∈ Finset.range k, s.entry i c * p.rest.getD c 0) ∧
      sumAt column k = p.pivot + ∑ c ∈ Finset.range k,
        p.rest.getD c 0 * (p.rest.getD c 0 * s.invDiag.getD c 0) := by
  have hupper : ∀ i ∈ column.map Prod.fst, i ≤ k := by
    intro i hi
    obtain ⟨e, he, rfl⟩ := List.mem_map.mp hi
    exact hp.upper hk e he
  have hmem : ∀ c, c ∈ order ↔ Fills parent (column.map Prod.fst) k c :=
    fun c => mem_reach?_iff hp.rising horder hupper
  obtain ⟨marks, hreached⟩ := reached_of_reach? hp.rising horder
  obtain ⟨-, hy, hd⟩ := load?_getD (hp.nodup k column hk) hload
  have hlater : ∀ c i, s.entry i c ≠ 0 → c < i ∧ i < k ∧ Ancestor parent c i := by
    intro c i hentry
    obtain ⟨hik, hfills⟩ := h.fills_of_entry hentry
    refine ⟨hfills.1, hik, hfills.ancestor hp.rising ?_⟩
    exact hp.ancestor_rows
  have helim := (eliminated_refl s k y d).run hfold hreached.nodup hlater hp.rising
    hreached.closed
  have hlt : ∀ c ∈ order, c < k := fun c hc => ((hmem c).mp hc).1
  have hzero : ∀ c ∉ order, c < k → p.rest.getD c 0 = 0 := by
    intro c hc hck
    have hcolumn : sumAt column c = 0 := by
      apply sumAt_eq_zero
      intro hrow
      exact hc ((hmem c).mpr ⟨hck, c, hrow, .refl⟩)
    have hterms : ∀ c' ∈ order, s.entry c c' * p.rest.getD c' 0 = 0 := by
      intro c' hc'
      by_cases hentry : s.entry c c' = 0
      · rw [hentry, zero_mul]
      · obtain ⟨-, -, hancestor⟩ := hlater c' c hentry
        exact absurd ((hmem c).mpr (((hmem c').mp hc').up hancestor hck)) hc
    rw [helim.rest c, hy c, if_neg (Nat.ne_of_lt hck), hcolumn, zero_sub, neg_eq_zero]
    exact List.sum_eq_zero (by simpa using hterms)
  refine ⟨hmem, hzero, helim, ?_, ?_⟩
  · intro i hi
    have hrest := helim.rest i
    rw [hy i, if_neg (Nat.ne_of_lt hi), sum_map_eq hreached.nodup hlt fun c hc hck => by
      rw [hzero c hc hck, mul_zero]] at hrest
    rw [hrest, sub_add_cancel]
  · have hpivot := helim.pivot
    rw [sum_map_eq hreached.nodup hlt fun c hc hck => by rw [hzero c hc hck, zero_mul]] at hpivot
    rw [hpivot, hd, sub_add_cancel]

theorem Factored.entry_next (h : Factored parent tolerance columns k s) {order : List Nat}
    (hlt : ∀ c ∈ order, c < k) (hk : k < columns.length) {y : Nat → K} {d : K} {p : Pending K}
    (hzero : ∀ c ∉ order, c < k → p.rest.getD c 0 = 0) (helim : Eliminated s k y d order p)
    (hcolumns : s'.columns = p.columns) :
    (∀ i c, i ≠ k → s'.entry i c = s.entry i c) ∧
      (∀ c, c < k → s'.entry k c = p.rest.getD c 0 * s.invDiag.getD c 0) ∧
      ∀ i, i ≤ k → s'.entry i k = 0 := by
  have hentry : ∀ i c, s'.entry i c = s.entry i c +
      if c ∈ order ∧ k = i then p.rest.getD c 0 * s.invDiag.getD c 0 else 0 := by
    intro i c
    unfold Rows.entry
    rw [hcolumns, Array.getD_eq_getD_getElem?, helim.columns c, Array.getD_eq_getD_getElem?]
    cases hc : s.columns[c]? with
    | none =>
      have hout : c ∉ order := by
        intro hmem
        have := hlt c hmem
        have := Array.getElem?_eq_none_iff.mp hc
        rw [h.size] at this
        omega
      simp [hc, hout]
    | some column =>
      by_cases hmem : c ∈ order
      · simp [hc, hmem, sumAt_concat]
      · simp [hc, hmem]
  have hnone : ∀ i c, i ≤ c → s.entry i c = 0 := by
    intro i c hic
    by_contra hne
    have := (h.fills_of_entry hne).2.1
    omega
  refine ⟨?_, ?_, ?_⟩
  · intro i c hik
    rw [hentry, if_neg fun h => hik h.2.symm, add_zero]
  · intro c hck
    have hrow : s.entry k c = 0 := by
      by_contra hne
      exact Nat.lt_irrefl k (h.fills_of_entry hne).1
    rw [hentry, hrow, zero_add]
    by_cases hc : c ∈ order
    · rw [if_pos ⟨hc, rfl⟩]
    · rw [if_neg fun h => hc h.1, hzero c hc hck, zero_mul]
  · intro i hik
    rw [hentry, hnone i k hik, zero_add, if_neg]
    rintro ⟨hmem, -⟩
    exact Nat.lt_irrefl k (hlt k hmem)

theorem tolerance_lt_of_checkPivot {d : K} (h : checkPivot tolerance k d = none) :
    tolerance < |d| := by
  have hfinite : Scalar.isFinite d = true := ExactScalar.isFinite_eq d
  have habs : Scalar.abs d = |d| := ExactScalar.abs_eq d
  unfold checkPivot at h
  by_contra hle
  rw [hfinite, if_neg (by simp), habs, if_pos (OrderedScalar.le_iff.mpr (not_lt.mp hle))] at h
  cases h

theorem getD_of_replace? {v w : Array K} {k : Nat} {x : K} (h : replace? v k x = some w) (c : Nat) :
    w.getD c 0 = if k = c then x else v.getD c 0 := by
  rw [Array.getD_eq_getD_getElem?, getElem?_of_replace? h, Array.getD_eq_getD_getElem?]
  split <;> rfl

/-- A row that solves its triangular system makes the product of the factors agree with one more row
of the matrix. -/
theorem Factored.product_next (h : Factored parent tolerance columns k s)
    {column : List (Nat × K)} (hk : columns[k]? = some column) {z : Nat → K}
    (hframe : ∀ i c, i ≠ k → s'.entry i c = s.entry i c)
    (hnew : ∀ c, c < k → s'.entry k c = z c * s.invDiag.getD c 0)
    (hnone : ∀ i, i ≤ k → s'.entry i k = 0)
    (hdiag : ∀ c, c < k → s'.diag.getD c 0 = s.diag.getD c 0)
    (hsolves : ∀ i, i < k → sumAt column i = z i + ∑ c ∈ Finset.range k, s.entry i c * z c)
    (hpivot : sumAt column k = s'.diag.getD k 0 +
      ∑ c ∈ Finset.range k, z c * (z c * s.invDiag.getD c 0))
    {i j : Nat} (hij : i ≤ j) (hj : j < k + 1) :
    sumAt (columns.getD j []) i =
      ∑ c ∈ Finset.range (j + 1), s'.unitEntry i c * s'.diag.getD c 0 * s'.unitEntry j c := by
  have hscaled : ∀ c, c < k → s'.diag.getD c 0 * s'.unitEntry k c = z c := by
    intro c hc
    rw [Rows.unitEntry, hnew c hc, if_neg (Nat.ne_of_gt hc), add_zero, hdiag c hc]
    linear_combination z c * h.inverse c hc
  rcases Nat.lt_succ_iff_lt_or_eq.mp hj with hj | rfl
  · rw [h.product i j hij hj]
    apply Finset.sum_congr rfl
    intro c hc
    have hck : c < k := by
      have := Finset.mem_range.mp hc
      omega
    rw [Rows.unitEntry, Rows.unitEntry, Rows.unitEntry, Rows.unitEntry, hframe i c (by omega),
      hframe j c (by omega), hdiag c hck]
  · -- the new row, against the rows before it and against itself
    have hcolumn : columns.getD j [] = column := by
      rw [List.getD_eq_getElem?_getD, hk, Option.getD_some]
    have hterms : ∑ c ∈ Finset.range j,
        s'.unitEntry i c * s'.diag.getD c 0 * s'.unitEntry j c =
          ∑ c ∈ Finset.range j, s'.unitEntry i c * z c := by
      apply Finset.sum_congr rfl
      intro c hc
      rw [mul_assoc, hscaled c (Finset.mem_range.mp hc)]
    have hlast : s'.unitEntry j j = 1 := by
      rw [Rows.unitEntry, hnone j (Nat.le_refl _), if_pos rfl, zero_add]
    rw [hcolumn, Finset.sum_range_succ, hterms, hlast, mul_one]
    rcases Nat.lt_or_eq_of_le hij with hlt | rfl
    · have hunit : s'.unitEntry i j = 0 := by
        rw [Rows.unitEntry, hnone i hij, if_neg (Nat.ne_of_lt hlt), add_zero]
      have hsplit : ∑ c ∈ Finset.range j, s'.unitEntry i c * z c =
          ∑ c ∈ Finset.range j, s.entry i c * z c + z i := by
        simp only [Rows.unitEntry, hframe i _ (Nat.ne_of_lt hlt), add_mul, Finset.sum_add_distrib]
        simp [hlt]
      rw [hsolves i hlt, hunit, zero_mul, add_zero, hsplit, add_comm]
    · have hsplit : ∑ c ∈ Finset.range i, s'.unitEntry i c * z c =
          ∑ c ∈ Finset.range i, z c * (z c * s.invDiag.getD c 0) := by
        apply Finset.sum_congr rfl
        intro c hc
        have hci := Finset.mem_range.mp hc
        rw [Rows.unitEntry, hnew c hci, if_neg (Nat.ne_of_gt hci), add_zero, mul_comm]
      rw [hpivot, hlast, one_mul, hsplit, add_comm]

structure Settles (k : Nat) (s : Rows K) (p : Pending K) (s' : Rows K) : Prop where
  columns : s'.columns = p.columns
  diagSize : s'.diag.size = s.diag.size
  invSize : s'.invDiag.size = s.invDiag.size
  diag : ∀ c, s'.diag.getD c 0 = if k = c then p.pivot else s.diag.getD c 0
  invDiag : ∀ c, s'.invDiag.getD c 0 = if k = c then 1 / p.pivot else s.invDiag.getD c 0
  positive : s'.positive = s.positive + if 0 < p.pivot then 1 else 0

theorem settles_of_settle? {p : Pending K} (h : settle? k s p none = some s') :
    Settles k s p s' := by
  obtain ⟨diag, hdiag, h⟩ := Option.bind_eq_some_iff.mp h
  obtain ⟨inv, hinv, h⟩ := Option.bind_eq_some_iff.mp h
  cases h
  refine ⟨rfl, size_of_replace? hdiag, size_of_replace? hinv, getD_of_replace? hdiag,
    getD_of_replace? hinv, ?_⟩
  by_cases hpos : 0 < p.pivot
  · rw [if_pos hpos]
    exact if_pos (OrderedScalar.lt_iff.mpr hpos)
  · rw [if_neg hpos]
    exact if_neg fun hlt => hpos (OrderedScalar.lt_iff.mp hlt)

theorem Factored.step (hp : Patterned parent columns) (htolerance : 0 ≤ tolerance)
    (h : Factored parent tolerance columns k s) {column : List (Nat × K)}
    (hk : columns[k]? = some column) (hrow : row? parent tolerance k column s = some (s', none)) :
    Factored parent tolerance columns (k + 1) s' := by
  obtain ⟨order, y, d, p, horder, hload, hfold, hcheck, hsettle⟩ := row?_eq_some.mp hrow
  obtain ⟨hmem, hzero, helim, hsolves, hpivot⟩ := h.solved hp hk horder hload hfold
  have hsettles := settles_of_settle? hsettle
  have hlt : ∀ c ∈ order, c < k := fun c hc => ((hmem c).mp hc).1
  have hbound := (List.getElem?_eq_some_iff.mp hk).1
  obtain ⟨hframe, hnew, hnone⟩ := h.entry_next hlt hbound hzero helim hsettles.columns
  have hold : ∀ c, c < k → s'.diag.getD c 0 = s.diag.getD c 0 := by
    intro c hc
    rw [hsettles.diag, if_neg (Nat.ne_of_gt hc)]
  have hlast : s'.diag.getD k 0 = p.pivot := by
    rw [hsettles.diag, if_pos rfl]
  have hbig := tolerance_lt_of_checkPivot hcheck
  have hne : p.pivot ≠ 0 := by
    intro heq
    rw [heq, abs, neg_zero, sup_idem] at hbig
    exact absurd hbig (not_lt.mpr htolerance)
  have hnext := h.placed.next hp.planted hk hrow
  refine ⟨hnext.size, hnext.diagSize, hnext.invSize, hnext.rows, ?_, ?_, ?_, ?_⟩
  · intro c hc
    rcases Nat.lt_succ_iff_lt_or_eq.mp hc with hc | rfl
    · rw [hold c hc]
      exact h.pivot c hc
    · rwa [hlast]
  · intro c hc
    rw [hsettles.invDiag]
    rcases Nat.lt_succ_iff_lt_or_eq.mp hc with hc | rfl
    · rw [hold c hc, if_neg (Nat.ne_of_gt hc)]
      exact h.inverse c hc
    · rw [hlast, if_pos rfl]
      exact mul_one_div_cancel hne
  · intro i j hij hj
    exact h.product_next hk hframe hnew hnone hold hsolves (hlast ▸ hpivot) hij hj
  · have hcongr : ∀ c ∈ List.range k,
        decide (0 < s'.diag.getD c 0) = decide (0 < s.diag.getD c 0) := by
      intro c hc
      rw [hold c (List.mem_range.mp hc)]
    rw [hsettles.positive, List.range_succ, List.filter_append, List.length_append,
      List.filter_congr hcongr, ← h.positive, List.filter_singleton, hlast]
    by_cases hpos : 0 < p.pivot <;> simp [hpos]

theorem factored_of_rows? (hp : Patterned parent columns) (htolerance : 0 ≤ tolerance)
    {rest : List (List (Nat × K))} (hrest : columns.drop k = rest)
    (h : Factored parent tolerance columns k s)
    (hrows : rows? parent tolerance (rest.zipIdx k) s = some (s', none)) :
    Factored parent tolerance columns (k + rest.length) s' := by
  induction rest generalizing k s with
  | nil =>
    cases hrows
    exact h
  | cons column rest ih =>
    have hk : columns[k]? = some column := by
      rw [← List.head?_drop, hrest, List.head?_cons]
    have hnext : columns.drop (k + 1) = rest := by
      rw [← List.tail_drop, hrest, List.tail_cons]
    rw [List.zipIdx_cons] at hrows
    rcases rows?_cons_eq_some.mp hrows with ⟨mid, hrow, hrows⟩ | ⟨e, -, hnone⟩
    · have hdone := ih hnext (h.step hp htolerance hk hrow) hrows
      rwa [List.length_cons, Nat.add_comm rest.length 1, ← Nat.add_assoc]
    · cases hnone

theorem factored_zero {invDiag : Array K} (hinv : invDiag.size = columns.length) :
    Factored parent tolerance columns 0
      { columns := Array.replicate columns.length #[], diag := Vec.zero columns.length
        invDiag, positive := 0 } := by
  constructor
  · exact Array.size_replicate
  · exact Array.size_replicate
  · exact hinv
  · intro c column hc
    rw [Array.getElem?_replicate] at hc
    split at hc
    · cases hc
      rfl
    · cases hc
  · simp
  · simp
  · simp
  · rfl

/-- If the numeric phase meets no bad pivot, its factors multiply to the matrix. -/
theorem factored_of_numeric? (hp : Patterned parent columns) (htolerance : 0 ≤ tolerance)
    {invDiag : Array K} (hinv : invDiag.size = columns.length)
    (h : numeric? parent tolerance columns invDiag = some (s, none)) :
    Factored parent tolerance columns columns.length s := by
  have hdone := factored_of_rows? hp htolerance List.drop_zero (factored_zero hinv) h
  rwa [Nat.zero_add] at hdone

theorem Factored.exists_column (h : Factored parent tolerance columns k s) {c : Nat}
    (hc : c < columns.length) : ∃ column, s.columns[c]? = some column :=
  ⟨_, Array.getElem?_eq_getElem (h.size.symm ▸ hc)⟩

theorem Factored.product_eq (h : Factored parent tolerance columns columns.length s) {i j : Nat}
    (hij : i ≤ j) (hj : j < columns.length) :
    sumAt (columns.getD j []) i = ∑ c ∈ Finset.range columns.length,
      s.unitEntry i c * s.diag.getD c 0 * s.unitEntry j c := by
  rw [h.product i j hij hj]
  apply Finset.sum_subset
  · intro c hc
    have := Finset.mem_range.mp hc
    exact Finset.mem_range.mpr (by omega)
  · intro c _ hc
    have hlt : j < c := by
      have := mt Finset.mem_range.mpr hc
      omega
    have hzero : s.entry j c = 0 := by
      by_contra hne
      have := (h.fills_of_entry hne).2.1
      omega
    rw [Rows.unitEntry, Rows.unitEntry, hzero, if_neg (Nat.ne_of_lt hlt), add_zero, mul_zero]

end Product

end Ldl

end NonlinearOpt
