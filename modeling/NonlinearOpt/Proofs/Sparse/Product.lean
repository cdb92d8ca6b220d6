import Mathlib
import NonlinearOpt.Proofs.Sparse.Dense
import NonlinearOpt.Proofs.Sparse.InPlace
import NonlinearOpt.Proofs.Sparse.Lookup

namespace NonlinearOpt.Csc

section Terms

variable {α β : Type} [Scalar α] {n : Nat} {f : Array α → Option (Array α)}

/-- A vector of length `n` that has the entries of `y` with their terms added, one after the other. -/
def Sums (n : Nat) (y : Array α) (terms : Nat → List α) (out? : Option (Array α)) : Prop :=
  ∃ out, out? = some out ∧ out.size = n ∧
    ∀ r, out[r]? = y[r]?.map fun s => (terms r).foldl (· + ·) s

/-- An update of vectors of length `n` that adds its terms to each entry. -/
def Adds (n : Nat) (f : Array α → Option (Array α)) (terms : Nat → List α) : Prop :=
  ∀ y, y.size = n → Sums n y terms (f y)

theorem adds_some : Adds n (some : Array α → Option (Array α)) fun _ => [] := by
  intro y hy
  exact ⟨y, rfl, hy, fun r => by simp⟩

theorem Adds.bind {g : Array α → Option (Array α)} {terms terms' : Nat → List α}
    (hf : Adds n f terms) (hg : Adds n g terms') :
    Adds n (fun y => (f y).bind g) fun r => terms r ++ terms' r := by
  intro y hy
  obtain ⟨mid, hmid, hsize, hget⟩ := hf y hy
  obtain ⟨out, hout, hsize', hget'⟩ := hg mid hsize
  refine ⟨out, Option.bind_eq_some_iff.mpr ⟨mid, hmid, hout⟩, hsize', ?_⟩
  intro r
  rw [hget', hget, Option.map_map]
  congr 1
  funext s
  rw [List.foldl_append]
  rfl

def only (i : Nat) (d : α) (r : Nat) : List α := if i = r then [d] else []

theorem adds_modify? {i : Nat} (hi : i < n) (d : α) :
    Adds n (fun y => Vec.modify? y i (· + d)) (only i d) := by
  intro y hy
  have hget : y[i]? = some y[i] := Array.getElem?_eq_getElem (hy ▸ hi)
  obtain ⟨out, hout, hsize⟩ := exists_replace? y (y[i] + d) (hy ▸ hi)
  refine ⟨out, modify?_eq_some.mpr ⟨y[i], hget, hout⟩, hsize.trans hy, ?_⟩
  intro r
  rw [getElem?_of_replace? hout]
  unfold only
  by_cases hir : i = r
  · subst hir
    simp [hget]
  · simp [hir]

theorem adds_foldlM {step : Array α → β → Option (Array α)} {terms : β → Nat → List α}
    {xs : List β} (h : ∀ x ∈ xs, Adds n (fun y => step y x) (terms x)) :
    Adds n (fun y => xs.foldlM step y) fun r => xs.flatMap fun x => terms x r := by
  induction xs with
  | nil => exact adds_some
  | cons x xs ih =>
    simp only [List.foldlM_cons, List.flatMap_cons]
    exact (h x (by simp)).bind (ih fun x' hx' => h x' (by simp [hx']))

theorem foldlM_add {step : α → β → Option α} {d : β → α} {es : List β}
    (h : ∀ e ∈ es, ∀ s, step s e = some (s + d e)) (s : α) :
    es.foldlM step s = some ((es.map d).foldl (· + ·) s) := by
  induction es generalizing s with
  | nil => rfl
  | cons e es ih =>
    rw [List.foldlM_cons, h e (by simp), List.map_cons, List.foldl_cons]
    exact ih (fun e' he' => h e' (by simp [he'])) _

end Terms

section Columns

variable {α : Type} {m : Csc α}

def listed (m : Csc α) (j : Nat) : List (Nat × α) := (m.entries? j).getD []

theorem InRange.entries? (h : m.InRange) {j : Nat} (hj : j < m.cols) :
    m.entries? j = some (m.listed j) := by
  obtain ⟨column, hcolumn, -⟩ := h j hj
  rw [listed, hcolumn, Option.getD_some]

theorem InRange.lt_of_mem_listed (h : m.InRange) {j : Nat} (hj : j < m.cols) :
    ∀ e ∈ m.listed j, e.1 < m.rows := by
  obtain ⟨column, hcolumn, hrange⟩ := h j hj
  rwa [listed, hcolumn, Option.getD_some]

theorem Formatted.column? (h : m.Formatted) {j : Nat} (hj : j < m.cols) :
    m.column? j = some (m.listed j) := by
  obtain ⟨column, hcolumn, -⟩ := column?_of_checkFormat (checkFormat_eq_ok_iff.mpr h) hj
  rw [hcolumn, listed, entries?_of_column? hcolumn, Option.getD_some]

theorem Formatted.inRange (h : m.Formatted) : m.InRange := by
  intro j hj
  obtain ⟨column, hcolumn, hrange⟩ := column?_of_checkFormat (checkFormat_eq_ok_iff.mpr h) hj
  exact ⟨column, entries?_of_column? hcolumn, hrange⟩

variable [Scalar α] {x y : Array α} {a b : α}

def scattered (m : Csc α) (x : Array α) (a : α) (r : Nat) : List α :=
  x.toList.zipIdx.flatMap fun w => (m.listed w.2).flatMap fun e => only e.1 (a * e.2 * w.1) r

def gathered (m : Csc α) (x : Array α) (a : α) (r : Nat) : List α :=
  (m.listed r).map fun e => a * e.2 * x.getD e.1 0

def mirrored (m : Csc α) (x : Array α) (a : α) (r : Nat) : List α :=
  x.toList.zipIdx.flatMap fun w => (m.listed w.2).flatMap fun e =>
    only e.1 (a * e.2 * w.1) r ++
      if e.1 = w.2 then [] else only w.2 (a * e.2 * x.getD e.1 0) r

omit [Scalar α] in
theorem lt_of_mem_zipIdx {w : α × Nat} (hw : w ∈ x.toList.zipIdx) : w.2 < x.size := by
  simpa using List.snd_lt_of_mem_zipIdx hw

theorem InRange.adds_scattered (h : m.InRange) (hx : x.size = m.cols) (a : α) :
    Adds m.rows (fun y => x.toList.zipIdx.foldlM (fun y (xj, j) => do
      (← m.entries? j).foldlM (fun y (i, v) => Vec.modify? y i (· + a * v * xj)) y) y)
      (m.scattered x a) := by
  apply adds_foldlM
  rintro ⟨xj, j⟩ hw
  have hj : j < m.cols := hx ▸ lt_of_mem_zipIdx hw
  simp only [h.entries? hj, Option.bind_eq_bind, Option.bind_some]
  exact adds_foldlM fun e he => adds_modify? (h.lt_of_mem_listed hj e he) _

theorem Formatted.adds_mirrored (h : m.Formatted) (hsquare : m.cols = m.rows)
    (hx : x.size = m.cols) (a : α) :
    Adds m.cols (fun y => x.toList.zipIdx.foldlM (fun y (xj, j) => do
      (← m.column? j).foldlM (fun y (i, v) => do
        let y ← Vec.modify? y i (· + a * v * xj)
        if i = j then return y
        let xi ← x[i]?
        Vec.modify? y j (· + a * v * xi)) y) y)
      (m.mirrored x a) := by
  apply adds_foldlM
  rintro ⟨xj, j⟩ hw
  have hj : j < m.cols := hx ▸ lt_of_mem_zipIdx hw
  simp only [h.column? hj, Option.bind_eq_bind, Option.bind_some]
  apply adds_foldlM
  rintro ⟨i, v⟩ he
  have hi : i < m.cols := hsquare ▸ h.inRange.lt_of_mem_listed hj _ he
  refine (adds_modify? hi _).bind ?_
  -- On the diagonal an entry is its own mirror image.
  by_cases hdiag : i = j
  · simp only [if_pos hdiag]
    exact adds_some
  · have hxi : x[i]? = some (x.getD i 0) := by simp [hx, hi]
    simp only [if_neg hdiag, hxi, Option.bind_some]
    exact adds_modify? hj _

theorem InRange.sums_gathered (h : m.InRange) (hx : x.size = m.rows) (hy : y.size = m.cols)
    (a : α) :
    Sums m.cols y (m.gathered x a) (do
      let out ← (y.toList.zipIdx).mapM fun (yj, j) => do
        (← m.entries? j).foldlM (fun s (i, v) => do return s + a * v * (← x[i]?)) yj
      return out.toArray) := by
  have hcolumn : ∀ w ∈ y.toList.zipIdx, (do
      (← m.entries? w.2).foldlM (fun s e => do return s + a * e.2 * (← x[e.1]?)) w.1) =
        some ((m.gathered x a w.2).foldl (· + ·) w.1) := by
    rintro ⟨yj, j⟩ hw
    have hj : j < m.cols := hy ▸ lt_of_mem_zipIdx hw
    simp only [h.entries? hj, Option.bind_eq_bind, Option.bind_some]
    apply foldlM_add
    intro e he s
    simp [hx, h.lt_of_mem_listed hj e he]
  obtain ⟨out, hout⟩ := exists_mapM fun w hw => ⟨_, hcolumn w hw⟩
  refine ⟨out.toArray, Option.bind_eq_some_iff.mpr ⟨out, hout, rfl⟩, ?_, ?_⟩
  · rw [List.size_toArray, length_of_mapM hout, List.length_zipIdx, Array.length_toList, hy]
  · intro r
    rw [List.getElem?_toArray, getElem?_of_mapM hout]
    cases hr : y[r]? with
    | none => simp [hr]
    | some s =>
      have hw : y.toList.zipIdx[r]? = some (s, r) := by simp [hr]
      rw [hw, Option.bind_some, hcolumn (s, r) (List.mem_of_getElem? hw), Option.map_some]

/-- The terms of a product. With the factor zero there are none. -/
def scaledTerms (a : α) (terms : Nat → List α) (r : Nat) : List α :=
  if Scalar.eq a 0 then [] else terms r

theorem sums_scaledTerms {n : Nat} {terms : Nat → List α} {out? : Option (Array α)}
    (hy : y.size = n) (h : Sums n y terms out?) :
    Sums n y (scaledTerms a terms) (if Scalar.eq a 0 then some y else out?) := by
  unfold scaledTerms
  by_cases ha : Scalar.eq a 0 = true
  · simp only [if_pos ha]
    exact adds_some y hy
  · simpa only [if_neg ha] using h

theorem InRange.sums_mulAdd? (h : m.InRange) (hx : x.size = m.cols) (hy : y.size = m.rows) :
    Sums m.rows (rescale b y) (scaledTerms a (m.scattered x a)) (m.mulAdd? y x a b) := by
  unfold mulAdd?
  rw [if_neg (by simp [hx, hy])]
  have hsize := (size_rescale b y).trans hy
  exact sums_scaledTerms hsize (h.adds_scattered hx a _ hsize)

theorem InRange.sums_adjointMulAdd? (h : m.InRange) (hx : x.size = m.rows)
    (hy : y.size = m.cols) :
    Sums m.cols (rescale b y) (scaledTerms a (m.gathered x a)) (m.adjointMulAdd? y x a b) := by
  unfold adjointMulAdd?
  rw [if_neg (by simp [hx, hy])]
  have hsize := (size_rescale b y).trans hy
  exact sums_scaledTerms hsize (h.sums_gathered hx hsize a)

theorem Formatted.sums_symMulAdd? (h : m.Formatted) (hupper : m.isUpper? = some true)
    (hsquare : m.cols = m.rows) (hx : x.size = m.cols) (hy : y.size = m.cols) :
    Sums m.cols (rescale b y) (m.mirrored x a) (m.symMulAdd? y x a b) := by
  unfold symMulAdd?
  rw [hupper, Option.bind_eq_bind, Option.bind_some, if_neg (by simp),
    if_neg (by simp [hx, hy, hsquare])]
  exact h.adds_mirrored hsquare hx a _ ((size_rescale b y).trans hy)

end Columns

section Exact

open Matrix

variable {K : Type} [LinearOrder K] [ExactScalar K]

def dense (m : Csc K) (rows cols : Nat) : Matrix (Fin rows) (Fin cols) K :=
  Matrix.of fun i j => m.entryAt i j

def vector (n : Nat) (v : Array K) : Fin n → K := fun i => v.getD i 0

theorem foldl_add_eq (ts : List K) (s : K) : ts.foldl (· + ·) s = s + ts.sum := by
  induction ts generalizing s with
  | nil => simp
  | cons t ts ih => rw [List.foldl_cons, ih, List.sum_cons, add_assoc]

theorem vector_rescale (n : Nat) (b : K) (y : Array K) :
    vector n (rescale b y) = b • vector n y := by
  funext r
  rw [Pi.smul_apply, smul_eq_mul, vector, vector]
  unfold rescale
  split_ifs with hzero hone
  · rw [ExactScalar.eq_iff.mp hzero, zero_mul]
    by_cases hr : r < y.size <;> simp [Vec.zero, hr]
  · rw [ExactScalar.eq_iff.mp hone, one_mul]
  · by_cases hr : r < y.size <;> simp [Vec.scale, hr, mul_comm]

theorem Sums.exists_vector {n : Nat} {y : Array K} {terms : Nat → List K} {out? : Option (Array K)}
    (h : Sums n y terms out?) (hy : y.size = n) :
    ∃ out, out? = some out ∧ out.size = n ∧
      vector n out = vector n y + fun r : Fin n => (terms r).sum := by
  obtain ⟨out, hout, hsize, hget⟩ := h
  refine ⟨out, hout, hsize, ?_⟩
  funext r
  have hr : (r : Nat) < y.size := hy ▸ r.isLt
  simp [vector, hget, hr, foldl_add_eq]

theorem sum_flatMap {β : Type} (xs : List β) (terms : β → List K) :
    (xs.flatMap terms).sum = (xs.map fun x => (terms x).sum).sum := by
  rw [List.flatMap, List.sum_flatten, List.map_map]
  rfl

theorem sum_only (i : Nat) (d : K) (r : Nat) : (only i d r).sum = if i = r then d else 0 := by
  unfold only
  split_ifs <;> simp

theorem sum_scaledTerms {a c : K} {terms : Nat → List K} {r : Nat} (h : (terms r).sum = a * c) :
    (scaledTerms a terms r).sum = a * c := by
  unfold scaledTerms
  by_cases ha : Scalar.eq a 0 = true
  · rw [if_pos ha, ExactScalar.eq_iff.mp ha, zero_mul, List.sum_nil]
  · rw [if_neg ha, h]

theorem sum_column_row (column : List (Nat × K)) (a t : K) (r : Nat) :
    (column.map fun e => if e.1 = r then a * e.2 * t else 0).sum = a * (sumAt column r * t) := by
  induction column with
  | nil => simp [sumAt_nil]
  | cons e column ih =>
    rw [List.map_cons, List.sum_cons, ih, sumAt_cons]
    split_ifs <;> ring

theorem entryAt_eq_sumAt_listed (m : Csc K) (i j : Nat) : m.entryAt i j = sumAt (m.listed j) i :=
  rfl

variable {m : Csc K} {x : Array K}

theorem sum_scattered (hx : x.size = m.cols) (a : K) (r : Nat) :
    (m.scattered x a r).sum = a * ∑ j ∈ Finset.range m.cols, m.entryAt r j * x.getD j 0 := by
  unfold scattered
  rw [sum_flatMap, sum_zipIdx, hx, Finset.mul_sum]
  apply Finset.sum_congr rfl
  intro j _
  simp only [sum_flatMap, sum_only]
  exact sum_column_row _ _ _ _

theorem sum_gathered (h : m.InRange) {r : Nat} (hr : r < m.cols) (a : K) :
    (m.gathered x a r).sum = a * ∑ i ∈ Finset.range m.rows, m.entryAt i r * x.getD i 0 := by
  unfold gathered
  rw [sum_entryAt_mul (h.entries? hr) (h.lt_of_mem_listed hr) fun i => x.getD i 0,
    ← List.sum_map_mul_left]
  simp only [mul_assoc]

/-- Outside the diagonal, the mirror images of a column contribute to its row. -/
theorem sum_mirror_images (h : m.InRange) {r : Nat} (hr : r < m.cols) (hrange : r < m.rows)
    (a : K) :
    ((m.listed r).map fun e => if e.1 = r then 0 else a * e.2 * x.getD e.1 0).sum =
      a * (∑ i ∈ Finset.range m.rows, m.entryAt i r * x.getD i 0 - m.entryAt r r * x.getD r 0) := by
  have hoff := sum_entryAt_mul (h.entries? hr) (h.lt_of_mem_listed hr)
    fun i => if i = r then 0 else x.getD i 0
  have hsplit : ∑ i ∈ Finset.range m.rows, m.entryAt i r * (if i = r then 0 else x.getD i 0) =
      ∑ i ∈ Finset.range m.rows, m.entryAt i r * x.getD i 0 - m.entryAt r r * x.getD r 0 :=
    calc ∑ i ∈ Finset.range m.rows, m.entryAt i r * (if i = r then 0 else x.getD i 0)
        = ∑ i ∈ Finset.range m.rows, (m.entryAt i r * x.getD i 0 -
            if i = r then m.entryAt i r * x.getD i 0 else 0) := by
          apply Finset.sum_congr rfl
          intro i _
          split_ifs <;> ring
      _ = _ := by
          rw [Finset.sum_sub_distrib, Finset.sum_ite_eq', if_pos (Finset.mem_range.mpr hrange)]
  rw [← hsplit, hoff, ← List.sum_map_mul_left]
  congr 1
  apply List.map_congr_left
  intro e _
  split_ifs <;> ring

theorem sum_mirrored (h : m.InRange) (hsquare : m.cols = m.rows) (hx : x.size = m.cols) {r : Nat}
    (hr : r < m.cols) (a : K) :
    (m.mirrored x a r).sum = a * (∑ j ∈ Finset.range m.cols, m.entryAt r j * x.getD j 0 +
      (∑ i ∈ Finset.range m.rows, m.entryAt i r * x.getD i 0 - m.entryAt r r * x.getD r 0)) := by
  -- Of the mirror images, those of column `r` lie in row `r`.
  have himages : ∀ j, ((m.listed j).map fun e =>
      (if e.1 = j then [] else only j (a * e.2 * x.getD e.1 0) r).sum).sum =
        if j = r then ((m.listed r).map fun e =>
          if e.1 = r then 0 else a * e.2 * x.getD e.1 0).sum else 0 := by
    intro j
    by_cases hjr : j = r
    · subst hjr
      rw [if_pos rfl]
      congr 1
      apply List.map_congr_left
      intro e _
      split_ifs <;> simp [only]
    · rw [if_neg hjr]
      apply List.sum_eq_zero
      simp only [List.mem_map, forall_exists_index, and_imp, forall_apply_eq_imp_iff₂]
      intro e _
      split_ifs <;> simp [only, hjr]
  unfold mirrored
  simp only [sum_flatMap, List.sum_append, List.sum_map_add, sum_only, sum_column_row, himages]
  rw [sum_zipIdx, sum_zipIdx, hx, ← Finset.mul_sum, Finset.sum_ite_eq',
    if_pos (Finset.mem_range.mpr hr), sum_mirror_images h hr (hsquare ▸ hr), mul_add]
  rfl

theorem Formatted.exists_found_entryAt (h : m.Formatted) {i j : Nat} (hi : i < m.rows)
    (hj : j < m.cols) : ∃ found, m.entry? i j = some found ∧ m.entryAt i j = found.getD 0 := by
  obtain ⟨found, hentry, hfound⟩ := h.exists_found hi hj
  refine ⟨found, hentry, ?_⟩
  have hmem : ∀ v, found = some v ↔ (i, v) ∈ m.listed j := fun v =>
    (hfound v).trans (exists_storedAt_iff (h.inRange.entries? hj))
  rw [entryAt_eq_sumAt_listed]
  cases found with
  | none =>
    apply sumAt_eq_zero
    intro hrow
    obtain ⟨⟨i', v⟩, he, rfl⟩ := List.mem_map.mp hrow
    cases (hmem v).mpr he
  | some v =>
    have hrows := rowsOf?_of_column? (h.column? hj)
    have hnodup : ((m.listed j).map Prod.fst).Nodup := (h.ascending j _ hrows).imp Nat.ne_of_lt
    exact sumAt_eq_of_mem hnodup ((hmem v).mp rfl)

def symmetrized {n : Nat} (d : Matrix (Fin n) (Fin n) K) : Matrix (Fin n) (Fin n) K :=
  d + dᵀ - diagonal d.diag

theorem transpose_symmetrized {n : Nat} (d : Matrix (Fin n) (Fin n) K) :
    (symmetrized d)ᵀ = symmetrized d := by
  rw [symmetrized, transpose_sub, transpose_add, transpose_transpose, diagonal_transpose,
    add_comm]

theorem dense_mulVec (m : Csc K) (rows cols : Nat) (x : Array K) (r : Fin rows) :
    (m.dense rows cols *ᵥ vector cols x) r =
      ∑ j ∈ Finset.range cols, m.entryAt r j * x.getD j 0 := by
  rw [Finset.sum_range]
  rfl

theorem dense_transpose_mulVec (m : Csc K) (rows cols : Nat) (x : Array K) (r : Fin cols) :
    ((m.dense rows cols)ᵀ *ᵥ vector rows x) r =
      ∑ i ∈ Finset.range rows, m.entryAt i r * x.getD i 0 := by
  rw [Finset.sum_range]
  rfl

theorem symmetrized_dense_mulVec (m : Csc K) (n : Nat) (x : Array K) (r : Fin n) :
    (symmetrized (m.dense n n) *ᵥ vector n x) r =
      ∑ j ∈ Finset.range n, m.entryAt r j * x.getD j 0 +
        (∑ i ∈ Finset.range n, m.entryAt i r * x.getD i 0 - m.entryAt r r * x.getD r 0) := by
  rw [symmetrized, sub_mulVec, add_mulVec, Pi.sub_apply, Pi.add_apply, dense_mulVec,
    dense_transpose_mulVec, mulVec_diagonal, add_sub_assoc]
  rfl

/-- What the products with a matrix are in exact arithmetic, whatever `y` they are added to. -/
structure Multiplies (m : Csc K) : Prop where
  stored : ∀ i j, i < m.rows → j < m.cols →
    ∃ found, m.entry? i j = some found ∧ m.entryAt i j = found.getD 0
  plain : ∀ (x y : Array K) (a b : K), x.size = m.cols → y.size = m.rows →
    ∃ out, (m.mulAddInPlace x a b).outcome y = some out ∧ out.size = m.rows ∧
      vector m.rows out =
        b • vector m.rows y + a • (m.dense m.rows m.cols *ᵥ vector m.cols x)
  adjoint : ∀ (x y : Array K) (a b : K), x.size = m.rows → y.size = m.cols →
    ∃ out, (m.adjointMulAddInPlace x a b).outcome y = some out ∧ out.size = m.cols ∧
      vector m.cols out =
        b • vector m.cols y + a • ((m.dense m.rows m.cols)ᵀ *ᵥ vector m.rows x)
  symmetric : m.isUpper? = some true → m.cols = m.rows →
    ∀ (x y : Array K) (a b : K), x.size = m.cols → y.size = m.cols →
      ∃ out, (m.symMulAddInPlace x a b).outcome y = some out ∧ out.size = m.cols ∧
        vector m.cols out = b • vector m.cols y +
          a • (symmetrized (m.dense m.cols m.cols) *ᵥ vector m.cols x)
  pairing : ∀ (w x y z : Array K) (a : K), w.size = m.rows → x.size = m.cols → y.size = m.rows →
    z.size = m.cols → ∃ p q, (m.mulAddInPlace x a 0).outcome y = some p ∧
      (m.adjointMulAddInPlace w a 0).outcome z = some q ∧
        vector m.rows w ⬝ᵥ vector m.rows p = vector m.cols q ⬝ᵥ vector m.cols x
  selfAdjoint : m.isUpper? = some true → m.cols = m.rows →
    ∀ (w x y z : Array K) (a : K), w.size = m.cols → x.size = m.cols → y.size = m.cols →
      z.size = m.cols → ∃ p q, (m.symMulAddInPlace x a 0).outcome y = some p ∧
        (m.symMulAddInPlace w a 0).outcome z = some q ∧
          vector m.cols w ⬝ᵥ vector m.cols p = vector m.cols q ⬝ᵥ vector m.cols x

section Products

variable {y : Array K} {a b : K}

theorem InRange.mulAdd_vector (h : m.InRange) (hx : x.size = m.cols) (hy : y.size = m.rows) :
    ∃ out, (m.mulAddInPlace x a b).outcome y = some out ∧ out.size = m.rows ∧
      vector m.rows out =
        b • vector m.rows y + a • (m.dense m.rows m.cols *ᵥ vector m.cols x) := by
  have hsums := h.sums_mulAdd? (a := a) (b := b) hx hy
  obtain ⟨out, hout, hsize, hvector⟩ := hsums.exists_vector ((size_rescale b y).trans hy)
  refine ⟨out, outcome_mulAddInPlace.trans hout, hsize, ?_⟩
  rw [hvector, vector_rescale]
  congr 1
  funext r
  rw [Pi.smul_apply, smul_eq_mul, dense_mulVec]
  exact sum_scaledTerms (sum_scattered hx a r)

theorem InRange.adjointMulAdd_vector (h : m.InRange) (hx : x.size = m.rows)
    (hy : y.size = m.cols) :
    ∃ out, (m.adjointMulAddInPlace x a b).outcome y = some out ∧ out.size = m.cols ∧
      vector m.cols out =
        b • vector m.cols y + a • ((m.dense m.rows m.cols)ᵀ *ᵥ vector m.rows x) := by
  have hsums := h.sums_adjointMulAdd? (a := a) (b := b) hx hy
  obtain ⟨out, hout, hsize, hvector⟩ := hsums.exists_vector ((size_rescale b y).trans hy)
  refine ⟨out, outcome_adjointMulAddInPlace.trans hout, hsize, ?_⟩
  rw [hvector, vector_rescale]
  congr 1
  funext r
  rw [Pi.smul_apply, smul_eq_mul, dense_transpose_mulVec]
  exact sum_scaledTerms (sum_gathered h r.isLt a)

theorem Formatted.symMulAdd_vector (h : m.Formatted) (hupper : m.isUpper? = some true)
    (hsquare : m.cols = m.rows) (hx : x.size = m.cols) (hy : y.size = m.cols) :
    ∃ out, (m.symMulAddInPlace x a b).outcome y = some out ∧ out.size = m.cols ∧
      vector m.cols out = b • vector m.cols y +
        a • (symmetrized (m.dense m.cols m.cols) *ᵥ vector m.cols x) := by
  have hsums := h.sums_symMulAdd? (a := a) (b := b) hupper hsquare hx hy
  obtain ⟨out, hout, hsize, hvector⟩ := hsums.exists_vector ((size_rescale b y).trans hy)
  refine ⟨out, outcome_symMulAddInPlace.trans hout, hsize, ?_⟩
  rw [hvector, vector_rescale]
  congr 1
  funext r
  rw [Pi.smul_apply, smul_eq_mul, symmetrized_dense_mulVec]
  refine (sum_mirrored h.inRange hsquare hx r.isLt a).trans ?_
  rw [← hsquare]

end Products

theorem dotProduct_products {r c : Nat} (d : Matrix (Fin r) (Fin c) K) (a : K) {w p y : Fin r → K}
    {x q z : Fin c → K} (hp : p = (0 : K) • y + a • (d *ᵥ x))
    (hq : q = (0 : K) • z + a • (dᵀ *ᵥ w)) : w ⬝ᵥ p = q ⬝ᵥ x := by
  rw [hp, hq, zero_smul, zero_smul, zero_add, zero_add, dotProduct_smul, smul_dotProduct,
    dotProduct_mulVec, mulVec_transpose]

theorem Formatted.multiplies (h : m.Formatted) : m.Multiplies where
  stored _ _ := h.exists_found_entryAt
  plain _ _ _ _ := h.inRange.mulAdd_vector
  adjoint _ _ _ _ := h.inRange.adjointMulAdd_vector
  symmetric hupper hsquare _ _ _ _ := h.symMulAdd_vector hupper hsquare
  pairing w x y z a hw hx hy hz := by
    obtain ⟨p, hp, -, hpvector⟩ := h.inRange.mulAdd_vector (a := a) (b := 0) hx hy
    obtain ⟨q, hq, -, hqvector⟩ := h.inRange.adjointMulAdd_vector (a := a) (b := 0) hw hz
    exact ⟨p, q, hp, hq, dotProduct_products _ a hpvector hqvector⟩
  selfAdjoint hupper hsquare w x y z a hw hx hy hz := by
    obtain ⟨p, hp, -, hpvector⟩ := h.symMulAdd_vector (a := a) (b := 0) hupper hsquare hx hy
    obtain ⟨q, hq, -, hqvector⟩ := h.symMulAdd_vector (a := a) (b := 0) hupper hsquare hw hz
    rw [← transpose_symmetrized] at hqvector
    exact ⟨p, q, hp, hq, dotProduct_products _ a hpvector hqvector⟩

end Exact

section Products

structure Completes {α : Type} [Scalar α] (m : Csc α) : Prop where
  plain : ∀ (x y : Array α) (a b : α), x.size = m.cols → y.size = m.rows →
    ∃ out, (m.mulAddInPlace x a b).outcome y = some out ∧ out.size = m.rows
  adjoint : ∀ (x y : Array α) (a b : α), x.size = m.rows → y.size = m.cols →
    ∃ out, (m.adjointMulAddInPlace x a b).outcome y = some out ∧ out.size = m.cols
  symmetric : m.isUpper? = some true → m.cols = m.rows →
    ∀ (x y : Array α) (a b : α), x.size = m.cols → y.size = m.cols →
      ∃ out, (m.symMulAddInPlace x a b).outcome y = some out ∧ out.size = m.cols

theorem Formatted.completes {α : Type} [Scalar α] {m : Csc α} (h : m.Formatted) :
    m.Completes where
  plain x y a b hx hy := by
    obtain ⟨out, hout, hsize, -⟩ := h.inRange.sums_mulAdd? (a := a) (b := b) hx hy
    exact ⟨out, outcome_mulAddInPlace.trans hout, hsize⟩
  adjoint x y a b hx hy := by
    obtain ⟨out, hout, hsize, -⟩ := h.inRange.sums_adjointMulAdd? (a := a) (b := b) hx hy
    exact ⟨out, outcome_adjointMulAddInPlace.trans hout, hsize⟩
  symmetric hupper hsquare x y a b hx hy := by
    obtain ⟨out, hout, hsize, -⟩ := h.sums_symMulAdd? (a := a) (b := b) hupper hsquare hx hy
    exact ⟨out, outcome_symMulAddInPlace.trans hout, hsize⟩

/-- In exact arithmetic the three products with a matrix that passes the format check are those with
its dense matrix. In any arithmetic they are written over `y` without a trace of what they must not
depend on. -/
theorem multiplies_of_checkFormat :
    (∀ {K : Type} [LinearOrder K] [ExactScalar K] (m : Csc K),
      m.checkFormat = .ok () → m.Multiplies) ∧
    ∀ {α : Type} [Scalar α] (m : Csc α),
      Updates (fun nx ny => nx = m.cols ∧ ny = m.rows) m.mulAdd? m.mulAddInPlace ∧
      Updates (fun nx ny => nx = m.rows ∧ ny = m.cols) m.adjointMulAdd? m.adjointMulAddInPlace ∧
      Updates (fun nx ny => nx = m.cols ∧ ny = m.cols ∧ m.cols = m.rows) m.symMulAdd?
        m.symMulAddInPlace ∧
      (m.checkFormat = .ok () → m.Completes) :=
  ⟨fun _ h => (checkFormat_eq_ok_iff.mp h).multiplies, fun m =>
    ⟨updates_mulAdd m, updates_adjointMulAdd m, updates_symMulAdd m, fun h =>
      (checkFormat_eq_ok_iff.mp h).completes⟩⟩

def bordered : Csc (Exact ℚ) := ⟨2, 2, #[0, 1, 3], #[0, 0, 1], #[1 + 1, 1, 1 + 1 + 1 + 1]⟩

open Matrix in
theorem multiplies_of_checkFormat_bordered :
    bordered.checkFormat = .ok () ∧ bordered.isUpper? = some true ∧
    ∃ out : Array (Exact ℚ), out = #[1 + 1 + 1, 1 + 1 + 1 + 1 + 1] ∧
      (∀ y : Array (Exact ℚ), y.size = 2 →
        (bordered.symMulAddInPlace #[1, 1] 1 0).outcome y = some out) ∧
      vector 2 out = symmetrized (bordered.dense 2 2) *ᵥ vector 2 #[1, 1] ∧
      (bordered.symMulAddInPlace #[1, 1] 1 0).run #[1] = (none, #[1]) := by
  have hformat : bordered.checkFormat = .ok () := by decide +kernel
  have hupper : bordered.isUpper? = some true := by decide +kernel
  have hvalue : (bordered.symMulAddInPlace #[1, 1] 1 0).outcome #[0, 0] =
      some #[1 + 1 + 1, 1 + 1 + 1 + 1 + 1] := by decide +kernel
  have hupdates := (multiplies_of_checkFormat.2 bordered).2.2.1
  obtain ⟨out, hout, -, hvector⟩ := (multiplies_of_checkFormat.1 bordered hformat).symmetric hupper
    rfl #[1, 1] #[0, 0] 1 0 rfl rfl
  refine ⟨hformat, hupper, out, Option.some.inj (hout.symm.trans hvalue), ?_, ?_, ?_⟩
  · intro y hy
    rw [← hout]
    exact hupdates.overwrites _ _ _ _ _ (by decide) hy
  · rw [zero_smul, one_smul, zero_add] at hvector
    exact hvector
  · exact hupdates.rejects _ _ _ _ (by decide)

end Products

end NonlinearOpt.Csc
