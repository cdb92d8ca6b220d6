import Mathlib
import NonlinearOpt.Proofs.Arithmetic.Exact
import NonlinearOpt.Proofs.Sparse.Blocks
import NonlinearOpt.Sparse.Product

namespace NonlinearOpt

variable {K : Type} [LinearOrder K] [ExactScalar K]

def sumAt (column : List (Nat × K)) (i : Nat) : K :=
  (column.map fun e => if e.1 = i then e.2 else 0).sum

theorem sumAt_nil (i : Nat) : sumAt ([] : List (Nat × K)) i = 0 := rfl

theorem sumAt_cons (e : Nat × K) (column : List (Nat × K)) (i : Nat) :
    sumAt (e :: column) i = (if e.1 = i then e.2 else 0) + sumAt column i := by
  simp [sumAt]

theorem sumAt_concat (column : List (Nat × K)) (r : Nat) (v : K) (i : Nat) :
    sumAt (column ++ [(r, v)]) i = sumAt column i + if r = i then v else 0 := by
  simp [sumAt]

theorem sumAt_eq_zero {column : List (Nat × K)} {i : Nat} (h : i ∉ column.map Prod.fst) :
    sumAt column i = 0 := by
  apply List.sum_eq_zero
  intro x hx
  obtain ⟨e, he, rfl⟩ := List.mem_map.mp hx
  rw [if_neg]
  rintro rfl
  exact h (List.mem_map_of_mem he)

theorem sumAt_eq_of_mem {column : List (Nat × K)} (hnodup : (column.map Prod.fst).Nodup) {i : Nat}
    {v : K} (h : (i, v) ∈ column) : sumAt column i = v := by
  induction column with
  | nil => cases h
  | cons e column ih =>
    rw [List.map_cons, List.nodup_cons] at hnodup
    rw [sumAt_cons]
    rcases List.mem_cons.mp h with rfl | h
    · rw [if_pos rfl, sumAt_eq_zero hnodup.1, add_zero]
    · have hne : e.1 ≠ i := by
        rintro rfl
        exact hnodup.1 (List.mem_map.mpr ⟨_, h, rfl⟩)
      rw [if_neg hne, zero_add, ih hnodup.2 h]

theorem sum_zipIdx (values : Array K) (f : K × Nat → K) :
    (values.toList.zipIdx.map f).sum =
      ∑ k ∈ Finset.range values.size, f (values.getD k 0, k) := by
  have hlist : values.toList.zipIdx.map f =
      (List.range values.size).map fun k => f (values.getD k 0, k) := by
    apply List.ext_getElem?
    intro k
    by_cases hk : k < values.size <;> simp [hk]
  rw [hlist]
  rfl

namespace Csc

def entryAt (a : Csc K) (i j : Nat) : K :=
  (((a.entries? j).getD []).map fun e => if e.1 = i then e.2 else 0).sum

/-- The entry of the symmetric matrix of which one triangle is stored. -/
def symmetricAt (a : Csc K) (i j : Nat) : K :=
  if i = j then a.entryAt i j else a.entryAt i j + a.entryAt j i

def InRange (a : Csc K) : Prop :=
  ∀ j, j < a.cols → ∃ column, a.entries? j = some column ∧ ∀ e ∈ column, e.1 < a.rows

theorem entryAt_eq_sumAt {a : Csc K} {i j : Nat} {column : List (Nat × K)}
    (h : a.entries? j = some column) : a.entryAt i j = sumAt column i := by
  rw [Csc.entryAt, h, Option.getD_some, sumAt]

theorem symmetricAt_comm (a : Csc K) (i j : Nat) : a.symmetricAt i j = a.symmetricAt j i := by
  unfold symmetricAt
  by_cases h : i = j
  · rw [h]
  · rw [if_neg h, if_neg (Ne.symm h), add_comm]

theorem sum_sumAt_mul (column : List (Nat × K)) {n : Nat} (hrange : ∀ e ∈ column, e.1 < n)
    (v : Nat → K) : ∑ i ∈ Finset.range n, sumAt column i * v i =
      (column.map fun e => e.2 * v e.1).sum := by
  induction column with
  | nil => simp [sumAt_nil]
  | cons e column ih =>
    have he : e.1 ∈ Finset.range n := Finset.mem_range.mpr (hrange e (by simp))
    simp only [sumAt_cons, List.map_cons, List.sum_cons, add_mul, Finset.sum_add_distrib,
      ih fun e' he' => hrange e' (by simp [he'])]
    simp [ite_mul, he]

theorem foldlM_gather {x : Array K} {column : List (Nat × K)} {start out : K}
    (h : column.foldlM (fun s (i, v) => do return s + 1 * v * (← x[i]?)) start = some out) :
    (∀ e ∈ column, e.1 < x.size) ∧ out = start + (column.map fun e => e.2 * x.getD e.1 0).sum := by
  induction column generalizing start with
  | nil =>
    cases h
    simp
  | cons e column ih =>
    obtain ⟨next, hnext, h⟩ := foldlM_cons_eq_some.mp h
    obtain ⟨xi, hxi, hnext⟩ := Option.bind_eq_some_iff.mp hnext
    cases hnext
    obtain ⟨hrange, rfl⟩ := ih h
    have hi : e.1 < x.size := (Array.getElem?_eq_some_iff.mp hxi).1
    refine ⟨by simpa [hi] using hrange, ?_⟩
    simp [hxi]
    ring

theorem sum_entryAt_mul {a : Csc K} {j : Nat} {column : List (Nat × K)}
    (h : a.entries? j = some column) (hrange : ∀ e ∈ column, e.1 < a.rows) (v : Nat → K) :
    ∑ i ∈ Finset.range a.rows, a.entryAt i j * v i = (column.map fun e => e.2 * v e.1).sum := by
  simp only [entryAt_eq_sumAt h]
  exact sum_sumAt_mul column hrange v

theorem rescale_one (y : Array K) : rescale 1 y = y := by
  have hzero : ¬ Scalar.eq (1 : K) 0 = true := fun h => one_ne_zero (ExactScalar.eq_iff.mp h)
  have hone : Scalar.eq (1 : K) 1 = true := ExactScalar.eq_iff.mpr rfl
  rw [rescale, if_neg hzero, if_pos hone]

theorem adjointMulAdd?_eq_some {m : Csc K} {y x out : Array K}
    (h : m.adjointMulAdd? y x 1 1 = some out) :
    m.InRange ∧ x.size = m.rows ∧ y.size = m.cols ∧ out.size = m.cols ∧
      ∀ j, j < m.cols → out.getD j 0 =
        y.getD j 0 + ∑ i ∈ Finset.range m.rows, m.entryAt i j * x.getD i 0 := by
  have hzero : ¬ Scalar.eq (1 : K) 0 = true := fun h => one_ne_zero (ExactScalar.eq_iff.mp h)
  unfold adjointMulAdd? at h
  by_cases hsizes : x.size = m.rows ∧ y.size = m.cols
  case neg =>
    rw [if_pos (by rwa [← not_and_or])] at h
    cases h
  obtain ⟨hx, hy⟩ := hsizes
  rw [if_neg (by simp [hx, hy]), if_neg hzero, rescale_one] at h
  obtain ⟨sums, hsums, h⟩ := Option.bind_eq_some_iff.mp h
  cases h
  have hlength : sums.length = m.cols := by
    rw [length_of_mapM hsums]
    simpa using hy
  have hcolumn : ∀ j, j < m.cols → ∃ column, m.entries? j = some column ∧
      (∀ e ∈ column, e.1 < x.size) ∧
        sums.getD j 0 = y.getD j 0 + (column.map fun e => e.2 * x.getD e.1 0).sum := by
    intro j hj
    have hget := getElem?_of_mapM hsums j
    have hyj : y.toList.zipIdx[j]? = some (y.getD j 0, j) := by
      simp [hy, hj]
    rw [hyj, Option.bind_some, List.getElem?_eq_getElem (hlength ▸ hj)] at hget
    obtain ⟨column, hcolumn, hfold⟩ := Option.bind_eq_some_iff.mp hget.symm
    obtain ⟨hrange, hsum⟩ := foldlM_gather hfold
    refine ⟨column, hcolumn, hrange, ?_⟩
    rw [List.getD_eq_getElem _ _ (hlength ▸ hj), hsum]
  refine ⟨?_, hx, hy, by simpa using hlength, ?_⟩
  · intro j hj
    obtain ⟨column, hentries, hrange, -⟩ := hcolumn j hj
    exact ⟨column, hentries, hx ▸ hrange⟩
  · intro j hj
    obtain ⟨column, hentries, hrange, hsum⟩ := hcolumn j hj
    rw [sum_entryAt_mul hentries (hx ▸ hrange) fun i => x.getD i 0, ← hsum]
    simp

end Csc

end NonlinearOpt
