import Mathlib
import NonlinearOpt.Proofs.Sparse.Lookup

namespace NonlinearOpt

section Sums

variable {α : Type} [Scalar α]

def sumFromLeft? : List α → Option α
  | [] => none
  | v :: vs => some (vs.foldl (· + ·) v)

end Sums

namespace Triplet

variable {α : Type}

def ofArrays (is js : Array Nat) (vs : Array α) : List (Triplet α) :=
  (is.toList.zip (js.toList.zip vs.toList)).map fun (i, j, v) => ⟨i, j, v⟩

theorem forall_mem_ofArrays {P Q : Nat → Prop} {is js : Array Nat} {vs : Array α}
    (hjs : is.size = js.size) (hvs : is.size = vs.size) :
    (∀ t ∈ ofArrays is js vs, P t.row ∧ Q t.col) ↔ (∀ i ∈ is, P i) ∧ ∀ j ∈ js, Q j := by
  have hrows : (ofArrays is js vs).map (·.row) = is.toList := by
    rw [ofArrays, List.map_map]
    exact List.map_fst_zip (by simp [← hjs, ← hvs])
  have hcols : (ofArrays is js vs).map (·.col) = js.toList :=
    calc (ofArrays is js vs).map (·.col)
        = ((is.toList.zip (js.toList.zip vs.toList)).map Prod.snd).map Prod.fst := by
          rw [ofArrays, List.map_map, List.map_map]
          rfl
      _ = (js.toList.zip vs.toList).map Prod.fst := by
          rw [List.map_snd_zip (by simp [← hjs, ← hvs])]
      _ = js.toList := List.map_fst_zip (by simp [← hjs, ← hvs])
  simp only [← Array.mem_toList_iff, ← hrows, ← hcols, List.forall_mem_map, forall_and]

def valuesAt (ts : List (Triplet α)) (i j : Nat) : List α :=
  (ts.filter fun t => decide (t.row = i ∧ t.col = j)).map (·.value)

theorem valuesAt_cons (t : Triplet α) (ts : List (Triplet α)) (i j : Nat) :
    valuesAt (t :: ts) i j =
      if t.row = i ∧ t.col = j then t.value :: valuesAt ts i j else valuesAt ts i j := by
  unfold valuesAt
  by_cases h : t.row = i ∧ t.col = j <;> simp [h]

theorem valuesAt_ne_nil_iff {ts : List (Triplet α)} {i j : Nat} :
    valuesAt ts i j ≠ [] ↔ (i, j) ∈ ts.map place := by
  simp [valuesAt, place]

/-- Triplets at one position keep their order. -/
theorem valuesAt_sort (ts : List (Triplet α)) (i j : Nat) :
    valuesAt (ts.mergeSort before) i j = valuesAt ts i j := by
  have hsub : (ts.filter fun t => decide (t.row = i ∧ t.col = j)).Sublist (ts.mergeSort before) := by
    apply List.sublist_mergeSort
    · intro s t u hst htu
      rw [before_iff, Precedes] at *
      omega
    · intro s t
      rw [Bool.or_eq_true, before_iff, before_iff, Precedes, Precedes]
      omega
    · apply List.pairwise_of_forall_mem_list
      intro s hs t ht
      have hs := of_decide_eq_true (List.mem_filter.mp hs).2
      have ht := of_decide_eq_true (List.mem_filter.mp ht).2
      rw [before_iff, Precedes]
      omega
    · exact List.filter_sublist
  have hfiltered := hsub.filter fun t => decide (t.row = i ∧ t.col = j)
  rw [List.filter_filter, List.filter_congr fun t _ => Bool.and_self _] at hfiltered
  have hlength := ((List.mergeSort_perm ts before).filter
    fun t => decide (t.row = i ∧ t.col = j)).length_eq
  exact congrArg (List.map (·.value)) (hfiltered.eq_of_length hlength.symm).symm

variable [Scalar α]

theorem sumFromLeft?_merge {t u : Triplet α} (hsame : t.row = u.row ∧ t.col = u.col)
    (us : List (Triplet α)) (i j : Nat) :
    sumFromLeft? (valuesAt ({ t with value := t.value + u.value } :: us) i j) =
      sumFromLeft? (valuesAt (t :: u :: us) i j) := by
  simp only [valuesAt_cons, hsame.1, hsame.2]
  by_cases h : u.row = i ∧ u.col = j
  · rw [if_pos h, if_pos h, if_pos h]
    rfl
  · rw [if_neg h, if_neg h, if_neg h]

omit [Scalar α] in
theorem valuesAt_of_later {t u : Triplet α} {us : List (Triplet α)}
    (h : (t :: u :: us).Pairwise Precedes) (hother : ¬ (t.row = u.row ∧ t.col = u.col)) :
    valuesAt (u :: us) t.row t.col = [] := by
  obtain ⟨hfirst, hrest⟩ := List.pairwise_cons.mp h
  by_contra hsome
  obtain ⟨v, hv, hat⟩ := List.mem_map.mp (valuesAt_ne_nil_iff.mp hsome)
  obtain ⟨hrow, hcol⟩ := Prod.mk.inj hat
  have htu := hfirst u List.mem_cons_self
  have huv : u = v ∨ u.Precedes v := by
    rcases List.mem_cons.mp hv with heq | hv
    · exact .inl heq.symm
    · exact .inr ((List.pairwise_cons.mp hrest).1 v hv)
  rw [Precedes] at htu
  rcases huv with rfl | huv
  · omega
  · rw [Precedes] at huv
    omega

theorem eq_iff_sumFromLeft? {s t : Triplet α} {us : List (Triplet α)}
    (hothers : valuesAt us s.row s.col = []) :
    s = t ↔ sumFromLeft? (valuesAt (t :: us) s.row s.col) = some s.value := by
  obtain ⟨i, j, v⟩ := s
  obtain ⟨i', j', v'⟩ := t
  rw [valuesAt_cons, hothers]
  by_cases hplace : i' = i ∧ j' = j
  · obtain ⟨rfl, rfl⟩ := hplace
    simp [sumFromLeft?, eq_comm]
  · rw [if_neg hplace]
    simp only [Triplet.mk.injEq, sumFromLeft?, reduceCtorEq, iff_false]
    rintro ⟨rfl, rfl, -⟩
    exact hplace ⟨rfl, rfl⟩

theorem mem_combine_go {t : Triplet α} {ts : List (Triplet α)} (h : (t :: ts).Pairwise Precedes)
    (s : Triplet α) :
    s ∈ combine.go t ts ↔ sumFromLeft? (valuesAt (t :: ts) s.row s.col) = some s.value := by
  induction ts generalizing t with
  | nil =>
    rw [combine.go, List.mem_singleton]
    exact eq_iff_sumFromLeft? rfl
  | cons u us ih =>
    obtain ⟨hfirst, hrest⟩ := List.pairwise_cons.mp h
    unfold combine.go
    split
    · next hsame =>
      simp only [samePlace, Bool.and_eq_true, beq_iff_eq] at hsame
      rw [ih, sumFromLeft?_merge hsame]
      rw [List.pairwise_cons] at hrest ⊢
      exact ⟨fun v hv => hfirst v (List.mem_cons_of_mem _ hv), hrest.2⟩
    · next hother =>
      simp only [samePlace, Bool.and_eq_true, beq_iff_eq] at hother
      rw [List.mem_cons, ih hrest]
      by_cases hplace : t.row = s.row ∧ t.col = s.col
      · have hnone : valuesAt (u :: us) s.row s.col = [] := by
          rw [← hplace.1, ← hplace.2]
          exact valuesAt_of_later h hother
        rw [← eq_iff_sumFromLeft? hnone, hnone]
        simp [sumFromLeft?]
      · rw [valuesAt_cons t, if_neg hplace, or_iff_right_iff_imp]
        rintro rfl
        exact absurd ⟨rfl, rfl⟩ hplace

/-- What is left at a position is the sum over the triplets there. -/
theorem mem_combine_sort_iff {ts : List (Triplet α)} {s : Triplet α} :
    s ∈ combine (ts.mergeSort before) ↔
      sumFromLeft? (valuesAt ts s.row s.col) = some s.value := by
  rw [← valuesAt_sort]
  have hsorted := pairwise_sort ts
  cases hts : ts.mergeSort before with
  | nil => simp [combine, valuesAt, sumFromLeft?]
  | cons t us => exact mem_combine_go (hts ▸ hsorted) s

end Triplet

namespace Csc

open Triplet

variable {α : Type} [Scalar α]

structure Assembled (a : Csc α) (m n : Nat) (ts : List (Triplet α)) : Prop where
  rows : a.rows = m
  cols : a.cols = n
  format : a.checkFormat = .ok ()
  wellFormed : a.WellFormed
  places : ∀ i j, (∃ k v, a.StoredAt k i j v) ↔ (i, j) ∈ ts.map place
  once : ∀ k k' i j v v', a.StoredAt k i j v → a.StoredAt k' i j v' → k = k'
  sums : ∀ i j v, (∃ k, a.StoredAt k i j v) ↔ sumFromLeft? (valuesAt ts i j) = some v
  found : ∀ i j, i < m → j < n → a.entry? i j = some (sumFromLeft? (valuesAt ts i j))

section Triplets

variable {rows cols : Nat} {ts : List (Triplet α)}

theorem exists_storedAt_ofTriplets (hbound : ∀ t ∈ ts, t.row < rows ∧ t.col < cols) {i j : Nat}
    {v : α} : (∃ k, (ofTriplets rows cols ts).StoredAt k i j v) ↔
      sumFromLeft? (valuesAt ts i j) = some v := by
  have hholds := holds_ofTriplets hbound
  have hentry : sumFromLeft? (valuesAt ts i j) = some v ↔
      (⟨i, j, v⟩ : Triplet α) ∈ combine (ts.mergeSort before) :=
    (mem_combine_sort_iff (s := ⟨i, j, v⟩)).symm
  rw [hentry]
  constructor
  · rintro ⟨k, hstored⟩
    have hj : j < cols := by
      have hlt := hstored.lt_colStart
      rw [hholds.stores.colStart, size_cumulative] at hlt
      simp [tripletBlocks] at hlt
      omega
    have hlt : j < (tripletBlocks cols ts).length := by simpa [tripletBlocks] using hj
    have hmem := (exists_storedAt_iff (hholds.stores.entries? hlt)).mp ⟨k, hstored⟩
    simp only [tripletBlocks, List.getElem_map, List.getElem_range] at hmem
    obtain ⟨t, ht, hvalue⟩ := List.mem_map.mp hmem
    obtain ⟨ht, hcol⟩ := List.mem_filter.mp ht
    obtain ⟨i', j', v'⟩ := t
    cases hvalue
    have hcol : j' = j := of_decide_eq_true hcol
    exact hcol ▸ ht
  · intro hmem
    obtain ⟨t, ht, -, hcol⟩ := mem_combine_sort hmem
    have hj : j < cols := by
      rw [← show t.col = j from hcol]
      exact (hbound t ht).2
    have hlt : j < (tripletBlocks cols ts).length := by simpa [tripletBlocks] using hj
    apply (exists_storedAt_iff (hholds.stores.entries? hlt)).mpr
    simp only [tripletBlocks, List.getElem_map, List.getElem_range]
    exact List.mem_map.mpr ⟨_, List.mem_filter.mpr ⟨hmem, decide_eq_true rfl⟩, rfl⟩

theorem sumFromLeft?_isSome_iff {vs : List α} : (∃ v, sumFromLeft? vs = some v) ↔ vs ≠ [] := by
  cases vs <;> simp [sumFromLeft?]

theorem assembled_ofTriplets (hbound : ∀ t ∈ ts, t.row < rows ∧ t.col < cols) :
    (ofTriplets rows cols ts).Assembled rows cols ts := by
  have hholds := holds_ofTriplets hbound
  have hformat := hholds.checkFormat (ascending_tripletBlocks cols ts)
  have hfirst : (ofTriplets rows cols ts).colStart[0]? = some 0 := by
    rw [hholds.stores.colStart, getElem?_cumulative _ (Nat.zero_le _)]
    rfl
  have hwellFormed := wellFormed_iff_checkFormat.mpr ⟨hformat, hfirst⟩
  have hsums := fun i j v => exists_storedAt_ofTriplets hbound (i := i) (j := j) (v := v)
  refine ⟨rfl, rfl, hformat, hwellFormed, ?_, hwellFormed.allotted.distinct, hsums, ?_⟩
  · intro i j
    rw [exists_comm, ← valuesAt_ne_nil_iff, ← sumFromLeft?_isSome_iff]
    exact exists_congr fun v => hsums i j v
  · intro i j hi hj
    obtain ⟨found, hentry, hfound⟩ := (checkFormat_eq_ok_iff.mp hformat).exists_found hi hj
    rw [hentry]
    congr 1
    apply Option.ext
    intro v
    rw [hfound v, hsums i j v]

end Triplets

theorem ofCoordinates?_eq (rows cols : Nat) (is js : Array Nat) (vs : Array α) :
    ofCoordinates? rows cols is js vs =
      if is.size = js.size ∧ is.size = vs.size then ofTriplets? rows cols (ofArrays is js vs)
      else none :=
  rfl

theorem ofTriplets?_eq_some {rows cols : Nat} {ts : List (Triplet α)} {a : Csc α} :
    ofTriplets? rows cols ts = some a ↔
      (∀ t ∈ ts, t.row < rows ∧ t.col < cols) ∧ ofTriplets rows cols ts = a := by
  unfold ofTriplets?
  split
  · next h => simpa using fun _ => by simpa using h
  · next h =>
    simp only [reduceCtorEq, false_iff, not_and]
    intro hbound
    exact absurd (by simpa using hbound) h

/-- A matrix of coordinates is defined just when the arrays fit and all positions lie inside. It has
the given triplets as its entries, and their order does not matter for where the entries are. -/
theorem ofCoordinates?_assembled (rows cols : Nat) (is js : Array Nat) (vs : Array α) :
    (ofCoordinates? rows cols is js vs = none ↔
      ¬ (is.size = js.size ∧ is.size = vs.size ∧ (∀ i ∈ is, i < rows) ∧ ∀ j ∈ js, j < cols)) ∧
    ∀ a, ofCoordinates? rows cols is js vs = some a →
      a.Assembled rows cols (ofArrays is js vs) ∧
      ∀ (is' js' : Array Nat) (vs' : Array α), is'.size = js'.size → is'.size = vs'.size →
        (ofArrays is' js' vs').Perm (ofArrays is js vs) →
          ∃ a', ofCoordinates? rows cols is' js' vs' = some a' ∧ a.SamePattern a' := by
  have hsome : ∀ is js vs (a : Csc α), ofCoordinates? rows cols is js vs = some a ↔
      is.size = js.size ∧ is.size = vs.size ∧
        (∀ t ∈ ofArrays is js vs, t.row < rows ∧ t.col < cols) ∧
          ofTriplets rows cols (ofArrays is js vs) = a := by
    intro is js vs a
    rw [ofCoordinates?_eq]
    by_cases hsizes : is.size = js.size ∧ is.size = vs.size
    · rw [if_pos hsizes, ofTriplets?_eq_some, ← and_assoc]
      exact (and_iff_right hsizes).symm
    · rw [if_neg hsizes, ← and_assoc]
      exact ⟨nofun, fun h => absurd h.1 hsizes⟩
  constructor
  · rw [← not_iff_not, not_not, ← ne_eq, Option.ne_none_iff_exists']
    constructor
    · rintro ⟨a, ha⟩
      obtain ⟨hjs, hvs, hbound, -⟩ := (hsome is js vs a).mp ha
      exact ⟨hjs, hvs, (forall_mem_ofArrays hjs hvs).mp hbound⟩
    · rintro ⟨hjs, hvs, hbound⟩
      exact ⟨_, (hsome is js vs _).mpr ⟨hjs, hvs, (forall_mem_ofArrays hjs hvs).mpr hbound, rfl⟩⟩
  · intro a ha
    obtain ⟨hjs, hvs, hbound, rfl⟩ := (hsome is js vs a).mp ha
    refine ⟨assembled_ofTriplets hbound, ?_⟩
    intro is' js' vs' hjs' hvs' hperm
    refine ⟨_, (hsome is' js' vs' _).mpr ⟨hjs', hvs', ?_, rfl⟩, ?_⟩
    · exact fun t ht => hbound t (hperm.mem_iff.mp ht)
    · exact samePattern_ofTriplets fun x => (hperm.map place).mem_iff.symm

theorem ofCoordinates?_assembled_repeated :
    ∃ a : Csc (Exact ℚ),
      ofCoordinates? 3 3 #[2, 0, 1, 1, 1] #[0, 0, 2, 1, 2] #[1 + 1, 1, 1, 0, 1 + 1] = some a ∧
      a.entry? 1 2 = some (some (1 + (1 + 1))) ∧ a.entry? 1 1 = some (some 0) ∧
      a.entry? 0 1 = some none ∧
      ∃ a' : Csc (Exact ℚ), ofCoordinates? 3 3 #[1, 1, 1, 0, 2] #[2, 1, 2, 0, 0]
        #[1 + 1, 0, 1, 1, 1 + 1] = some a' ∧ a.SamePattern a' := by
  have hmain := ofCoordinates?_assembled (α := Exact ℚ) 3 3 #[2, 0, 1, 1, 1] #[0, 0, 2, 1, 2]
    #[1 + 1, 1, 1, 0, 1 + 1]
  obtain ⟨a, ha⟩ := Option.ne_none_iff_exists'.mp (hmain.1.not.mpr (by simp))
  obtain ⟨hassembled, hreordered⟩ := hmain.2 a ha
  refine ⟨a, ha, ?_, ?_, ?_, ?_⟩
  · rw [hassembled.found 1 2 (by decide) (by decide)]
    decide +kernel
  · rw [hassembled.found 1 1 (by decide) (by decide)]
    decide +kernel
  · rw [hassembled.found 0 1 (by decide) (by decide)]
    decide +kernel
  · exact hreordered #[1, 1, 1, 0, 2] #[2, 1, 2, 0, 0] #[1 + 1, 0, 1, 1, 1 + 1] rfl rfl
      (List.reverse_perm (ofArrays #[2, 0, 1, 1, 1] #[0, 0, 2, 1, 2] #[1 + 1, 1, 1, 0, 1 + 1]))

end Csc

end NonlinearOpt
