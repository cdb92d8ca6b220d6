import Mathlib
import NonlinearOpt.Proofs.Sparse.Dense
import NonlinearOpt.Proofs.Sparse.Sorted

namespace NonlinearOpt

variable {K : Type} [LinearOrder K] [ExactScalar K]

namespace Triplet

/-- The sum of the values, weighted by their positions. -/
def weigh (w : Nat → Nat → K) (ts : List (Triplet K)) : K :=
  (ts.map fun t => t.value * w t.row t.col).sum

variable {w : Nat → Nat → K}

theorem weigh_append (ts us : List (Triplet K)) : weigh w (ts ++ us) = weigh w ts + weigh w us := by
  simp [weigh]

theorem weigh_perm {ts us : List (Triplet K)} (h : ts.Perm us) : weigh w ts = weigh w us :=
  (h.map _).sum_eq

theorem weigh_combine_go (t : Triplet K) (ts : List (Triplet K)) :
    weigh w (combine.go t ts) = weigh w (t :: ts) := by
  induction ts generalizing t with
  | nil => rfl
  | cons u us ih =>
    unfold combine.go
    split
    · next hsame =>
      simp only [samePlace, Bool.and_eq_true, beq_iff_eq] at hsame
      rw [ih]
      simp only [weigh, List.map_cons, List.sum_cons, hsame.1, hsame.2]
      ring
    · have hrest := ih u
      simp only [weigh, List.map_cons, List.sum_cons] at hrest ⊢
      rw [hrest]

theorem weigh_combine (ts : List (Triplet K)) : weigh w (combine ts) = weigh w ts := by
  cases ts with
  | nil => rfl
  | cons t ts => exact weigh_combine_go t ts

end Triplet

namespace Csc

open Triplet

def weigh (w : Nat → Nat → K) (blocks : List (List (Nat × K))) : K :=
  ∑ c ∈ Finset.range blocks.length, ((blocks.getD c []).map fun e => e.2 * w e.1 c).sum

theorem sum_filter_col {w : Nat → Nat → K} {cols : Nat} {es : List (Triplet K)}
    (hcols : ∀ t ∈ es, t.col < cols) :
    ∑ c ∈ Finset.range cols, ((es.filter (·.col = c)).map fun t => t.value * w t.row c).sum =
      Triplet.weigh w es := by
  induction es with
  | nil => simp [Triplet.weigh]
  | cons t es ih =>
    have hstep : ∀ c, (((t :: es).filter (·.col = c)).map fun t => t.value * w t.row c).sum =
        (if t.col = c then t.value * w t.row c else 0) +
          ((es.filter (·.col = c)).map fun t => t.value * w t.row c).sum := by
      intro c
      by_cases hc : t.col = c <;> simp [hc]
    have ht : t.col ∈ Finset.range cols := Finset.mem_range.mpr (hcols t (by simp))
    rw [Finset.sum_congr rfl fun c _ => hstep c, Finset.sum_add_distrib,
      ih fun t' ht' => hcols t' (by simp [ht'])]
    simp [ht, Triplet.weigh]

theorem weigh_tripletBlocks {w : Nat → Nat → K} {cols : Nat} {ts : List (Triplet K)}
    (hcols : ∀ t ∈ ts, t.col < cols) : weigh w (tripletBlocks cols ts) = Triplet.weigh w ts := by
  have hbound : ∀ t ∈ combine (ts.mergeSort before), t.col < cols := by
    intro t ht
    obtain ⟨t', ht', -, hcol⟩ := mem_combine_sort ht
    exact hcol ▸ hcols t' ht'
  calc weigh w (tripletBlocks cols ts)
      = ∑ c ∈ Finset.range cols, (((combine (ts.mergeSort before)).filter (·.col = c)).map
          fun t => t.value * w t.row c).sum := by
        unfold weigh tripletBlocks
        rw [List.length_map, List.length_range]
        apply Finset.sum_congr rfl
        intro c hc
        simp [Finset.mem_range.mp hc, Function.comp_def]
    _ = Triplet.weigh w (combine (ts.mergeSort before)) := sum_filter_col hbound
    _ = Triplet.weigh w (ts.mergeSort before) := weigh_combine _
    _ = Triplet.weigh w ts := weigh_perm (List.mergeSort_perm ts before)

theorem Holds.entryAt_eq {a : Csc K} {blocks : List (List (Nat × K))} (h : Holds a blocks)
    {i c : Nat} (hc : c < a.cols) : a.entryAt i c = sumAt (blocks.getD c []) i := by
  have hlt : c < blocks.length := h.cols ▸ hc
  rw [entryAt_eq_sumAt (h.stores.entries? hlt), List.getD_eq_getElem _ _ hlt]

theorem Holds.weigh_eq {a : Csc K} {blocks : List (List (Nat × K))} (h : Holds a blocks)
    (w : Nat → Nat → K) :
    weigh w blocks = ∑ c ∈ Finset.range a.cols, ∑ r ∈ Finset.range a.rows,
      a.entryAt r c * w r c := by
  unfold weigh
  rw [h.cols]
  apply Finset.sum_congr rfl
  intro c hc
  have hlt : c < blocks.length := h.cols ▸ Finset.mem_range.mp hc
  have hmem : blocks.getD c [] ∈ blocks := by
    rw [List.getD_eq_getElem _ _ hlt]
    exact List.getElem_mem hlt
  rw [← sum_sumAt_mul _ (h.rows _ hmem) fun r => w r c]
  apply Finset.sum_congr rfl
  intro r _
  rw [h.entryAt_eq (Finset.mem_range.mp hc)]

theorem weigh_triplets? {a : Csc K} (hrange : a.InRange) {ts : List (Triplet K)}
    (h : a.triplets? = some ts) (w : Nat → Nat → K) :
    Triplet.weigh w ts = ∑ c ∈ Finset.range a.cols, ∑ r ∈ Finset.range a.rows,
      a.entryAt r c * w r c := by
  obtain ⟨-, rfl⟩ := triplets?_eq_flatten h
  have hcolumn : ∀ c ∈ Finset.range a.cols,
      (((a.entries? c).getD []).map fun e => e.2 * w e.1 c).sum =
        ∑ r ∈ Finset.range a.rows, a.entryAt r c * w r c := by
    intro c hc
    obtain ⟨column, hentries, hrows⟩ := hrange c (Finset.mem_range.mp hc)
    rw [sum_entryAt_mul hentries hrows fun r => w r c, hentries, Option.getD_some]
  rw [← Finset.sum_congr rfl hcolumn, Triplet.weigh, List.map_flatten, List.sum_flatten,
    List.map_map, List.map_map]
  simp only [Function.comp_def, List.map_map]
  rfl

end Csc

end NonlinearOpt
