import Mathlib
import NonlinearOpt.Kkt.System
import NonlinearOpt.Proofs.Sparse.TripletSums

namespace NonlinearOpt

variable {K : Type} [LinearOrder K] [ExactScalar K]

namespace Csc

/-- The number that an entry at a position multiplies in row `i` of a symmetric product. -/
def partner (v : Nat → K) (i r c : Nat) : K := if r = i then v c else if c = i then v r else 0

theorem partner_comm (v : Nat → K) (i r c : Nat) : partner v i r c = partner v i c r := by
  unfold partner
  by_cases hr : r = i <;> by_cases hc : c = i <;> simp [hr, hc]

theorem partner_self (v : Nat → K) (i c : Nat) : partner v i c c = if c = i then v i else 0 := by
  unfold partner
  by_cases hc : c = i <;> simp [hc]

theorem sum_partner_self (v : Nat → K) (i : Nat) (d : K) {cols : List Nat} (h : cols.Nodup) :
    (cols.map fun c => d * partner v i c c).sum = if i ∈ cols then d * v i else 0 := by
  induction cols with
  | nil => simp
  | cons c cols ih =>
    rw [List.nodup_cons] at h
    rw [List.map_cons, List.sum_cons, ih h.2, partner_self]
    by_cases hc : c = i
    · subst hc
      simp [h.1]
    · simp [hc, Ne.symm hc]

theorem sum_symmetricAt_mul (a : Csc K) (v : Nat → K) {n i : Nat} (hi : i < n) :
    ∑ j ∈ Finset.range n, a.symmetricAt i j * v j =
      ∑ c ∈ Finset.range n, ∑ r ∈ Finset.range n, a.entryAt r c * partner v i r c := by
  have hmem : i ∈ Finset.range n := Finset.mem_range.mpr hi
  have hsplit : ∀ r c, a.entryAt r c * partner v i r c =
      (if r = i then a.entryAt i c * v c else 0) +
        (if c = i then (if r = i then 0 else a.entryAt r i * v r) else 0) := by
    intro r c
    unfold partner
    by_cases hr : r = i
    · simp [hr]
    · by_cases hc : c = i <;> simp [hr, hc]
  have hentry : ∀ j, a.symmetricAt i j * v j =
      a.entryAt i j * v j + (if j = i then 0 else a.entryAt j i * v j) := by
    intro j
    unfold symmetricAt
    by_cases hj : j = i
    · simp [hj]
    · rw [if_neg fun h => hj h.symm, if_neg hj]
      ring
  simp only [hsplit, hentry, Finset.sum_add_distrib, Finset.sum_ite_eq', hmem, if_true]
  congr 1
  rw [Finset.sum_comm]
  simp [hmem]

theorem weigh_set {w : Nat → Nat → K} {blocks : List (List (Nat × K))} {c : Nat}
    (hc : c < blocks.length) {init : List (Nat × K)} {v v' : K}
    (hlast : blocks[c] = init ++ [(c, v)]) :
    weigh w (blocks.set c (init ++ [(c, v')])) = weigh w blocks + (v' - v) * w c c := by
  have hmem : c ∈ Finset.range blocks.length := Finset.mem_range.mpr hc
  unfold weigh
  rw [List.length_set, ← Finset.add_sum_erase _ _ hmem, ← Finset.add_sum_erase _ _ hmem]
  have hothers : ∀ j ∈ (Finset.range blocks.length).erase c,
      (((blocks.set c (init ++ [(c, v')])).getD j []).map fun e => e.2 * w e.1 j).sum =
        ((blocks.getD j []).map fun e => e.2 * w e.1 j).sum := by
    intro j hj
    rw [List.getD_eq_getElem?_getD, List.getElem?_set_ne (Finset.ne_of_mem_erase hj).symm,
      List.getD_eq_getElem?_getD]
  rw [Finset.sum_congr rfl hothers, List.getD_eq_getElem _ _ (by simpa using hc),
    List.getD_eq_getElem _ _ hc, List.getElem_set_self, hlast]
  simp only [List.map_append, List.sum_append, List.map_singleton, List.sum_singleton]
  ring

end Csc

namespace KktSystem

open Csc

section Columns

variable {α : Type} {k : KktSystem α}

theorem primal_lt_dim (hfits : k.primals + k.inequalities ≤ k.dim) :
    ∀ c ∈ List.range k.primals, c < k.dim := by
  intro c hc
  have := List.mem_range.mp hc
  omega

theorem dual_lt_dim (hfits : k.primals + k.inequalities ≤ k.dim) :
    ∀ c ∈ List.range' (k.primals + k.inequalities) (k.dim - (k.primals + k.inequalities)),
      c < k.dim := by
  intro c hc
  have := List.mem_range'_1.mp hc
  omega

end Columns

theorem shift_spec {k : KktSystem K} {f : K → K} {d : K} (hf : ∀ x, f x = x + d) {cols : List Nat}
    (hcols : ∀ c ∈ cols, c < k.dim) {values : Array K} {blocks : List (List (Nat × K))}
    (h : Holds { k.matrix with values } blocks) (hdiagonal : EndsOnDiagonal blocks) :
    ∃ blocks', Holds { k.matrix with values := k.shift cols f values } blocks' ∧
      EndsOnDiagonal blocks' ∧
      ∀ w, weigh w blocks' = weigh w blocks + (cols.map fun c => d * w c c).sum := by
  induction cols generalizing values blocks with
  | nil => exact ⟨blocks, h, hdiagonal, by simp⟩
  | cons c cols ih =>
    have hc : c < blocks.length := by
      rw [h.cols]
      exact hcols c (by simp)
    obtain ⟨init, v, hlast⟩ := hdiagonal c hc
    obtain ⟨blocks', hholds, hdiagonal', hweigh⟩ :=
      ih (fun c' hc' => hcols c' (by simp [hc'])) (h.modify_last hc hlast f) (hdiagonal.set _ _ _)
    refine ⟨blocks', hholds, hdiagonal', ?_⟩
    intro w
    rw [hweigh w, weigh_set hc hlast, hf, List.map_cons, List.sum_cons]
    ring

/-- A row of a regularized system, as a sum over the entries of the system and its shifts. -/
theorem sum_regularized {k : KktSystem K} {blocks : List (List (Nat × K))}
    (h : Holds k.matrix blocks) (hdiagonal : EndsOnDiagonal blocks)
    (hsquare : k.matrix.rows = k.matrix.cols) (hfits : k.primals + k.inequalities ≤ k.dim)
    (primal dual : K) (v : Nat → K) {i : Nat} (hi : i < k.dim) :
    ∑ j ∈ Finset.range k.dim, (k.regularized primal dual).matrix.symmetricAt i j * v j =
      weigh (partner v i) blocks + (if i < k.primals then primal * v i else 0) -
        (if k.primals + k.inequalities ≤ i then dual * v i else 0) := by
  obtain ⟨blocks₁, h₁, hdiagonal₁, hweigh₁⟩ :=
    shift_spec (fun x => (rfl : x + primal = x + primal)) (primal_lt_dim hfits) h
      hdiagonal
  obtain ⟨blocks₂, h₂, -, hweigh₂⟩ :=
    shift_spec (fun x => sub_eq_add_neg x dual) (dual_lt_dim hfits) h₁ hdiagonal₁
  have htable : weigh (partner v i) blocks₂ = ∑ c ∈ Finset.range k.dim, ∑ r ∈ Finset.range k.dim,
      (k.regularized primal dual).matrix.entryAt r c * partner v i r c := by
    rw [h₂.weigh_eq]
    simp only [hsquare]
    rfl
  rw [sum_symmetricAt_mul _ v hi, ← htable, hweigh₂, hweigh₁,
    sum_partner_self v i primal List.nodup_range, sum_partner_self v i (-dual) List.nodup_range']
  simp only [List.mem_range, List.mem_range'_1]
  have hin : (k.primals + k.inequalities ≤ i ∧
      i < k.primals + k.inequalities + (k.dim - (k.primals + k.inequalities))) ↔
      k.primals + k.inequalities ≤ i := by
    omega
  simp only [hin]
  by_cases hle : k.primals + k.inequalities ≤ i
  · simp only [hle, if_true]
    ring
  · simp [hle]

def SolvedBy (k : KktSystem K) (primal dual : K) (solution : Array K) : Prop :=
  ∀ i, i < k.dim → ∑ j ∈ Finset.range k.dim,
    (k.regularized primal dual).matrix.symmetricAt i j * solution.getD j 0 = k.rhs.getD i 0

end KktSystem

namespace KktBlocks

open Csc

variable {b : KktBlocks K} {v : Nat → K} {i : Nat}

theorem upper_mul_partner (r c : Nat) (x : K) :
    (upper r c x).value * partner v i (upper r c x).row (upper r c x).col =
      x * partner v i r c := by
  simp only [upper]
  rcases le_total r c with h | h
  · rw [min_eq_left h, max_eq_right h]
  · rw [min_eq_right h, max_eq_left h, partner_comm]

theorem weigh_upper (ts : List (Triplet K)) :
    Triplet.weigh (partner v i) (ts.map fun t => upper t.row t.col t.value) =
      Triplet.weigh (partner v i) ts := by
  simp only [Triplet.weigh, List.map_map, Function.comp_def, upper_mul_partner]

theorem weigh_diagonalFrom (first : Nat) (values : Array K) :
    Triplet.weigh (partner v i) (diagonalFrom first values) =
      ∑ k ∈ Finset.range values.size, if first + k = i then values.getD k 0 * v i else 0 := by
  unfold Triplet.weigh diagonalFrom
  rw [List.map_map, sum_zipIdx]
  simp only [Function.comp_apply, upper_mul_partner, partner_self, mul_ite, mul_zero]

theorem weigh_slackEntries : Triplet.weigh (partner v i) b.slackEntries =
    ∑ k ∈ Finset.range b.sigmaS.size,
      ((if b.primals + k = i then b.sigmaS.getD k 0 * v i else 0) -
        partner v i (b.primals + k) (b.ineqOffset + k)) := by
  unfold Triplet.weigh slackEntries
  rw [List.map_flatMap, List.flatMap, List.sum_flatten, List.map_map, sum_zipIdx]
  apply Finset.sum_congr rfl
  intro k _
  simp only [Function.comp_apply, List.map_cons, List.map_nil, List.sum_cons, List.sum_nil,
    upper_mul_partner, partner_self, mul_ite, mul_zero]
  ring

theorem weigh_besidePrimals? {offset : Nat} {jacobian : Csc K} (hrange : jacobian.InRange)
    {ts : List (Triplet K)}
    (h : besidePrimals? offset jacobian = some ts) :
    Triplet.weigh (partner v i) ts = ∑ c ∈ Finset.range jacobian.cols,
      ∑ r ∈ Finset.range jacobian.rows, jacobian.entryAt r c * partner v i c (offset + r) := by
  obtain ⟨us, hus, h⟩ := Option.bind_eq_some_iff.mp h
  cases h
  have hmap : Triplet.weigh (partner v i) (us.map fun t => upper t.col (offset + t.row) t.value) =
      Triplet.weigh (fun r c => partner v i c (offset + r)) us := by
    simp only [Triplet.weigh, List.map_map, Function.comp_def, upper_mul_partner]
  rw [hmap, weigh_triplets? hrange hus]

theorem assemble?_eq_some {α : Type} [Scalar α] {b : KktBlocks α} {rhs : Array α} {barrier : α}
    {k : KktSystem α} (h : b.assemble? rhs barrier = some k) :
    ∃ ts, b.consistent = true ∧ rhs.size = b.dim ∧ b.triplets? = some ts ∧
      (∀ t ∈ ts, t.row < b.dim ∧ t.col < b.dim) ∧
      k = ⟨Csc.ofTriplets b.dim b.dim ts, rhs, b.primals, b.equalities, b.inequalities,
        barrier⟩ := by
  unfold assemble? at h
  split at h
  · cases h
  · next hfits =>
    simp only [Bool.or_eq_true, Bool.not_eq_eq_eq_not, Bool.not_true, bne_iff_ne, ne_eq, not_or,
      Bool.not_eq_false, not_not] at hfits
    simp only [Option.bind_eq_bind, Option.bind_eq_some_iff] at h
    obtain ⟨_, -, _, -, _, -, ts, hts, matrix, hmatrix, h⟩ := h
    unfold Csc.ofTriplets? at hmatrix
    split at hmatrix
    · next hbound =>
      cases hmatrix
      cases h
      exact ⟨ts, hfits.1, hfits.2, hts, by simpa using hbound, rfl⟩
    · cases hmatrix

theorem triplets?_eq_some {α : Type} [Scalar α] {b : KktBlocks α} {ts : List (Triplet α)}
    (h : b.triplets? = some ts) :
    ∃ hessian jacEq jacIneq, b.hessian.triplets? = some hessian ∧
      besidePrimals? b.dualOffset b.jacEq = some jacEq ∧
      besidePrimals? b.ineqOffset b.jacIneq = some jacIneq ∧
      ts = (hessian.map fun t => upper t.row t.col t.value) ++ diagonalFrom 0 b.sigmaX ++
        b.slackEntries ++ jacEq ++ jacIneq ++
        diagonalFrom b.dualOffset (Vec.zero (b.equalities + b.inequalities)) := by
  simp only [triplets?, Option.bind_eq_bind, Option.bind_eq_some_iff, Option.pure_def,
    Option.some.injEq] at h
  obtain ⟨hessian, hhessian, jacEq, hjacEq, jacIneq, hjacIneq, rfl⟩ := h
  exact ⟨hessian, jacEq, jacIneq, hhessian, hjacEq, hjacIneq, rfl⟩

theorem upper_le {α : Type} (r c : Nat) (x : α) : (upper r c x).row ≤ (upper r c x).col :=
  min_le_max

theorem row_le_col {α : Type} [Scalar α] {b : KktBlocks α} {ts : List (Triplet α)}
    (h : b.triplets? = some ts) : ∀ t ∈ ts, t.row ≤ t.col := by
  have hbeside : ∀ {offset : Nat} {jacobian : Csc α} {us : List (Triplet α)},
      besidePrimals? offset jacobian = some us → ∀ t ∈ us, t.row ≤ t.col := by
    intro offset jacobian us hus t ht
    obtain ⟨us', -, hus⟩ := Option.bind_eq_some_iff.mp hus
    cases hus
    obtain ⟨t', -, rfl⟩ := List.mem_map.mp ht
    exact upper_le _ _ _
  have hdiagonal : ∀ (first : Nat) (values : Array α), ∀ t ∈ diagonalFrom first values,
      t.row ≤ t.col := by
    intro first values t ht
    obtain ⟨e, -, rfl⟩ := List.mem_map.mp ht
    exact upper_le _ _ _
  obtain ⟨hessian, jacEq, jacIneq, -, hjacEq, hjacIneq, rfl⟩ := triplets?_eq_some h
  simp only [List.forall_mem_append]
  refine ⟨⟨⟨⟨⟨?_, hdiagonal _ _⟩, ?_⟩, hbeside hjacEq⟩, hbeside hjacIneq⟩, hdiagonal _ _⟩
  · intro t ht
    obtain ⟨t', -, rfl⟩ := List.mem_map.mp ht
    exact upper_le _ _ _
  · intro t ht
    obtain ⟨e, -, ht⟩ := List.mem_flatMap.mp ht
    simp only [List.mem_cons, List.not_mem_nil, or_false] at ht
    rcases ht with rfl | rfl <;> exact upper_le _ _ _

theorem mem_diagonalFrom {α : Type} {first c : Nat} {values : Array α} (hfirst : first ≤ c)
    (hc : c < first + values.size) : ∃ t ∈ diagonalFrom first values, t.row = c ∧ t.col = c := by
  have hlt : c - first < values.size := by omega
  have hmem : (values[c - first], c - first) ∈ values.toList.zipIdx := by
    rw [List.mem_zipIdx_iff_getElem?]
    simp [hlt]
  refine ⟨_, List.mem_map_of_mem hmem, ?_⟩
  have hsum : first + (c - first) = c := by omega
  simp [upper, hsum]

theorem exists_diagonal {α : Type} [Scalar α] {b : KktBlocks α} {ts : List (Triplet α)}
    (h : b.triplets? = some ts) (hx : b.sigmaX.size = b.primals)
    (hs : b.sigmaS.size = b.inequalities) :
    ∀ c, c < b.dim → ∃ t ∈ ts, t.row = c ∧ t.col = c := by
  obtain ⟨hessian, jacEq, jacIneq, -, -, -, rfl⟩ := triplets?_eq_some h
  intro c hc
  simp only [dim, ineqOffset, dualOffset] at hc
  by_cases hprimal : c < b.primals
  · have hlast : c < 0 + b.sigmaX.size := by omega
    obtain ⟨t, ht, hplace⟩ := mem_diagonalFrom (Nat.zero_le c) hlast
    exact ⟨t, by simp [ht], hplace⟩
  by_cases hslack : c < b.primals + b.inequalities
  · have hlt : c - b.primals < b.sigmaS.size := by omega
    have hsum : b.primals + (c - b.primals) = c := by omega
    have hmem : (b.sigmaS[c - b.primals], c - b.primals) ∈ b.sigmaS.toList.zipIdx := by
      rw [List.mem_zipIdx_iff_getElem?]
      simp [hlt]
    refine ⟨upper c c b.sigmaS[c - b.primals], ?_, by simp [upper]⟩
    have hentry : upper c c b.sigmaS[c - b.primals] ∈ b.slackEntries :=
      List.mem_flatMap.mpr ⟨_, hmem, by simp [hsum]⟩
    simp [hentry]
  · have hsize : (Vec.zero (b.equalities + b.inequalities) : Array α).size =
        b.equalities + b.inequalities := Array.size_replicate
    have hfirst : b.dualOffset ≤ c := by
      simp only [dualOffset]
      omega
    have hlast : c < b.dualOffset + (Vec.zero (b.equalities + b.inequalities) : Array α).size := by
      simp only [dualOffset]
      omega
    obtain ⟨t, ht, hplace⟩ := mem_diagonalFrom hfirst hlast
    exact ⟨t, by simp [ht], hplace⟩

structure Sound (b : KktBlocks K) (k : KktSystem K) : Prop where
  hessian : b.hessian.InRange
  jacEq : b.jacEq.InRange
  jacIneq : b.jacIneq.InRange
  assembled : ∃ rhs barrier, b.assemble? rhs barrier = some k

theorem sum_row {k : KktSystem K} (h : b.Sound k) (primal dual : K) (hi : i < b.dim) :
    ∑ j ∈ Finset.range b.dim, (k.regularized primal dual).matrix.symmetricAt i j * v j =
      (∑ c ∈ Finset.range b.primals, ∑ r ∈ Finset.range b.primals,
        b.hessian.entryAt r c * partner v i r c) +
      (∑ j ∈ Finset.range b.primals, if j = i then b.sigmaX.getD j 0 * v i else 0) +
      (∑ j ∈ Finset.range b.inequalities,
        ((if b.primals + j = i then b.sigmaS.getD j 0 * v i else 0) -
          partner v i (b.primals + j) (b.ineqOffset + j))) +
      (∑ c ∈ Finset.range b.primals, ∑ r ∈ Finset.range b.equalities,
        b.jacEq.entryAt r c * partner v i c (b.dualOffset + r)) +
      (∑ c ∈ Finset.range b.primals, ∑ r ∈ Finset.range b.inequalities,
        b.jacIneq.entryAt r c * partner v i c (b.ineqOffset + r)) +
      (if i < b.primals then primal * v i else 0) -
      (if b.dualOffset ≤ i then dual * v i else 0) := by
  obtain ⟨rhs, barrier, hassemble⟩ := h.assembled
  obtain ⟨ts, hconsistent, -, hts, hbound, rfl⟩ := assemble?_eq_some hassemble
  simp only [consistent, Bool.and_eq_true, beq_iff_eq] at hconsistent
  obtain ⟨⟨⟨⟨hrows, hjacEq⟩, hjacIneq⟩, hsigmaX⟩, hsigmaS⟩ := hconsistent
  have hends := endsOnDiagonal_tripletBlocks (row_le_col hts) (exists_diagonal hts hsigmaX hsigmaS)
  have hfits : b.primals + b.inequalities ≤ b.dim := by
    simp only [dim, ineqOffset, dualOffset]
    omega
  have hshifted := KktSystem.sum_regularized
    (k := ⟨ofTriplets b.dim b.dim ts, rhs, b.primals, b.equalities, b.inequalities, barrier⟩)
    (holds_ofTriplets hbound) hends rfl hfits primal dual v hi
  obtain ⟨hessian, jacEq, jacIneq, hhessian, hEq, hIneq, rfl⟩ := triplets?_eq_some hts
  rw [weigh_tripletBlocks fun t ht => (hbound t ht).2] at hshifted
  simp only [Triplet.weigh_append, weigh_upper, weigh_diagonalFrom, weigh_slackEntries,
    weigh_besidePrimals? h.jacEq hEq, weigh_besidePrimals? h.jacIneq hIneq,
    weigh_triplets? h.hessian hhessian] at hshifted
  have hzeros : ∀ j, (Vec.zero (b.equalities + b.inequalities) : Array K).getD j 0 = 0 := by
    intro j
    rw [Vec.zero, Array.getD_eq_getD_getElem?, Array.getElem?_replicate]
    split <;> rfl
  refine hshifted.trans ?_
  simp only [hzeros, zero_mul, ite_self, Finset.sum_const_zero, add_zero, hrows, hjacEq, hjacIneq,
    hsigmaX, hsigmaS, Nat.zero_add]
  rfl

section Regions

variable {n m offset : Nat} (w : Nat → Nat → K)

theorem sum_beside_primal (hoffset : n ≤ offset) (hi : i < n) :
    ∑ c ∈ Finset.range n, ∑ r ∈ Finset.range m, w r c * partner v i c (offset + r) =
      ∑ r ∈ Finset.range m, w r i * v (offset + r) := by
  have hmem : i ∈ Finset.range n := Finset.mem_range.mpr hi
  have hpartner : ∀ c r, partner v i c (offset + r) = if c = i then v (offset + r) else 0 := by
    intro c r
    rw [partner, if_neg (show offset + r ≠ i by omega)]
  rw [Finset.sum_comm]
  simp [hpartner, hmem]

theorem sum_beside_dual (hoffset : n ≤ offset) {s : Nat} (hs : s < m) :
    ∑ c ∈ Finset.range n, ∑ r ∈ Finset.range m, w r c * partner v (offset + s) c (offset + r) =
      ∑ c ∈ Finset.range n, w s c * v c := by
  apply Finset.sum_congr rfl
  intro c hc
  have hmem : s ∈ Finset.range m := Finset.mem_range.mpr hs
  have hne : c ≠ offset + s := by
    have := Finset.mem_range.mp hc
    omega
  have hpartner : ∀ r, partner v (offset + s) c (offset + r) = if r = s then v c else 0 := by
    intro r
    rw [partner, if_neg hne]
    by_cases hr : r = s
    · simp [hr]
    · rw [if_neg (by omega), if_neg hr]
  simp [hpartner, hmem]

theorem sum_partner_eq_zero {f g : Nat → Nat → Nat}
    (h : ∀ c < n, ∀ r < m, f r c ≠ i ∧ g r c ≠ i) :
    ∑ c ∈ Finset.range n, ∑ r ∈ Finset.range m, w r c * partner v i (f r c) (g r c) = 0 := by
  apply Finset.sum_eq_zero
  intro c hc
  apply Finset.sum_eq_zero
  intro r hr
  obtain ⟨hf, hg⟩ := h c (Finset.mem_range.mp hc) r (Finset.mem_range.mp hr)
  rw [partner, if_neg hf, if_neg hg, mul_zero]

theorem sum_beside_other (hn : n ≤ i) (hout : i < offset ∨ offset + m ≤ i) :
    ∑ c ∈ Finset.range n, ∑ r ∈ Finset.range m, w r c * partner v i c (offset + r) = 0 :=
  sum_partner_eq_zero w fun c hc r hr => by omega

theorem sum_inside_other (hn : n ≤ i) :
    ∑ c ∈ Finset.range n, ∑ r ∈ Finset.range n, w r c * partner v i r c = 0 :=
  sum_partner_eq_zero w fun c hc r hr => by omega

theorem sum_diagonal_other (f : Nat → K) (hn : n ≤ i) :
    ∑ j ∈ Finset.range n, (if j = i then f j else 0) = 0 := by
  apply Finset.sum_eq_zero
  intro j hj
  have := Finset.mem_range.mp hj
  rw [if_neg (by omega)]

end Regions

variable {k : KktSystem K}

omit [LinearOrder K] [ExactScalar K] in
theorem primals_le_dualOffset : b.primals ≤ b.dualOffset := Nat.le_add_right _ _

omit [LinearOrder K] [ExactScalar K] in
theorem primals_le_ineqOffset : b.primals ≤ b.ineqOffset :=
  primals_le_dualOffset.trans (Nat.le_add_right _ _)

theorem row_primal (h : b.Sound k) (primal dual : K) (hi : i < b.primals) :
    ∑ j ∈ Finset.range b.dim, (k.regularized primal dual).matrix.symmetricAt i j * v j =
      ∑ j ∈ Finset.range b.primals, b.hessian.symmetricAt i j * v j + b.sigmaX.getD i 0 * v i +
        ∑ r ∈ Finset.range b.equalities, b.jacEq.entryAt r i * v (b.dualOffset + r) +
        ∑ r ∈ Finset.range b.inequalities, b.jacIneq.entryAt r i * v (b.ineqOffset + r) +
        primal * v i := by
  have hmem : i ∈ Finset.range b.primals := Finset.mem_range.mpr hi
  have hdual : ¬ b.dualOffset ≤ i := by
    have := primals_le_dualOffset (b := b)
    omega
  have hdim : i < b.dim := by
    simp only [dim, ineqOffset, dualOffset]
    omega
  have hcoupling : ∑ j ∈ Finset.range b.inequalities,
      ((if b.primals + j = i then b.sigmaS.getD j 0 * v i else 0) -
        partner v i (b.primals + j) (b.ineqOffset + j)) = 0 := by
    apply Finset.sum_eq_zero
    intro j _
    have hrow : b.primals + j ≠ i := by omega
    have hcol : b.ineqOffset + j ≠ i := by
      have := primals_le_ineqOffset (b := b)
      omega
    rw [partner, if_neg hrow, if_neg hrow, if_neg hcol, sub_zero]
  rw [sum_row h primal dual hdim, ← sum_symmetricAt_mul _ v hi, hcoupling,
    sum_beside_primal _ primals_le_dualOffset hi, sum_beside_primal _ primals_le_ineqOffset hi,
    if_pos hi, if_neg hdual]
  simp [hmem]

theorem row_slack (h : b.Sound k) (primal dual : K) {s : Nat} (hs : s < b.inequalities) :
    ∑ j ∈ Finset.range b.dim,
        (k.regularized primal dual).matrix.symmetricAt (b.primals + s) j * v j =
      b.sigmaS.getD s 0 * v (b.primals + s) - v (b.ineqOffset + s) := by
  have hle : b.primals ≤ b.primals + s := Nat.le_add_right _ _
  have hdual : b.primals + s < b.dualOffset := Nat.add_lt_add_left hs _
  have hineq : b.primals + s < b.ineqOffset := hdual.trans_le (Nat.le_add_right _ _)
  have hdim : b.primals + s < b.dim := hineq.trans_le (Nat.le_add_right _ _)
  have hmem : s ∈ Finset.range b.inequalities := Finset.mem_range.mpr hs
  have hcoupling : ∀ j, ((if b.primals + j = b.primals + s then
      b.sigmaS.getD j 0 * v (b.primals + s) else 0) -
        partner v (b.primals + s) (b.primals + j) (b.ineqOffset + j)) =
      if j = s then b.sigmaS.getD j 0 * v (b.primals + s) - v (b.ineqOffset + j) else 0 := by
    intro j
    rw [partner, if_neg (show b.ineqOffset + j ≠ b.primals + s by omega)]
    by_cases hj : j = s
    · simp [hj]
    · simp [hj]
  rw [sum_row h primal dual hdim, sum_inside_other _ hle, sum_diagonal_other _ hle,
    sum_beside_other _ hle (.inl hdual), sum_beside_other _ hle (.inl hineq), if_neg (by omega),
    if_neg (by omega), Finset.sum_congr rfl fun j _ => hcoupling j]
  simp [hmem]

theorem row_equality (h : b.Sound k) (primal dual : K) {s : Nat} (hs : s < b.equalities) :
    ∑ j ∈ Finset.range b.dim,
        (k.regularized primal dual).matrix.symmetricAt (b.dualOffset + s) j * v j =
      ∑ c ∈ Finset.range b.primals, b.jacEq.entryAt s c * v c - dual * v (b.dualOffset + s) := by
  have hle : b.primals ≤ b.dualOffset + s := primals_le_dualOffset.trans (Nat.le_add_right _ _)
  have hineq : b.dualOffset + s < b.ineqOffset := Nat.add_lt_add_left hs _
  have hdim : b.dualOffset + s < b.dim := hineq.trans_le (Nat.le_add_right _ _)
  have hcoupling : ∀ j ∈ Finset.range b.inequalities, ((if b.primals + j = b.dualOffset + s then
      b.sigmaS.getD j 0 * v (b.dualOffset + s) else 0) -
        partner v (b.dualOffset + s) (b.primals + j) (b.ineqOffset + j)) = 0 := by
    intro j hj
    have hrow : b.primals + j < b.dualOffset := Nat.add_lt_add_left (Finset.mem_range.mp hj) _
    rw [partner, if_neg (by omega), if_neg (by omega), if_neg (by omega), sub_zero]
  rw [sum_row h primal dual hdim, sum_inside_other _ hle, sum_diagonal_other _ hle,
    sum_beside_dual _ primals_le_dualOffset hs, sum_beside_other _ hle (.inl hineq),
    if_neg (by omega), if_pos (Nat.le_add_right _ _), Finset.sum_eq_zero hcoupling]
  ring

theorem row_inequality (h : b.Sound k) (primal dual : K) {s : Nat} (hs : s < b.inequalities) :
    ∑ j ∈ Finset.range b.dim,
        (k.regularized primal dual).matrix.symmetricAt (b.ineqOffset + s) j * v j =
      ∑ c ∈ Finset.range b.primals, b.jacIneq.entryAt s c * v c - v (b.primals + s) -
        dual * v (b.ineqOffset + s) := by
  have hle : b.primals ≤ b.ineqOffset + s := primals_le_ineqOffset.trans (Nat.le_add_right _ _)
  have hdual : b.dualOffset + b.equalities ≤ b.ineqOffset + s := Nat.le_add_right _ _
  have hdim : b.ineqOffset + s < b.dim := Nat.add_lt_add_left hs _
  have hmem : s ∈ Finset.range b.inequalities := Finset.mem_range.mpr hs
  have hcoupling : ∀ j ∈ Finset.range b.inequalities, ((if b.primals + j = b.ineqOffset + s then
      b.sigmaS.getD j 0 * v (b.ineqOffset + s) else 0) -
        partner v (b.ineqOffset + s) (b.primals + j) (b.ineqOffset + j)) =
      if j = s then -v (b.primals + j) else 0 := by
    intro j hj
    have hrow : b.primals + j < b.dualOffset := Nat.add_lt_add_left (Finset.mem_range.mp hj) _
    rw [partner, if_neg (by omega), if_neg (by omega)]
    by_cases hjs : j = s
    · simp [hjs]
    · rw [if_neg (by omega), if_neg hjs, sub_zero]
  rw [sum_row h primal dual hdim, sum_inside_other _ hle, sum_diagonal_other _ hle,
    sum_beside_other _ hle (.inr hdual), sum_beside_dual _ primals_le_ineqOffset hs,
    if_neg (by omega), if_pos (by omega), Finset.sum_congr rfl hcoupling]
  simp [hmem]
  ring

def Rows (b : KktBlocks K) (primal dual : K) (rhs solution : Array K) : Prop :=
  (∀ i, i < b.primals →
    ∑ j ∈ Finset.range b.primals, b.hessian.symmetricAt i j * solution.getD j 0 +
        b.sigmaX.getD i 0 * solution.getD i 0 +
        ∑ r ∈ Finset.range b.equalities, b.jacEq.entryAt r i * solution.getD (b.dualOffset + r) 0 +
        ∑ r ∈ Finset.range b.inequalities,
          b.jacIneq.entryAt r i * solution.getD (b.ineqOffset + r) 0 +
        primal * solution.getD i 0 =
      rhs.getD i 0) ∧
  (∀ s, s < b.inequalities →
    b.sigmaS.getD s 0 * solution.getD (b.primals + s) 0 - solution.getD (b.ineqOffset + s) 0 =
      rhs.getD (b.primals + s) 0) ∧
  (∀ s, s < b.equalities →
    ∑ c ∈ Finset.range b.primals, b.jacEq.entryAt s c * solution.getD c 0 -
        dual * solution.getD (b.dualOffset + s) 0 =
      rhs.getD (b.dualOffset + s) 0) ∧
  ∀ s, s < b.inequalities →
    ∑ c ∈ Finset.range b.primals, b.jacIneq.entryAt s c * solution.getD c 0 -
        solution.getD (b.primals + s) 0 - dual * solution.getD (b.ineqOffset + s) 0 =
      rhs.getD (b.ineqOffset + s) 0

theorem dim_eq (h : b.Sound k) : k.dim = b.dim := by
  obtain ⟨rhs, barrier, hassemble⟩ := h.assembled
  obtain ⟨ts, -, -, -, -, rfl⟩ := assemble?_eq_some hassemble
  rfl

/-- To solve the system is to solve its equations block by block. -/
theorem solvedBy_iff (h : b.Sound k) {primal dual : K} {solution : Array K} :
    k.SolvedBy primal dual solution ↔ b.Rows primal dual k.rhs solution := by
  have hsize : b.dim = b.primals + b.inequalities + b.equalities + b.inequalities := rfl
  have hdual : b.dualOffset = b.primals + b.inequalities := rfl
  have hineq : b.ineqOffset = b.primals + b.inequalities + b.equalities := rfl
  unfold KktSystem.SolvedBy
  rw [dim_eq h]
  constructor
  · intro hsolves
    refine ⟨?_, ?_, ?_, ?_⟩
    · intro i hi
      rw [← hsolves i (by omega), row_primal h primal dual hi]
    · intro s hs
      rw [← hsolves _ (by omega), row_slack h primal dual hs]
    · intro s hs
      rw [← hsolves _ (by omega), row_equality h primal dual hs]
    · intro s hs
      rw [← hsolves _ (by omega), row_inequality h primal dual hs]
  · rintro ⟨hprimal, hslack, hequality, hinequality⟩ i hi
    by_cases h₁ : i < b.primals
    · rw [row_primal h primal dual h₁, hprimal i h₁]
    by_cases h₂ : i < b.dualOffset
    · obtain ⟨s, rfl⟩ := Nat.exists_eq_add_of_le (not_lt.mp h₁)
      rw [row_slack h primal dual (by omega), hslack s (by omega)]
    by_cases h₃ : i < b.ineqOffset
    · obtain ⟨s, rfl⟩ := Nat.exists_eq_add_of_le (not_lt.mp h₂)
      rw [row_equality h primal dual (by omega), hequality s (by omega)]
    · obtain ⟨s, rfl⟩ := Nat.exists_eq_add_of_le (not_lt.mp h₃)
      rw [row_inequality h primal dual (by omega), hinequality s (by omega)]

end KktBlocks

end NonlinearOpt
