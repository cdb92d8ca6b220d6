import Mathlib
import NonlinearOpt.Proofs.Kkt.Equations

namespace NonlinearOpt

namespace Csc

variable {α : Type}

/-- A matrix all of whose columns are there, with all entries inside. Entries may be in any order,
and more than one may be at a position. -/
structure Complete (a : Csc α) : Prop where
  nnz : ∃ n, a.nnz? = some n
  inRange : a.InRange

theorem complete_of_checkFormat {a : Csc α} (h : a.checkFormat = .ok ()) : a.Complete := by
  obtain ⟨-, -, hlast, -⟩ := checkFormat_eq_ok.mp h
  refine ⟨⟨_, hlast⟩, ?_⟩
  intro j hj
  obtain ⟨column, hcolumn, hrange⟩ := column?_of_checkFormat h hj
  exact ⟨column, entries?_of_column? hcolumn, hrange⟩

theorem InRange.triplets? {a : Csc α} (h : a.InRange) :
    ∃ ts, a.triplets? = some ts ∧ ∀ t ∈ ts, t.row < a.rows ∧ t.col < a.cols := by
  let block (j : Nat) : List (Triplet α) := ((a.entries? j).getD []).map fun e => ⟨e.1, j, e.2⟩
  refine ⟨((List.range a.cols).map block).flatten, ?_, ?_⟩
  · refine Option.bind_eq_some_iff.mpr ⟨(List.range a.cols).map block, ?_, rfl⟩
    rw [mapM_eq_some_iff, List.forall₂_map_right_iff, List.forall₂_same]
    intro j hj
    obtain ⟨column, hcolumn, -⟩ := h j (List.mem_range.mp hj)
    simp only [block, hcolumn, Option.getD_some]
    rfl
  · intro t ht
    obtain ⟨_, hmem, ht⟩ := List.mem_flatten.mp ht
    obtain ⟨j, hj, rfl⟩ := List.mem_map.mp hmem
    obtain ⟨e, he, rfl⟩ := List.mem_map.mp ht
    obtain ⟨column, hcolumn, hrows⟩ := h j (List.mem_range.mp hj)
    rw [hcolumn, Option.getD_some] at he
    exact ⟨hrows e he, List.mem_range.mp hj⟩

end Csc

namespace KktSystem

open Csc

variable {α : Type} [Scalar α] {k : KktSystem α}

omit [Scalar α] in
theorem holds_shift {f : α → α} {cols : List Nat} (hnodup : cols.Nodup)
    (hcols : ∀ c ∈ cols, c < k.dim) {values : Array α} {blocks : List (List (Nat × α))}
    (h : Holds { k.matrix with values } blocks) (hends : EndsOnDiagonal blocks) :
    ∃ blocks', Holds { k.matrix with values := k.shift cols f values } blocks' ∧
      EndsOnDiagonal blocks' ∧
      ∀ c init v, blocks[c]? = some (init ++ [(c, v)]) →
        blocks'[c]? = some (init ++ [(c, if c ∈ cols then f v else v)]) := by
  induction cols generalizing values blocks with
  | nil => exact ⟨blocks, h, hends, fun c init v hc => by simpa using hc⟩
  | cons c cols ih =>
    rw [List.nodup_cons] at hnodup
    have hc : c < blocks.length := by
      rw [h.cols]
      exact hcols c List.mem_cons_self
    obtain ⟨init, v, hlast⟩ := hends c hc
    obtain ⟨blocks', hholds, hends', hcolumns⟩ :=
      ih hnodup.2 (fun c' hc' => hcols c' (List.mem_cons_of_mem _ hc')) (h.modify_last hc hlast f)
        (hends.set _ _ _)
    refine ⟨blocks', hholds, hends', ?_⟩
    intro j init' v' hj
    by_cases hjc : j = c
    · subst hjc
      rw [List.getElem?_eq_getElem hc, hlast] at hj
      obtain ⟨rfl, hlast'⟩ := List.append_inj' (Option.some.inj hj) rfl
      cases hlast'
      rw [if_pos List.mem_cons_self]
      have hset := hcolumns j init (f v) (List.getElem?_set_self hc)
      rwa [if_neg hnodup.1] at hset
    · have hset := hcolumns j init' v' (by rwa [List.getElem?_set_ne (Ne.symm hjc)])
      simpa [hjc] using hset

omit [Scalar α] in
theorem shift_id {f : α → α} (hf : ∀ x, f x = x) (cols : List Nat) (values : Array α) :
    k.shift cols f values = values := by
  induction cols generalizing values with
  | nil => rfl
  | cons c cols ih =>
    have hmodify : values.modify (k.diagonalIndex c) f = values := by
      have hf : f = id := funext hf
      apply Array.ext_getElem?
      intro i
      rw [Array.getElem?_modify, hf]
      simp
    rw [shift, List.foldl_cons, hmodify]
    exact ih values

theorem regularized_zero {K : Type} [LinearOrder K] [ExactScalar K] (k : KktSystem K) :
    k.regularized 0 0 = k := by
  simp only [regularized, shift_id (add_zero ·), shift_id (sub_zero ·)]

theorem holds_regularized {blocks : List (List (Nat × α))} (h : Holds k.matrix blocks)
    (hends : EndsOnDiagonal blocks) (hfits : k.primals + k.inequalities ≤ k.dim)
    (primal dual : α) :
    ∃ blocks', Holds (k.regularized primal dual).matrix blocks' ∧
      ∀ c init v, blocks[c]? = some (init ++ [(c, v)]) →
        blocks'[c]? = some (init ++ [(c, if c < k.primals then v + primal
          else if c < k.primals + k.inequalities then v else v - dual)]) := by
  obtain ⟨blocks₁, h₁, hends₁, hcolumns₁⟩ :=
    holds_shift (f := (· + primal)) List.nodup_range (primal_lt_dim hfits) h hends
  obtain ⟨blocks₂, h₂, -, hcolumns₂⟩ :=
    holds_shift (f := (· - dual)) List.nodup_range' (dual_lt_dim hfits) h₁ hends₁
  refine ⟨blocks₂, h₂, ?_⟩
  intro c init v hc
  have hlt : c < k.dim := by
    obtain ⟨hlt, -⟩ := List.getElem?_eq_some_iff.mp hc
    rwa [h.cols] at hlt
  rw [hcolumns₂ c init _ (hcolumns₁ c init v hc)]
  simp only [List.mem_range, List.mem_range'_1]
  by_cases hprimal : c < k.primals
  · rw [if_pos hprimal, if_pos hprimal, if_neg (by omega)]
  · rw [if_neg hprimal, if_neg hprimal]
    by_cases hslack : c < k.primals + k.inequalities
    · rw [if_pos hslack, if_neg (by omega)]
    · rw [if_neg hslack, if_pos (by omega)]

end KktSystem

namespace KktBlocks

open Csc Triplet

section WellFormed

variable {α : Type}

/-- Blocks of the dimensions that the others ask for, with nothing missing. -/
structure WellFormed (b : KktBlocks α) : Prop where
  consistent : b.consistent = true
  hessian : b.hessian.Complete
  jacEq : b.jacEq.Complete
  jacIneq : b.jacIneq.Complete

variable {b : KktBlocks α}

theorem consistent_iff : b.consistent = true ↔ b.hessian.rows = b.primals ∧
    b.jacEq.cols = b.primals ∧ b.jacIneq.cols = b.primals ∧ b.sigmaX.size = b.primals ∧
    b.sigmaS.size = b.inequalities := by
  simp only [consistent, Bool.and_eq_true, beq_iff_eq, and_assoc]

theorem upper_lt {r c n : Nat} (x : α) (hr : r < n) (hc : c < n) :
    (upper r c x).row < n ∧ (upper r c x).col < n := by
  simp only [upper]
  omega

theorem diagonalFrom_lt {first n : Nat} {values : Array α} (h : first + values.size ≤ n) :
    ∀ t ∈ diagonalFrom first values, t.row < n ∧ t.col < n := by
  intro t ht
  obtain ⟨⟨v, i⟩, he, rfl⟩ := List.mem_map.mp ht
  have hi : i < values.size := by simpa using List.snd_lt_of_mem_zipIdx he
  exact upper_lt v (by omega) (by omega)

theorem exists_besidePrimals? (offset : Nat) {jacobian : Csc α} (h : jacobian.InRange)
    (hcols : jacobian.cols ≤ b.dim) (hrows : offset + jacobian.rows ≤ b.dim) :
    ∃ ts, besidePrimals? offset jacobian = some ts ∧
      ∀ t ∈ ts, t.row < b.dim ∧ t.col < b.dim := by
  obtain ⟨us, hus, hbound⟩ := h.triplets?
  refine ⟨us.map fun t => upper t.col (offset + t.row) t.value, ?_, ?_⟩
  · rw [besidePrimals?, hus]
    rfl
  · intro t ht
    obtain ⟨u, hu, rfl⟩ := List.mem_map.mp ht
    obtain ⟨hrow, hcol⟩ := hbound u hu
    exact upper_lt _ (by omega) (by omega)

variable [Scalar α]

theorem slackEntries_lt (h : b.sigmaS.size = b.inequalities) :
    ∀ t ∈ b.slackEntries, t.row < b.dim ∧ t.col < b.dim := by
  intro t ht
  obtain ⟨⟨v, i⟩, he, ht⟩ := List.mem_flatMap.mp ht
  have hi : i < b.sigmaS.size := by simpa using List.snd_lt_of_mem_zipIdx he
  have hdim : b.dim = b.primals + b.inequalities + b.equalities + b.inequalities := rfl
  have hineq : b.ineqOffset = b.primals + b.inequalities + b.equalities := rfl
  simp only [List.mem_cons, List.not_mem_nil, or_false] at ht
  rcases ht with rfl | rfl
  · exact upper_lt _ (by omega) (by omega)
  · exact upper_lt _ (by omega) (by omega)

theorem WellFormed.triplets? (h : b.WellFormed) :
    ∃ ts, b.triplets? = some ts ∧ ∀ t ∈ ts, t.row < b.dim ∧ t.col < b.dim := by
  obtain ⟨hrows, hjacEq, hjacIneq, hsigmaX, hsigmaS⟩ := consistent_iff.mp h.consistent
  have hdim : b.dim = b.primals + b.inequalities + b.equalities + b.inequalities := rfl
  have hdual : b.dualOffset = b.primals + b.inequalities := rfl
  have hineq : b.ineqOffset = b.primals + b.inequalities + b.equalities := rfl
  have hequalities : b.jacEq.rows = b.equalities := rfl
  have hinequalities : b.jacIneq.rows = b.inequalities := rfl
  have hprimals : b.hessian.cols = b.primals := rfl
  have hzeros : (Vec.zero (b.equalities + b.inequalities) : Array α).size =
      b.equalities + b.inequalities := Array.size_replicate
  obtain ⟨hessian, hhessian, hhessianBound⟩ := h.hessian.inRange.triplets?
  obtain ⟨jacEq, hEq, hEqBound⟩ := exists_besidePrimals? (b := b) b.dualOffset
    h.jacEq.inRange (by omega) (by omega)
  obtain ⟨jacIneq, hIneq, hIneqBound⟩ := exists_besidePrimals? (b := b) b.ineqOffset
    h.jacIneq.inRange (by omega) (by omega)
  refine ⟨_, by rw [KktBlocks.triplets?, hhessian, hEq, hIneq]; rfl, ?_⟩
  simp only [List.forall_mem_append]
  refine ⟨⟨⟨⟨⟨?_, diagonalFrom_lt (by omega)⟩, slackEntries_lt hsigmaS⟩, hEqBound⟩, hIneqBound⟩,
    diagonalFrom_lt (by omega)⟩
  intro t ht
  obtain ⟨u, hu, rfl⟩ := List.mem_map.mp ht
  obtain ⟨hrow, hcol⟩ := hhessianBound u hu
  exact upper_lt _ (by omega) (by omega)

theorem WellFormed.assemble? (h : b.WellFormed) (rhs : Array α) (hrhs : rhs.size = b.dim)
    (barrier : α) : ∃ k, b.assemble? rhs barrier = some k := by
  obtain ⟨ts, hts, hbound⟩ := h.triplets?
  obtain ⟨n, hn⟩ := h.hessian.nnz
  obtain ⟨nEq, hnEq⟩ := h.jacEq.nnz
  obtain ⟨nIneq, hnIneq⟩ := h.jacIneq.nnz
  have hmatrix : ofTriplets? b.dim b.dim ts = some (ofTriplets b.dim b.dim ts) :=
    if_pos (by simpa using hbound)
  refine ⟨⟨ofTriplets b.dim b.dim ts, rhs, b.primals, b.equalities, b.inequalities, barrier⟩, ?_⟩
  unfold KktBlocks.assemble?
  rw [if_neg (by simp [h.consistent, hrhs]), hn, hnEq, hnIneq, hts]
  simp only [Option.bind_eq_bind, Option.bind_some, hmatrix, Option.pure_def]

theorem WellFormed.assemble?_eq (h : b.WellFormed) {rhs : Array α} (hrhs : rhs.size = b.dim)
    (barrier : α) {ts : List (Triplet α)} (hts : b.triplets? = some ts) :
    b.assemble? rhs barrier = some
      ⟨ofTriplets b.dim b.dim ts, rhs, b.primals, b.equalities, b.inequalities, barrier⟩ := by
  obtain ⟨k, hk⟩ := h.assemble? rhs hrhs barrier
  obtain ⟨us, -, -, hus, -, rfl⟩ := assemble?_eq_some hk
  rw [hts] at hus
  cases hus
  exact hk

end WellFormed

section Pattern

variable {α β : Type}

structure SamePattern (b : KktBlocks α) (b' : KktBlocks β) : Prop where
  hessian : b.hessian.SamePattern b'.hessian
  jacEq : b.jacEq.SamePattern b'.jacEq
  jacIneq : b.jacIneq.SamePattern b'.jacIneq

theorem map_place_diagonalFrom (first : Nat) (values : Array α) :
    (diagonalFrom first values).map place =
      (List.range values.size).map fun i => (first + i, first + i) := by
  have hplace : (place ∘ fun (e : α × Nat) => upper (first + e.2) (first + e.2) e.1) =
      (fun i => (first + i, first + i)) ∘ Prod.snd := by
    funext e
    simp [place, upper]
  rw [diagonalFrom, List.map_map, hplace, ← List.map_map, List.zipIdx_map_snd, List.range_eq_range',
    Array.length_toList]

theorem map_place_besidePrimals? {offset : Nat} {jacobian : Csc α} {ts us : List (Triplet α)}
    (hts : jacobian.triplets? = some ts) (hus : besidePrimals? offset jacobian = some us) :
    us.map place =
      (ts.map place).map fun x => (min x.2 (offset + x.1), max x.2 (offset + x.1)) := by
  rw [besidePrimals?, hts] at hus
  cases hus
  rw [List.map_map, List.map_map]
  rfl

variable [Scalar α] [Scalar β]

theorem map_place_slackEntries (b : KktBlocks α) :
    b.slackEntries.map place = (List.range b.sigmaS.size).flatMap fun i =>
      [(b.primals + i, b.primals + i), (b.primals + i, b.ineqOffset + i)] := by
  have hle : b.primals ≤ b.ineqOffset := primals_le_ineqOffset
  have hplace : ∀ e : α × Nat, [upper (b.primals + e.2) (b.primals + e.2) e.1,
      upper (b.primals + e.2) (b.ineqOffset + e.2) (-1)].map place =
      [(b.primals + e.2, b.primals + e.2), (b.primals + e.2, b.ineqOffset + e.2)] := by
    intro e
    simp [place, upper, hle]
  rw [slackEntries, List.map_flatMap, List.flatMap_congr fun e _ => hplace e, List.range_eq_range',
    ← Array.length_toList, ← List.zipIdx_map_snd 0, List.flatMap_map]

theorem map_place_of_samePattern {b : KktBlocks α} {b' : KktBlocks β} (h : b.SamePattern b')
    (hb : b.consistent = true) (hb' : b'.consistent = true) {ts : List (Triplet α)}
    {us : List (Triplet β)} (hts : b.triplets? = some ts) (hus : b'.triplets? = some us) :
    ts.map place = us.map place := by
  obtain ⟨-, -, -, hsigmaX, hsigmaS⟩ := consistent_iff.mp hb
  obtain ⟨-, -, -, hsigmaX', hsigmaS'⟩ := consistent_iff.mp hb'
  have hprimals : b.primals = b'.primals := h.hessian.2.1
  have hequalities : b.equalities = b'.equalities := h.jacEq.1
  have hinequalities : b.inequalities = b'.inequalities := h.jacIneq.1
  have hdual : b.dualOffset = b'.dualOffset := by
    rw [dualOffset, dualOffset, hprimals, hinequalities]
  have hineq : b.ineqOffset = b'.ineqOffset := by rw [ineqOffset, ineqOffset, hdual, hequalities]
  have hupper : ∀ {γ : Type} (vs : List (Triplet γ)),
      (vs.map fun t => upper t.row t.col t.value).map place =
        (vs.map place).map fun x => (min x.1 x.2, max x.1 x.2) := by
    intro γ vs
    rw [List.map_map, List.map_map]
    rfl
  have hbeside : ∀ {offset : Nat} {jac : Csc α} {jac' : Csc β} {vs : List (Triplet α)}
      {vs' : List (Triplet β)}, jac.SamePattern jac' → besidePrimals? offset jac = some vs →
      besidePrimals? offset jac' = some vs' → vs.map place = vs'.map place := by
    intro offset jac jac' vs vs' hsame hvs hvs'
    obtain ⟨ws, hws, -⟩ := Option.bind_eq_some_iff.mp hvs
    obtain ⟨ws', hws', -⟩ := Option.bind_eq_some_iff.mp hvs'
    rw [map_place_besidePrimals? hws hvs, map_place_besidePrimals? hws' hvs',
      places_of_samePattern hsame hws hws']
  obtain ⟨hessian, jacEq, jacIneq, hhessian, hEq, hIneq, rfl⟩ := triplets?_eq_some hts
  obtain ⟨hessian', jacEq', jacIneq', hhessian', hEq', hIneq', rfl⟩ := triplets?_eq_some hus
  rw [← hdual] at hEq'
  rw [← hineq] at hIneq'
  simp only [List.map_append, map_place_diagonalFrom, map_place_slackEntries, hupper,
    places_of_samePattern h.hessian hhessian hhessian', hbeside h.jacEq hEq hEq',
    hbeside h.jacIneq hIneq hIneq', hsigmaX, hsigmaX', hsigmaS, hsigmaS', Vec.zero,
    Array.size_replicate, hprimals, hequalities, hinequalities, hdual, hineq]

/-- Where the entries of a system are does not depend on the values of its blocks. -/
theorem samePattern_of_assemble? {b : KktBlocks α} {b' : KktBlocks β} (h : b.SamePattern b')
    {rhs : Array α} {rhs' : Array β} {barrier : α} {barrier' : β} {k : KktSystem α}
    {k' : KktSystem β} (hk : b.assemble? rhs barrier = some k)
    (hk' : b'.assemble? rhs' barrier' = some k') : k.matrix.SamePattern k'.matrix := by
  obtain ⟨ts, hb, -, hts, -, rfl⟩ := assemble?_eq_some hk
  obtain ⟨us, hb', -, hus, -, rfl⟩ := assemble?_eq_some hk'
  have hplaces := map_place_of_samePattern h hb hb' hts hus
  have hprimals : b.primals = b'.primals := h.hessian.2.1
  have hequalities : b.equalities = b'.equalities := h.jacEq.1
  have hinequalities : b.inequalities = b'.inequalities := h.jacIneq.1
  have hdim : b.dim = b'.dim := by
    simp only [dim, ineqOffset, dualOffset, hprimals, hequalities, hinequalities]
  rw [hdim]
  exact samePattern_ofTriplets fun x => by rw [hplaces]

end Pattern

section Columns

variable {α : Type} [Scalar α] {b : KktBlocks α} {k : KktSystem α}

theorem exists_columns {rhs : Array α} {barrier : α} (h : b.assemble? rhs barrier = some k) :
    ∃ blocks, Holds k.matrix blocks ∧ Ascending blocks ∧ EndsOnDiagonal blocks ∧
      ∀ c (hc : c < blocks.length), ∀ e ∈ blocks[c], e.1 ≤ c := by
  obtain ⟨ts, hconsistent, -, hts, hbound, rfl⟩ := assemble?_eq_some h
  obtain ⟨-, -, -, hsigmaX, hsigmaS⟩ := consistent_iff.mp hconsistent
  exact ⟨tripletBlocks b.dim ts, holds_ofTriplets hbound, ascending_tripletBlocks _ _,
    endsOnDiagonal_tripletBlocks (row_le_col hts) (exists_diagonal hts hsigmaX hsigmaS),
    row_le_tripletBlocks (row_le_col hts)⟩

theorem columns_regularized {rhs : Array α} {barrier : α} (h : b.assemble? rhs barrier = some k)
    (primal dual : α) {c : Nat} (hc : c < b.dim) :
    ∃ init v, (∀ e ∈ init, e.1 < c) ∧ k.matrix.entries? c = some (init ++ [(c, v)]) ∧
      (k.regularized primal dual).matrix.entries? c =
        some (init ++ [(c, if c < b.primals then v + primal
          else if c < b.dualOffset then v else v - dual)]) := by
  obtain ⟨blocks, hholds, hascending, hends, -⟩ := exists_columns h
  obtain ⟨ts, -, -, -, -, rfl⟩ := assemble?_eq_some h
  have hlt : c < blocks.length := hholds.cols ▸ hc
  have hfits : b.primals + b.inequalities ≤ b.dim := by
    simp only [dim, ineqOffset, dualOffset]
    omega
  obtain ⟨init, v, hlast⟩ := hends c hlt
  obtain ⟨blocks', hholds', hcolumns⟩ :=
    KktSystem.holds_regularized hholds hends hfits primal dual
  have hcolumn := hcolumns c init v (List.getElem?_eq_some_iff.mpr ⟨hlt, hlast⟩)
  obtain ⟨hlt', hlast'⟩ := List.getElem?_eq_some_iff.mp hcolumn
  refine ⟨init, v, ?_, hlast ▸ hholds.stores.entries? hlt, hlast' ▸ hholds'.stores.entries? hlt'⟩
  intro e he
  have hrows := hascending _ (List.getElem_mem hlt)
  rw [hlast, List.map_append, List.pairwise_append] at hrows
  exact hrows.2.2 e.1 (List.mem_map_of_mem he) c (by simp)

end Columns

section Entries

variable {K : Type} [LinearOrder K] [ExactScalar K] {b : KktBlocks K} {k : KktSystem K}

inductive Unknown where
  | x (i : Nat)
  | slack (i : Nat)
  | equality (i : Nat)
  | inequality (i : Nat)

open Unknown

def unknownAt (b : KktBlocks K) (i : Nat) : Unknown :=
  if i < b.primals then x i
  else if i < b.dualOffset then slack (i - b.primals)
  else if i < b.ineqOffset then equality (i - b.dualOffset)
  else inequality (i - b.ineqOffset)

/-- The block matrix, entry by entry. -/
def blockEntry (b : KktBlocks K) : Unknown → Unknown → K
  | x i, x j => b.hessian.symmetricAt i j + if i = j then b.sigmaX.getD i 0 else 0
  | x i, equality r | equality r, x i => b.jacEq.entryAt r i
  | x i, inequality r | inequality r, x i => b.jacIneq.entryAt r i
  | slack i, slack j => if i = j then b.sigmaS.getD i 0 else 0
  | slack i, inequality j | inequality j, slack i => -if i = j then 1 else 0
  | _, _ => 0

def unit (j c : Nat) : K := if c = j then 1 else 0

theorem sum_mul_unit (n : Nat) (f : Nat → K) (j : Nat) :
    ∑ c ∈ Finset.range n, f c * unit j c = if j < n then f j else 0 := by
  simp [unit]

theorem sum_mul_unit_add (offset m : Nat) (f : Nat → K) (j : Nat) :
    ∑ r ∈ Finset.range m, f r * unit j (offset + r) =
      if offset ≤ j ∧ j < offset + m then f (j - offset) else 0 := by
  by_cases hj : offset ≤ j
  · obtain ⟨s, rfl⟩ := Nat.exists_eq_add_of_le hj
    simp [unit]
  · have hunit : ∀ r, unit j (offset + r) = (0 : K) := fun r => if_neg (by omega)
    simp [hunit, hj]

theorem symmetricAt_eq_sum {i j : Nat} (hj : j < b.dim) :
    k.matrix.symmetricAt i j =
      ∑ c ∈ Finset.range b.dim, (k.regularized 0 0).matrix.symmetricAt i c * unit j c := by
  rw [sum_mul_unit, if_pos hj, KktSystem.regularized_zero]

omit [LinearOrder K] [ExactScalar K] in
theorem unknownAt_cases {i : Nat} (hi : i < b.dim) :
    (i < b.primals ∧ b.unknownAt i = x i) ∨
      (∃ s < b.inequalities, i = b.primals + s ∧ b.unknownAt i = slack s) ∨
      (∃ s < b.equalities, i = b.dualOffset + s ∧ b.unknownAt i = equality s) ∨
      ∃ s < b.inequalities, i = b.ineqOffset + s ∧ b.unknownAt i = inequality s := by
  have hdim : b.dim = b.ineqOffset + b.inequalities := rfl
  have hdual : b.dualOffset = b.primals + b.inequalities := rfl
  have hineq : b.ineqOffset = b.dualOffset + b.equalities := rfl
  unfold unknownAt
  by_cases h₁ : i < b.primals
  · exact .inl ⟨h₁, if_pos h₁⟩
  rw [if_neg h₁]
  by_cases h₂ : i < b.dualOffset
  · exact .inr (.inl ⟨i - b.primals, by omega, by omega, if_pos h₂⟩)
  rw [if_neg h₂]
  by_cases h₃ : i < b.ineqOffset
  · exact .inr (.inr (.inl ⟨i - b.dualOffset, by omega, by omega, if_pos h₃⟩))
  · exact .inr (.inr (.inr ⟨i - b.ineqOffset, by omega, by omega, if_neg h₃⟩))

theorem symmetricAt_primal (h : b.Sound k) {i j : Nat} (hi : i < b.primals) (hj : j < b.dim) :
    k.matrix.symmetricAt i j = b.blockEntry (x i) (b.unknownAt j) := by
  have hdual : b.dualOffset = b.primals + b.inequalities := rfl
  have hineq : b.ineqOffset = b.dualOffset + b.equalities := rfl
  rw [symmetricAt_eq_sum hj, row_primal h 0 0 hi]
  simp only [sum_mul_unit, sum_mul_unit_add, zero_mul, add_zero]
  simp only [unit]
  obtain ⟨hj, hcol⟩ | ⟨r, hr, rfl, hcol⟩ | ⟨r, hr, rfl, hcol⟩ | ⟨r, hr, rfl, hcol⟩ :=
      unknownAt_cases hj <;>
    simp (disch := omega) [hcol, blockEntry, if_pos, if_neg]

theorem symmetricAt_slack (h : b.Sound k) {s j : Nat} (hs : s < b.inequalities) (hj : j < b.dim) :
    k.matrix.symmetricAt (b.primals + s) j = b.blockEntry (slack s) (b.unknownAt j) := by
  have hdual : b.dualOffset = b.primals + b.inequalities := rfl
  have hineq : b.ineqOffset = b.dualOffset + b.equalities := rfl
  rw [symmetricAt_eq_sum hj, row_slack h 0 0 hs]
  simp only [unit]
  obtain ⟨hj, hcol⟩ | ⟨r, hr, rfl, hcol⟩ | ⟨r, hr, rfl, hcol⟩ | ⟨r, hr, rfl, hcol⟩ :=
      unknownAt_cases hj <;>
    simp (disch := omega) [hcol, blockEntry, if_neg]

theorem symmetricAt_equality (h : b.Sound k) {s j : Nat} (hs : s < b.equalities)
    (hj : j < b.dim) :
    k.matrix.symmetricAt (b.dualOffset + s) j = b.blockEntry (equality s) (b.unknownAt j) := by
  have hdual : b.dualOffset = b.primals + b.inequalities := rfl
  have hineq : b.ineqOffset = b.dualOffset + b.equalities := rfl
  rw [symmetricAt_eq_sum hj, row_equality h 0 0 hs]
  simp only [sum_mul_unit, zero_mul, sub_zero]
  obtain ⟨hj, hcol⟩ | ⟨r, hr, rfl, hcol⟩ | ⟨r, hr, rfl, hcol⟩ | ⟨r, hr, rfl, hcol⟩ :=
      unknownAt_cases hj <;>
    simp (disch := omega) [hcol, blockEntry, if_pos, if_neg]

theorem symmetricAt_inequality (h : b.Sound k) {s j : Nat} (hs : s < b.inequalities)
    (hj : j < b.dim) :
    k.matrix.symmetricAt (b.ineqOffset + s) j = b.blockEntry (inequality s) (b.unknownAt j) := by
  have hdual : b.dualOffset = b.primals + b.inequalities := rfl
  have hineq : b.ineqOffset = b.dualOffset + b.equalities := rfl
  rw [symmetricAt_eq_sum hj, row_inequality h 0 0 hs]
  simp only [sum_mul_unit, zero_mul, sub_zero]
  simp only [unit]
  obtain ⟨hj, hcol⟩ | ⟨r, hr, rfl, hcol⟩ | ⟨r, hr, rfl, hcol⟩ | ⟨r, hr, rfl, hcol⟩ :=
      unknownAt_cases hj <;>
    simp (disch := omega) [hcol, blockEntry, if_pos, if_neg, eq_comm]

/-- The matrix stands for the block matrix. -/
theorem symmetricAt_assembled (h : b.Sound k) {i j : Nat} (hi : i < b.dim) (hj : j < b.dim) :
    k.matrix.symmetricAt i j = b.blockEntry (b.unknownAt i) (b.unknownAt j) := by
  obtain ⟨hi, hrow⟩ | ⟨s, hs, rfl, hrow⟩ | ⟨s, hs, rfl, hrow⟩ | ⟨s, hs, rfl, hrow⟩ :=
    unknownAt_cases hi
  · rw [hrow, symmetricAt_primal h hi hj]
  · rw [hrow, symmetricAt_slack h hs hj]
  · rw [hrow, symmetricAt_equality h hs hj]
  · rw [hrow, symmetricAt_inequality h hs hj]

theorem entryAt_assembled (h : b.Sound k) {i j : Nat} (hij : i ≤ j) (hj : j < b.dim) :
    k.matrix.entryAt i j = b.blockEntry (b.unknownAt i) (b.unknownAt j) := by
  rw [← symmetricAt_assembled h (hij.trans_lt hj) hj, symmetricAt]
  split
  · rfl
  next hne =>
  obtain ⟨rhs, barrier, hassemble⟩ := h.assembled
  obtain ⟨blocks, hholds, -, -, hupper⟩ := exists_columns hassemble
  have hi : i < k.matrix.cols := by
    have hdim := dim_eq h
    rw [KktSystem.dim] at hdim
    omega
  have hlt : i < blocks.length := hholds.cols ▸ hi
  have hbelow : k.matrix.entryAt j i = 0 := by
    rw [hholds.entryAt_eq hi, List.getD_eq_getElem _ _ hlt]
    apply sumAt_eq_zero
    intro hmem
    obtain ⟨e, he, hrow⟩ := List.mem_map.mp hmem
    have hle := hupper i hlt e he
    omega
  rw [hbelow, add_zero]

end Entries

/-- The system of well formed blocks is well formed, an upper triangle with all of its diagonal,
where the blocks' patterns say where the entries are. A regularization changes the diagonal of the
variables and of the duals, and nothing else. In exact arithmetic, the triangle is that of the block
matrix. -/
theorem assembled_of_wellFormed :
    (∀ {α : Type} [Scalar α] {b : KktBlocks α}, b.WellFormed → ∀ rhs : Array α,
      rhs.size = b.dim → ∀ barrier : α, ∃ k, b.assemble? rhs barrier = some k ∧
        k.matrix.rows = b.dim ∧ k.matrix.cols = b.dim ∧ k.rhs = rhs ∧
        k.matrix.checkFormat = .ok () ∧ k.matrix.isUpper? = some true ∧
        (∀ {β : Type} [Scalar β] {b' : KktBlocks β} {rhs' : Array β} {barrier' : β}
          {k' : KktSystem β}, b.SamePattern b' → b'.assemble? rhs' barrier' = some k' →
            k.matrix.SamePattern k'.matrix) ∧
        ∀ primal dual, ∃ values, k.regularized primal dual =
            { k with matrix := { k.matrix with values } } ∧
          ∀ c, c < b.dim → ∃ init v, (∀ e ∈ init, e.1 < c) ∧
            k.matrix.entries? c = some (init ++ [(c, v)]) ∧
            (k.regularized primal dual).matrix.entries? c =
              some (init ++ [(c, if c < b.primals then v + primal
                else if c < b.dualOffset then v else v - dual)])) ∧
    ∀ {K : Type} [LinearOrder K] [ExactScalar K] {b : KktBlocks K}, b.WellFormed →
      ∀ {rhs : Array K} {barrier : K} {k : KktSystem K}, b.assemble? rhs barrier = some k →
        ∀ i j, i ≤ j → j < b.dim →
          k.matrix.entryAt i j = b.blockEntry (b.unknownAt i) (b.unknownAt j) := by
  constructor
  · intro α _ b h rhs hrhs barrier
    obtain ⟨k, hk⟩ := h.assemble? rhs hrhs barrier
    obtain ⟨blocks, hholds, hascending, -, hupper⟩ := exists_columns hk
    refine ⟨k, hk, ?_, ?_, ?_, hholds.checkFormat hascending, hholds.isUpper? hupper,
      fun hsame hk' => samePattern_of_assemble? hsame hk hk', ?_⟩
    · obtain ⟨ts, -, -, -, -, rfl⟩ := assemble?_eq_some hk
      rfl
    · obtain ⟨ts, -, -, -, -, rfl⟩ := assemble?_eq_some hk
      rfl
    · obtain ⟨ts, -, -, -, -, rfl⟩ := assemble?_eq_some hk
      rfl
    · intro primal dual
      exact ⟨_, rfl, fun c hc => columns_regularized hk primal dual hc⟩
  · intro K _ _ b h rhs barrier k hk i j hij hj
    exact entryAt_assembled ⟨h.hessian.inRange, h.jacEq.inRange, h.jacIneq.inRange, _, _, hk⟩ hij hj

/-- Two variables with an equality, the Hessian stored below the diagonal. -/
def lowerBlocks : KktBlocks (Exact ℚ) where
  hessian := ⟨2, 2, #[0, 2, 2], #[0, 1], #[1, 1]⟩
  jacEq := ⟨1, 2, #[0, 1, 2], #[0, 0], #[-1, 1]⟩
  jacIneq := ⟨0, 2, #[0, 0, 0], #[], #[]⟩
  sigmaX := #[0, 1]
  sigmaS := #[]

theorem lowerBlocks_wellFormed : lowerBlocks.WellFormed where
  consistent := rfl
  hessian := complete_of_checkFormat (by decide +kernel)
  jacEq := complete_of_checkFormat (by decide +kernel)
  jacIneq := complete_of_checkFormat (by decide +kernel)

theorem assembled_lowerBlocks : ∃ k, lowerBlocks.assemble? #[0, 1, 1] 1 = some k ∧
    k.matrix.checkFormat = .ok () ∧ k.matrix.entryAt 0 1 = 1 ∧ k.matrix.entryAt 0 2 = -1 := by
  obtain ⟨k, hk, -, -, -, hformat, -⟩ :=
    assembled_of_wellFormed.1 lowerBlocks_wellFormed #[0, 1, 1] rfl 1
  have hentry := assembled_of_wellFormed.2 lowerBlocks_wellFormed hk
  refine ⟨k, hk, hformat, ?_, ?_⟩
  · rw [hentry 0 1 (by decide) (by decide)]
    decide +kernel
  · rw [hentry 0 2 (by decide) (by decide)]
    decide +kernel

end KktBlocks

end NonlinearOpt
