import Mathlib
import NonlinearOpt.Proofs.Ldl.Defined
import NonlinearOpt.Proofs.Ldl.Inertia

/-!
When the factorization fails. In exact arithmetic with tolerance zero the pivots are ratios of
consecutive leading minors of the reordered matrix, so elimination stops at the first minor that
vanishes, and nowhere if there is none.
-/

namespace NonlinearOpt

variable {K : Type} [LinearOrder K] [ExactScalar K]

/-- The determinant of the first `m` rows and columns of the symmetric matrix, in a given order. -/
def Csc.leadingMinor (a : Csc K) (order : Array Nat) (m : Nat) : K :=
  (Matrix.of fun i j : Fin m => a.symmetricAt (order.getD i 0) (order.getD j 0)).det

theorem Csc.leadingMinor_one (a : Csc K) (order : Array Nat) :
    a.leadingMinor order 1 = a.symmetricAt (order.getD 0 0) (order.getD 0 0) :=
  Matrix.det_fin_one _

theorem Csc.leadingMinor_two (a : Csc K) (order : Array Nat) :
    a.leadingMinor order 2 =
      a.symmetricAt (order.getD 0 0) (order.getD 0 0) *
        a.symmetricAt (order.getD 1 0) (order.getD 1 0) -
      a.symmetricAt (order.getD 0 0) (order.getD 1 0) *
        a.symmetricAt (order.getD 1 0) (order.getD 0 0) :=
  Matrix.det_fin_two _

namespace Ldl

section Products

theorem det_of_product {m : Nat} {L S : Nat → Nat → K} {d : Nat → K} (hone : ∀ i, i < m → L i i = 1)
    (hzero : ∀ i c, i < c → c < m → L i c = 0)
    (hproduct : ∀ i j, i < m → j < m → S i j = ∑ c ∈ Finset.range m, L i c * d c * L j c) :
    (Matrix.of fun i j : Fin m => S i j).det = ∏ c ∈ Finset.range m, d c := by
  let lower : Matrix (Fin m) (Fin m) K := Matrix.of fun i c => L i c
  have hsplit : (Matrix.of fun i j : Fin m => S i j) =
      lower * Matrix.diagonal (fun c : Fin m => d c) * lower.transpose := by
    ext i j
    rw [Matrix.of_apply, hproduct i j i.isLt j.isLt, Matrix.mul_apply, Finset.sum_range]
    simp only [Matrix.mul_diagonal, Matrix.transpose_apply]
    rfl
  have htriangular : lower.BlockTriangular OrderDual.toDual := by
    intro i j hij
    exact hzero i j hij j.isLt
  have hdet : lower.det = 1 := by
    rw [Matrix.det_of_isLowerTriangular _ htriangular]
    exact Finset.prod_eq_one fun i _ => hone i i.isLt
  rw [hsplit, Matrix.det_mul, Matrix.det_mul, Matrix.det_transpose, hdet, Matrix.det_diagonal,
    one_mul, mul_one, Finset.prod_range]

structure Rows.Multiplies (s : Rows K) (columns : List (List (Nat × K))) (m : Nat) : Prop where
  upper : ∀ i c, i ≤ c → c < m → s.entry i c = 0
  product : ∀ i j, i ≤ j → j < m → sumAt (columns.getD j []) i =
    ∑ c ∈ Finset.range (j + 1), s.unitEntry i c * s.diag.getD c 0 * s.unitEntry j c

variable {s s' : Rows K} {columns : List (List (Nat × K))} {m : Nat}

theorem Rows.Multiplies.mono (h : s.Multiplies columns m) {m' : Nat} (hle : m' ≤ m) :
    s.Multiplies columns m' :=
  ⟨fun i c hic hc => h.upper i c hic (hc.trans_le hle),
    fun i j hij hj => h.product i j hij (hj.trans_le hle)⟩

/-- A leading minor is a product of pivots. -/
theorem Rows.Multiplies.minor (h : s.Multiplies columns m) {a : Csc K} {order : Array Nat}
    (hentries : ∀ i j, i ≤ j → j < m →
      sumAt (columns.getD j []) i = a.symmetricAt (order.getD i 0) (order.getD j 0)) :
    a.leadingMinor order m = ∏ c ∈ Finset.range m, s.diag.getD c 0 := by
  have hunit : ∀ i c, i < c → c < m → s.unitEntry i c = 0 := by
    intro i c hic hc
    rw [Rows.unitEntry, h.upper i c hic.le hc, if_neg hic.ne, add_zero]
  have hupper : ∀ i j, i ≤ j → j < m → a.symmetricAt (order.getD i 0) (order.getD j 0) =
      ∑ c ∈ Finset.range m, s.unitEntry i c * s.diag.getD c 0 * s.unitEntry j c := by
    intro i j hij hj
    rw [← hentries i j hij hj, h.product i j hij hj]
    apply Finset.sum_subset (Finset.range_subset_range.mpr hj)
    intro c hc hnot
    rw [hunit j c (by simpa using hnot) (Finset.mem_range.mp hc), mul_zero]
  apply det_of_product (L := s.unitEntry)
    (S := fun i j => a.symmetricAt (order.getD i 0) (order.getD j 0))
  · intro i hi
    rw [Rows.unitEntry, h.upper i i (Nat.le_refl _) hi, if_pos rfl, zero_add]
  · exact hunit
  · intro i j hi hj
    rcases Nat.le_total i j with hij | hij
    · exact hupper i j hij hj
    · rw [Csc.symmetricAt_comm, hupper j i hij hi]
      exact Finset.sum_congr rfl fun c _ => by ring

end Products

section Stops

variable {parent : Array (Option Nat)} {columns : List (List (Nat × K))} {tolerance : K}
  {k : Nat} {s s' : Rows K}

theorem Factored.multiplies (h : Factored parent tolerance columns k s) :
    s.Multiplies columns k := by
  refine ⟨?_, h.product⟩
  intro i c hic _
  by_contra hne
  have := (h.fills_of_entry hne).2.1
  omega

theorem pivotError_of_checkPivot {d : K} {e : PivotError} (h : checkPivot tolerance k d = some e) :
    e = .zero k ∧ |d| ≤ tolerance := by
  have hfinite : Scalar.isFinite d = true := ExactScalar.isFinite_eq d
  have habs : Scalar.abs d = |d| := ExactScalar.abs_eq d
  unfold checkPivot at h
  rw [hfinite, if_neg (by simp), habs] at h
  split at h
  · next hle =>
    cases h
    exact ⟨rfl, OrderedScalar.le_iff.mp hle⟩
  · cases h

structure Stopped (tolerance : K) (columns : List (List (Nat × K))) (m : Nat) (s : Rows K) :
    Prop where
  bound : m < columns.length
  multiplies : s.Multiplies columns (m + 1)
  pivot : ∀ c, c < m → tolerance < |s.diag.getD c 0|
  last : |s.diag.getD m 0| ≤ tolerance

theorem Factored.stopped (hp : Patterned parent columns)
    (h : Factored parent tolerance columns k s) {column : List (Nat × K)}
    (hk : columns[k]? = some column) {e : PivotError}
    (hrow : row? parent tolerance k column s = some (s', some e)) :
    e = .zero k ∧ Stopped tolerance columns k s' := by
  obtain ⟨order, y, d, p, horder, hload, hfold, hcheck, hsettle⟩ := row?_eq_some.mp hrow
  obtain ⟨hmem, hzero, helim, hsolves, hpivot⟩ := h.solved hp hk horder hload hfold
  obtain ⟨rfl, hsmall⟩ := pivotError_of_checkPivot hcheck
  obtain ⟨diag, hdiag, hs'⟩ := Option.bind_eq_some_iff.mp hsettle
  cases hs'
  have hlt : ∀ c ∈ order, c < k := fun c hc => ((hmem c).mp hc).1
  have hbound := (List.getElem?_eq_some_iff.mp hk).1
  have hcolumns : ({ s with columns := p.columns, diag } : Rows K).columns = p.columns := rfl
  obtain ⟨hframe, hnew, hnone⟩ := h.entry_next hlt hbound hzero helim hcolumns
  have hold : ∀ c, c < k → diag.getD c 0 = s.diag.getD c 0 := by
    intro c hc
    rw [getD_of_replace? hdiag, if_neg hc.ne']
  have hlast : diag.getD k 0 = p.pivot := by
    rw [getD_of_replace? hdiag, if_pos rfl]
  refine ⟨rfl, hbound, ⟨?_, ?_⟩, ?_, ?_⟩
  · intro i c hic hc
    rcases Nat.lt_succ_iff_lt_or_eq.mp hc with hc | rfl
    · by_cases hik : i = k
      · omega
      · rw [hframe i c hik]
        exact h.multiplies.upper i c hic hc
    · exact hnone i hic
  · intro i j hij hj
    exact h.product_next hk hframe hnew hnone hold hsolves (hlast ▸ hpivot) hij hj
  · intro c hc
    rw [hold c hc]
    exact h.pivot c hc
  · rwa [hlast]

theorem Factored.exists_rows? (hp : Patterned parent columns) (htolerance : 0 ≤ tolerance)
    {rest : List (List (Nat × K))} (hrest : columns.drop k = rest)
    (h : Factored parent tolerance columns k s) :
    ∃ s' failure, rows? parent tolerance (rest.zipIdx k) s = some (s', failure) ∧
      (failure = none ∧ s'.Multiplies columns (k + rest.length) ∧
          (∀ c, c < k + rest.length → tolerance < |s'.diag.getD c 0|) ∨
        ∃ m, failure = some (.zero m) ∧ Stopped tolerance columns m s') := by
  induction rest generalizing k s with
  | nil => exact ⟨s, none, rfl, .inl ⟨rfl, h.multiplies, h.pivot⟩⟩
  | cons column rest ih =>
    have hk : columns[k]? = some column := by
      rw [← List.head?_drop, hrest, List.head?_cons]
    have hnext : columns.drop (k + 1) = rest := by
      rw [← List.tail_drop, hrest, List.tail_cons]
    obtain ⟨mid, failure, hrow⟩ := h.placed.exists_row? tolerance hp.planted hk
    rw [List.zipIdx_cons]
    cases failure with
    | some e =>
      obtain ⟨rfl, hstopped⟩ := h.stopped hp hk hrow
      exact ⟨mid, _, rows?_cons_eq_some.mpr (.inr ⟨_, hrow, rfl⟩), .inr ⟨k, rfl, hstopped⟩⟩
    | none =>
      obtain ⟨s', failure, hrows, hend⟩ := ih hnext (h.step hp htolerance hk hrow)
      refine ⟨s', failure, rows?_cons_eq_some.mpr (.inl ⟨mid, hrow, hrows⟩), ?_⟩
      rwa [List.length_cons, Nat.add_comm rest.length 1, ← Nat.add_assoc]

end Stops

/-- The minors of a matrix in a given order decide how its factorization ends. -/
structure DecidedByMinors {β : Type} (a : Csc K) (order : Array Nat)
    (result : Option (Except Error β)) : Prop where
  ok : (∃ x, result = some (.ok x)) ↔
    ∀ m, 0 < m → m ≤ a.rows → a.leadingMinor order m ≠ 0
  error : ∀ e, result = some (.error e) ↔ ∃ k, e = .pivot (.zero k) ∧
    IsLeast {m | 0 < m ∧ m ≤ a.rows ∧ a.leadingMinor order m = 0} (k + 1)

namespace DecidedByMinors

variable {β γ : Type} {a : Csc K} {order : Array Nat}

theorem of_ok (h : ∀ m, 0 < m → m ≤ a.rows → a.leadingMinor order m ≠ 0) (x : β) :
    DecidedByMinors a order (some (.ok x)) := by
  constructor
  · exact ⟨fun _ => h, fun _ => ⟨x, rfl⟩⟩
  · intro e
    constructor
    · intro he
      cases he
    · rintro ⟨k, -, hleast⟩
      obtain ⟨hpos, hle, hzero⟩ := hleast.1
      exact absurd hzero (h _ hpos hle)

theorem of_zero {k : Nat}
    (h : IsLeast {m | 0 < m ∧ m ≤ a.rows ∧ a.leadingMinor order m = 0} (k + 1)) :
    DecidedByMinors a order (some (.error (.pivot (.zero k)) : Except Error β)) := by
  constructor
  · constructor
    · rintro ⟨x, hx⟩
      cases hx
    · intro hall
      obtain ⟨hpos, hle, hzero⟩ := h.1
      exact absurd hzero (hall _ hpos hle)
  · intro e
    constructor
    · intro he
      cases he
      exact ⟨k, rfl, h⟩
    · rintro ⟨k', rfl, hleast⟩
      have heq := h.unique hleast
      rw [Nat.add_right_cancel heq]

theorem completed {f : Factorization K} {result : Except Error Unit}
    (h : DecidedByMinors a order (some result)) :
    DecidedByMinors a order (some (Factorization.completed (result, f))) := by
  cases result with
  | ok x => exact of_ok (h.ok.mp ⟨x, rfl⟩) f
  | error e =>
    obtain ⟨k, rfl, hleast⟩ := (h.error e).mp rfl
    exact of_zero hleast

end DecidedByMinors

def Options.ordered [Ordering] (scale : Float) (order : Array Nat) : Options K :=
  ⟨scale, some order, 0⟩

namespace Factorization

section Ordered

variable {a : Csc K} {f : Factorization K} {order : Array Nat} {scale : Float}

theorem exists_inverse_ordered [Ordering] (scale : Float)
    (horder : order.toList.Perm (List.range a.rows)) :
    ∃ inverse, Permutation.inverse? order = some inverse ∧ inverse.size = a.rows ∧
      orderOf a (Options.ordered scale order) = .ok (order, inverse) := by
  have hsize : order.size = a.rows := by simpa using horder.length_eq
  obtain ⟨inverse, hinverse⟩ := Permutation.exists_inverse? (hsize.symm ▸ horder)
  refine ⟨inverse, hinverse, (Permutation.getElem?_inverse? hinverse).1.trans hsize, ?_⟩
  exact orderOf_ordered rfl hinverse

theorem permutes_ordered [Ordering] (horder : order.toList.Perm (List.range a.rows)) :
    (Options.ordered scale order).Permutes a := by
  intro order' inverse' h
  obtain ⟨inverse, -, -, hordered⟩ := exists_inverse_ordered scale horder
  rw [hordered] at h
  cases h
  exact horder

omit [LinearOrder K] [ExactScalar K] in
theorem checkStructure?_triangular (h : a.Triangular) : checkStructure? a = some (.ok ()) := by
  have hsquare : a.isSquare = true := by simpa [Csc.isSquare] using h.square
  unfold checkStructure?
  rw [hsquare, h.isUpper?, h.increasing]
  rfl

theorem exists_analysis [Ordering] (scale : Float) (h : a.Triangular)
    (horder : order.toList.Perm (List.range a.rows)) :
    ∃ blank : Factorization K, analyze? a (Options.ordered scale order) = some (.ok blank) ∧
      blank.Serves a ∧ blank.order = order ∧ blank.tolerance = 0 := by
  obtain ⟨inverse, hinverse, hsize, hordered⟩ := exists_inverse_ordered scale horder
  obtain ⟨permuted, columns, hpermuted, -, hcolumns, hupper⟩ :=
    h.permuteSymmetric? (Permutation.inverts_of_inverse? horder hinverse) hsize
  obtain ⟨symbolic, hsymbolic⟩ := Symbolic.exists_ofColumns? hupper
  have hanalyze := analyze?_eq_ok.mpr ⟨checkStructure?_triangular h, order, inverse, permuted,
    columns, symbolic, hordered, hpermuted, hcolumns, hsymbolic, rfl⟩
  exact ⟨_, hanalyze, (serves_of_analyze? hanalyze (permutes_ordered horder)).1, rfl, rfl⟩

theorem InUse.order_eq [Ordering] (h : InUse (Options.ordered scale order) a f)
    (horder : order.toList.Perm (List.range a.rows)) : f.order = order := by
  induction h with
  | made hf =>
    obtain ⟨blank, hserves, -, ⟨inverse, hordered⟩, hrefactor⟩ :=
      exists_blank_of_new? (permutes_ordered horder) hf
    obtain ⟨-, -, hkept⟩ := hserves.refactor hrefactor
    obtain ⟨inverse', -, -, hordered'⟩ := exists_inverse_ordered scale horder
    rw [hordered'] at hordered
    cases hordered
    exact hkept
  | updated huse hf ih =>
    obtain ⟨hserves, -⟩ := huse.serves (permutes_ordered horder)
    exact (hserves.update hf).2.2.trans (ih horder)
  | refactored huse hf ih =>
    obtain ⟨hserves, -⟩ := huse.serves (permutes_ordered horder)
    exact (hserves.refactor hf).2.2.trans (ih horder)

theorem Serves.exists_updateValues? (h : f.Serves a) (ha : a.Triangular) {vs : Array K}
    (hvs : vs.size = a.values.size) : ∃ f', f.updateValues? vs = some f' := by
  obtain ⟨inverse, -, hpermuted⟩ := h.permuted
  have hcount := (Csc.size_of_permuteSymmetric? hpermuted).symm.trans ha.total
  have hsize : vs.size = f.permuted.position.size := by
    rw [hvs, ← ha.paired, Option.some.inj hcount]
  exact ⟨_, updateValues?_eq hsize⟩

end Ordered

section Minors

variable [IsStrictOrderedRing K] {a : Csc K} {f : Factorization K} {order : Array Nat}

theorem Serves.decided (h : f.Serves a) (hdistinct : a.NoRepeats) (htolerance : f.tolerance = 0) :
    ∃ result f', f.refactor? = some (result, f') ∧
      DecidedByMinors a f.order (some result) := by
  obtain ⟨columns, hcolumns, hlength, hpatterned, -, hentries⟩ := h.columns hdistinct
  have hstart : Factored f.symbolic.parent f.tolerance columns 0 _ :=
    factored_zero (h.invDiag.trans hlength.symm)
  obtain ⟨s, failure, hrows, hend⟩ :=
    hstart.exists_rows? hpatterned htolerance.ge List.drop_zero
  rw [Nat.zero_add, hlength] at hend
  have hminor : ∀ m, m ≤ a.rows → s.Multiplies columns m →
      a.leadingMinor f.order m = ∏ c ∈ Finset.range m, s.diag.getD c 0 :=
    fun m hm hs => hs.minor fun i j hij hj => hentries i j hij (hj.trans_le hm)
  have hne : ∀ d : K, f.tolerance < |d| → d ≠ 0 := fun d hd => abs_pos.mp (htolerance ▸ hd)
  refine ⟨_, _, refactor?_eq_some.mpr ⟨columns, s, failure, hcolumns, hrows, rfl⟩, ?_⟩
  rcases hend with ⟨rfl, hmultiplies, hpivots⟩ | ⟨k, rfl, hstopped⟩
  · apply DecidedByMinors.of_ok
    intro m _ hm
    rw [hminor m hm (hmultiplies.mono hm)]
    exact Finset.prod_ne_zero_iff.mpr fun c hc =>
      hne _ (hpivots c ((Finset.mem_range.mp hc).trans_le hm))
  · have hbound : k + 1 ≤ a.rows := hlength ▸ hstopped.bound
    have hlast : s.diag.getD k 0 = 0 := abs_nonpos_iff.mp (htolerance ▸ hstopped.last)
    apply DecidedByMinors.of_zero
    constructor
    · refine ⟨Nat.succ_pos k, hbound, ?_⟩
      rw [hminor _ hbound hstopped.multiplies]
      exact Finset.prod_eq_zero (Finset.mem_range.mpr (Nat.lt_succ_self k)) hlast
    · rintro m ⟨-, hm, hzero⟩
      by_contra hlt
      have hmk : m ≤ k := by omega
      rw [hminor m hm (hstopped.multiplies.mono (by omega))] at hzero
      obtain ⟨c, hc, hc0⟩ := Finset.prod_eq_zero_iff.mp hzero
      exact hne _ (hstopped.pivot c ((Finset.mem_range.mp hc).trans_le hmk)) hc0

/-- A factorization in a given order fails at the first leading minor that vanishes, and only there.
So does every later computation, with the values that it is given then. -/
theorem new?_decidedByMinors [Ordering] (ha : a.Triangular)
    (horder : order.toList.Perm (List.range a.rows)) (scale : Float) :
    DecidedByMinors a order (new? a (Options.ordered scale order)) ∧
      ∀ f, InUse (Options.ordered scale order) a f → ∀ vs : Array K, vs.size = a.values.size →
        ∃ f', f.updateValues? vs = some f' ∧
          DecidedByMinors { a with values := vs } order (f'.refactor?.map (·.1)) := by
  constructor
  · obtain ⟨blank, hanalyze, hserves, hkept, htolerance⟩ :=
      exists_analysis scale ha horder
    obtain ⟨result, f, hrefactor, hdecided⟩ := hserves.decided ha.distinct htolerance
    rw [new?_eq, hanalyze, Option.bind_some, complete?, hrefactor, Option.map_some]
    exact (hkept ▸ hdecided).completed
  · intro f huse vs hvs
    obtain ⟨hserves, htolerance⟩ := huse.serves (permutes_ordered horder)
    obtain ⟨f', hf'⟩ := hserves.exists_updateValues? ha hvs
    obtain ⟨hserves', htolerance', hkept⟩ := hserves.update hf'
    obtain ⟨result, f'', hrefactor, hdecided⟩ :=
      hserves'.decided (ha.revalue hvs).distinct (htolerance'.trans htolerance)
    refine ⟨f', hf', ?_⟩
    rw [hrefactor, Option.map_some]
    rwa [hkept, huse.order_eq horder] at hdecided

end Minors

section Swap

def swapMatrix : Csc (Exact ℚ) := ⟨2, 2, #[0, 1, 3], #[0, 0, 1], #[0, 1, 1]⟩

theorem swapMatrix_triangular : swapMatrix.Triangular := by
  refine ⟨rfl, rfl, rfl, rfl, ?_, ?_, ?_⟩
  · intro j first last h
    rcases j with _ | _ | j
    · cases h
      decide
    · cases h
      decide
    · simp [Csc.span?, swapMatrix] at h
  · intro j rows h
    rcases j with _ | _ | j
    · cases h
      decide
    · cases h
      decide
    · simp [Csc.rowsOf?, Csc.span?, swapMatrix] at h
  · intro j column h
    rcases j with _ | _ | j
    · cases h
      decide
    · cases h
      decide
    · simp [Csc.entries?, Csc.span?, swapMatrix] at h

/-- It cannot be factored as it is, but from the other end it can, until its values make it
singular. -/
theorem new?_decidedByMinors_swap :
    swapMatrix.Triangular ∧ [0, 1].Perm (List.range 2) ∧ [1, 0].Perm (List.range 2) ∧
      new? swapMatrix (Options.ordered 1.0 #[0, 1]) = some (.error (.pivot (.zero 0))) ∧
      ∃ f, new? swapMatrix (Options.ordered 1.0 #[1, 0]) = some (.ok f) ∧
        ∃ f', f.updateValues? #[1, 1, 1] = some f' ∧
          f'.refactor?.map (·.1) = some (.error (.pivot (.zero 1))) := by
  have hforth : [0, 1].Perm (List.range 2) := List.Perm.refl _
  have hback : [1, 0].Perm (List.range 2) := List.Perm.swap 0 1 []
  have hfirst := (new?_decidedByMinors swapMatrix_triangular hforth 1.0).1
  have hsecond := new?_decidedByMinors swapMatrix_triangular hback 1.0
  refine ⟨swapMatrix_triangular, hforth, hback, ?_, ?_⟩
  · refine (hfirst.error _).mpr ⟨0, rfl, ⟨Nat.one_pos, by decide, ?_⟩, fun m hm => hm.1⟩
    rw [Csc.leadingMinor_one]
    decide +kernel
  · have hminors : ∀ m, 0 < m → m ≤ 2 → swapMatrix.leadingMinor #[1, 0] m ≠ 0 := by
      intro m hpos hm
      obtain rfl | rfl : m = 1 ∨ m = 2 := by omega
      · rw [Csc.leadingMinor_one]
        decide +kernel
      · rw [Csc.leadingMinor_two]
        decide +kernel
    obtain ⟨f, hf⟩ := hsecond.1.ok.mpr hminors
    obtain ⟨f', hf', hlater⟩ := hsecond.2 f (.made hf) #[1, 1, 1] rfl
    refine ⟨f, hf, f', hf', (hlater.error _).mpr ⟨1, rfl, ⟨Nat.two_pos, by decide, ?_⟩, ?_⟩⟩
    · rw [Csc.leadingMinor_two]
      decide +kernel
    · rintro m ⟨hpos, -, hzero⟩
      by_contra hlt
      obtain rfl : m = 1 := by omega
      rw [Csc.leadingMinor_one] at hzero
      exact absurd hzero (by decide +kernel)

end Swap

end Factorization

end Ldl

end NonlinearOpt
