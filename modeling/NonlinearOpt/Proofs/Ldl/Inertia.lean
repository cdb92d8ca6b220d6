import Mathlib
import NonlinearOpt.Proofs.Ldl.Product

namespace NonlinearOpt

section Congruence

variable {𝕜 ι : Type} [Field 𝕜] [Fintype ι] {S U : Matrix ι ι 𝕜} {d : ι → 𝕜}
  {σ : Equiv.Perm ι}

theorem exists_coordinates [DecidableEq ι] (hU : IsUnit U.det)
    (h : S.submatrix σ σ = U * Matrix.diagonal d * U.transpose) :
    ∃ e : (ι → 𝕜) ≃ₗ[𝕜] (ι → 𝕜), ∀ x, x ⬝ᵥ S.mulVec x = ∑ i, d i * (e x i * e x i) := by
  have hdet : IsUnit U.transpose.det := by rwa [Matrix.det_transpose]
  let e := (LinearEquiv.funCongrLeft 𝕜 𝕜 σ).trans
    (Matrix.toLinearEquiv' U.transpose (Matrix.invertibleOfIsUnitDet _ hdet))
  refine ⟨e, ?_⟩
  intro x
  have he : e x = U.transpose.mulVec (x ∘ σ) := rfl
  calc x ⬝ᵥ S.mulVec x
    _ = (x ∘ σ) ⬝ᵥ (S.submatrix σ σ).mulVec (x ∘ σ) := by
      rw [Matrix.submatrix_mulVec_equiv, Function.comp_assoc, Equiv.self_comp_symm,
        Function.comp_id, comp_equiv_dotProduct_comp_equiv]
    _ = e x ⬝ᵥ (Matrix.diagonal d).mulVec (e x) := by
      rw [h, he, ← Matrix.mulVec_mulVec, ← Matrix.mulVec_mulVec, Matrix.dotProduct_mulVec,
        ← Matrix.mulVec_transpose]
    _ = ∑ i, d i * (e x i * e x i) := by
      simp only [dotProduct, Matrix.mulVec_diagonal]
      exact Finset.sum_congr rfl fun i _ => by ring

variable [LinearOrder 𝕜]

def PositiveOn (S : Matrix ι ι 𝕜) (V : Submodule 𝕜 (ι → 𝕜)) : Prop :=
  ∀ x ∈ V, x ≠ 0 → 0 < x ⬝ᵥ S.mulVec x

def NegativeOn (S : Matrix ι ι 𝕜) (V : Submodule 𝕜 (ι → 𝕜)) : Prop :=
  ∀ x ∈ V, x ≠ 0 → x ⬝ᵥ S.mulVec x < 0

/-- The largest dimension of a subspace on which a matrix is positive, and of one on which it is
negative. -/
structure HasInertia (S : Matrix ι ι 𝕜) (positive negative : Nat) : Prop where
  positive : IsGreatest
    {m | ∃ V : Submodule 𝕜 (ι → 𝕜), Module.finrank 𝕜 V = m ∧ PositiveOn S V} positive
  negative : IsGreatest
    {m | ∃ V : Submodule 𝕜 (ι → 𝕜), Module.finrank 𝕜 V = m ∧ NegativeOn S V} negative

theorem HasInertia.unique {positive negative positive' negative' : Nat}
    (h : HasInertia S positive negative) (h' : HasInertia S positive' negative') :
    positive = positive' ∧ negative = negative' :=
  ⟨h.positive.unique h'.positive, h.negative.unique h'.negative⟩

theorem HasInertia.add_finrank_le {positive negative : Nat} (h : HasInertia S positive negative)
    {V : Submodule 𝕜 (ι → 𝕜)} (hV : ∀ x ∈ V, x ⬝ᵥ S.mulVec x ≤ 0) :
    positive + Module.finrank 𝕜 V ≤ Fintype.card ι := by
  obtain ⟨P, hP, hpositive⟩ := h.positive.1
  have hdisjoint : Disjoint P V := by
    rw [Submodule.disjoint_def]
    intro x hxP hxV
    by_contra hx
    exact absurd (hpositive x hxP hx) (not_lt.mpr (hV x hxV))
  have hle := Submodule.finrank_add_finrank_le_of_disjoint hdisjoint
  rwa [hP, Module.finrank_fintype_fun_eq_card] at hle

variable {A B : Matrix ι ι 𝕜} {D : Submodule 𝕜 (ι → 𝕜)} {positive negative : Nat}

theorem form_sup_span (hB : B.IsSymm) {z : ι → 𝕜} (hz : B.mulVec z = 0)
    (hD : ∀ x ∈ D, x ⬝ᵥ B.mulVec x ≤ 0) :
    ∀ x ∈ D ⊔ Submodule.span 𝕜 {z}, x ⬝ᵥ B.mulVec x ≤ 0 := by
  intro x hx
  obtain ⟨y, hy, u, hu, rfl⟩ := Submodule.mem_sup.mp hx
  obtain ⟨c, rfl⟩ := Submodule.mem_span_singleton.mp hu
  have hcross : z ⬝ᵥ B.mulVec y = 0 := by
    rw [Matrix.dotProduct_mulVec, ← Matrix.mulVec_transpose, hB, hz, zero_dotProduct]
  rw [Matrix.mulVec_add, Matrix.mulVec_smul, hz, smul_zero, add_zero, add_dotProduct,
    smul_dotProduct, hcross, smul_zero, add_zero]
  exact hD y hy

theorem HasInertia.mem_of_mulVec_eq_zero (h : HasInertia A positive negative)
    (htotal : positive + negative = Fintype.card ι)
    (hle : ∀ x, x ⬝ᵥ A.mulVec x ≤ x ⬝ᵥ B.mulVec x) (hB : B.IsSymm)
    (hrank : Module.finrank 𝕜 D = negative) (hD : ∀ x ∈ D, x ⬝ᵥ B.mulVec x ≤ 0) {z : ι → 𝕜}
    (hz : B.mulVec z = 0) : z ∈ D := by
  by_contra hmem
  have hroom := h.add_finrank_le fun x hx => (hle x).trans (form_sup_span hB hz hD x hx)
  rw [Submodule.finrank_sup_span_singleton hmem, hrank] at hroom
  omega

theorem HasInertia.eq_zero_of_mulVec_eq_zero (h : HasInertia A positive negative)
    (htotal : positive + negative = Fintype.card ι) (hA : A.IsSymm) {z : ι → 𝕜}
    (hz : A.mulVec z = 0) : z = 0 := by
  obtain ⟨V, hrank, hnegative⟩ := h.negative.1
  have hnonpos : ∀ x ∈ V, x ⬝ᵥ A.mulVec x ≤ 0 := by
    intro x hx
    rcases eq_or_ne x 0 with rfl | hne
    · simp
    · exact (hnegative x hx hne).le
  have hmem := h.mem_of_mulVec_eq_zero htotal (fun _ => le_refl _) hA hrank hnonpos hz
  by_contra hne
  have hlt := hnegative z hmem hne
  rw [hz, dotProduct_zero] at hlt
  exact lt_irrefl _ hlt

theorem card_signs {κ : Type} [Fintype κ] {w : κ → 𝕜} (h : ∀ i, w i ≠ 0) :
    (Finset.univ.filter fun i => 0 < w i).card + (Finset.univ.filter fun i => w i < 0).card =
      Fintype.card κ := by
  have hsigns : ∀ i, w i < 0 ↔ ¬ 0 < w i := fun i =>
    ⟨fun hlt => not_lt.mpr hlt.le, fun hle => lt_of_le_of_ne (not_lt.mp hle) (h i)⟩
  simp only [hsigns]
  rw [Finset.card_filter_add_card_filter_not, Finset.card_univ]

variable [IsStrictOrderedRing 𝕜]

theorem positiveOn_neg {V : Submodule 𝕜 (ι → 𝕜)} : PositiveOn (-S) V ↔ NegativeOn S V := by
  simp [PositiveOn, NegativeOn, Matrix.neg_mulVec, dotProduct_neg]

/-- The law of inertia, for a sum of squares. -/
theorem isGreatest_positiveOn {κ : Type} [Fintype κ] {w : κ → 𝕜} {e : (ι → 𝕜) ≃ₗ[𝕜] (κ → 𝕜)}
    (h : ∀ x, x ⬝ᵥ S.mulVec x = ∑ i, w i * (e x i * e x i)) :
    IsGreatest {m | ∃ V : Submodule 𝕜 (ι → 𝕜), Module.finrank 𝕜 V = m ∧ PositiveOn S V}
      (Finset.univ.filter fun i => 0 < w i).card := by
  let Q : QuadraticForm 𝕜 (ι → 𝕜) := (QuadraticMap.weightedSumSquares 𝕜 w).comp e.toLinearMap
  have hQ : ∀ x, Q x = x ⬝ᵥ S.mulVec x := by
    intro x
    rw [h x, QuadraticMap.comp_apply, QuadraticMap.weightedSumSquares_apply]
    rfl
  have hequivalent : QuadraticMap.Equivalent Q (QuadraticMap.weightedSumSquares 𝕜 w) :=
    ⟨⟨e, fun _ => rfl⟩⟩
  have hcard : sigPos Q = (Finset.univ.filter fun i => 0 < w i).card := by
    rw [QuadraticForm.sigPos_of_equiv_weightedSumSquares hequivalent, Set.ncard_eq_toFinset_card']
    simp
  have hsets : {m | ∃ V : Submodule 𝕜 (ι → 𝕜), Module.finrank 𝕜 V = m ∧ PositiveOn S V} =
      {m | ∃ V : Submodule 𝕜 (ι → 𝕜), Module.finrank 𝕜 V = m ∧ (Q.restrict V).PosDef} := by
    have hdef : ∀ V : Submodule 𝕜 (ι → 𝕜), PositiveOn S V ↔ (Q.restrict V).PosDef := by
      intro V
      simp [PositiveOn, QuadraticMap.PosDef, hQ]
    simp only [hdef]
  rw [hsets, ← hcard]
  exact sigPos_isGreatest Q

theorem hasInertia_of_squares {κ : Type} [Fintype κ] {w : κ → 𝕜} {e : (ι → 𝕜) ≃ₗ[𝕜] (κ → 𝕜)}
    (h : ∀ x, x ⬝ᵥ S.mulVec x = ∑ i, w i * (e x i * e x i)) :
    HasInertia S (Finset.univ.filter fun i => 0 < w i).card
      (Finset.univ.filter fun i => w i < 0).card := by
  refine ⟨isGreatest_positiveOn h, ?_⟩
  have hneg : ∀ x, x ⬝ᵥ (-S).mulVec x = ∑ i, (-w) i * (e x i * e x i) := by
    intro x
    rw [Matrix.neg_mulVec, dotProduct_neg, h x, ← Finset.sum_neg_distrib]
    exact Finset.sum_congr rfl fun i _ => (neg_mul _ _).symm
  have hgreatest := isGreatest_positiveOn hneg
  simp only [positiveOn_neg, Pi.neg_apply, neg_pos] at hgreatest
  exact hgreatest

theorem hasInertia_of_congruent [DecidableEq ι] (hU : IsUnit U.det)
    (h : S.submatrix σ σ = U * Matrix.diagonal d * U.transpose) :
    HasInertia S (Finset.univ.filter fun i => 0 < d i).card
      (Finset.univ.filter fun i => d i < 0).card := by
  obtain ⟨e, he⟩ := exists_coordinates hU h
  exact hasInertia_of_squares he

theorem exists_hasInertia [DecidableEq ι] (hB : B.IsSymm)
    (hregular : ∀ z, B.mulVec z = 0 → z = 0) :
    ∃ positive negative, HasInertia B positive negative ∧
      positive + negative = Fintype.card ι := by
  let Q : QuadraticForm 𝕜 (ι → 𝕜) := (Matrix.toBilin' B).toQuadraticMap
  have hsymm : ∀ x y, Matrix.toBilin' B x y = Matrix.toBilin' B y x := by
    intro x y
    rw [Matrix.toBilin'_apply', Matrix.toBilin'_apply', Matrix.dotProduct_mulVec,
      ← Matrix.mulVec_transpose, hB, dotProduct_comm]
  have hassociated : QuadraticMap.associated (R := 𝕜) Q = Matrix.toBilin' B :=
    QuadraticMap.associated_left_inverse 𝕜 hsymm
  have hseparating : (QuadraticMap.associated (R := 𝕜) Q).SeparatingLeft := by
    rw [hassociated]
    intro z hz
    apply hregular z
    ext1 i
    have hrow := hz (Pi.single i 1)
    rw [hsymm, Matrix.toBilin'_apply', single_one_dotProduct] at hrow
    exact hrow
  obtain ⟨w, ⟨e⟩⟩ :=
    QuadraticForm.equivalent_weightedSumSquares_units_of_nondegenerate' Q hseparating
  have hsquares : ∀ x, x ⬝ᵥ B.mulVec x =
      ∑ i, (w i : 𝕜) * (e.toLinearEquiv x i * e.toLinearEquiv x i) := by
    intro x
    have hform : Q x = x ⬝ᵥ B.mulVec x := Matrix.toBilin'_apply' B x x
    rw [← hform, ← e.map_app x, QuadraticMap.weightedSumSquares_apply]
    rfl
  refine ⟨_, _, hasInertia_of_squares hsquares, ?_⟩
  rw [card_signs fun i => (w i).ne_zero, Fintype.card_fin, Module.finrank_fintype_fun_eq_card]

/-- A matrix that lies above one without zero eigenvalues has the same inertia, if it is not
positive on as many dimensions as there were negative ones and is not changed there. -/
theorem HasInertia.of_form_le [DecidableEq ι] (h : HasInertia A positive negative)
    (htotal : positive + negative = Fintype.card ι) (hA : A.IsSymm) (hB : B.IsSymm)
    (hle : ∀ x, x ⬝ᵥ A.mulVec x ≤ x ⬝ᵥ B.mulVec x) (hrank : Module.finrank 𝕜 D = negative)
    (hD : ∀ x ∈ D, x ⬝ᵥ B.mulVec x ≤ 0) (hsame : ∀ x ∈ D, A.mulVec x = B.mulVec x) :
    HasInertia B positive negative := by
  have hregular : ∀ z, B.mulVec z = 0 → z = 0 := by
    intro z hz
    have hmem := h.mem_of_mulVec_eq_zero htotal hle hB hrank hD hz
    exact h.eq_zero_of_mulVec_eq_zero htotal hA ((hsame z hmem).trans hz)
  obtain ⟨positive', negative', h', htotal'⟩ := exists_hasInertia hB hregular
  have hmore : positive ≤ positive' := by
    obtain ⟨V, hV, hpositive⟩ := h.positive.1
    exact h'.positive.2 ⟨V, hV, fun x hx hne => (hpositive x hx hne).trans_le (hle x)⟩
  have hroom := h'.add_finrank_le hD
  rw [hrank] at hroom
  obtain rfl : positive' = positive := by omega
  obtain rfl : negative' = negative := by omega
  exact h'

end Congruence

variable {K : Type} [LinearOrder K] [ExactScalar K]

def Csc.symmetricMatrix (a : Csc K) : Matrix (Fin a.rows) (Fin a.rows) K :=
  Matrix.of fun i j => a.symmetricAt i j

namespace Ldl.Factorization

section Result

variable {a : Csc K} {f : Factorization K} {tolerance : K}

theorem Factors.det_unitLower (h : f.Factors a tolerance) : (f.unitLower a.rows).det = 1 := by
  have hentry : ∀ i c : Fin a.rows, i ≤ c → f.lower.entryAt i c = 0 := by
    intro i c hic
    obtain ⟨column, hcolumn, hbelow⟩ := h.lower c c.isLt
    rw [Csc.entryAt_eq_sumAt (Csc.entries?_of_column? hcolumn)]
    apply sumAt_eq_zero
    intro hmem
    obtain ⟨e, he, heq⟩ := List.mem_map.mp hmem
    have := (hbelow e he).1
    have hle : (i : Nat) ≤ c := hic
    omega
  have htriangular : (f.unitLower a.rows).BlockTriangular OrderDual.toDual := by
    intro i j hij
    have hlt : i < j := hij
    rw [unitLower, Matrix.add_apply, Matrix.one_apply_ne hlt.ne, Matrix.of_apply,
      hentry i j hlt.le, add_zero]
  rw [Matrix.det_of_isLowerTriangular _ htriangular]
  apply Finset.prod_eq_one
  intro i _
  rw [unitLower, Matrix.add_apply, Matrix.one_apply_eq, Matrix.of_apply, hentry i i (le_refl i),
    add_zero]

theorem length_filter_range (n : Nat) (p : Nat → Prop) [DecidablePred p] :
    ((List.range n).filter fun k => p k).length =
      (Finset.univ.filter fun k : Fin n => p k).card := by
  rw [← List.toFinset_card_of_nodup (List.nodup_range.filter _), List.toFinset_filter,
    List.toFinset_range, Finset.card_filter, Finset.card_filter, Finset.sum_range]
  simp

theorem Factors.exists_perm (h : f.Factors a tolerance) :
    ∃ σ : Equiv.Perm (Fin a.rows), (∀ i : Fin a.rows, (σ i : Nat) = f.order.getD i 0) ∧
      a.symmetricMatrix.submatrix σ σ = f.reordered a := by
  have hsize : f.order.size = a.rows := by simpa using h.order.length_eq
  obtain ⟨q, hq⟩ := Permutation.exists_inverse? (hsize.symm ▸ h.order)
  have hinverts := Permutation.inverts_of_inverse? h.order hq
  refine ⟨⟨fun i => ⟨f.order.getD i 0, (hinverts.forward i i.isLt).1⟩,
    fun r => ⟨q.getD r 0, (hinverts.backward r r.isLt).1⟩, ?_, ?_⟩, fun _ => rfl, rfl⟩
  · intro i
    exact Fin.ext (hinverts.forward i i.isLt).2
  · intro r
    exact Fin.ext (hinverts.backward r r.isLt).2

variable [IsStrictOrderedRing K]

theorem Factors.hasInertia (h : f.Factors a tolerance) (htolerance : 0 ≤ tolerance) :
    HasInertia a.symmetricMatrix f.positive f.negative ∧ f.positive + f.negative = a.rows := by
  obtain ⟨σ, -, hσ⟩ := h.exists_perm
  have hunit : IsUnit (f.unitLower a.rows).det := by
    rw [h.det_unitLower]
    exact isUnit_one
  have hinertia := hasInertia_of_congruent hunit (hσ.trans h.product)
  have hpositive : f.positive =
      (Finset.univ.filter fun k : Fin a.rows => 0 < f.pivots a.rows k).card := by
    rw [h.positive]
    exact length_filter_range a.rows fun k => 0 < f.diag.getD k 0
  have hne : ∀ k : Fin a.rows, f.pivots a.rows k ≠ 0 := by
    intro k
    exact abs_pos.mp (htolerance.trans_lt (h.pivot k k.isLt))
  have hsplit := card_signs hne
  rw [← hpositive, Fintype.card_fin] at hsplit
  have hnegative : f.negative =
      (Finset.univ.filter fun k : Fin a.rows => f.pivots a.rows k < 0).card := by
    rw [h.negative]
    omega
  rw [← hpositive, ← hnegative] at hinertia
  rw [← hnegative] at hsplit
  exact ⟨hinertia, hsplit⟩

end Result

section Histories

variable {a : Csc K} {options : Options K} {f : Factorization K}

/-- Factorizations in use: made for a matrix, and any number of times given other values or computed
again, with or without success. The matrix is the one with the latest values. -/
inductive InUse (options : Options K) : Csc K → Factorization K → Prop
  | made {a : Csc K} {f : Factorization K} : new? a options = some (.ok f) → InUse options a f
  | updated {a : Csc K} {f f' : Factorization K} {vs : Array K} : InUse options a f →
      f.updateValues? vs = some f' → InUse options { a with values := vs } f'
  | refactored {a : Csc K} {f f' : Factorization K} {result : Except Error Unit} :
      InUse options a f → f.refactor? = some (result, f') → InUse options a f'

theorem InUse.serves (h : InUse options a f) (horder : options.Permutes a) :
    f.Serves a ∧ f.tolerance = options.tolerance := by
  induction h with
  | made h =>
    obtain ⟨blank, hserves, htolerance, -, hrefactor⟩ := exists_blank_of_new? horder h
    obtain ⟨hserves', htolerance', -⟩ := hserves.refactor hrefactor
    exact ⟨hserves', htolerance'.trans htolerance⟩
  | updated _ hf ih =>
    obtain ⟨hserves, htolerance⟩ := ih horder
    obtain ⟨hserves', htolerance', -⟩ := hserves.update hf
    exact ⟨hserves', htolerance'.trans htolerance⟩
  | refactored _ hf ih =>
    obtain ⟨hserves, htolerance⟩ := ih horder
    obtain ⟨hserves', htolerance', -⟩ := hserves.refactor hf
    exact ⟨hserves', htolerance'.trans htolerance⟩

inductive Computed (options : Options K) (a : Csc K) (f : Factorization K) : Prop
  | made : new? a options = some (.ok f) → Computed options a f
  | refactored {f₀ : Factorization K} : InUse options a f₀ →
      f₀.refactor? = some (.ok (), f) → Computed options a f

theorem Computed.factors (h : Computed options a f) (horder : options.Permutes a)
    (hdistinct : a.NoRepeats) (htolerance : 0 ≤ options.tolerance) :
    f.Factors a options.tolerance := by
  cases h with
  | made h =>
    obtain ⟨blank, hserves, htol, -, hrefactor⟩ := exists_blank_of_new? horder h
    exact htol ▸ hserves.factors hdistinct (htol ▸ htolerance) hrefactor
  | refactored h hrefactor =>
    obtain ⟨hserves, htol⟩ := h.serves horder
    exact htol ▸ hserves.factors hdistinct (htol ▸ htolerance) hrefactor

variable [IsStrictOrderedRing K]

/-- A reported inertia is the inertia of the symmetric matrix. No order and no history makes a
difference to it. -/
theorem inertia_of_computed (h : Computed options a f) (horder : options.Permutes a)
    (hdistinct : a.NoRepeats) (htolerance : 0 ≤ options.tolerance) :
    HasInertia a.symmetricMatrix f.positive f.negative ∧ f.positive + f.negative = a.rows ∧
      ∀ (options' : Options K) (f' : Factorization K), options'.Permutes a →
        0 ≤ options'.tolerance → Computed options' a f' →
          f'.positive = f.positive ∧ f'.negative = f.negative := by
  obtain ⟨hinertia, htotal⟩ := (h.factors horder hdistinct htolerance).hasInertia htolerance
  refine ⟨hinertia, htotal, ?_⟩
  intro options' f' horder' htolerance' h'
  obtain ⟨hinertia', -⟩ := (h'.factors horder' hdistinct htolerance').hasInertia htolerance'
  exact hinertia'.unique hinertia

theorem inertia_of_computed_arrow :
    arrowOptions.Permutes arrowMatrix ∧ arrowMatrix.NoRepeats ∧ 0 ≤ arrowOptions.tolerance ∧
      ∃ f, Computed arrowOptions arrowMatrix f ∧ HasInertia arrowMatrix.symmetricMatrix 2 1 := by
  obtain ⟨f, hf, hpositive, hnegative⟩ := exists_arrow
  have hinertia := inertia_of_computed (.made hf) arrowOptions_permutes arrowMatrix_noRepeats
    (le_refl _)
  rw [hpositive, hnegative] at hinertia
  exact ⟨arrowOptions_permutes, arrowMatrix_noRepeats, le_refl _, f, .made hf, hinertia.1⟩

end Histories

end Ldl.Factorization

end NonlinearOpt
