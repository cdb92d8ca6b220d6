import NonlinearOpt.Proofs.InteriorPoint.Shape
import NonlinearOpt.Proofs.Kkt.Assembly
import NonlinearOpt.Proofs.Sparse.Product

namespace NonlinearOpt

namespace Csc

variable {α : Type} [Scalar α]

theorem InRange.exists_adjointMulAdd? {m : Csc α} (h : m.InRange) {x y : Array α}
    (hx : x.size = m.rows) (hy : y.size = m.cols) (a b : α) :
    ∃ out, m.adjointMulAdd? y x a b = some out ∧ out.size = m.cols := by
  obtain ⟨out, hout, hsize, -⟩ := h.sums_adjointMulAdd? (a := a) (b := b) hx hy
  exact ⟨out, hout, hsize⟩

end Csc

/-- The functions of a program are defined at all points of the given dimensions, and their values
have the dimensions that go with them. -/
structure NlpModel.Total {α : Type} (n e k : Nat) (m : NlpModel α) : Prop where
  objective : ∀ x, x.size = n → ∃ f, m.objective x = some f
  gradient : ∀ x, x.size = n → ∃ g, m.gradient x = some g ∧ g.size = n
  eqConstraints : ∀ x, x.size = n → ∃ c, m.eqConstraints x = some c ∧ c.size = e
  ineqConstraints : ∀ x, x.size = n → ∃ d, m.ineqConstraints x = some d ∧ d.size = k
  jacobianEq : ∀ x, x.size = n →
    ∃ a, m.jacobianEq x = some a ∧ a.Complete ∧ a.rows = e ∧ a.cols = n
  jacobianIneq : ∀ x, x.size = n →
    ∃ a, m.jacobianIneq x = some a ∧ a.Complete ∧ a.rows = k ∧ a.cols = n
  hessian : ∀ x yEq yIneq, x.size = n → yEq.size = e → yIneq.size = k →
    ∃ a, m.hessian x yEq yIneq = some a ∧ a.Complete ∧ a.rows = n ∧ a.cols = n

theorem NlpModel.sized_eq_some {α : Type} {n : Nat} {v : Array α} (h : v.size = n) :
    sized n (some v) = some v := by
  simp [sized, h]

namespace InteriorPoint

namespace BarrierProblem

variable {α : Type} [Scalar α] {p : BarrierProblem α}

structure Evaluable (p : BarrierProblem α) : Prop where
  shaped : p.Shaped
  total : p.model.Total p.primals p.equalities p.inequalities

theorem evaluable_of_new? {m : NlpModel α} (h : BarrierProblem.new? m = some (.ok p))
    (hm : m.Total m.primals m.equalities m.inequalities) : p.Evaluable := by
  obtain ⟨hshaped, hmodel, hn, he, hk⟩ := shaped_of_new? h
  refine ⟨hshaped, ?_⟩
  rw [hmodel, hn, he, hk]
  exact hm

namespace Evaluable

omit [Scalar α] in
theorem objective? (h : p.Evaluable) : ∃ f, p.objective? = some f := h.total.objective _ rfl

omit [Scalar α] in
theorem equalities? (h : p.Evaluable) : ∃ c, p.equalities? = some c ∧ c.size = p.equalities := by
  obtain ⟨c, hc, hsize⟩ := h.total.eqConstraints p.iterate.x rfl
  exact ⟨c, by rw [BarrierProblem.equalities?, hc, NlpModel.sized_eq_some hsize], hsize⟩

omit [Scalar α] in
theorem inequalities? (h : p.Evaluable) :
    ∃ d, p.inequalities? = some d ∧ d.size = p.inequalities := by
  obtain ⟨d, hd, hsize⟩ := h.total.ineqConstraints p.iterate.x rfl
  exact ⟨d, by rw [BarrierProblem.inequalities?, hd, NlpModel.sized_eq_some hsize], hsize⟩

theorem lagrangianGradient? (h : p.Evaluable) {jacEq jacIneq : Csc α}
    (hjacEq : jacEq.InRange ∧ jacEq.rows = p.equalities ∧ jacEq.cols = p.primals)
    (hjacIneq : jacIneq.InRange ∧ jacIneq.rows = p.inequalities ∧ jacIneq.cols = p.primals) :
    ∃ g, p.lagrangianGradient? jacEq jacIneq = some g ∧ g.size = p.primals := by
  obtain ⟨hEqRange, hEqRows, hEqCols⟩ := hjacEq
  obtain ⟨hIneqRange, hIneqRows, hIneqCols⟩ := hjacIneq
  obtain ⟨g, hg, hsize⟩ := h.total.gradient p.iterate.x rfl
  obtain ⟨g₁, hg₁, hsize₁⟩ := hEqRange.exists_adjointMulAdd? (x := p.iterate.yEq) (y := g)
    hEqRows.symm (hsize.trans hEqCols.symm) 1 1
  obtain ⟨g₂, hg₂, hsize₂⟩ := hIneqRange.exists_adjointMulAdd? (x := p.iterate.yIneq) (y := g₁)
    hIneqRows.symm ((hsize₁.trans hEqCols).trans hIneqCols.symm) 1 1
  refine ⟨g₂, ?_, hsize₂.trans hIneqCols⟩
  simp only [BarrierProblem.lagrangianGradient?, hg, NlpModel.sized_eq_some hsize, hg₁, hg₂,
    Option.bind_eq_bind, Option.bind_some]

theorem residuals? (h : p.Evaluable) (mu : α) : ∃ r, p.residuals? mu = some r := by
  have ht := h.shaped.iterate
  obtain ⟨c, hc, -⟩ := h.equalities?
  obtain ⟨d, hd, hsize⟩ := h.inequalities?
  obtain ⟨d', hd', -⟩ := Vec.exists_axpby? (-1) 1 (hsize.trans ht.s.symm)
  obtain ⟨jacEq, hjacEq, hEqComplete, hEqDims⟩ := h.total.jacobianEq p.iterate.x rfl
  obtain ⟨jacIneq, hjacIneq, hIneqComplete, hIneqDims⟩ := h.total.jacobianIneq p.iterate.x rfl
  obtain ⟨g, hg, hgsize⟩ :=
    h.lagrangianGradient? ⟨hEqComplete.inRange, hEqDims⟩ ⟨hIneqComplete.inRange, hIneqDims⟩
  obtain ⟨g₁, hg₁, hgsize₁⟩ := Vec.exists_axpby? (-1) 1 (hgsize.trans ht.zxLower.symm)
  obtain ⟨g₂, hg₂, -⟩ := Vec.exists_axpby? 1 1 ((hgsize₁.trans ht.zxLower).trans ht.zxUpper.symm)
  simp only [BarrierProblem.residuals?, hc, hd, hd', hjacEq, hjacIneq, hg, hg₁, hg₂,
    Option.bind_eq_bind, Option.bind_some, Option.pure_def]
  exact ⟨_, rfl⟩

theorem kkt? (h : p.Evaluable) :
    ∃ k, p.kkt? = some k ∧ k.dim = p.kktDim ∧ k.rhs.size = p.kktDim := by
  have ht := h.shaped.iterate
  obtain ⟨hessian, hhessian, hcomplete, hrows, hcols⟩ :=
    h.total.hessian p.iterate.x p.iterate.yEq p.iterate.yIneq rfl rfl rfl
  obtain ⟨jacEq, hjacEq, hEqComplete, hEqDims⟩ := h.total.jacobianEq p.iterate.x rfl
  obtain ⟨jacIneq, hjacIneq, hIneqComplete, hIneqDims⟩ := h.total.jacobianIneq p.iterate.x rfl
  obtain ⟨g, hg, hgsize⟩ :=
    h.lagrangianGradient? ⟨hEqComplete.inRange, hEqDims⟩ ⟨hIneqComplete.inRange, hIneqDims⟩
  obtain ⟨c, hc, hcsize⟩ := h.equalities?
  obtain ⟨d, hd, hdsize⟩ := h.inequalities?
  obtain ⟨d', hd', hdsize'⟩ := Vec.exists_axpby? 1 (-1) (hdsize.trans ht.s.symm)
  let blocks : KktBlocks α :=
    { hessian
      jacEq
      jacIneq
      sigmaX := Barrier.sigma p.xBounds p.iterate.x p.iterate.zxLower p.iterate.zxUpper p.primals
      sigmaS := Barrier.sigma p.sBounds p.iterate.s p.iterate.zsLower p.iterate.zsUpper
        p.inequalities }
  have hdim : blocks.dim = p.kktDim := by
    show hessian.cols + jacIneq.rows + jacEq.rows + jacIneq.rows =
      p.primals + 2 * p.inequalities + p.equalities
    omega
  have hwell : blocks.WellFormed := by
    refine ⟨KktBlocks.consistent_iff.mpr ⟨?_, ?_, ?_, ?_, ?_⟩, hcomplete, hEqComplete,
      hIneqComplete⟩
    · exact hrows.trans hcols.symm
    · exact hEqDims.2.trans hcols.symm
    · exact hIneqDims.2.trans hcols.symm
    · exact ((Barrier.size_overlay _ _).trans Array.size_replicate).trans hcols.symm
    · exact ((Barrier.size_overlay _ _).trans Array.size_replicate).trans hIneqDims.1.symm
  let rhs := Vec.negate (Barrier.addGradient p.iterate.mu p.xBounds p.iterate.x g) ++
    Vec.negate (Barrier.addGradient p.iterate.mu p.sBounds p.iterate.s
      (Vec.negate p.iterate.yIneq)) ++
    Vec.negate c ++ d'
  have hrhs : rhs.size = p.kktDim := by
    have hs : p.iterate.s.size = p.inequalities := ht.s
    have hy : p.iterate.yIneq.size = p.inequalities := rfl
    simp only [rhs, Array.size_append, Vec.negate, Array.size_map, Barrier.addGradient,
      Array.size_mapIdx, hgsize, hcsize, hdsize', hs, hy, kktDim]
    omega
  obtain ⟨k, hk⟩ := hwell.assemble? rhs (hrhs.trans hdim.symm) p.iterate.mu
  refine ⟨k, ?_, ?_⟩
  · simp only [BarrierProblem.kkt?, hhessian, hjacEq, hjacIneq, hg, hc, hd, hd',
      Option.bind_eq_bind, Option.bind_some]
    exact hk
  · obtain ⟨ts, -, -, -, -, rfl⟩ := KktBlocks.assemble?_eq_some hk
    exact ⟨hdim, hrhs⟩

omit [Scalar α] in
theorem setMu (h : p.Evaluable) (mu : α) : (p.setMu mu).Evaluable := ⟨h.shaped.setMu mu, h.total⟩

theorem directed (h : p.Evaluable) {solution : Array α} (hsize : solution.size = p.kktDim) :
    (p.directed solution).Evaluable :=
  ⟨h.shaped.directed hsize, h.total⟩

theorem stepped (h : p.Evaluable) (primal dual : α) : (p.stepped primal dual).Evaluable := by
  obtain ⟨hn, he, hk⟩ := h.shaped.dims_stepped primal dual
  refine ⟨h.shaped.stepped primal dual, ?_⟩
  rw [hn, he, hk]
  exact h.total

end Evaluable

end BarrierProblem

end InteriorPoint

end NonlinearOpt
