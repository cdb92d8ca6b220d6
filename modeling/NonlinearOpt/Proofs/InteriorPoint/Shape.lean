import NonlinearOpt.InteriorPoint.BarrierProblem
import NonlinearOpt.Proofs.Attempt
import Mathlib.Data.Option.Basic

namespace NonlinearOpt

theorem NlpModel.size_of_sized {α : Type} {n : Nat} {v : Option (Array α)} {w : Array α}
    (h : sized n v = some w) : w.size = n := by
  obtain ⟨-, hsize⟩ := Option.filter_eq_some_iff.mp h
  exact beq_iff_eq.mp hsize

theorem Vec.exists_axpby? {α : Type} [Scalar α] (a b : α) {x y : Array α} (h : y.size = x.size) :
    ∃ out, axpby? a x b y = some out ∧ out.size = x.size :=
  ⟨_, if_pos h, by simp [h]⟩

theorem Interval.size_of_all_go {α : Type} [Scalar α] {i : Nat} {limits : List (α × α)}
    {out bounds : Array (Interval α)} (h : all.go i limits out = .ok bounds) :
    bounds.size = out.size + limits.length := by
  induction limits generalizing i out with
  | nil =>
    cases h
    rfl
  | cons limit limits ih =>
    simp only [all.go] at h
    split at h
    · rw [ih h, Array.size_push, List.length_cons]
      omega
    · cases h

theorem Interval.size_of_all {α : Type} [Scalar α] {lower upper : Array α}
    {bounds : Array (Interval α)} (h : all lower upper = .ok bounds) :
    bounds.size = min lower.size upper.size := by
  simpa using size_of_all_go h

namespace InteriorPoint

variable {α : Type}

structure Iterate.Fits (primals equalities inequalities : Nat) (t : Iterate α) : Prop where
  x : t.x.size = primals
  s : t.s.size = inequalities
  yEq : t.yEq.size = equalities
  yIneq : t.yIneq.size = inequalities
  zxLower : t.zxLower.size = primals
  zxUpper : t.zxUpper.size = primals
  zsLower : t.zsLower.size = inequalities
  zsUpper : t.zsUpper.size = inequalities

namespace Iterate

variable [Scalar α] {n e m : Nat} {t d : Iterate α}

theorem fits_zero : (zero n e m : Iterate α).Fits n e m := by
  constructor <;> exact Array.size_replicate

def advance (a : α) (d v : Array α) : Array α := Array.zipWith (fun y x => a * x + 1 * y) v d

theorem axpby?_of_size {a : α} {d v : Array α} (h : v.size = d.size) :
    Vec.axpby? a d 1 v = some (advance a d v) :=
  if_pos h

theorem size_advance {a : α} {d v : Array α} (h : v.size = d.size) :
    (advance a d v).size = v.size := by
  simp [advance, h]

def moved (d : Iterate α) (primal dual : α) (t : Iterate α) : Iterate α :=
  { x := advance primal d.x t.x
    s := advance primal d.s t.s
    yEq := advance dual d.yEq t.yEq
    yIneq := advance dual d.yIneq t.yIneq
    zxLower := advance dual d.zxLower t.zxLower
    zxUpper := advance dual d.zxUpper t.zxUpper
    zsLower := advance dual d.zsLower t.zsLower
    zsUpper := advance dual d.zsUpper t.zsUpper
    mu := t.mu }

theorem Fits.moved (ht : t.Fits n e m) (hd : d.Fits n e m) (primal dual : α) :
    (d.moved primal dual t).Fits n e m := by
  constructor
  · exact (size_advance (ht.x.trans hd.x.symm)).trans ht.x
  · exact (size_advance (ht.s.trans hd.s.symm)).trans ht.s
  · exact (size_advance (ht.yEq.trans hd.yEq.symm)).trans ht.yEq
  · exact (size_advance (ht.yIneq.trans hd.yIneq.symm)).trans ht.yIneq
  · exact (size_advance (ht.zxLower.trans hd.zxLower.symm)).trans ht.zxLower
  · exact (size_advance (ht.zxUpper.trans hd.zxUpper.symm)).trans ht.zxUpper
  · exact (size_advance (ht.zsLower.trans hd.zsLower.symm)).trans ht.zsLower
  · exact (size_advance (ht.zsUpper.trans hd.zsUpper.symm)).trans ht.zsUpper

theorem addStep_run (ht : t.Fits n e m) (hd : d.Fits n e m) (primal dual : α) :
    (addStep d primal dual).run t = (some (), d.moved primal dual t) := by
  simp only [addStep, Attempt.run_change_bind, Attempt.run_change, Option.pure_def,
    Option.bind_eq_bind, Option.bind_some,
    axpby?_of_size (ht.x.trans hd.x.symm), axpby?_of_size (ht.s.trans hd.s.symm),
    axpby?_of_size (ht.yEq.trans hd.yEq.symm), axpby?_of_size (ht.yIneq.trans hd.yIneq.symm),
    axpby?_of_size (ht.zxLower.trans hd.zxLower.symm),
    axpby?_of_size (ht.zxUpper.trans hd.zxUpper.symm),
    axpby?_of_size (ht.zsLower.trans hd.zsLower.symm),
    axpby?_of_size (ht.zsUpper.trans hd.zsUpper.symm)]
  rfl

omit [Scalar α] in
theorem copyParts_run (ht : t.Fits n e m) {x s yEq yIneq : Array α} (hx : x.size = n)
    (hs : s.size = m) (hyEq : yEq.size = e) (hyIneq : yIneq.size = m) :
    (copyParts x s yEq yIneq).run t = (some (), { t with x, s, yEq, yIneq }) := by
  simp only [copyParts, Attempt.run_change_bind, Attempt.run_change, Option.pure_def,
    Option.bind_eq_bind, Option.bind_some, Vec.copy?,
    if_pos (hx.trans ht.x.symm), if_pos (hs.trans ht.s.symm), if_pos (hyEq.trans ht.yEq.symm),
    if_pos (hyIneq.trans ht.yIneq.symm)]

end Iterate

section Coordinates

variable {bounds : Array (Interval α)} {v zl zu : Array α} {i : Nat} {c : Coordinate α}

theorem Coordinate.at?_eq_some : Coordinate.at? bounds v zl zu i = some c ↔
    bounds[i]? = some c.bound ∧ v[i]? = some c.value ∧ zl[i]? = some c.lowerDual ∧
      zu[i]? = some c.upperDual := by
  obtain ⟨b, x, l, u⟩ := c
  simp only [at?, Option.bind_eq_bind, Option.pure_def, Option.bind_eq_some_iff,
    Option.some.injEq, Coordinate.mk.injEq]
  constructor
  · rintro ⟨b', hb, x', hx, l', hl, u', hu, rfl, rfl, rfl, rfl⟩
    exact ⟨hb, hx, hl, hu⟩
  · rintro ⟨hb, hx, hl, hu⟩
    exact ⟨b, hb, x, hx, l, hl, u, hu, rfl, rfl, rfl, rfl⟩

theorem Coordinate.exists_at? (hb : i < bounds.size) (hv : i < v.size) (hl : i < zl.size)
    (hu : i < zu.size) : ∃ c, Coordinate.at? bounds v zl zu i = some c :=
  ⟨⟨bounds[i], v[i], zl[i], zu[i]⟩, Coordinate.at?_eq_some.mpr
    ⟨Array.getElem?_eq_getElem hb, Array.getElem?_eq_getElem hv, Array.getElem?_eq_getElem hl,
      Array.getElem?_eq_getElem hu⟩⟩

theorem Barrier.overlay_getElem? (f : Nat → Option α) (v : Array α) (i : Nat) :
    (Barrier.overlay f v)[i]? = v[i]?.map fun x => (f i).getD x := by
  simp [Barrier.overlay]

theorem Barrier.size_overlay (f : Nat → Option α) (v : Array α) :
    (Barrier.overlay f v).size = v.size :=
  Array.size_mapIdx

variable [Scalar α] {dv old : Array α} {mu d : α}

theorem Barrier.lowerSteps_getElem? (hc : Coordinate.at? bounds v zl zu i = some c)
    (hd : dv[i]? = some d) (hi : i < old.size) :
    (Barrier.lowerSteps mu bounds v dv zl zu old)[i]? = some (c.lowerStep mu d) := by
  simp [Barrier.lowerSteps, Barrier.overlay_getElem?, hc, hd, hi]

theorem Barrier.upperSteps_getElem? (hc : Coordinate.at? bounds v zl zu i = some c)
    (hd : dv[i]? = some d) (hi : i < old.size) :
    (Barrier.upperSteps mu bounds v dv zl zu old)[i]? = some (c.upperStep mu d) := by
  simp [Barrier.upperSteps, Barrier.overlay_getElem?, hc, hd, hi]

end Coordinates

namespace BarrierProblem

/-- A problem whose parts have the dimensions that its point announces. -/
structure Shaped (p : BarrierProblem α) : Prop where
  xBounds : p.xBounds.size = p.primals
  sBounds : p.sBounds.size = p.inequalities
  iterate : p.iterate.Fits p.primals p.equalities p.inequalities
  step : p.step.Fits p.primals p.equalities p.inequalities

variable [Scalar α] {p : BarrierProblem α}

theorem new?_eq_some {m : NlpModel α} (h : BarrierProblem.new? m = some (.ok p)) :
    ∃ xBounds sBounds d, m.primalsFit = true ∧ Interval.all m.xLower m.xUpper = .ok xBounds ∧
      NlpModel.sized m.inequalities (m.ineqConstraints (interior xBounds m.start)) = some d ∧
      Interval.all m.dLower m.dUpper = .ok sBounds ∧ m.dualsFit = true ∧
      p =
        { model := m
          xBounds
          sBounds
          iterate :=
            { x := interior xBounds m.start
              s := interior sBounds d
              yEq := m.startEqDuals
              yIneq := m.startIneqDuals
              zxLower := startDuals Interval.lower xBounds
              zxUpper := startDuals Interval.upper xBounds
              zsLower := startDuals Interval.lower sBounds
              zsUpper := startDuals Interval.upper sBounds
              mu := 0 }
          step := .zero m.primals m.equalities m.inequalities } := by
  unfold BarrierProblem.new? at h
  split at h
  · cases h
  · next hprimals =>
    cases hx : Interval.all m.xLower m.xUpper with
    | error index =>
      rw [hx] at h
      cases h
    | ok xBounds =>
      rw [hx] at h
      simp only [Option.bind_eq_bind, Option.bind_eq_some_iff] at h
      obtain ⟨d, hd, h⟩ := h
      cases hs : Interval.all m.dLower m.dUpper with
      | error index =>
        rw [hs] at h
        cases h
      | ok sBounds =>
        rw [hs] at h
        simp only [Option.bind_eq_some_iff, Option.guard_eq_some', Option.pure_def,
          Option.some.injEq, Except.ok.injEq] at h
        obtain ⟨_, hduals, rfl⟩ := h
        exact ⟨xBounds, sBounds, d, by simpa using hprimals, rfl, hd, rfl, hduals, rfl⟩

theorem shaped_of_new? {m : NlpModel α} (h : BarrierProblem.new? m = some (.ok p)) :
    p.Shaped ∧ p.model = m ∧ p.primals = m.primals ∧ p.equalities = m.equalities ∧
      p.inequalities = m.inequalities := by
  obtain ⟨xBounds, sBounds, d, hprimals, hx, hd, hs, hduals, rfl⟩ := new?_eq_some h
  have hxSize := Interval.size_of_all hx
  have hsSize := Interval.size_of_all hs
  simp only [NlpModel.primalsFit, Bool.and_eq_true, beq_iff_eq] at hprimals
  simp only [NlpModel.dualsFit, Bool.and_eq_true, beq_iff_eq] at hduals
  obtain ⟨⟨⟨⟨hxl, hxu⟩, hstart⟩, hdl⟩, hdu⟩ := hprimals
  obtain ⟨hyEq, hyIneq⟩ := hduals
  have hdSize : d.size = m.inequalities := NlpModel.size_of_sized hd
  rw [hxl, hxu, Nat.min_self] at hxSize
  rw [hdl, hdu, Nat.min_self] at hsSize
  have hxInterior : (interior xBounds m.start).size = m.primals := by
    simp [interior, hxSize, hstart]
  refine ⟨⟨?_, ?_, ?_, ?_⟩, rfl, hxInterior, hyEq, hyIneq⟩
  · exact hxSize.trans hxInterior.symm
  · exact hsSize.trans hyIneq.symm
  · constructor <;>
      simp [primals, equalities, inequalities, interior, startDuals, hxSize, hsSize, hstart,
        hdSize, hyEq, hyIneq]
  · simp only [primals, equalities, inequalities, hxInterior, hyEq, hyIneq]
    exact Iterate.fits_zero

def stepped (p : BarrierProblem α) (primal dual : α) : BarrierProblem α :=
  { p with iterate := p.step.moved primal dual p.iterate }

theorem takeStep_run (h : p.Shaped) (primal dual : α) :
    (takeStep primal dual).run p = (some (), p.stepped primal dual) := by
  unfold takeStep
  rw [Attempt.run_get_bind, Attempt.run_on, Iterate.addStep_run h.iterate h.step]
  rfl

theorem Shaped.dims_stepped (h : p.Shaped) (primal dual : α) :
    (p.stepped primal dual).primals = p.primals ∧
      (p.stepped primal dual).equalities = p.equalities ∧
      (p.stepped primal dual).inequalities = p.inequalities := by
  have hmoved := h.iterate.moved h.step primal dual
  exact ⟨hmoved.x, hmoved.yEq, hmoved.yIneq⟩

theorem Shaped.stepped (h : p.Shaped) (primal dual : α) : (p.stepped primal dual).Shaped := by
  have hmoved := h.iterate.moved h.step primal dual
  obtain ⟨hn, he, hm⟩ := h.dims_stepped primal dual
  constructor
  · rw [hn]
    exact h.xBounds
  · rw [hm]
    exact h.sBounds
  · rw [hn, he, hm]
    exact hmoved
  · rw [hn, he, hm]
    exact h.step

def directed (p : BarrierProblem α) (solution : Array α) : BarrierProblem α :=
  let s := p.primals
  let yEq := s + p.inequalities
  let yIneq := yEq + p.equalities
  withMultiplierSteps { p with step := { p.step with
    x := solution.extract 0 s
    s := solution.extract s yEq
    yEq := solution.extract yEq yIneq
    yIneq := solution.extract yIneq solution.size } }

theorem setSolution_run (h : p.Shaped) {solution : Array α} (hsize : solution.size = p.kktDim) :
    (setSolution solution).run p = (some (), p.directed solution) := by
  have hdim : solution.size = p.primals + 2 * p.inequalities + p.equalities := hsize
  unfold setSolution
  rw [Attempt.run_get_bind, if_neg (not_not.mpr hsize), Attempt.run_bind, Attempt.run_on,
    Iterate.copyParts_run h.step (by simp; omega) (by simp; omega) (by simp; omega)
      (by simp; omega)]
  rfl

theorem setSolution_run_of_ne {solution : Array α} (hsize : solution.size ≠ p.kktDim) :
    (setSolution solution).run p = (none, p) := by
  unfold setSolution
  rw [Attempt.run_get_bind, if_pos hsize]
  rfl

omit [Scalar α] in
theorem Shaped.setMu (h : p.Shaped) (mu : α) : (p.setMu mu).Shaped :=
  ⟨h.xBounds, h.sBounds, ⟨h.iterate.x, h.iterate.s, h.iterate.yEq, h.iterate.yIneq,
    h.iterate.zxLower, h.iterate.zxUpper, h.iterate.zsLower, h.iterate.zsUpper⟩, h.step⟩

theorem Shaped.directed (h : p.Shaped) {solution : Array α} (hsize : solution.size = p.kktDim) :
    (p.directed solution).Shaped := by
  have hdim : solution.size = p.primals + 2 * p.inequalities + p.equalities := hsize
  have hstep : (p.directed solution).step.Fits p.primals p.equalities p.inequalities := by
    constructor
    · show (solution.extract 0 p.primals).size = p.primals
      rw [Array.size_extract]
      omega
    · show (solution.extract p.primals (p.primals + p.inequalities)).size = p.inequalities
      rw [Array.size_extract]
      omega
    · show (solution.extract (p.primals + p.inequalities)
        (p.primals + p.inequalities + p.equalities)).size = p.equalities
      rw [Array.size_extract]
      omega
    · show (solution.extract (p.primals + p.inequalities + p.equalities) solution.size).size =
        p.inequalities
      rw [Array.size_extract]
      omega
    · exact (Barrier.size_overlay _ _).trans h.step.zxLower
    · exact (Barrier.size_overlay _ _).trans h.step.zxUpper
    · exact (Barrier.size_overlay _ _).trans h.step.zsLower
    · exact (Barrier.size_overlay _ _).trans h.step.zsUpper
  exact ⟨h.xBounds, h.sBounds, h.iterate, hstep⟩

end BarrierProblem

end InteriorPoint

end NonlinearOpt
