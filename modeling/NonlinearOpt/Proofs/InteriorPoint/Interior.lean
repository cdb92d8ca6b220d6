import NonlinearOpt.Proofs.InteriorPoint.Shape
import NonlinearOpt.Proofs.InteriorPoint.StepLength

namespace NonlinearOpt

open NumberLine

variable {α K : Type} [LinearOrder α] [Scalar α] [Field K] [LinearOrder K]

namespace Interval

structure Ordered (b : Interval α) : Prop where
  lower : ∀ l, b.lower = some l → Scalar.isFinite l = true
  upper : ∀ u, b.upper = some u → Scalar.isFinite u = true
  lt : ∀ l u, b.lower = some l → b.upper = some u → l < u

omit [LinearOrder α] in
theorem limit?_eq_some {x l : α} : limit? x = some l ↔ Scalar.isFinite x = true ∧ x = l := by
  simp [limit?]

theorem ordered_limits {lo up : α} (h : lo < up) : Ordered ⟨limit? lo, limit? up⟩ := by
  constructor
  · intro l hl
    obtain ⟨hfinite, rfl⟩ := limit?_eq_some.mp hl
    exact hfinite
  · intro u hu
    obtain ⟨hfinite, rfl⟩ := limit?_eq_some.mp hu
    exact hfinite
  · intro l u hl hu
    obtain ⟨-, rfl⟩ := limit?_eq_some.mp hl
    obtain ⟨-, rfl⟩ := limit?_eq_some.mp hu
    exact h

theorem ordered_of_all_go [OrderedScalar α] {i : Nat} {limits : List (α × α)}
    {out bounds : Array (Interval α)} (h : all.go i limits out = .ok bounds)
    (hout : ∀ b ∈ out, b.Ordered) : ∀ b ∈ bounds, b.Ordered := by
  induction limits generalizing i out with
  | nil =>
    cases h
    exact hout
  | cons limit limits ih =>
    obtain ⟨lo, up⟩ := limit
    simp only [all.go, ofLimits?] at h
    by_cases hlt : Scalar.lt lo up = true
    · rw [if_pos hlt] at h
      refine ih h fun b hb => ?_
      rcases Array.mem_push.mp hb with hb | rfl
      · exact hout b hb
      · exact ordered_limits (OrderedScalar.lt_iff.mp hlt)
    · rw [if_neg hlt] at h
      cases h

theorem ordered_of_all [OrderedScalar α] {lower upper : Array α} {bounds : Array (Interval α)}
    (h : all lower upper = .ok bounds) : ∀ b ∈ bounds, b.Ordered :=
  ordered_of_all_go h (by simp)

variable [NumberLine α K]

include K

theorem inside_iff {b : Interval α} {v : α} :
    b.inside v = true ↔ b.lowerLimit < v ∧ v < b.upperLimit := by
  simp only [inside, Bool.and_eq_true, OrderedScalar.lt_iff]

theorem Ordered.negInfinity_le {b : Interval α} (hb : b.Ordered) :
    -Scalar.infinity ≤ b.lowerLimit := by
  unfold lowerLimit
  cases hl : b.lower with
  | none => exact le_refl _
  | some l =>
    obtain ⟨k, rfl⟩ := isFinite_iff.mp (hb.lower l hl)
    exact (negInfinity_lt k).le

theorem Ordered.le_infinity {b : Interval α} (hb : b.Ordered) :
    b.upperLimit ≤ Scalar.infinity := by
  unfold upperLimit
  cases hu : b.upper with
  | none => exact le_refl _
  | some u =>
    obtain ⟨k, rfl⟩ := isFinite_iff.mp (hb.upper u hu)
    exact (lt_infinity k).le

theorem Ordered.encloses_of_inside {b : Interval α} (hb : b.Ordered) {v : α}
    (hv : b.inside v = true) : b.Encloses v := by
  obtain ⟨hlower, hupper⟩ := inside_iff.mp hv
  have hfinite : Scalar.isFinite v = true :=
    isFinite_of_between (hb.negInfinity_le.trans_lt hlower) (hupper.trans_le hb.le_infinity)
  constructor
  · intro l hl
    refine ⟨hb.lower l hl, hfinite, ?_⟩
    rwa [lowerLimit, hl] at hlower
  · intro u hu
    refine ⟨hb.upper u hu, hfinite, ?_⟩
    rwa [upperLimit, hu] at hupper

variable [IsStrictOrderedRing K]

theorem Ordered.encloses_interior {b : Interval α} (hb : b.Ordered) (v : α) :
    b.Encloses (b.interior v) := by
  by_cases hv : b.inside v = true
  · rw [interior, if_pos hv]
    exact hb.encloses_of_inside hv
  rw [interior, if_neg hv]
  obtain ⟨lower, upper⟩ := b
  cases lower with
  | none =>
    cases upper with
    | none => exact ⟨nofun, nofun⟩
    | some u =>
      obtain ⟨k, rfl⟩ := isFinite_iff.mp (hb.upper u rfl)
      refine ⟨nofun, ?_⟩
      rintro _ ⟨⟩
      simp [one_eq]
  | some l =>
    obtain ⟨k, rfl⟩ := isFinite_iff.mp (hb.lower l rfl)
    cases upper with
    | none =>
      refine ⟨?_, nofun⟩
      rintro _ ⟨⟩
      simp [one_eq]
    | some u =>
      obtain ⟨k', rfl⟩ := isFinite_iff.mp (hb.upper u rfl)
      have hlt : k < k' := ofNumber_lt.mp (hb.lt _ _ rfl rfl)
      have hlower : k < (k + k') / 2 := by linarith
      have hupper : (k + k') / 2 < k' := by linarith
      constructor
      · rintro _ ⟨⟩
        simpa [two_eq, div_ofNumber (two_ne_zero : (2 : K) ≠ 0)] using hlower
      · rintro _ ⟨⟩
        simpa [two_eq, div_ofNumber (two_ne_zero : (2 : K) ≠ 0)] using hupper

end Interval

namespace InteriorPoint

open Barrier

/-- A multiplier of a limit: positive if the limit is there, and otherwise zero. -/
def Multiplies : Option α → α → Prop
  | some _, z => Scalar.isFinite z = true ∧ 0 < z
  | none, z => z = 0

def Enclosed (bounds : Array (Interval α)) (v : Array α) : Prop :=
  ∀ (i : Nat) b x, bounds[i]? = some b → v[i]? = some x → b.Encloses x

def Multipliers (limit : Interval α → Option α) (bounds : Array (Interval α)) (z : Array α) :
    Prop :=
  ∀ (i : Nat) b x, bounds[i]? = some b → z[i]? = some x → Multiplies (limit b) x

omit [LinearOrder α] in
def Vanishing (limit : Interval α → Option α) (bounds : Array (Interval α)) (dz : Array α) : Prop :=
  ∀ (i : Nat) b d, bounds[i]? = some b → dz[i]? = some d → limit b = none → d = 0

/-- A problem at a point strictly inside its limits. -/
structure BarrierProblem.Interior (p : BarrierProblem α) : Prop where
  shaped : p.Shaped
  x : Enclosed p.xBounds p.iterate.x
  s : Enclosed p.sBounds p.iterate.s
  zxLower : Multipliers Interval.lower p.xBounds p.iterate.zxLower
  zxUpper : Multipliers Interval.upper p.xBounds p.iterate.zxUpper
  zsLower : Multipliers Interval.lower p.sBounds p.iterate.zsLower
  zsUpper : Multipliers Interval.upper p.sBounds p.iterate.zsUpper

omit [LinearOrder α] in
/-- Numbers that differ from their limits, so that the differences can be divided by. -/
def Separated (bounds : Array (Interval α)) (v : Array α) : Prop :=
  ∀ (i : Nat) b x, bounds[i]? = some b → v[i]? = some x →
    (∀ l, b.lower = some l → x - l ≠ 0) ∧ ∀ u, b.upper = some u → u - x ≠ 0

theorem Enclosed.separated [NumberLine α K] {bounds : Array (Interval α)} {v : Array α}
    (h : Enclosed bounds v) : Separated bounds v := by
  intro i b x hb hx
  have hx := h i b x hb hx
  constructor
  · intro l hl
    obtain ⟨hfinite, hvalue, hlt⟩ := hx.lower l hl
    obtain ⟨k, rfl⟩ := isFinite_iff.mp hfinite
    obtain ⟨x, rfl⟩ := isFinite_iff.mp hvalue
    simpa [zero_eq, sub_eq_zero] using (ofNumber_lt.mp hlt).ne'
  · intro u hu
    obtain ⟨hfinite, hvalue, hlt⟩ := hx.upper u hu
    obtain ⟨k, rfl⟩ := isFinite_iff.mp hfinite
    obtain ⟨x, rfl⟩ := isFinite_iff.mp hvalue
    simpa [zero_eq, sub_eq_zero] using (ofNumber_lt.mp hlt).ne'

section Lists

omit [LinearOrder α] in
theorem isFinite_of_allFinite {v : Array α} (h : Vec.allFinite v = true) {i : Nat} {x : α}
    (hx : v[i]? = some x) : Scalar.isFinite x = true :=
  Array.all_eq_true'.mp h x (Array.mem_of_getElem? hx)

omit [LinearOrder α] [Scalar α] in
theorem mem_zip_iff {β γ : Type} {v : Array β} {w : Array γ} {t : β × γ} :
    t ∈ v.toList.zip w.toList ↔ ∃ i : Nat, v[i]? = some t.1 ∧ w[i]? = some t.2 := by
  simp [List.mem_iff_getElem?, List.getElem?_zip_eq_some]

omit [LinearOrder α] [Scalar α] in
theorem mem_zip_zip_iff {β γ δ : Type} {u : Array β} {v : Array γ} {w : Array δ} {t : β × γ × δ} :
    t ∈ u.toList.zip (v.toList.zip w.toList) ↔
      ∃ i : Nat, u[i]? = some t.1 ∧ v[i]? = some t.2.1 ∧ w[i]? = some t.2.2 := by
  simp [List.mem_iff_getElem?, List.getElem?_zip_eq_some]

end Lists

omit [LinearOrder α] in
theorem advance_eq_some {a : α} {d v : Array α} {i : Nat} {x : α} :
    (Iterate.advance a d v)[i]? = some x ↔
      ∃ y e, v[i]? = some y ∧ d[i]? = some e ∧ x = a * e + 1 * y := by
  simp only [Iterate.advance, Array.getElem?_zipWith_eq_some]
  constructor
  · rintro ⟨y, e, hy, he, rfl⟩
    exact ⟨y, e, hy, he, rfl⟩
  · rintro ⟨y, e, hy, he, rfl⟩
    exact ⟨y, e, hy, he, rfl⟩

section Steps

variable [NumberLine α K] [IsStrictOrderedRing K] {tau a : K}

theorem encloses_advance {b : Interval α} {v d : α} (hv : b.Encloses v)
    (hd : Scalar.isFinite d = true) (htau : tau < 1) (ha : 0 ≤ a)
    (habove : AdmitsAbove tau a b.lower v d) (hbelow : AdmitsBelow tau a b.upper v d) :
    b.Encloses (ofNumber a * d + 1 * v) := by
  obtain ⟨e, rfl⟩ := isFinite_iff.mp hd
  constructor
  · intro l hl
    obtain ⟨hfinite, hvalue, hlt⟩ := hv.lower l hl
    obtain ⟨k, rfl⟩ := isFinite_iff.mp hfinite
    obtain ⟨x, rfl⟩ := isFinite_iff.mp hvalue
    have hkx : k < x := ofNumber_lt.mp hlt
    have hleft := habove a x e k ha (le_refl _) rfl rfl hl
    have hpos : 0 < (1 - tau) * (x - k) := mul_pos (by linarith) (by linarith)
    have hnew : k < a * e + 1 * x := by linarith
    simpa [one_eq] using hnew
  · intro u hu
    obtain ⟨hfinite, hvalue, hlt⟩ := hv.upper u hu
    obtain ⟨k, rfl⟩ := isFinite_iff.mp hfinite
    obtain ⟨x, rfl⟩ := isFinite_iff.mp hvalue
    have hkx : x < k := ofNumber_lt.mp hlt
    have hleft := hbelow a x e k ha (le_refl _) rfl rfl hu
    have hpos : 0 < (1 - tau) * (k - x) := mul_pos (by linarith) (by linarith)
    have hnew : a * e + 1 * x < k := by linarith
    simpa [one_eq] using hnew

theorem Multiplies.advance {limit : Option α} {z d : α} (hz : Multiplies limit z)
    (hd : Scalar.isFinite d = true) (hzero : limit = none → d = 0) (htau : tau < 1) (ha : 0 ≤ a)
    (hadmits : AdmitsPositive tau a z d) : Multiplies limit (ofNumber a * d + 1 * z) := by
  cases limit with
  | none =>
    have hz : z = 0 := hz
    have hd : d = 0 := hzero rfl
    show ofNumber a * d + 1 * z = 0
    simp [hz, hd, zero_eq, one_eq]
  | some l =>
    obtain ⟨hfinite, hpos⟩ := hz
    obtain ⟨x, rfl⟩ := isFinite_iff.mp hfinite
    obtain ⟨e, rfl⟩ := isFinite_iff.mp hd
    rw [zero_eq, ofNumber_lt] at hpos
    have hleft := hadmits a x e ha (le_refl _) rfl rfl hpos
    have hshare : 0 < (1 - tau) * x := mul_pos (by linarith) hpos
    have hnew : 0 < a * e + 1 * x := by linarith
    simpa [Multiplies, one_eq, zero_eq] using hnew

theorem Enclosed.stepToBounds_spec {bounds : Array (Interval α)} {v dv : Array α}
    (hv : Enclosed bounds v) (hdv : Vec.allFinite dv = true) (htau : 0 < tau) (htau1 : tau < 1) :
    ∃ c, stepToBounds (ofNumber tau) bounds v dv = ofNumber c ∧ 0 < c ∧ c ≤ 1 ∧
      ∀ a, 0 ≤ a → a ≤ c → Enclosed bounds (Iterate.advance (ofNumber a) dv v) := by
  have hentries : ∀ t ∈ bounds.toList.zip (v.toList.zip dv.toList),
      t.1.Encloses t.2.1 ∧ Scalar.isFinite t.2.2 = true := by
    intro t ht
    obtain ⟨i, hb, hx, hd⟩ := mem_zip_zip_iff.mp ht
    exact ⟨hv i _ _ hb hx, isFinite_of_allFinite hdv hd⟩
  obtain ⟨c, hc, hpos, hle, hadmits⟩ := Barrier.stepToBounds_spec htau hentries
  refine ⟨c, hc, hpos, hle, ?_⟩
  intro a ha hac i b x hb hx
  obtain ⟨y, d, hy, hd, rfl⟩ := advance_eq_some.mp hx
  obtain ⟨habove, hbelow⟩ := hadmits (b, y, d) (mem_zip_zip_iff.mpr ⟨i, hb, hy, hd⟩)
  exact encloses_advance (hv i b y hb hy) (isFinite_of_allFinite hdv hd) htau1 ha
    (habove.mono hac) (hbelow.mono hac)

theorem Multipliers.stepNonneg_spec {limit : Interval α → Option α} {bounds : Array (Interval α)}
    {z dz : Array α} (hz : Multipliers limit bounds z) (hsize : z.size = bounds.size)
    (hdz : Vec.allFinite dz = true) (hzero : Vanishing limit bounds dz) (htau : 0 < tau)
    (htau1 : tau < 1) :
    ∃ c, stepNonneg (ofNumber tau) z dz = ofNumber c ∧ 0 < c ∧ c ≤ 1 ∧
      ∀ a, 0 ≤ a → a ≤ c → Multipliers limit bounds (Iterate.advance (ofNumber a) dz z) := by
  have hentries : ∀ t ∈ z.toList.zip dz.toList,
      (Scalar.lt t.2 0 = true → ∃ x : K, t.1 = ofNumber x ∧ 0 < x) ∧
        Scalar.isFinite t.2 = true := by
    intro t ht
    obtain ⟨i, hx, hd⟩ := mem_zip_iff.mp ht
    refine ⟨?_, isFinite_of_allFinite hdz hd⟩
    intro hneg
    have hi : i < bounds.size := hsize ▸ (Array.getElem?_eq_some_iff.mp hx).1
    have hb : bounds[i]? = some bounds[i] := Array.getElem?_eq_getElem hi
    have hmultiplies := hz i _ _ hb hx
    cases hlimit : limit bounds[i] with
    | none =>
      have hd0 : t.2 = 0 := hzero i _ _ hb hd hlimit
      rw [hd0, OrderedScalar.lt_iff] at hneg
      exact absurd hneg (lt_irrefl _)
    | some l =>
      rw [hlimit] at hmultiplies
      obtain ⟨hfinite, hpos⟩ := hmultiplies
      obtain ⟨x, hx⟩ := isFinite_iff.mp hfinite
      rw [hx, zero_eq, ofNumber_lt] at hpos
      exact ⟨x, hx, hpos⟩
  obtain ⟨c, hc, hpos, hle, hadmits⟩ := Barrier.stepNonneg_spec htau hentries
  refine ⟨c, hc, hpos, hle, ?_⟩
  intro a ha hac i b x hb hx
  obtain ⟨y, d, hy, hd, rfl⟩ := advance_eq_some.mp hx
  have hadmitted := hadmits (y, d) (mem_zip_iff.mpr ⟨i, hy, hd⟩)
  exact (hz i b y hb hy).advance (isFinite_of_allFinite hdz hd) (hzero i b d hb hd) htau1 ha
    (hadmitted.mono hac)

end Steps

section Directions

omit [LinearOrder α]

variable {bounds : Array (Interval α)} {v zl zu dv old : Array α} {mu : α}

theorem vanishing_lowerSteps (hv : v.size = bounds.size) (hl : zl.size = bounds.size)
    (hu : zu.size = bounds.size) (hd : dv.size = bounds.size) (hold : old.size = bounds.size) :
    Vanishing Interval.lower bounds (lowerSteps mu bounds v dv zl zu old) := by
  intro i b d hb hd' hlimit
  have hi : i < bounds.size := (Array.getElem?_eq_some_iff.mp hb).1
  obtain ⟨c, hc⟩ := Coordinate.exists_at? hi (hv ▸ hi) (hl ▸ hi) (hu ▸ hi)
  have hbound : c.bound = b := Option.some.inj ((Coordinate.at?_eq_some.mp hc).1.symm.trans hb)
  rw [lowerSteps_getElem? hc (Array.getElem?_eq_getElem (hd ▸ hi)) (hold ▸ hi)] at hd'
  rw [← Option.some.inj hd', Coordinate.lowerStep, hbound, hlimit]

theorem vanishing_upperSteps (hv : v.size = bounds.size) (hl : zl.size = bounds.size)
    (hu : zu.size = bounds.size) (hd : dv.size = bounds.size) (hold : old.size = bounds.size) :
    Vanishing Interval.upper bounds (upperSteps mu bounds v dv zl zu old) := by
  intro i b d hb hd' hlimit
  have hi : i < bounds.size := (Array.getElem?_eq_some_iff.mp hb).1
  obtain ⟨c, hc⟩ := Coordinate.exists_at? hi (hv ▸ hi) (hl ▸ hi) (hu ▸ hi)
  have hbound : c.bound = b := Option.some.inj ((Coordinate.at?_eq_some.mp hc).1.symm.trans hb)
  rw [upperSteps_getElem? hc (Array.getElem?_eq_getElem (hd ▸ hi)) (hold ▸ hi)] at hd'
  rw [← Option.some.inj hd', Coordinate.upperStep, hbound, hlimit]

end Directions

namespace BarrierProblem

structure Directed (p : BarrierProblem α) : Prop where
  zxLower : Vanishing Interval.lower p.xBounds p.step.zxLower
  zxUpper : Vanishing Interval.upper p.xBounds p.step.zxUpper
  zsLower : Vanishing Interval.lower p.sBounds p.step.zsLower
  zsUpper : Vanishing Interval.upper p.sBounds p.step.zsUpper

theorem Interior.setMu {p : BarrierProblem α} (h : p.Interior) (mu : α) : (p.setMu mu).Interior :=
  ⟨⟨h.shaped.xBounds, h.shaped.sBounds,
      ⟨h.shaped.iterate.x, h.shaped.iterate.s, h.shaped.iterate.yEq, h.shaped.iterate.yIneq,
        h.shaped.iterate.zxLower, h.shaped.iterate.zxUpper, h.shaped.iterate.zsLower,
        h.shaped.iterate.zsUpper⟩, h.shaped.step⟩,
    h.x, h.s, h.zxLower, h.zxUpper, h.zsLower, h.zsUpper⟩

theorem Interior.directed {p : BarrierProblem α} (h : p.Interior) {solution : Array α}
    (hsize : solution.size = p.kktDim) : (p.directed solution).Interior :=
  ⟨h.shaped.directed hsize, h.x, h.s, h.zxLower, h.zxUpper, h.zsLower, h.zsUpper⟩

omit [LinearOrder α] in
theorem Shaped.directed_directed {p : BarrierProblem α} (h : p.Shaped) (solution : Array α)
    (hsize : solution.size = p.kktDim) : (p.directed solution).Directed := by
  have hdirected := h.directed hsize
  have ht := h.iterate
  have hd := hdirected.step
  constructor
  · exact vanishing_lowerSteps (ht.x.trans h.xBounds.symm) (ht.zxLower.trans h.xBounds.symm)
      (ht.zxUpper.trans h.xBounds.symm) (hd.x.trans h.xBounds.symm)
      (h.step.zxLower.trans h.xBounds.symm)
  · exact vanishing_upperSteps (ht.x.trans h.xBounds.symm) (ht.zxLower.trans h.xBounds.symm)
      (ht.zxUpper.trans h.xBounds.symm) (hd.x.trans h.xBounds.symm)
      (h.step.zxUpper.trans h.xBounds.symm)
  · exact vanishing_lowerSteps (ht.s.trans h.sBounds.symm) (ht.zsLower.trans h.sBounds.symm)
      (ht.zsUpper.trans h.sBounds.symm) (hd.s.trans h.sBounds.symm)
      (h.step.zsLower.trans h.sBounds.symm)
  · exact vanishing_upperSteps (ht.s.trans h.sBounds.symm) (ht.zsLower.trans h.sBounds.symm)
      (ht.zsUpper.trans h.sBounds.symm) (hd.s.trans h.sBounds.symm)
      (h.step.zsUpper.trans h.sBounds.symm)

section Lengths

variable [NumberLine α K] [IsStrictOrderedRing K] {p : BarrierProblem α} {tau : K}

/-- The longest steps are fractions of a full one, and lead strictly inside the limits. -/
theorem Interior.stepLengths_spec (h : p.Interior) (hdirected : p.Directed)
    (hfinite : p.step.isFinite = true) (htau : 0 < tau) (htau1 : tau < 1) :
    ∃ a b, p.stepLengths (ofNumber tau) = (ofNumber a, ofNumber b) ∧ (0 < a ∧ a ≤ 1) ∧
      (0 < b ∧ b ≤ 1) ∧ (p.stepped (ofNumber a) (ofNumber b)).Interior := by
  simp only [Iterate.isFinite, Bool.and_eq_true] at hfinite
  obtain ⟨⟨⟨⟨⟨⟨⟨hx, hs⟩, -⟩, -⟩, hxl⟩, hxu⟩, hsl⟩, hsu⟩ := hfinite
  have ht := h.shaped.iterate
  have hxBounds := h.shaped.xBounds.symm
  have hsBounds := h.shaped.sBounds.symm
  obtain ⟨ax, hax, hax0, hax1, hxMoved⟩ := h.x.stepToBounds_spec hx htau htau1
  obtain ⟨as, has, has0, has1, hsMoved⟩ := h.s.stepToBounds_spec hs htau htau1
  obtain ⟨b1, hb1, hb10, hb11, hxlMoved⟩ :=
    h.zxLower.stepNonneg_spec (ht.zxLower.trans hxBounds) hxl hdirected.zxLower htau htau1
  obtain ⟨b2, hb2, hb20, hb21, hxuMoved⟩ :=
    h.zxUpper.stepNonneg_spec (ht.zxUpper.trans hxBounds) hxu hdirected.zxUpper htau htau1
  obtain ⟨b3, hb3, hb30, hb31, hslMoved⟩ :=
    h.zsLower.stepNonneg_spec (ht.zsLower.trans hsBounds) hsl hdirected.zsLower htau htau1
  obtain ⟨b4, hb4, hb40, hb41, hsuMoved⟩ :=
    h.zsUpper.stepNonneg_spec (ht.zsUpper.trans hsBounds) hsu hdirected.zsUpper htau htau1
  have ha : 0 < min ax as := lt_min hax0 has0
  have hb : 0 < min (min (min (min 1 b1) b2) b3) b4 := by
    simp only [lt_min_iff]
    exact ⟨⟨⟨⟨one_pos, hb10⟩, hb20⟩, hb30⟩, hb40⟩
  refine ⟨min ax as, min (min (min (min 1 b1) b2) b3) b4, ?_, ⟨ha, ?_⟩, ⟨hb, ?_⟩, ?_⟩
  · simp only [stepLengths, hax, has, hb1, hb2, hb3, hb4, List.foldl_cons, List.foldl_nil,
      one_eq, min_ofNumber]
  · exact (min_le_left _ _).trans hax1
  · simp
  · constructor
    · exact h.shaped.stepped _ _
    · exact hxMoved _ ha.le (min_le_left _ _)
    · exact hsMoved _ ha.le (min_le_right _ _)
    · exact hxlMoved _ hb.le (by simp)
    · exact hxuMoved _ hb.le (by simp)
    · exact hslMoved _ hb.le (by simp)
    · exact hsuMoved _ hb.le (by simp)

end Lengths

section Start

variable [NumberLine α K] [IsStrictOrderedRing K]

include K

theorem enclosed_interior {bounds : Array (Interval α)} (h : ∀ b ∈ bounds, b.Ordered)
    (v : Array α) : Enclosed bounds (interior bounds v) := by
  intro i b x hb hx
  obtain ⟨b', y, hb', hy, rfl⟩ := Array.getElem?_zipWith_eq_some.mp hx
  rw [hb, Option.some.injEq] at hb'
  exact hb' ▸ (h b (Array.mem_of_getElem? hb)).encloses_interior y

theorem multipliers_startDuals (limit : Interval α → Option α) (bounds : Array (Interval α)) :
    Multipliers limit bounds (startDuals limit bounds) := by
  intro i b x hb hx
  have hx : x = if (limit b).isSome then 1 else 0 := by
    simp only [startDuals, Array.getElem?_map, hb, Option.map_some, Option.some.injEq] at hx
    exact hx.symm
  rw [hx]
  cases limit b with
  | none => rfl
  | some l =>
    have hpos : (0 : α) < 1 := by
      rw [zero_eq, one_eq, ofNumber_lt]
      exact one_pos
    have hfinite : Scalar.isFinite (1 : α) = true := by
      rw [one_eq]
      exact isFinite_ofNumber 1
    exact ⟨hfinite, hpos⟩

theorem interior_of_new? {m : NlpModel α} {p : BarrierProblem α}
    (h : BarrierProblem.new? m = some (.ok p)) : p.Interior := by
  obtain ⟨hshaped, -⟩ := shaped_of_new? h
  obtain ⟨xBounds, sBounds, d, -, hx, -, hs, -, rfl⟩ := new?_eq_some h
  exact ⟨hshaped, enclosed_interior (Interval.ordered_of_all hx) _,
    enclosed_interior (Interval.ordered_of_all hs) _, multipliers_startDuals _ _,
    multipliers_startDuals _ _, multipliers_startDuals _ _, multipliers_startDuals _ _⟩

end Start

end BarrierProblem

end InteriorPoint

end NonlinearOpt
