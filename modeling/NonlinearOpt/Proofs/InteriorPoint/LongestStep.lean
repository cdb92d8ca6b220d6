import Mathlib
import NonlinearOpt.Proofs.InteriorPoint.Passes

namespace NonlinearOpt.InteriorPoint

open NumberLine Barrier

variable {α K : Type} [LinearOrder α] [Scalar α] [Field K] [LinearOrder K] [NumberLine α K]

section Shares

/-- A step of length `a` leaves `1 - tau` of the distance to the lower limit. -/
def KeepsAbove (tau : K) (limit : Option α) (v d : α) (a : K) : Prop :=
  ∀ x e l : K, v = ofNumber x → d = ofNumber e → limit = some (ofNumber l) →
    (1 - tau) * (x - l) ≤ x + a * e - l

def KeepsBelow (tau : K) (limit : Option α) (v d : α) (a : K) : Prop :=
  ∀ x e u : K, v = ofNumber x → d = ofNumber e → limit = some (ofNumber u) →
    (1 - tau) * (u - x) ≤ u - x - a * e

def KeepsShare (tau : K) (z d : α) (a : K) : Prop :=
  ∀ x e : K, z = ofNumber x → d = ofNumber e → (1 - tau) * x ≤ x + a * e

/-- A cut of the length `a` to the longest one that is good. -/
def Cuts (good : K → Prop) (a : K) (out : α) : Prop :=
  ∃ c : K, out = ofNumber c ∧ 0 ≤ c ∧ ∀ b, 0 ≤ b → (b ≤ c ↔ b ≤ a ∧ good b)

theorem Cuts.isGreatest {good : K → Prop} {a : K} {out : α} (h : Cuts good a out) :
    ∃ c : K, out = ofNumber c ∧ IsGreatest {b | 0 ≤ b ∧ b ≤ a ∧ good b} c := by
  obtain ⟨c, hc, hpos, hiff⟩ := h
  refine ⟨c, hc, ⟨hpos, (hiff c hpos).mp (le_refl _)⟩, ?_⟩
  rintro b ⟨hb, hgood⟩
  exact (hiff b hb).mpr hgood

theorem Cuts.of_iff {good good' : K → Prop} {a : K} {out : α} (h : Cuts good a out)
    (hiff : ∀ b, 0 ≤ b → (good b ↔ good' b)) : Cuts good' a out := by
  obtain ⟨c, hc, hpos, hcut⟩ := h
  exact ⟨c, hc, hpos, fun b hb => (hcut b hb).trans (and_congr_right fun _ => hiff b hb)⟩

theorem Cuts.trans {good good' : K → Prop} {a : K} {out : α} (h : Cuts good a out)
    (cut : α → α) (h' : ∀ c : K, 0 ≤ c → Cuts good' c (cut (ofNumber c))) :
    Cuts (fun b => good b ∧ good' b) a (cut out) := by
  obtain ⟨c, rfl, hpos, hiff⟩ := h
  obtain ⟨c', hc', hpos', hiff'⟩ := h' c hpos
  refine ⟨c', hc', hpos', ?_⟩
  intro b hb
  rw [hiff' b hb, hiff b hb, and_assoc]

theorem Cuts.min {good good' : K → Prop} {a : K} {out out' : α} (h : Cuts good a out)
    (h' : Cuts good' a out') : Cuts (fun b => good b ∧ good' b) a (Scalar.min out out') := by
  obtain ⟨c, rfl, hpos, hiff⟩ := h
  obtain ⟨c', rfl, hpos', hiff'⟩ := h'
  refine ⟨Min.min c c', min_ofNumber c c', le_min hpos hpos', ?_⟩
  intro b hb
  rw [le_min_iff, hiff b hb, hiff' b hb]
  tauto

theorem cuts_foldl {β : Type} (cut : α → β → α) {good : β → K → Prop} {xs : List β}
    (hcut : ∀ x ∈ xs, ∀ a : K, 0 ≤ a → Cuts (good x) a (cut (ofNumber a) x)) {a : K}
    (ha : 0 ≤ a) : Cuts (fun b => ∀ x ∈ xs, good x b) a (xs.foldl cut (ofNumber a)) := by
  -- The cuts that follow start from the length that the first one leaves.
  induction xs generalizing a with
  | nil => exact ⟨a, rfl, ha, fun b _ => by simp⟩
  | cons x xs ih =>
    rw [List.foldl_cons]
    have hrest := (hcut x (by simp) a ha).trans (fun a => xs.foldl cut a) fun c hc =>
      ih (fun y hy => hcut y (by simp [hy])) hc
    exact hrest.of_iff fun b _ => (List.forall_mem_cons (p := fun y => good y b)).symm

end Shares

section Tests

variable [IsStrictOrderedRing K] {tau a : K}

/-- The ratio test lets through the lengths that leave `1 - tau` of the distance. -/
theorem le_cut_iff {dist e : K} (htau : 0 < tau) (ha : 0 ≤ a) (hdist : 0 ≤ dist) :
    let c := if e < 0 then min a (-tau * dist / e) else a
    0 ≤ c ∧ ∀ b, 0 ≤ b → (b ≤ c ↔ b ≤ a ∧ (1 - tau) * dist ≤ dist + b * e) := by
  have hused : 0 ≤ tau * dist := mul_nonneg htau.le hdist
  by_cases he : e < 0
  · -- The quotient by a negative step turns the inequality around.
    simp only [he, if_true]
    refine ⟨le_min ha (div_nonneg_of_nonpos (by linarith) he.le), ?_⟩
    intro b _
    rw [le_min_iff, le_div_iff_of_neg he]
    have hshare : -tau * dist ≤ b * e ↔ (1 - tau) * dist ≤ dist + b * e := by
      constructor <;> intro h <;> linarith
    rw [hshare]
  · simp only [he, if_false]
    refine ⟨ha, ?_⟩
    intro b hb
    have hgain : 0 ≤ b * e := mul_nonneg hb (not_lt.mp he)
    exact ⟨fun h => ⟨h, by linarith⟩, And.left⟩

theorem cuts_lowerCut (htau : 0 < tau) (ha : 0 ≤ a) {b : Interval α} {v d : α} (hv : b.Encloses v)
    (hd : Scalar.isFinite d = true) :
    Cuts (KeepsAbove tau b.lower v d) a (lowerCut (ofNumber tau) (ofNumber a) v d b.lower) := by
  obtain ⟨e, rfl⟩ := isFinite_iff.mp hd
  cases hb : b.lower with
  | none => exact ⟨a, rfl, ha, fun c _ => by simp [KeepsAbove]⟩
  | some l =>
    obtain ⟨hl, hfinite, hlt⟩ := hv.lower l hb
    obtain ⟨k, rfl⟩ := isFinite_iff.mp hl
    obtain ⟨x, rfl⟩ := isFinite_iff.mp hfinite
    have hdist : 0 ≤ x - k := (sub_pos.mpr (ofNumber_lt.mp hlt)).le
    obtain ⟨hpos, hiff⟩ := le_cut_iff (e := e) htau ha hdist
    refine ⟨_, ?_, hpos, ?_⟩
    · by_cases he : e < 0
      · simp only [lowerCut, zero_eq, lt_ofNumber, he, decide_true, if_true, neg_ofNumber,
          sub_ofNumber, mul_ofNumber, div_ofNumber he.ne, min_ofNumber]
      · simp [lowerCut, zero_eq, he]
    · intro c hc
      rw [hiff c hc]
      refine and_congr_right fun _ => ⟨?_, fun h => ?_⟩
      · intro hshare x' e' l' hx he hl
        simp only [ofNumber_inj, Option.some.injEq] at hx he hl
        subst hx he hl
        linarith
      · have := h x e k rfl rfl rfl
        linarith

theorem cuts_upperCut (htau : 0 < tau) (ha : 0 ≤ a) {b : Interval α} {v d : α} (hv : b.Encloses v)
    (hd : Scalar.isFinite d = true) :
    Cuts (KeepsBelow tau b.upper v d) a (upperCut (ofNumber tau) (ofNumber a) v d b.upper) := by
  obtain ⟨e, rfl⟩ := isFinite_iff.mp hd
  cases hb : b.upper with
  | none => exact ⟨a, rfl, ha, fun c _ => by simp [KeepsBelow]⟩
  | some u =>
    obtain ⟨hu, hfinite, hlt⟩ := hv.upper u hb
    obtain ⟨k, rfl⟩ := isFinite_iff.mp hu
    obtain ⟨x, rfl⟩ := isFinite_iff.mp hfinite
    have hdist : 0 ≤ k - x := (sub_pos.mpr (ofNumber_lt.mp hlt)).le
    obtain ⟨hpos, hiff⟩ := le_cut_iff (e := -e) htau ha hdist
    refine ⟨_, ?_, hpos, ?_⟩
    · by_cases he : 0 < e
      · simp only [upperCut, zero_eq, lt_ofNumber, he, decide_true, if_true, sub_ofNumber,
          mul_ofNumber, div_ofNumber he.ne', min_ofNumber, Left.neg_neg_iff, neg_mul,
          neg_div_neg_eq]
      · simp [upperCut, zero_eq, he]
    · intro c hc
      rw [hiff c hc]
      refine and_congr_right fun _ => ⟨?_, fun h => ?_⟩
      · intro hshare x' e' u' hx he hu
        simp only [ofNumber_inj, Option.some.injEq] at hx he hu
        subst hx he hu
        linarith
      · have := h x e k rfl rfl rfl
        linarith

theorem cuts_cutToBound (htau : 0 < tau) (ha : 0 ≤ a) {b : Interval α} {v d : α}
    (hv : b.Encloses v) (hd : Scalar.isFinite d = true) :
    Cuts (fun c => KeepsAbove tau b.lower v d c ∧ KeepsBelow tau b.upper v d c) a
      (cutToBound (ofNumber tau) (ofNumber a) v d b) := by
  rw [cutToBound_eq]
  exact (cuts_lowerCut htau ha hv hd).trans (fun a => upperCut (ofNumber tau) a v d b.upper)
    fun c hc => cuts_upperCut htau hc hv hd

theorem cuts_positiveCut (htau : 0 < tau) (ha : 0 ≤ a) {z d : α}
    (hz : Scalar.isFinite z = true ∧ 0 ≤ z) (hd : Scalar.isFinite d = true) :
    Cuts (KeepsShare tau z d) a (positiveCut (ofNumber tau) (ofNumber a) z d) := by
  obtain ⟨e, rfl⟩ := isFinite_iff.mp hd
  obtain ⟨hfinite, hnonneg⟩ := hz
  obtain ⟨x, rfl⟩ := isFinite_iff.mp hfinite
  rw [zero_eq, ofNumber_le] at hnonneg
  obtain ⟨hpos, hiff⟩ := le_cut_iff (e := e) htau ha hnonneg
  refine ⟨_, ?_, hpos, ?_⟩
  · by_cases he : e < 0
    · simp only [positiveCut, zero_eq, lt_ofNumber, he, decide_true, if_true, neg_ofNumber,
        mul_ofNumber, div_ofNumber he.ne, min_ofNumber]
    · simp [positiveCut, zero_eq, he]
  · intro c hc
    rw [hiff c hc]
    refine and_congr_right fun _ => ⟨?_, fun h => h x e rfl rfl⟩
    intro hshare x' e' hx he
    simp only [ofNumber_inj] at hx he
    subst hx he
    exact hshare

end Tests

section Vectors

variable [IsStrictOrderedRing K] {tau : K}

/-- A step of length `a` leaves `1 - tau` of the distances to all limits. -/
def KeepsInside (tau : K) (bounds : Array (Interval α)) (v dv : Array α) (a : K) : Prop :=
  ∀ (i : Nat) b x d, bounds[i]? = some b → v[i]? = some x → dv[i]? = some d →
    KeepsAbove tau b.lower x d a ∧ KeepsBelow tau b.upper x d a

def KeepsNonneg (tau : K) (z dz : Array α) (a : K) : Prop :=
  ∀ (i : Nat) x d, z[i]? = some x → dz[i]? = some d → KeepsShare tau x d a

def Nonnegative (z : Array α) : Prop := ∀ x ∈ z, Scalar.isFinite x = true ∧ 0 ≤ x

def PositiveWhereFalling (z dz : Array α) : Prop :=
  ∀ (i : Nat) x d, z[i]? = some x → dz[i]? = some d → d < 0 → 0 < x

theorem cuts_stepToBounds (htau : 0 < tau) {bounds : Array (Interval α)} {v dv : Array α}
    (hv : Enclosed bounds v) (hdv : Vec.allFinite dv = true) :
    Cuts (KeepsInside tau bounds v dv) (1 : K) (stepToBounds (ofNumber tau) bounds v dv) := by
  have hcut : ∀ t ∈ bounds.toList.zip (v.toList.zip dv.toList), ∀ a : K, 0 ≤ a →
      Cuts (fun b => KeepsAbove tau t.1.lower t.2.1 t.2.2 b ∧ KeepsBelow tau t.1.upper t.2.1 t.2.2 b)
        a (cutToBound (ofNumber tau) (ofNumber a) t.2.1 t.2.2 t.1) := by
    intro t ht a ha
    obtain ⟨i, hb, hx, hd⟩ := mem_zip_zip_iff.mp ht
    exact cuts_cutToBound htau ha (hv i _ _ hb hx) (isFinite_of_allFinite hdv hd)
  have hcuts := cuts_foldl
    (fun a (t : Interval α × α × α) => cutToBound (ofNumber tau) a t.2.1 t.2.2 t.1) hcut zero_le_one
  rw [stepToBounds, one_eq]
  refine hcuts.of_iff fun a _ => ⟨?_, ?_⟩
  · intro h i b x d hb hx hd
    exact h (b, x, d) (mem_zip_zip_iff.mpr ⟨i, hb, hx, hd⟩)
  · intro h t ht
    obtain ⟨i, hb, hx, hd⟩ := mem_zip_zip_iff.mp ht
    exact h i _ _ _ hb hx hd

theorem cuts_stepNonneg (htau : 0 < tau) {z dz : Array α} (hz : Nonnegative z)
    (hdz : Vec.allFinite dz = true) :
    Cuts (KeepsNonneg tau z dz) (1 : K) (stepNonneg (ofNumber tau) z dz) := by
  have hcut : ∀ t ∈ z.toList.zip dz.toList, ∀ a : K, 0 ≤ a →
      Cuts (KeepsShare tau t.1 t.2) a (positiveCut (ofNumber tau) (ofNumber a) t.1 t.2) := by
    intro t ht a ha
    obtain ⟨i, hx, hd⟩ := mem_zip_iff.mp ht
    exact cuts_positiveCut htau ha (hz _ (Array.mem_of_getElem? hx)) (isFinite_of_allFinite hdz hd)
  have hcuts := cuts_foldl (fun a (t : α × α) => positiveCut (ofNumber tau) a t.1 t.2) hcut
    zero_le_one
  rw [stepNonneg_eq, one_eq]
  refine hcuts.of_iff fun a _ => ⟨?_, ?_⟩
  · intro h i x d hx hd
    exact h (x, d) (mem_zip_iff.mpr ⟨i, hx, hd⟩)
  · intro h t ht
    obtain ⟨i, hx, hd⟩ := mem_zip_iff.mp ht
    exact h i _ _ hx hd

theorem PositiveWhereFalling.stepNonneg_pos {z dz : Array α} (h : PositiveWhereFalling z dz)
    (hz : Nonnegative z) (hdz : Vec.allFinite dz = true) (htau : 0 < tau) :
    ∃ c : K, stepNonneg (ofNumber tau) z dz = ofNumber c ∧ 0 < c := by
  have hentries : ∀ t ∈ z.toList.zip dz.toList,
      (Scalar.lt t.2 0 = true → ∃ x : K, t.1 = ofNumber x ∧ 0 < x) ∧
        Scalar.isFinite t.2 = true := by
    intro t ht
    obtain ⟨i, hx, hd⟩ := mem_zip_iff.mp ht
    refine ⟨fun hneg => ?_, isFinite_of_allFinite hdz hd⟩
    obtain ⟨x, hvalue⟩ := isFinite_iff.mp (hz _ (Array.mem_of_getElem? hx)).1
    have hpos := h i _ _ hx hd (OrderedScalar.lt_iff.mp hneg)
    rw [hvalue, zero_eq, ofNumber_lt] at hpos
    exact ⟨x, hvalue, hpos⟩
  obtain ⟨c, hc, hpos, -⟩ := stepNonneg_spec htau hentries
  exact ⟨c, hc, hpos⟩

theorem KeepsNonneg.positiveWhereFalling {z dz : Array α} {a : K} (h : KeepsNonneg tau z dz a)
    (ha : 0 < a) (hz : Nonnegative z) (hdz : Vec.allFinite dz = true) :
    PositiveWhereFalling z dz := by
  intro i x d hx hd hneg
  obtain ⟨hfinite, hnonneg⟩ := hz x (Array.mem_of_getElem? hx)
  refine lt_of_le_of_ne hnonneg ?_
  rintro rfl
  obtain ⟨e, rfl⟩ := isFinite_iff.mp (isFinite_of_allFinite hdz hd)
  have hshare := h i _ _ hx hd 0 e zero_eq rfl
  rw [zero_eq, ofNumber_lt] at hneg
  have hused : a * e < 0 := mul_neg_of_pos_of_neg ha hneg
  linarith

end Vectors

namespace BarrierProblem

/-- A step of length `a` in variables and slacks leaves `1 - tau` of their distances to limits. -/
structure AdmitsPrimal (p : BarrierProblem α) (tau a : K) : Prop where
  x : KeepsInside tau p.xBounds p.iterate.x p.step.x a
  s : KeepsInside tau p.sBounds p.iterate.s p.step.s a

structure AdmitsDual (p : BarrierProblem α) (tau a : K) : Prop where
  zxLower : KeepsNonneg tau p.iterate.zxLower p.step.zxLower a
  zxUpper : KeepsNonneg tau p.iterate.zxUpper p.step.zxUpper a
  zsLower : KeepsNonneg tau p.iterate.zsLower p.step.zsLower a
  zsUpper : KeepsNonneg tau p.iterate.zsUpper p.step.zsUpper a

structure StrictlyInside (p : BarrierProblem α) : Prop where
  x : Enclosed p.xBounds p.iterate.x
  s : Enclosed p.sBounds p.iterate.s
  zxLower : Nonnegative p.iterate.zxLower
  zxUpper : Nonnegative p.iterate.zxUpper
  zsLower : Nonnegative p.iterate.zsLower
  zsUpper : Nonnegative p.iterate.zsUpper

structure Falling (p : BarrierProblem α) : Prop where
  zxLower : PositiveWhereFalling p.iterate.zxLower p.step.zxLower
  zxUpper : PositiveWhereFalling p.iterate.zxUpper p.step.zxUpper
  zsLower : PositiveWhereFalling p.iterate.zsLower p.step.zsLower
  zsUpper : PositiveWhereFalling p.iterate.zsUpper p.step.zsUpper

variable [IsStrictOrderedRing K] {p : BarrierProblem α} {tau : K}

theorem StrictlyInside.cuts_primal (h : p.StrictlyInside) (hfinite : p.step.isFinite = true)
    (htau : 0 < tau) : Cuts (p.AdmitsPrimal tau) (1 : K) (p.stepLengths (ofNumber tau)).1 := by
  simp only [Iterate.isFinite, Bool.and_eq_true] at hfinite
  obtain ⟨⟨⟨⟨⟨⟨⟨hx, hs⟩, -⟩, -⟩, -⟩, -⟩, -⟩, -⟩ := hfinite
  refine ((cuts_stepToBounds htau h.x hx).min (cuts_stepToBounds htau h.s hs)).of_iff fun a _ => ?_
  exact ⟨fun h => ⟨h.1, h.2⟩, fun h => ⟨h.x, h.s⟩⟩

theorem StrictlyInside.cuts_dual (h : p.StrictlyInside) (hfinite : p.step.isFinite = true)
    (htau : 0 < tau) : Cuts (p.AdmitsDual tau) (1 : K) (p.stepLengths (ofNumber tau)).2 := by
  simp only [Iterate.isFinite, Bool.and_eq_true] at hfinite
  obtain ⟨⟨⟨⟨-, hxl⟩, hxu⟩, hsl⟩, hsu⟩ := hfinite
  have hone : Cuts (fun _ : K => True) (1 : K) (1 : α) := ⟨1, one_eq, zero_le_one, by simp⟩
  have hcuts := (((hone.min (cuts_stepNonneg htau h.zxLower hxl)).min
    (cuts_stepNonneg htau h.zxUpper hxu)).min (cuts_stepNonneg htau h.zsLower hsl)).min
      (cuts_stepNonneg htau h.zsUpper hsu)
  refine hcuts.of_iff fun a _ => ⟨?_, ?_⟩
  · rintro ⟨⟨⟨⟨-, hxl⟩, hxu⟩, hsl⟩, hsu⟩
    exact ⟨hxl, hxu, hsl, hsu⟩
  · rintro ⟨hxl, hxu, hsl, hsu⟩
    exact ⟨⟨⟨⟨trivial, hxl⟩, hxu⟩, hsl⟩, hsu⟩

theorem StrictlyInside.primal_pos (h : p.StrictlyInside) (hfinite : p.step.isFinite = true)
    (htau : 0 < tau) (htau1 : tau < 1) {a : K}
    (ha : (p.stepLengths (ofNumber tau)).1 = ofNumber a) : 0 < a := by
  simp only [Iterate.isFinite, Bool.and_eq_true] at hfinite
  obtain ⟨⟨⟨⟨⟨⟨⟨hx, hs⟩, -⟩, -⟩, -⟩, -⟩, -⟩, -⟩ := hfinite
  obtain ⟨ax, hax, hax0, -⟩ := h.x.stepToBounds_spec hx htau htau1
  obtain ⟨as, has, has0, -⟩ := h.s.stepToBounds_spec hs htau htau1
  have hmin : a = min ax as := by
    rw [stepLengths, hax, has, min_ofNumber, ofNumber_inj] at ha
    exact ha.symm
  exact hmin ▸ lt_min hax0 has0

theorem StrictlyInside.dual_pos_iff (h : p.StrictlyInside) (hfinite : p.step.isFinite = true)
    (htau : 0 < tau) {a : K} (ha : (p.stepLengths (ofNumber tau)).2 = ofNumber a)
    (hadmits : p.AdmitsDual tau a) : 0 < a ↔ p.Falling := by
  simp only [Iterate.isFinite, Bool.and_eq_true] at hfinite
  obtain ⟨⟨⟨⟨-, hxl⟩, hxu⟩, hsl⟩, hsu⟩ := hfinite
  constructor
  · intro hpos
    exact ⟨hadmits.zxLower.positiveWhereFalling hpos h.zxLower hxl,
      hadmits.zxUpper.positiveWhereFalling hpos h.zxUpper hxu,
      hadmits.zsLower.positiveWhereFalling hpos h.zsLower hsl,
      hadmits.zsUpper.positiveWhereFalling hpos h.zsUpper hsu⟩
  · intro hfalling
    obtain ⟨b1, hb1, hb10⟩ := hfalling.zxLower.stepNonneg_pos h.zxLower hxl htau
    obtain ⟨b2, hb2, hb20⟩ := hfalling.zxUpper.stepNonneg_pos h.zxUpper hxu htau
    obtain ⟨b3, hb3, hb30⟩ := hfalling.zsLower.stepNonneg_pos h.zsLower hsl htau
    obtain ⟨b4, hb4, hb40⟩ := hfalling.zsUpper.stepNonneg_pos h.zsUpper hsu htau
    have hmin : a = min (min (min (min 1 b1) b2) b3) b4 := by
      simp only [stepLengths, hb1, hb2, hb3, hb4, List.foldl_cons, List.foldl_nil, one_eq,
        min_ofNumber, ofNumber_inj] at ha
      exact ha.symm
    rw [hmin]
    simp only [lt_min_iff]
    exact ⟨⟨⟨⟨one_pos, hb10⟩, hb20⟩, hb30⟩, hb40⟩

/-- The step lengths are the longest of those up to one that leave `1 - tau` of every distance to a
limit, and of every multiplier. -/
theorem stepLengths_isGreatest (h : p.StrictlyInside) (hfinite : p.step.isFinite = true)
    (htau : 0 < tau) (htau1 : tau < 1) :
    ∃ primal dual : K, p.stepLengths (ofNumber tau) = (ofNumber primal, ofNumber dual) ∧
      IsGreatest {a | 0 ≤ a ∧ a ≤ 1 ∧ p.AdmitsPrimal tau a} primal ∧
      IsGreatest {a | 0 ≤ a ∧ a ≤ 1 ∧ p.AdmitsDual tau a} dual ∧
      0 < primal ∧ (0 < dual ↔ p.Falling) := by
  obtain ⟨primal, hprimal, hlongest⟩ := (h.cuts_primal hfinite htau).isGreatest
  obtain ⟨dual, hdual, hlongest'⟩ := (h.cuts_dual hfinite htau).isGreatest
  exact ⟨primal, dual, Prod.ext hprimal hdual, hlongest, hlongest',
    h.primal_pos hfinite htau htau1 hprimal, h.dual_pos_iff hfinite htau hdual hlongest'.1.2.2⟩

/-- At distance one from the limit, a step that would cross it. It takes more than the whole
multiplier. -/
def crossing : BarrierProblem (Extended ℚ) :=
  { halfLineProblem with
    step := ⟨#[-(1 + 1)], #[], #[], #[], #[-(1 + 1 + 1 + 1)], #[0], #[], #[], 0⟩ }

theorem stepLengths_isGreatest_crossing :
    crossing.StrictlyInside ∧ crossing.step.isFinite = true ∧
      crossing.stepLengths (ofNumber (9 / 10 : ℚ)) = (ofNumber (9 / 20), ofNumber (9 / 40)) ∧
      IsGreatest {a : ℚ | 0 ≤ a ∧ a ≤ 1 ∧ crossing.AdmitsPrimal (9 / 10) a} (9 / 20) ∧
      IsGreatest {a : ℚ | 0 ≤ a ∧ a ≤ 1 ∧ crossing.AdmitsDual (9 / 10) a} (9 / 40) ∧
      crossing.Falling := by
  have hstart : halfLineProblem.Interior := interior_of_new? new?_halfLine
  have hone : Nonnegative #[(1 : Extended ℚ)] := by
    intro x hx
    obtain rfl : x = 1 := by simpa using hx
    decide +kernel
  have hzero : Nonnegative #[(0 : Extended ℚ)] := by
    intro x hx
    obtain rfl : x = 0 := by simpa using hx
    decide +kernel
  have hinside : crossing.StrictlyInside := ⟨hstart.x, hstart.s, hone, hzero, nofun, nofun⟩
  have hfinite : crossing.step.isFinite = true := by decide +kernel
  have hlengths : crossing.stepLengths (ofNumber (9 / 10 : ℚ)) =
      (ofNumber (9 / 20), ofNumber (9 / 40)) := by decide +kernel
  have htau : (0 : ℚ) < 9 / 10 := by norm_num
  have htau1 : (9 / 10 : ℚ) < 1 := by norm_num
  obtain ⟨primal, dual, hvalue, hprimal, hdual, -, hfalling⟩ :=
    stepLengths_isGreatest hinside hfinite htau htau1
  rw [hlengths, Prod.mk.injEq, ofNumber_inj, ofNumber_inj] at hvalue
  obtain ⟨rfl, rfl⟩ := hvalue
  exact ⟨hinside, hfinite, hlengths, hprimal, hdual, hfalling.mp (by norm_num)⟩

end BarrierProblem

end NonlinearOpt.InteriorPoint
