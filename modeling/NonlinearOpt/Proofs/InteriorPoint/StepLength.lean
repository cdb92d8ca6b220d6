import NonlinearOpt.InteriorPoint.Barrier
import NonlinearOpt.Proofs.Arithmetic.Exact
import Mathlib

namespace NonlinearOpt

open NumberLine

namespace InteriorPoint.Barrier

variable {α : Type} [Scalar α]

def lowerCut (tau a v d : α) : Option α → α
  | some l => if Scalar.lt d 0 then Scalar.min a (-tau * (v - l) / d) else a
  | none => a

def upperCut (tau a v d : α) : Option α → α
  | some u => if Scalar.lt 0 d then Scalar.min a (tau * (u - v) / d) else a
  | none => a

theorem cutToBound_eq (tau a v d : α) (b : Interval α) :
    cutToBound tau a v d b = upperCut tau (lowerCut tau a v d b.lower) v d b.upper := by
  obtain ⟨_ | l, _ | u⟩ := b <;> rfl

def positiveCut (tau a z d : α) : α := if Scalar.lt d 0 then Scalar.min a (-tau * z / d) else a

theorem stepToBounds_eq (tau : α) (bounds : Array (Interval α)) (v dv : Array α) :
    stepToBounds tau bounds v dv = (bounds.toList.zip (v.toList.zip dv.toList)).foldl
      (fun a t => upperCut tau (lowerCut tau a t.2.1 t.2.2 t.1.lower) t.2.1 t.2.2 t.1.upper) 1 :=
  congrArg (fun cut => List.foldl cut 1 _) (funext₂ fun _ _ => cutToBound_eq _ _ _ _ _)

theorem stepNonneg_eq (tau : α) (z dz : Array α) : stepNonneg tau z dz =
    (z.toList.zip dz.toList).foldl (fun a t => positiveCut tau a t.1 t.2) 1 :=
  rfl

end InteriorPoint.Barrier

variable {α K : Type} [LinearOrder α] [Scalar α] [Field K] [LinearOrder K] [NumberLine α K]

structure Interval.Encloses (b : Interval α) (v : α) : Prop where
  lower : ∀ l, b.lower = some l →
    Scalar.isFinite l = true ∧ Scalar.isFinite v = true ∧ l < v
  upper : ∀ u, b.upper = some u →
    Scalar.isFinite u = true ∧ Scalar.isFinite v = true ∧ v < u

namespace InteriorPoint

namespace Barrier

section Numbers

variable [IsStrictOrderedRing K]

/-- One ratio test: the distance that is left after a step. -/
theorem cut_spec {tau a dist e : K} (htau : 0 < tau) (ha : 0 < a) (hdist : 0 < dist) :
    let c := if e < 0 then min a (-tau * dist / e) else a
    0 < c ∧ c ≤ a ∧ ∀ a', 0 ≤ a' → a' ≤ c → (1 - tau) * dist ≤ dist + a' * e := by
  have hpos : 0 < tau * dist := mul_pos htau hdist
  by_cases he : e < 0
  · have hratio : 0 < -tau * dist / e := div_pos_of_neg_of_neg (by linarith) he
    simp only [he, if_true]
    refine ⟨lt_min ha hratio, min_le_left _ _, ?_⟩
    intro a' _ hle
    have hle : a' ≤ -tau * dist / e := hle.trans (min_le_right _ _)
    have hused : -tau * dist ≤ a' * e := (le_div_iff_of_neg he).mp hle
    linarith
  · simp only [he, if_false]
    refine ⟨ha, le_refl _, ?_⟩
    intro a' ha' _
    have hgain : 0 ≤ a' * e := mul_nonneg ha' (not_lt.mp he)
    linarith

end Numbers

def AdmitsAbove (tau a : K) (limit : Option α) (v d : α) : Prop :=
  ∀ c x e l : K, 0 ≤ c → c ≤ a → v = ofNumber x → d = ofNumber e → limit = some (ofNumber l) →
    (1 - tau) * (x - l) ≤ x + c * e - l

def AdmitsBelow (tau a : K) (limit : Option α) (v d : α) : Prop :=
  ∀ c x e u : K, 0 ≤ c → c ≤ a → v = ofNumber x → d = ofNumber e → limit = some (ofNumber u) →
    (1 - tau) * (u - x) ≤ u - (x + c * e)

def AdmitsPositive (tau a : K) (z d : α) : Prop :=
  ∀ c x e : K, 0 ≤ c → c ≤ a → z = ofNumber x → d = ofNumber e → 0 < x →
    (1 - tau) * x ≤ x + c * e

section Shorter

variable {tau a a' : K} {limit : Option α} {v d : α}

theorem AdmitsAbove.mono (h : AdmitsAbove tau a limit v d) (hle : a' ≤ a) :
    AdmitsAbove tau a' limit v d :=
  fun c x e l hc hca => h c x e l hc (hca.trans hle)

theorem AdmitsBelow.mono (h : AdmitsBelow tau a limit v d) (hle : a' ≤ a) :
    AdmitsBelow tau a' limit v d :=
  fun c x e u hc hca => h c x e u hc (hca.trans hle)

theorem AdmitsPositive.mono (h : AdmitsPositive tau a v d) (hle : a' ≤ a) :
    AdmitsPositive tau a' v d :=
  fun c x e hc hca => h c x e hc (hca.trans hle)

end Shorter

variable [IsStrictOrderedRing K] {tau a : K}

theorem lowerCut_spec (htau : 0 < tau) (ha : 0 < a) {b : Interval α} {v d : α}
    (hv : b.Encloses v) (hd : Scalar.isFinite d = true) :
    ∃ c, lowerCut (ofNumber tau) (ofNumber a) v d b.lower = ofNumber c ∧ 0 < c ∧ c ≤ a ∧
      AdmitsAbove tau c b.lower v d := by
  obtain ⟨e, rfl⟩ := isFinite_iff.mp hd
  cases hb : b.lower with
  | none => exact ⟨a, rfl, ha, le_refl _, nofun⟩
  | some l =>
    obtain ⟨hl, hfinite, hlt⟩ := hv.lower l hb
    obtain ⟨k, rfl⟩ := isFinite_iff.mp hl
    obtain ⟨x, rfl⟩ := isFinite_iff.mp hfinite
    obtain ⟨hpos, hle, hleft⟩ := cut_spec (e := e) htau ha (sub_pos.mpr (ofNumber_lt.mp hlt))
    refine ⟨_, ?_, hpos, hle, ?_⟩
    · simp only [lowerCut, zero_eq, lt_ofNumber]
      by_cases he : e < 0
      · simp only [he, decide_true, if_true, neg_ofNumber, sub_ofNumber, mul_ofNumber,
          div_ofNumber he.ne, min_ofNumber]
      · simp [he]
    · intro c x' e' k' hc hca hx he hk
      simp only [Option.some.injEq, ofNumber_inj] at hx he hk
      subst hx he hk
      have := hleft c hc hca
      linarith

theorem upperCut_spec (htau : 0 < tau) (ha : 0 < a) {b : Interval α} {v d : α}
    (hv : b.Encloses v) (hd : Scalar.isFinite d = true) :
    ∃ c, upperCut (ofNumber tau) (ofNumber a) v d b.upper = ofNumber c ∧ 0 < c ∧ c ≤ a ∧
      AdmitsBelow tau c b.upper v d := by
  obtain ⟨e, rfl⟩ := isFinite_iff.mp hd
  cases hb : b.upper with
  | none => exact ⟨a, rfl, ha, le_refl _, nofun⟩
  | some u =>
    obtain ⟨hu, hfinite, hlt⟩ := hv.upper u hb
    obtain ⟨k, rfl⟩ := isFinite_iff.mp hu
    obtain ⟨x, rfl⟩ := isFinite_iff.mp hfinite
    obtain ⟨hpos, hle, hleft⟩ := cut_spec (e := -e) htau ha (sub_pos.mpr (ofNumber_lt.mp hlt))
    refine ⟨_, ?_, hpos, hle, ?_⟩
    · simp only [upperCut, zero_eq, lt_ofNumber]
      by_cases he : 0 < e
      · simp only [he, decide_true, if_true, sub_ofNumber, mul_ofNumber, div_ofNumber he.ne',
          min_ofNumber, Left.neg_neg_iff, neg_mul, neg_div_neg_eq]
      · simp [he]
    · intro c x' e' k' hc hca hx he hk
      simp only [Option.some.injEq, ofNumber_inj] at hx he hk
      subst hx he hk
      have := hleft c hc hca
      linarith

theorem positiveCut_spec (htau : 0 < tau) (ha : 0 < a) {z d : α}
    (hz : Scalar.lt d 0 = true → ∃ x : K, z = ofNumber x ∧ 0 < x)
    (hd : Scalar.isFinite d = true) :
    ∃ c, positiveCut (ofNumber tau) (ofNumber a) z d = ofNumber c ∧ 0 < c ∧ c ≤ a ∧
      AdmitsPositive tau c z d := by
  obtain ⟨e, rfl⟩ := isFinite_iff.mp hd
  rw [zero_eq, lt_ofNumber, decide_eq_true_iff] at hz
  by_cases he : e < 0
  · obtain ⟨x, rfl, hx⟩ := hz he
    obtain ⟨hpos, hle, hleft⟩ := cut_spec (e := e) htau ha hx
    refine ⟨_, ?_, hpos, hle, ?_⟩
    · simp only [positiveCut, zero_eq, lt_ofNumber, he, decide_true, if_true, neg_ofNumber,
        mul_ofNumber, div_ofNumber he.ne, min_ofNumber]
    · intro c x' e' hc hca hx' he' _
      simp only [ofNumber_inj] at hx' he'
      subst hx' he'
      exact hleft c hc hca
  · refine ⟨a, ?_, ha, le_refl _, ?_⟩
    · simp [positiveCut, zero_eq, he]
    · intro c x e' hc _ _ he' hx
      rw [ofNumber_inj] at he'
      subst he'
      have hgain : 0 ≤ c * e := mul_nonneg hc (not_lt.mp he)
      have hused : 0 < tau * x := mul_pos htau hx
      linarith

omit [IsStrictOrderedRing K] in
/-- Cuts made one after the other. Each leaves what the earlier ones ensure. -/
theorem foldl_cut_spec {β : Type} {cut : α → β → α} {good : K → β → Prop} {xs : List β}
    (hmono : ∀ c a x, good a x → c ≤ a → good c x)
    (hcut : ∀ x ∈ xs, ∀ a, 0 < a → ∃ c, cut (ofNumber a) x = ofNumber c ∧ 0 < c ∧ c ≤ a ∧ good c x)
    (ha : 0 < a) :
    ∃ c, xs.foldl cut (ofNumber a) = ofNumber c ∧ 0 < c ∧ c ≤ a ∧ ∀ x ∈ xs, good c x := by
  induction xs generalizing a with
  | nil => exact ⟨a, rfl, ha, le_refl _, nofun⟩
  | cons x xs ih =>
    obtain ⟨b, hb, hbpos, hba, hgood⟩ := hcut x List.mem_cons_self a ha
    obtain ⟨c, hc, hcpos, hcb, hall⟩ := ih (fun y hy => hcut y (List.mem_cons_of_mem _ hy)) hbpos
    refine ⟨c, ?_, hcpos, hcb.trans hba, ?_⟩
    · rw [List.foldl_cons, hb, hc]
    · intro y hy
      rcases List.mem_cons.mp hy with rfl | hy
      · exact hmono _ _ _ hgood hcb
      · exact hall y hy

theorem stepToBounds_spec (htau : 0 < tau) {bounds : Array (Interval α)} {v dv : Array α}
    (h : ∀ t ∈ bounds.toList.zip (v.toList.zip dv.toList),
      t.1.Encloses t.2.1 ∧ Scalar.isFinite t.2.2 = true) :
    ∃ c, stepToBounds (ofNumber tau) bounds v dv = ofNumber c ∧ 0 < c ∧ c ≤ 1 ∧
      ∀ t ∈ bounds.toList.zip (v.toList.zip dv.toList),
        AdmitsAbove tau c t.1.lower t.2.1 t.2.2 ∧ AdmitsBelow tau c t.1.upper t.2.1 t.2.2 := by
  rw [stepToBounds_eq, one_eq]
  refine foldl_cut_spec (fun c a t hadmits hle => ⟨hadmits.1.mono hle, hadmits.2.mono hle⟩) ?_
    one_pos
  intro t ht a ha
  obtain ⟨hv, hd⟩ := h t ht
  obtain ⟨b, hb, hbpos, hba, habove⟩ := lowerCut_spec htau ha hv hd
  obtain ⟨c, hc, hcpos, hcb, hbelow⟩ := upperCut_spec htau hbpos hv hd
  exact ⟨c, by rw [hb, hc], hcpos, hcb.trans hba, habove.mono hcb, hbelow⟩

theorem stepNonneg_spec (htau : 0 < tau) {z dz : Array α}
    (h : ∀ t ∈ z.toList.zip dz.toList,
      (Scalar.lt t.2 0 = true → ∃ x : K, t.1 = ofNumber x ∧ 0 < x) ∧
        Scalar.isFinite t.2 = true) :
    ∃ c, stepNonneg (ofNumber tau) z dz = ofNumber c ∧ 0 < c ∧ c ≤ 1 ∧
      ∀ t ∈ z.toList.zip dz.toList, AdmitsPositive tau c t.1 t.2 := by
  rw [stepNonneg_eq, one_eq]
  refine foldl_cut_spec (fun c a t hadmits hle => hadmits.mono hle) ?_ one_pos
  intro t ht a ha
  exact positiveCut_spec htau ha (h t ht).1 (h t ht).2

end Barrier

end InteriorPoint

end NonlinearOpt
