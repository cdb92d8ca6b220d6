import NonlinearOpt.Vector
import Mathlib

namespace NonlinearOpt

variable {β γ δ : Type}

section Folds

theorem foldlM_cons_eq_some {f : δ → β → Option δ} {x : β} {xs : List β} {d d' : δ} :
    (x :: xs).foldlM f d = some d' ↔ ∃ e, f d x = some e ∧ xs.foldlM f e = some d' := by
  rw [List.foldlM_cons]
  exact Option.bind_eq_some_iff

theorem foldlM_invariant_taken {f : δ → β → Option δ} {P : List β → δ → Prop} {xs : List β}
    {d d' : δ} (hstart : P [] d)
    (hstep : ∀ taken x rest, taken ++ x :: rest = xs → ∀ d d', P taken d → f d x = some d' →
      P (taken ++ [x]) d')
    (hfold : xs.foldlM f d = some d') : P xs d' := by
  suffices hrun : ∀ rest taken d, taken ++ rest = xs → P taken d → rest.foldlM f d = some d' →
      P xs d' from hrun xs [] d rfl hstart hfold
  intro rest
  induction rest with
  | nil =>
    intro taken d hsplit htaken hfold
    cases hfold
    rwa [← hsplit, List.append_nil]
  | cons x rest ih =>
    intro taken d hsplit htaken hfold
    obtain ⟨e, hfirst, hrest⟩ := foldlM_cons_eq_some.mp hfold
    refine ih (taken ++ [x]) e ?_ (hstep taken x rest hsplit d e htaken hfirst) hrest
    rw [← hsplit, List.append_assoc, List.singleton_append]

theorem foldlM_invariant {f : δ → β → Option δ} {P : δ → Prop} {xs : List β} {d d' : δ}
    (hstart : P d) (hstep : ∀ x ∈ xs, ∀ d d', P d → f d x = some d' → P d')
    (hfold : xs.foldlM f d = some d') : P d' := by
  refine foldlM_invariant_taken (P := fun _ => P) hstart ?_ hfold
  intro taken x rest hsplit
  exact hstep x (hsplit ▸ List.mem_append_right _ List.mem_cons_self)

theorem exists_foldlM {f : δ → β → Option δ} {P : δ → Prop} {xs : List β} {d : δ}
    (hstart : P d) (hstep : ∀ x ∈ xs, ∀ d, P d → ∃ d', f d x = some d' ∧ P d') :
    ∃ d', xs.foldlM f d = some d' ∧ P d' := by
  induction xs generalizing d with
  | nil => exact ⟨d, rfl, hstart⟩
  | cons x xs ih =>
    obtain ⟨e, hfirst, he⟩ := hstep x (by simp) d hstart
    obtain ⟨d', hrest, hd'⟩ := ih he fun y hy => hstep y (by simp [hy])
    refine ⟨d', ?_, hd'⟩
    rw [List.foldlM_cons, hfirst]
    exact hrest

theorem foldlM_congr_of_mem {f g : δ → β → Option δ} {xs : List β}
    (hstep : ∀ x ∈ xs, ∀ d, f d x = g d x) (d : δ) : xs.foldlM f d = xs.foldlM g d := by
  induction xs generalizing d with
  | nil => rfl
  | cons x xs ih =>
    rw [List.foldlM_cons, List.foldlM_cons, hstep x (by simp) d]
    cases g d x with
    | none => rfl
    | some e => exact ih (fun y hy => hstep y (by simp [hy])) e

/-- Two folds over related lists stay related, and the second is defined where the first is. -/
theorem foldlM_parallel {β' δ' : Type} {f : δ → β → Option δ} {g : δ' → β' → Option δ'}
    {R : δ → δ' → Prop} {S : β → β' → Prop} {xs : List β} {ys : List β'} {d e : δ} {d' : δ'}
    (hxs : List.Forall₂ S xs ys) (hstart : R d d')
    (hstep : ∀ x y d d' e, S x y → R d d' → f d x = some e → ∃ e', g d' y = some e' ∧ R e e')
    (hfold : xs.foldlM f d = some e) : ∃ e', ys.foldlM g d' = some e' ∧ R e e' := by
  induction hxs generalizing d d' with
  | nil =>
    cases hfold
    exact ⟨d', rfl, hstart⟩
  | cons hxy _ ih =>
    obtain ⟨d₁, hfirst, hrest⟩ := foldlM_cons_eq_some.mp hfold
    obtain ⟨d₁', hfirst', hR⟩ := hstep _ _ _ _ _ hxy hstart hfirst
    obtain ⟨e', hrest', he⟩ := ih hR hrest
    exact ⟨e', foldlM_cons_eq_some.mpr ⟨d₁', hfirst', hrest'⟩, he⟩

theorem mapM_eq_some_iff {f : β → Option γ} {xs : List β} {ys : List γ} :
    xs.mapM f = some ys ↔ List.Forall₂ (fun x y => f x = some y) xs ys := by
  induction xs generalizing ys with
  | nil => simp [eq_comm]
  | cons x xs ih =>
    constructor
    · intro h
      rw [List.mapM_cons] at h
      obtain ⟨y, hy, h⟩ := Option.bind_eq_some_iff.mp h
      obtain ⟨ys', hys, h⟩ := Option.bind_eq_some_iff.mp h
      cases h
      exact .cons hy (ih.mp hys)
    · intro h
      cases h with
      | cons hy hys =>
        rw [List.mapM_cons, hy, ih.mpr hys]
        rfl

theorem exists_mapM {f : β → Option γ} {xs : List β} (h : ∀ x ∈ xs, ∃ y, f x = some y) :
    ∃ ys, xs.mapM f = some ys := by
  induction xs with
  | nil => exact ⟨[], rfl⟩
  | cons x xs ih =>
    obtain ⟨y, hy⟩ := h x (by simp)
    obtain ⟨ys, hys⟩ := ih fun x' hx' => h x' (by simp [hx'])
    exact ⟨y :: ys, mapM_eq_some_iff.mpr (.cons hy (mapM_eq_some_iff.mp hys))⟩

theorem length_of_mapM {f : β → Option γ} {xs : List β} {ys : List γ}
    (h : xs.mapM f = some ys) : ys.length = xs.length :=
  (mapM_eq_some_iff.mp h).length_eq.symm

theorem getElem?_of_mapM {f : β → Option γ} {xs : List β} {ys : List γ}
    (h : xs.mapM f = some ys) (i : Nat) : ys[i]? = xs[i]?.bind f := by
  have hall := mapM_eq_some_iff.mp h
  clear h
  induction hall generalizing i with
  | nil => simp
  | cons hy _ ih =>
    cases i with
    | zero => simp [hy]
    | succ i => simpa using ih i

theorem mem_of_mapM {f : β → Option γ} {xs : List β} {ys : List γ}
    (h : xs.mapM f = some ys) {y : γ} : y ∈ ys ↔ ∃ x ∈ xs, f x = some y := by
  rw [List.mem_iff_getElem?]
  constructor
  · rintro ⟨i, hi⟩
    rw [getElem?_of_mapM h] at hi
    obtain ⟨x, hx, hfx⟩ := Option.bind_eq_some_iff.mp hi
    exact ⟨x, List.mem_of_getElem? hx, hfx⟩
  · rintro ⟨x, hx, hfx⟩
    obtain ⟨i, hi⟩ := List.getElem?_of_mem hx
    exact ⟨i, by rw [getElem?_of_mapM h, hi, Option.bind_some, hfx]⟩

theorem exists_mem_of_mapM {f : β → Option γ} {xs : List β} {ys : List γ}
    (h : xs.mapM f = some ys) {x : β} (hx : x ∈ xs) : ∃ y ∈ ys, f x = some y := by
  obtain ⟨i, hi⟩ := List.getElem?_of_mem hx
  have hget := getElem?_of_mapM h i
  rw [hi, Option.bind_some] at hget
  have hlt : i < ys.length := by
    rw [length_of_mapM h]
    exact (List.getElem?_eq_some_iff.mp hi).1
  exact ⟨ys[i], List.getElem_mem hlt, by rw [← hget, List.getElem?_eq_getElem hlt]⟩

theorem mapM_concat_eq_some {f : β → Option γ} {xs : List β} {x : β} {ys : List γ} :
    (xs ++ [x]).mapM f = some ys ↔
      ∃ zs z, xs.mapM f = some zs ∧ f x = some z ∧ ys = zs ++ [z] := by
  rw [List.mapM_append]
  cases xs.mapM f with
  | none => simp
  | some zs =>
    cases hx : f x with
    | none => simp [hx]
    | some z => simp [hx, eq_comm]

theorem mapM_parallel {β' γ' : Type} {f : β → Option γ} {g : β' → Option γ'} {R : γ → γ' → Prop}
    {S : β → β' → Prop} {xs : List β} {xs' : List β'} {ys : List γ}
    (hxs : List.Forall₂ S xs xs') (h : xs.mapM f = some ys)
    (hstep : ∀ x x' y, S x x' → f x = some y → ∃ y', g x' = some y' ∧ R y y') :
    ∃ ys', xs'.mapM g = some ys' ∧ List.Forall₂ R ys ys' := by
  have hall := mapM_eq_some_iff.mp h
  clear h
  induction hxs generalizing ys with
  | nil =>
    cases hall
    exact ⟨[], rfl, .nil⟩
  | cons hxx' _ ih =>
    cases hall with
    | cons hxy hall =>
      obtain ⟨y', hy', hR⟩ := hstep _ _ _ hxx' hxy
      obtain ⟨ys', hys', hRs⟩ := ih hall
      refine ⟨y' :: ys', ?_, .cons hR hRs⟩
      rw [List.mapM_cons, hy', hys']
      rfl

theorem map_eq_of_forall₂ {f : β → δ} {g : γ → δ} {xs : List β} {ys : List γ}
    (h : List.Forall₂ (fun x y => f x = g y) xs ys) : xs.map f = ys.map g := by
  induction h with
  | nil => rfl
  | cons hxy _ ih => rw [List.map_cons, List.map_cons, hxy, ih]

theorem forall₂_zipIdx {R : β → γ → Prop} {xs : List β} {ys : List γ}
    (h : List.Forall₂ R xs ys) (k : Nat) :
    List.Forall₂ (fun x y => R x.1 y.1 ∧ x.2 = y.2) (xs.zipIdx k) (ys.zipIdx k) := by
  induction h generalizing k with
  | nil => exact .nil
  | cons hR _ ih => exact .cons ⟨hR, rfl⟩ (ih (k + 1))

theorem map_of_mapM {f : β → Option γ} {g : γ → β} {xs : List β} {ys : List γ}
    (h : xs.mapM f = some ys) (hg : ∀ x y, f x = some y → g y = x) : ys.map g = xs := by
  have hall := mapM_eq_some_iff.mp h
  clear h
  induction hall with
  | nil => rfl
  | cons hxy _ ih => rw [List.map_cons, hg _ _ hxy, ih]

theorem mapM_map_of_mem {f f' : β → Option γ} {g : γ → γ} {xs : List β} {ys : List γ}
    (h : xs.mapM f = some ys) (hstep : ∀ x, ∀ y ∈ ys, f x = some y → f' x = some (g y)) :
    xs.mapM f' = some (ys.map g) := by
  have hall := mapM_eq_some_iff.mp h
  clear h
  apply mapM_eq_some_iff.mpr
  induction hall with
  | nil => exact .nil
  | cons hxy _ ih =>
    exact .cons (hstep _ _ (by simp) hxy) (ih fun x y hy => hstep x y (by simp [hy]))

theorem zipIdx_take (xs : List β) (m : Nat) :
    (xs.take m).zipIdx = xs.zipIdx.take m := by
  apply List.ext_getElem?
  intro i
  rw [List.getElem?_zipIdx, List.getElem?_take, List.getElem?_take, List.getElem?_zipIdx]
  split <;> rfl

end Folds

section Arrays

theorem replace?_eq_some {xs ys : Array β} {i : Nat} {b : β} :
    replace? xs i b = some ys ↔ i < xs.size ∧ xs.setIfInBounds i b = ys := by
  unfold replace?
  split
  · next hi => simp [hi, Array.setIfInBounds]
  · next hi => simp [hi]

theorem isSome_replace? {xs : Array β} {i : Nat} {b : β} :
    (replace? xs i b).isSome ↔ i < xs.size := by
  unfold replace?
  split <;> simp_all

theorem exists_replace? (xs : Array β) {i : Nat} (b : β) (hi : i < xs.size) :
    ∃ ys, replace? xs i b = some ys ∧ ys.size = xs.size :=
  ⟨_, replace?_eq_some.mpr ⟨hi, rfl⟩, by simp⟩

theorem size_of_replace? {xs ys : Array β} {i : Nat} {b : β} (h : replace? xs i b = some ys) :
    ys.size = xs.size := by
  obtain ⟨-, rfl⟩ := replace?_eq_some.mp h
  simp

theorem getElem?_of_replace? {xs ys : Array β} {i : Nat} {b : β}
    (h : replace? xs i b = some ys) (j : Nat) : ys[j]? = if i = j then some b else xs[j]? := by
  obtain ⟨hi, rfl⟩ := replace?_eq_some.mp h
  rw [Array.getElem?_setIfInBounds]
  by_cases hij : i = j
  · subst hij
    simp [hi]
  · simp [hij]

theorem setIfInBounds_eq_self {xs : Array β} {i : Nat} {b : β} (h : xs[i]? = some b) :
    xs.setIfInBounds i b = xs := by
  apply Array.ext_getElem?
  intro j
  by_cases hij : i = j
  · subst hij
    rw [Array.getElem?_setIfInBounds_self_of_lt (Array.getElem?_eq_some_iff.mp h).1, h]
  · rw [Array.getElem?_setIfInBounds_ne hij]

variable {α : Type}

theorem modify?_eq_some {v w : Array α} {i : Nat} {f : α → α} :
    Vec.modify? v i f = some w ↔ ∃ x, v[i]? = some x ∧ replace? v i (f x) = some w := by
  unfold Vec.modify? replace?
  split
  · next hi => simp [hi]
  · next hi => simp [hi]

theorem isSome_modify? {v : Array α} {i : Nat} {f : α → α} :
    (Vec.modify? v i f).isSome ↔ i < v.size := by
  unfold Vec.modify?
  split <;> simp_all

theorem size_of_modify? {v w : Array α} {i : Nat} {f : α → α} (h : Vec.modify? v i f = some w) :
    w.size = v.size := by
  obtain ⟨x, -, hw⟩ := modify?_eq_some.mp h
  exact size_of_replace? hw

end Arrays

section Writes

variable (key : γ → Nat) (val : γ → β)

theorem size_foldl_set (ws : List γ) (xs : Array β) :
    (ws.foldl (fun xs w => xs.setIfInBounds (key w) (val w)) xs).size = xs.size := by
  induction ws generalizing xs with
  | nil => rfl
  | cons w ws ih => rw [List.foldl_cons, ih, Array.size_setIfInBounds]

theorem getElem?_foldl_set_of_ne {ws : List γ} {xs : Array β} {k : Nat}
    (hkey : ∀ w ∈ ws, key w ≠ k) :
    (ws.foldl (fun xs w => xs.setIfInBounds (key w) (val w)) xs)[k]? = xs[k]? := by
  induction ws generalizing xs with
  | nil => rfl
  | cons w ws ih =>
    rw [List.foldl_cons, ih fun w' hw' => hkey w' (by simp [hw'])]
    exact Array.getElem?_setIfInBounds_ne (hkey w (by simp))

theorem getElem?_foldl_set_of_agree {xs : Array β} {ws : List γ} {w : γ} (hw : w ∈ ws)
    (hagree : ∀ w' ∈ ws, key w' = key w → val w' = val w) (hbound : key w < xs.size) :
    (ws.foldl (fun xs w => xs.setIfInBounds (key w) (val w)) xs)[key w]? = some (val w) := by
  induction ws generalizing xs w with
  | nil => simp at hw
  | cons w' ws ih =>
    rw [List.foldl_cons]
    by_cases hlater : ∃ v ∈ ws, key v = key w
    · obtain ⟨v, hv, hkey⟩ := hlater
      have hval := hagree v (by simp [hv]) hkey
      rw [← hkey, ← hval]
      refine ih hv (fun v' hv' heq => ?_) (by simpa [hkey] using hbound)
      exact (hagree v' (by simp [hv']) (heq.trans hkey)).trans hval.symm
    · have hne : ∀ v ∈ ws, key v ≠ key w := fun v hv heq => hlater ⟨v, hv, heq⟩
      have hfirst : w = w' := (List.mem_cons.mp hw).resolve_right fun hmem => hne w hmem rfl
      subst hfirst
      rw [getElem?_foldl_set_of_ne key val hne, Array.getElem?_setIfInBounds_self_of_lt hbound]

theorem getElem?_foldl_set_of_mem (xs : Array β) {ws : List γ} {w : γ}
    (hnodup : (ws.map key).Nodup) (hw : w ∈ ws) (hbound : key w < xs.size) :
    (ws.foldl (fun xs w => xs.setIfInBounds (key w) (val w)) xs)[key w]? = some (val w) :=
  getElem?_foldl_set_of_agree key val hw
    (fun _ hw' heq => congrArg val (List.inj_on_of_nodup_map hnodup hw' hw heq)) hbound

theorem getElem?_foldl_set_of_last (xs : Array β) {ws : List γ} {i : Nat} {w : γ}
    (hw : ws[i]? = some w) (hlater : ∀ i' w', i < i' → ws[i']? = some w' → key w' ≠ key w)
    (hbound : key w < xs.size) :
    (ws.foldl (fun xs w => xs.setIfInBounds (key w) (val w)) xs)[key w]? = some (val w) := by
  obtain ⟨hi, hwi⟩ := List.getElem?_eq_some_iff.mp hw
  have hsplit : ws = ws.take i ++ w :: ws.drop (i + 1) := by
    rw [← hwi, List.cons_getElem_drop_succ, List.take_append_drop]
  have hrest : ∀ w' ∈ ws.drop (i + 1), key w' ≠ key w := by
    intro w' hw'
    obtain ⟨m, hm⟩ := List.getElem?_of_mem hw'
    rw [List.getElem?_drop] at hm
    exact hlater (i + 1 + m) w' (by omega) hm
  have hsize := size_foldl_set key val (ws.take i) xs
  rw [hsplit, List.foldl_append, List.foldl_cons, getElem?_foldl_set_of_ne key val hrest,
    Array.getElem?_setIfInBounds_self_of_lt (hsize ▸ hbound)]

theorem foldl_set_congr {ws : List γ} {xs ys : Array β} (hsize : xs.size = ys.size)
    (hagree : ∀ k, (∀ w ∈ ws, key w ≠ k) → xs[k]? = ys[k]?) :
    ws.foldl (fun xs w => xs.setIfInBounds (key w) (val w)) xs =
      ws.foldl (fun xs w => xs.setIfInBounds (key w) (val w)) ys := by
  induction ws generalizing xs ys with
  | nil => exact Array.ext_getElem? fun k => hagree k (by simp)
  | cons w ws ih =>
    rw [List.foldl_cons, List.foldl_cons]
    apply ih (by simpa using hsize)
    intro k hk
    rw [Array.getElem?_setIfInBounds, Array.getElem?_setIfInBounds, hsize]
    by_cases hw : key w = k
    · rw [if_pos hw, if_pos hw]
    · rw [if_neg hw, if_neg hw]
      apply hagree
      intro w' hw'
      rcases List.mem_cons.mp hw' with rfl | hw'
      · exact hw
      · exact hk w' hw'

end Writes

end NonlinearOpt
