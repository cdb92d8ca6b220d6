import NonlinearOpt.Proofs.Ldl.Reach
import NonlinearOpt.Proofs.Ldl.Rows
import Mathlib

/-!
What the numeric phase takes from its numbers. Once a matrix was factored, every matrix of the same
pattern runs through the same steps, up to its first bad pivot.
-/

namespace NonlinearOpt

namespace Ldl

section Lists

variable {β γ δ : Type}

theorem forall₂_of_map_eq {f : β → δ} {g : γ → δ} {xs : List β} {ys : List γ}
    (h : xs.map f = ys.map g) : List.Forall₂ (fun x y => f x = g y) xs ys := by
  induction xs generalizing ys with
  | nil =>
    cases ys with
    | nil => exact .nil
    | cons y ys => cases h
  | cons x xs ih =>
    cases ys with
    | nil => cases h
    | cons y ys =>
      rw [List.map_cons, List.map_cons, List.cons.injEq] at h
      exact .cons h.1 (ih h.2)

theorem replace?_alike {xs ys : Array β} {xs' : Array γ} {i : Nat} {b : β}
    (h : replace? xs i b = some ys) (hsize : xs.size = xs'.size) (c : γ) :
    ∃ ys', replace? xs' i c = some ys' ∧ ys.size = ys'.size := by
  obtain ⟨hi, -⟩ := replace?_eq_some.mp h
  have hdefined : (replace? xs' i c).isSome := isSome_replace?.mpr (by omega)
  obtain ⟨ys', hys'⟩ := Option.isSome_iff_exists.mp hdefined
  refine ⟨ys', hys', ?_⟩
  rw [size_of_replace? h, size_of_replace? hys', hsize]

end Lists

variable {α : Type} [Scalar α]

def pattern (columns : Array (Array (Nat × α))) : Array (Array Nat) :=
  columns.map (Array.map Prod.fst)

section Steps

omit [Scalar α] in
theorem size_of_pattern {columns columns' : Array (Array (Nat × α))}
    (h : pattern columns = pattern columns') : columns.size = columns'.size := by
  have := congrArg Array.size h
  simpa [pattern] using this

omit [Scalar α] in
theorem column_of_pattern {columns columns' : Array (Array (Nat × α))}
    (h : pattern columns = pattern columns') {c : Nat} {column : Array (Nat × α)}
    (hc : columns[c]? = some column) :
    ∃ column', columns'[c]? = some column' ∧ column'.map Prod.fst = column.map Prod.fst := by
  have hget : (pattern columns')[c]? = some (column.map Prod.fst) := by
    rw [← h]
    simp [pattern, hc]
  unfold pattern at hget
  rw [Array.getElem?_map, Option.map_eq_some_iff] at hget
  exact hget

omit [Scalar α] in
theorem modify?_alike {v w v' : Array α} {i : Nat} {f : α → α}
    (h : Vec.modify? v i f = some w) (hsize : v.size = v'.size) (g : α → α) :
    ∃ w', Vec.modify? v' i g = some w' ∧ w.size = w'.size := by
  have hdefined : (Vec.modify? v' i g).isSome := by
    rw [isSome_modify?, ← hsize, ← isSome_modify? (f := f), h]
    rfl
  obtain ⟨w', hw'⟩ := Option.isSome_iff_exists.mp hdefined
  refine ⟨w', hw', ?_⟩
  rw [size_of_modify? h, size_of_modify? hw', hsize]

theorem subtract?_alike {column column' : List (Nat × α)} {x : α} {v w v' : Array α}
    (h : subtract? column x v = some w) (hrows : column.map Prod.fst = column'.map Prod.fst)
    (hsize : v.size = v'.size) (y : α) :
    ∃ w', subtract? column' y v' = some w' ∧ w.size = w'.size := by
  have hstep : ∀ (e e' : Nat × α) (v v' w : Array α), e.1 = e'.1 → v.size = v'.size →
      Vec.modify? v e.1 (· - e.2 * x) = some w →
      ∃ w', Vec.modify? v' e'.1 (· - e'.2 * y) = some w' ∧ w.size = w'.size := by
    intro e e' v v' w he hv hw
    rw [← he]
    exact modify?_alike hw hv (· - e'.2 * y)
  exact foldlM_parallel (R := fun v v' : Array α => v.size = v'.size) (forall₂_of_map_eq hrows)
    hsize hstep h

theorem load?_alike {n k : Nat} {column column' : List (Nat × α)} {y : Array α} {d : α}
    (h : load? n k column = some (y, d))
    (hrows : column.map Prod.fst = column'.map Prod.fst) :
    ∃ y' d', load? n k column' = some (y', d') ∧ y.size = y'.size := by
  have hrun := foldlM_parallel (g := fun (s : Array α × α) (e : Nat × α) => do
      if e.1 = k then return (s.1, e.2) else return (← replace? s.1 e.1 e.2, s.2))
    (R := fun s s' : Array α × α => s.1.size = s'.1.size) (forall₂_of_map_eq hrows)
    (show (Vec.zero n, (0 : α)).1.size = (Vec.zero n, (0 : α)).1.size from rfl) ?_ h
  · obtain ⟨⟨y', d'⟩, hy', hsize⟩ := hrun
    exact ⟨y', d', hy', hsize⟩
  · intro e e' s s' t he hs ht
    simp only at ht ⊢
    rw [← he]
    split at ht
    · next hk =>
      cases ht
      exact ⟨(s'.1, e'.2), by rw [if_pos hk]; rfl, hs⟩
    · next hk =>
      obtain ⟨w, hw, ht⟩ := Option.bind_eq_some_iff.mp ht
      cases ht
      obtain ⟨w', hw', hsize⟩ := replace?_alike hw hs e'.2
      refine ⟨(w', s'.2), ?_, hsize⟩
      rw [if_neg hk, hw']
      rfl

structure PendingAlike (s t : Pending α) : Prop where
  columns : pattern s.columns = pattern t.columns
  rest : s.rest.size = t.rest.size

theorem eliminate?_alike {k : Nat} {invDiag invDiag' : Array α} {s s' t : Pending α} {c : Nat}
    (h : eliminate? k invDiag s c = some s') (halike : PendingAlike s t)
    (hinv : invDiag.size = invDiag'.size) :
    ∃ t', eliminate? k invDiag' t c = some t' ∧ PendingAlike s' t' := by
  obtain ⟨y, column, rest, inv, columns, hy, hcolumn, hrest, hc, hcolumns, rfl⟩ :=
    eliminate?_eq_some.mp h
  have hyt : c < t.rest.size := by
    rw [← halike.rest]
    exact (Array.getElem?_eq_some_iff.mp hy).1
  have hct : c < invDiag'.size := by
    rw [← hinv]
    exact (Array.getElem?_eq_some_iff.mp hc).1
  obtain ⟨column', hcolumn', hrows⟩ := column_of_pattern halike.columns hcolumn
  have hrows' : column.toList.map Prod.fst = column'.toList.map Prod.fst := by
    rw [← Array.toList_map, ← Array.toList_map, hrows]
  obtain ⟨rest', hrest', hsize⟩ := subtract?_alike hrest hrows' halike.rest t.rest[c]
  obtain ⟨columns', hcolumns', -⟩ := replace?_alike hcolumns (size_of_pattern halike.columns)
    (column'.push (k, t.rest[c] * invDiag'[c]))
  refine ⟨⟨columns', rest', t.pivot - t.rest[c] * (t.rest[c] * invDiag'[c])⟩, ?_, ?_, hsize⟩
  · exact eliminate?_eq_some.mpr ⟨t.rest[c], column', rest', invDiag'[c], columns',
      Array.getElem?_eq_getElem hyt, hcolumn', hrest', Array.getElem?_eq_getElem hct, hcolumns',
      rfl⟩
  · obtain ⟨-, rfl⟩ := replace?_eq_some.mp hcolumns
    obtain ⟨-, rfl⟩ := replace?_eq_some.mp hcolumns'
    have hpattern := halike.columns
    unfold pattern at hpattern ⊢
    rw [Array.map_setIfInBounds, Array.map_setIfInBounds, hpattern, Array.map_push,
      Array.map_push, hrows]

end Steps

structure Alike (s t : Rows α) : Prop where
  columns : pattern s.columns = pattern t.columns
  diag : s.diag.size = t.diag.size
  invDiag : s.invDiag.size = t.invDiag.size

theorem settle?_alike {k : Nat} {s s' t : Rows α} {p q : Pending α}
    (h : settle? k s p none = some s') (halike : Alike s t) (hpq : PendingAlike p q)
    (failure : Option PivotError) : ∃ t', settle? k t q failure = some t' ∧ Alike s' t' := by
  obtain ⟨diag, hdiag, h⟩ := Option.bind_eq_some_iff.mp h
  obtain ⟨inv, hinv, h⟩ := Option.bind_eq_some_iff.mp h
  cases h
  obtain ⟨diag', hdiag', hdiagSize⟩ := replace?_alike hdiag halike.diag q.pivot
  obtain ⟨inv', hinv', hinvSize⟩ := replace?_alike hinv halike.invDiag (1 / q.pivot)
  cases failure with
  | some e =>
    refine ⟨{ t with columns := q.columns, diag := diag' }, ?_, hpq.columns, hdiagSize, ?_⟩
    · rw [settle?, hdiag']
      rfl
    · rw [size_of_replace? hinv]
      exact halike.invDiag
  | none =>
    refine ⟨⟨q.columns, diag', inv', if Scalar.lt 0 q.pivot then t.positive + 1 else t.positive⟩,
      ?_, hpq.columns, hdiagSize, hinvSize⟩
    rw [settle?, hdiag', hinv']
    rfl

theorem row?_alike {parent : Array (Option Nat)} {tolerance : α} {k : Nat}
    {column column' : List (Nat × α)} {s s' t : Rows α}
    (h : row? parent tolerance k column s = some (s', none)) (halike : Alike s t)
    (hrows : column.map Prod.fst = column'.map Prod.fst) :
    ∃ t' failure, row? parent tolerance k column' t = some (t', failure) ∧ Alike s' t' := by
  obtain ⟨order, y, d, p, horder, hload, hp, -, hsettle⟩ := row?_eq_some.mp h
  obtain ⟨y', d', hload', hsize⟩ := load?_alike hload hrows
  have hstart : PendingAlike ⟨s.columns, y, d⟩ ⟨t.columns, y', d'⟩ := ⟨halike.columns, hsize⟩
  obtain ⟨q, hq, hpq⟩ := foldlM_parallel (g := eliminate? k t.invDiag)
    (List.forall₂_same.mpr fun c _ => rfl) hstart
    (fun c c' s t s' hc hst hs => hc ▸ eliminate?_alike hs hst halike.invDiag) hp
  obtain ⟨t', ht', halike'⟩ :=
    settle?_alike hsettle halike hpq (checkPivot tolerance k q.pivot)
  refine ⟨t', checkPivot tolerance k q.pivot, ?_, halike'⟩
  apply row?_eq_some.mpr
  exact ⟨order, y', d', q, hrows ▸ horder, hload', hq, rfl, ht'⟩

structure Within (columns columns' : Array (Array (Nat × α))) : Prop where
  size : columns.size = columns'.size
  column : ∀ (c : Nat) column, columns[c]? = some column →
    ∃ column', columns'[c]? = some column' ∧ column.size ≤ column'.size

section Growth

omit [Scalar α] in
theorem Within.trans {l m r : Array (Array (Nat × α))} (hlm : Within l m) (hmr : Within m r) :
    Within l r := by
  refine ⟨hlm.size.trans hmr.size, ?_⟩
  intro c column hc
  obtain ⟨column', hc', hle⟩ := hlm.column c column hc
  obtain ⟨column'', hc'', hle'⟩ := hmr.column c column' hc'
  exact ⟨column'', hc'', hle.trans hle'⟩

omit [Scalar α] in
theorem Within.refl (columns : Array (Array (Nat × α))) : Within columns columns :=
  ⟨rfl, fun _ column hc => ⟨column, hc, Nat.le_refl _⟩⟩

omit [Scalar α] in
theorem within_of_pattern {columns columns' : Array (Array (Nat × α))}
    (h : pattern columns = pattern columns') : Within columns columns' := by
  refine ⟨size_of_pattern h, ?_⟩
  intro c column hc
  obtain ⟨column', hc', hrows⟩ := column_of_pattern h hc
  refine ⟨column', hc', ?_⟩
  have := congrArg Array.size hrows
  simp only [Array.size_map] at this
  omega

theorem eliminate?_within {k : Nat} {invDiag : Array α} {s s' : Pending α} {c : Nat}
    (h : eliminate? k invDiag s c = some s') : Within s.columns s'.columns := by
  obtain ⟨y, column, rest, inv, columns, -, hcolumn, -, -, hcolumns, rfl⟩ :=
    eliminate?_eq_some.mp h
  refine ⟨(size_of_replace? hcolumns).symm, ?_⟩
  intro d column' hd
  by_cases hcd : c = d
  · subst hcd
    rw [hcolumn] at hd
    cases hd
    refine ⟨column.push (k, y * inv), ?_, by simp⟩
    rw [getElem?_of_replace? hcolumns, if_pos rfl]
  · refine ⟨column', ?_, Nat.le_refl _⟩
    rw [getElem?_of_replace? hcolumns, if_neg hcd]
    exact hd

structure Grows (s s' : Rows α) : Prop where
  columns : Within s.columns s'.columns
  invDiag : s.invDiag.size = s'.invDiag.size

theorem row?_grows {parent : Array (Option Nat)} {tolerance : α} {k : Nat}
    {column : List (Nat × α)} {s s' : Rows α} {failure : Option PivotError}
    (h : row? parent tolerance k column s = some (s', failure)) : Grows s s' := by
  obtain ⟨order, y, d, p, -, -, hp, -, hsettle⟩ := row?_eq_some.mp h
  obtain ⟨hcolumns, -, hinv⟩ := settle?_sizes hsettle
  refine ⟨?_, hinv.symm⟩
  rw [hcolumns]
  apply foldlM_invariant (P := fun q => Within s.columns q.columns) (Within.refl _) _ hp
  intro c _ q q' hq hstep
  exact hq.trans (eliminate?_within hstep)

theorem rows?_grows {parent : Array (Option Nat)} {tolerance : α}
    {list : List (List (Nat × α) × Nat)} {s s' : Rows α} {failure : Option PivotError}
    (h : rows? parent tolerance list s = some (s', failure)) : Grows s s' := by
  induction list generalizing s with
  | nil =>
    cases h
    exact ⟨Within.refl _, rfl⟩
  | cons item list ih =>
    rcases rows?_cons_eq_some.mp h with ⟨mid, hrow, hrest⟩ | ⟨e, hrow, -⟩
    · have hfirst := row?_grows hrow
      have hlast := ih hrest
      exact ⟨hfirst.columns.trans hlast.columns, hfirst.invDiag.trans hlast.invDiag⟩
    · exact row?_grows hrow

end Growth

/-- A matrix with the pattern of a matrix that could be factored has a run of the numeric phase. It
fills the same columns, or stops on the way. -/
theorem rows?_replay {parent : Array (Option Nat)} {tolerance : α}
    {list list' : List (List (Nat × α) × Nat)} {s s' t : Rows α}
    (hlist : List.Forall₂ (fun x x' => x.1.map Prod.fst = x'.1.map Prod.fst ∧ x.2 = x'.2)
      list list')
    (h : rows? parent tolerance list s = some (s', none)) (halike : Alike s t) :
    ∃ t' failure, rows? parent tolerance list' t = some (t', failure) ∧
      Within t'.columns s'.columns ∧ t'.invDiag.size = s'.invDiag.size ∧
      (failure = none → Alike s' t') := by
  induction hlist generalizing s t with
  | nil =>
    cases h
    exact ⟨t, none, rfl, within_of_pattern halike.columns.symm, halike.invDiag.symm,
      fun _ => halike⟩
  | @cons item item' list list' hitem hlist ih =>
    obtain ⟨column, k⟩ := item
    obtain ⟨column', k'⟩ := item'
    obtain ⟨hrows, rfl⟩ := hitem
    rcases rows?_cons_eq_some.mp h with ⟨mid, hrow, hrest⟩ | ⟨e, -, hnone⟩
    · obtain ⟨mid', failure, hrow', hmid⟩ := row?_alike hrow halike hrows
      cases failure with
      | none =>
        obtain ⟨t', failure, hrest', hwithin, hsize, hdone⟩ := ih hrest hmid
        exact ⟨t', failure, rows?_cons_eq_some.mpr (.inl ⟨mid', hrow', hrest'⟩), hwithin, hsize,
          hdone⟩
      | some e =>
        refine ⟨mid', some e, rows?_cons_eq_some.mpr (.inr ⟨e, hrow', rfl⟩), ?_, ?_, nofun⟩
        · exact (within_of_pattern hmid.columns.symm).trans (rows?_grows hrest).columns
        · exact hmid.invDiag.symm.trans (rows?_grows hrest).invDiag
    · cases hnone

section InverseDiagonal

structure SameUpTo (k : Nat) (s t : Rows α) : Prop where
  columns : s.columns = t.columns
  diag : s.diag = t.diag
  positive : s.positive = t.positive
  size : s.invDiag.size = t.invDiag.size
  invDiag : ∀ c < k, s.invDiag[c]? = t.invDiag[c]?

omit [Scalar α] in
theorem SameUpTo.eq {k : Nat} {s t : Rows α} (h : SameUpTo k s t) (hk : s.invDiag.size ≤ k) :
    s = t := by
  have hinv : s.invDiag = t.invDiag := by
    apply Array.ext_getElem?
    intro c
    by_cases hc : c < k
    · exact h.invDiag c hc
    · have := h.size
      rw [Array.getElem?_eq_none (by omega), Array.getElem?_eq_none (by omega)]
  cases s
  cases t
  rw [Rows.mk.injEq]
  exact ⟨h.columns, h.diag, hinv, h.positive⟩

theorem eliminate?_congr {k : Nat} {invDiag invDiag' : Array α} {s : Pending α} {c : Nat}
    (hinv : invDiag[c]? = invDiag'[c]?) :
    eliminate? k invDiag s c = eliminate? k invDiag' s c := by
  unfold eliminate?
  rw [hinv]

theorem row?_sameUpTo {parent : Array (Option Nat)} {tolerance : α} {k : Nat}
    {column : List (Nat × α)} {s s' t : Rows α} {failure : Option PivotError}
    (h : row? parent tolerance k column s = some (s', failure))
    (hcolumn : ∀ e ∈ column, e.1 ≤ k) (hst : SameUpTo k s t) :
    ∃ t', row? parent tolerance k column t = some (t', failure) ∧ SameUpTo k s' t' ∧
      (failure = none → SameUpTo (k + 1) s' t') := by
  obtain ⟨order, y, d, p, horder, hload, hp, hcheck, hsettle⟩ := row?_eq_some.mp h
  have hlt := reach?_lt horder (List.forall_mem_map.mpr hcolumn)
  have hcongr : ∀ c ∈ order, ∀ q : Pending α,
      eliminate? k s.invDiag q c = eliminate? k t.invDiag q c :=
    fun c hc q => eliminate?_congr (hst.invDiag c (hlt c hc))
  rw [foldlM_congr_of_mem hcongr, hst.columns] at hp
  cases failure with
  | some e =>
    obtain ⟨diag, hdiag, hsettle⟩ := Option.bind_eq_some_iff.mp hsettle
    cases hsettle
    refine ⟨{ t with columns := p.columns, diag }, ?_, ⟨rfl, rfl, hst.positive, hst.size,
      hst.invDiag⟩, nofun⟩
    apply row?_eq_some.mpr
    refine ⟨order, y, d, p, horder, hload, hp, hcheck, ?_⟩
    rw [settle?, ← hst.diag, hdiag]
    rfl
  | none =>
    obtain ⟨diag, hdiag, hsettle⟩ := Option.bind_eq_some_iff.mp hsettle
    obtain ⟨inv, hinv, hsettle⟩ := Option.bind_eq_some_iff.mp hsettle
    cases hsettle
    obtain ⟨inv', hinv', hsize⟩ := replace?_alike hinv hst.size (1 / p.pivot)
    have hnext : ∀ c < k + 1, inv[c]? = inv'[c]? := by
      intro c hc
      rw [getElem?_of_replace? hinv, getElem?_of_replace? hinv']
      by_cases hkc : k = c
      · rw [if_pos hkc, if_pos hkc]
      · rw [if_neg hkc, if_neg hkc]
        exact hst.invDiag c (by omega)
    have hpositive : (if Scalar.lt 0 p.pivot then s.positive + 1 else s.positive) =
        if Scalar.lt 0 p.pivot then t.positive + 1 else t.positive := by
      rw [hst.positive]
    refine ⟨⟨p.columns, diag, inv', if Scalar.lt 0 p.pivot then t.positive + 1 else t.positive⟩,
      ?_, ⟨rfl, rfl, hpositive, hsize, fun c hc => hnext c (by omega)⟩,
      fun _ => ⟨rfl, rfl, hpositive, hsize, hnext⟩⟩
    apply row?_eq_some.mpr
    refine ⟨order, y, d, p, horder, hload, hp, hcheck, ?_⟩
    rw [settle?, ← hst.diag, hdiag, hinv']
    rfl

theorem rows?_sameUpTo {parent : Array (Option Nat)} {tolerance : α}
    {columns : List (List (Nat × α))} {k : Nat} {s s' t : Rows α} {failure : Option PivotError}
    (h : rows? parent tolerance (columns.zipIdx k) s = some (s', failure))
    (hcolumns : ∀ item ∈ columns.zipIdx k, ∀ e ∈ item.1, e.1 ≤ item.2) (hst : SameUpTo k s t) :
    ∃ t', rows? parent tolerance (columns.zipIdx k) t = some (t', failure) ∧
      SameUpTo k s' t' ∧ (failure = none → SameUpTo (k + columns.length) s' t') := by
  induction columns generalizing k s t with
  | nil =>
    cases h
    exact ⟨t, rfl, hst, fun _ => hst⟩
  | cons column columns ih =>
    rw [List.zipIdx_cons] at h hcolumns ⊢
    have hhead : ∀ e ∈ column, e.1 ≤ k := hcolumns (column, k) (by simp)
    rcases rows?_cons_eq_some.mp h with ⟨mid, hrow, hrest⟩ | ⟨e, hrow, rfl⟩
    · obtain ⟨mid', hrow', -, hnext⟩ := row?_sameUpTo hrow hhead hst
      have htail : ∀ item ∈ columns.zipIdx (k + 1), ∀ e ∈ item.1, e.1 ≤ item.2 :=
        fun item hitem => hcolumns item (by simp [hitem])
      obtain ⟨t', hrest', hsame, hdone⟩ := ih hrest htail (hnext rfl)
      refine ⟨t', rows?_cons_eq_some.mpr (.inl ⟨mid', hrow', hrest'⟩), ?_, ?_⟩
      · exact { hsame with invDiag := fun c hc => hsame.invDiag c (by omega) }
      · intro hfailure
        have := hdone hfailure
        rwa [List.length_cons, Nat.add_comm columns.length 1, ← Nat.add_assoc]
    · obtain ⟨t', hrow', hsame, -⟩ := row?_sameUpTo hrow hhead hst
      exact ⟨t', rows?_cons_eq_some.mpr (.inr ⟨e, hrow', rfl⟩), hsame, nofun⟩

end InverseDiagonal

end Ldl

end NonlinearOpt
