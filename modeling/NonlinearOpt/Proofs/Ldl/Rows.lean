import NonlinearOpt.Proofs.Partial
import NonlinearOpt.Ldl.Numeric
import Mathlib

namespace NonlinearOpt

namespace Ldl

variable {α : Type} [Scalar α]

def loadAt? {α : Type} (k : Nat) (s : Array α × α) (e : Nat × α) : Option (Array α × α) :=
  if e.1 = k then some (s.1, e.2) else (replace? s.1 e.1 e.2).map (·, s.2)

theorem load?_eq (n k : Nat) (column : List (Nat × α)) :
    load? n k column = column.foldlM (loadAt? k) (Vec.zero n, 0) := by
  apply foldlM_congr_of_mem
  rintro ⟨i, v⟩ - ⟨y, d⟩
  unfold loadAt?
  by_cases hik : i = k
  · simp [hik]
  · simp [hik, Option.map_eq_bind]

def subtract? (column : List (Nat × α)) (y : α) (v : Array α) : Option (Array α) :=
  column.foldlM (fun v (i, l) => Vec.modify? v i (· - l * y)) v

theorem eliminate?_eq_some {k : Nat} {invDiag : Array α} {s s' : Pending α} {c : Nat} :
    eliminate? k invDiag s c = some s' ↔
      ∃ y column rest inv columns, s.rest[c]? = some y ∧ s.columns[c]? = some column ∧
        subtract? column.toList y s.rest = some rest ∧ invDiag[c]? = some inv ∧
        replace? s.columns c (column.push (k, y * inv)) = some columns ∧
        s' = { columns, rest, pivot := s.pivot - y * (y * inv) } := by
  constructor
  · intro h
    unfold eliminate? at h
    obtain ⟨y, hy, h⟩ := Option.bind_eq_some_iff.mp h
    obtain ⟨column, hcolumn, h⟩ := Option.bind_eq_some_iff.mp h
    obtain ⟨rest, hrest, h⟩ := Option.bind_eq_some_iff.mp h
    obtain ⟨inv, hinv, h⟩ := Option.bind_eq_some_iff.mp h
    obtain ⟨columns, hcolumns, h⟩ := Option.bind_eq_some_iff.mp h
    cases h
    rw [← Array.foldlM_toList] at hrest
    exact ⟨y, column, rest, inv, columns, hy, hcolumn, hrest, hinv, hcolumns, rfl⟩
  · rintro ⟨y, column, rest, inv, columns, hy, hcolumn, hrest, hinv, hcolumns, rfl⟩
    unfold eliminate?
    unfold subtract? at hrest
    rw [Array.foldlM_toList] at hrest
    simp only [hy, hcolumn, hrest, hinv, hcolumns, Option.bind_eq_bind, Option.bind_some,
      Option.pure_def]

def settle? (k : Nat) (s : Rows α) (p : Pending α) : Option PivotError → Option (Rows α)
  | some _ => do return { s with columns := p.columns, diag := ← replace? s.diag k p.pivot }
  | none => do
    return {
      columns := p.columns
      diag := ← replace? s.diag k p.pivot
      invDiag := ← replace? s.invDiag k (1 / p.pivot)
      positive := if Scalar.lt 0 p.pivot then s.positive + 1 else s.positive }

theorem settle?_sizes {k : Nat} {s s' : Rows α} {p : Pending α} {failure : Option PivotError}
    (h : settle? k s p failure = some s') :
    s'.columns = p.columns ∧ s'.diag.size = s.diag.size ∧ s'.invDiag.size = s.invDiag.size := by
  cases failure with
  | some e =>
    obtain ⟨diag, hdiag, h⟩ := Option.bind_eq_some_iff.mp h
    cases h
    exact ⟨rfl, size_of_replace? hdiag, rfl⟩
  | none =>
    obtain ⟨diag, hdiag, h⟩ := Option.bind_eq_some_iff.mp h
    obtain ⟨inv, hinv, h⟩ := Option.bind_eq_some_iff.mp h
    cases h
    exact ⟨rfl, size_of_replace? hdiag, size_of_replace? hinv⟩

theorem row?_eq_some {parent : Array (Option Nat)} {tolerance : α} {k : Nat}
    {column : List (Nat × α)} {s s' : Rows α} {failure : Option PivotError} :
    row? parent tolerance k column s = some (s', failure) ↔
      ∃ order y d p, reach? parent k (column.map (·.1)) = some order ∧
        load? parent.size k column = some (y, d) ∧
        order.foldlM (eliminate? k s.invDiag) ⟨s.columns, y, d⟩ = some p ∧
        checkPivot tolerance k p.pivot = failure ∧ settle? k s p failure = some s' := by
  constructor
  · intro h
    unfold row? at h
    obtain ⟨order, horder, h⟩ := Option.bind_eq_some_iff.mp h
    obtain ⟨⟨y, d⟩, hload, h⟩ := Option.bind_eq_some_iff.mp h
    obtain ⟨p, hp, h⟩ := Option.bind_eq_some_iff.mp h
    obtain ⟨diag, hdiag, h⟩ := Option.bind_eq_some_iff.mp h
    refine ⟨order, y, d, p, horder, hload, hp, ?_⟩
    cases hcheck : checkPivot tolerance k p.pivot with
    | some e =>
      simp only [hcheck] at h
      cases h
      refine ⟨rfl, ?_⟩
      simp [settle?, hdiag]
    | none =>
      simp only [hcheck] at h
      obtain ⟨inv, hinv, h⟩ := Option.bind_eq_some_iff.mp h
      cases h
      refine ⟨rfl, ?_⟩
      simp [settle?, hdiag, hinv]
  · rintro ⟨order, y, d, p, horder, hload, hp, hcheck, hsettle⟩
    unfold row?
    simp only [horder, hload, hp, Option.bind_eq_bind, Option.bind_some, hcheck]
    cases failure with
    | some e =>
      obtain ⟨diag, hdiag, h⟩ := Option.bind_eq_some_iff.mp hsettle
      cases h
      simp [hdiag]
    | none =>
      obtain ⟨diag, hdiag, h⟩ := Option.bind_eq_some_iff.mp hsettle
      obtain ⟨inv, hinv, h⟩ := Option.bind_eq_some_iff.mp h
      cases h
      simp [hdiag, hinv]

theorem rows?_cons_eq_some {parent : Array (Option Nat)} {tolerance : α} {k : Nat}
    {column : List (Nat × α)} {rest : List (List (Nat × α) × Nat)} {s s' : Rows α}
    {failure : Option PivotError} :
    rows? parent tolerance ((column, k) :: rest) s = some (s', failure) ↔
      (∃ mid, row? parent tolerance k column s = some (mid, none) ∧
        rows? parent tolerance rest mid = some (s', failure)) ∨
      ∃ e, row? parent tolerance k column s = some (s', some e) ∧ failure = some e := by
  rw [rows?]
  cases hrow : row? parent tolerance k column s with
  | none => simp
  | some result =>
    obtain ⟨mid, e⟩ := result
    cases e with
    | none => simp
    | some e =>
      simp only [Option.bind_eq_bind, Option.bind_some, Option.pure_def, Option.some.injEq,
        Prod.mk.injEq, reduceCtorEq, and_false, false_and, exists_false, false_or]
      constructor
      · rintro ⟨rfl, rfl⟩
        exact ⟨e, ⟨rfl, rfl⟩, rfl⟩
      · rintro ⟨e', ⟨rfl, rfl⟩, rfl⟩
        exact ⟨rfl, rfl⟩

end Ldl

end NonlinearOpt
