import NonlinearOpt.Proofs.Ldl.Replay
import NonlinearOpt.Proofs.Sparse.Permute
import NonlinearOpt.Ldl.Factorization
import Mathlib

/-!
A factorization is made in two parts. The analysis looks at the pattern of a matrix only, and its
result can be factored again for all values that the matrix may have.
-/

namespace NonlinearOpt

namespace Ldl

namespace Factorization

variable {α : Type} [Scalar α]

section Phases

def blank (n : Nat) (order : Array Nat) (permuted : Permuted α) (symbolic : Symbolic)
    (tolerance : α) : Factorization α :=
  let size := symbolic.count.foldl (· + ·) 0
  { order, permuted, symbolic
    lower := ⟨n, n, cumulative symbolic.count, Array.replicate size 0, Vec.zero size⟩
    diag := Vec.zero n, invDiag := Vec.zero n, positive := 0, negative := 0
    tolerance }

def analyze? (a : Csc α) (options : Options α) : Option (Except Error (Factorization α)) := do
  match ← checkStructure? a with
  | .error e => return .error e
  | .ok () =>
    match orderOf a options with
    | .error e => return .error e
    | .ok (order, inverse) =>
      let permuted ← a.permuteSymmetric? inverse
      let symbolic ← Symbolic.ofColumns? (← (List.range a.rows).mapM permuted.matrix.rowsOf?)
      return .ok (blank a.rows order permuted symbolic options.tolerance)

def completed : Except Error Unit × Factorization α → Except Error (Factorization α)
  | (.ok (), f) => .ok f
  | (.error e, _) => .error e

def complete? : Except Error (Factorization α) → Option (Except Error (Factorization α))
  | .error e => some (.error e)
  | .ok blank => blank.refactor?.map completed

theorem new?_eq (a : Csc α) (options : Options α) :
    new? a options = (analyze? a options).bind complete? := by
  unfold new? analyze?
  cases checkStructure? a with
  | none => rfl
  | some check =>
    cases check with
    | error e => rfl
    | ok _ =>
      simp only [Option.bind_eq_bind, Option.bind_some]
      cases orderOf a options with
      | error e => rfl
      | ok pair =>
        simp only
        cases a.permuteSymmetric? pair.2 with
        | none => rfl
        | some permuted =>
          simp only [Option.bind_some]
          cases (List.range a.rows).mapM permuted.matrix.rowsOf? with
          | none => rfl
          | some rows =>
            simp only [Option.bind_some]
            cases Symbolic.ofColumns? rows with
            | none => rfl
            | some symbolic =>
              simp only [Option.bind_some, Option.pure_def, complete?, Option.map_eq_bind]
              apply congrArg
              funext pair
              obtain ⟨result, f⟩ := pair
              cases result <;> rfl

theorem analyze?_eq_ok {a : Csc α} {options : Options α} {e : Factorization α} :
    analyze? a options = some (.ok e) ↔
      checkStructure? a = some (.ok ()) ∧ ∃ order inverse permuted rows symbolic,
        orderOf a options = .ok (order, inverse) ∧
        a.permuteSymmetric? inverse = some permuted ∧
        (List.range a.rows).mapM permuted.matrix.rowsOf? = some rows ∧
        Symbolic.ofColumns? rows = some symbolic ∧
        e = blank a.rows order permuted symbolic options.tolerance := by
  constructor
  · intro h
    unfold analyze? at h
    obtain ⟨check, hcheck, h⟩ := Option.bind_eq_some_iff.mp h
    cases check with
    | error e => cases h
    | ok _ =>
      simp only at h
      cases horder : orderOf a options with
      | error e =>
        rw [horder] at h
        cases h
      | ok pair =>
        rw [horder] at h
        obtain ⟨permuted, hpermuted, h⟩ := Option.bind_eq_some_iff.mp h
        obtain ⟨rows, hrows, h⟩ := Option.bind_eq_some_iff.mp h
        obtain ⟨symbolic, hsymbolic, h⟩ := Option.bind_eq_some_iff.mp h
        cases h
        exact ⟨hcheck, pair.1, pair.2, permuted, rows, symbolic, rfl, hpermuted, hrows, hsymbolic,
          rfl⟩
  · rintro ⟨hcheck, order, inverse, permuted, rows, symbolic, horder, hpermuted, hrows,
      hsymbolic, rfl⟩
    unfold analyze?
    simp only [hcheck, horder, hpermuted, hrows, hsymbolic, Option.bind_eq_bind,
      Option.bind_some, Option.pure_def]

omit [Scalar α] in
theorem orderOf_of_find? {a : Csc α} {options : Options α} {found : Array Nat × Array Nat}
    (horder : options.order = none)
    (h : options.ordering.find? options.denseScale a.rows a.colStart a.rowIndex = some found) :
    orderOf a options = .ok found := by
  rw [orderOf, horder]
  simp only [h]

omit [Scalar α] in
/-- An order comes with its inverse, whether it was asked for or found. -/
theorem inverse?_of_orderOf {a : Csc α} {options : Options α} {order inverse : Array Nat}
    (h : orderOf a options = .ok (order, inverse)) :
    Permutation.inverse? order = some inverse := by
  unfold orderOf at h
  cases hauto : options.order with
  | some p =>
    rw [hauto] at h
    simp only at h
    cases hp : Permutation.inverse? p with
    | none =>
      rw [hp] at h
      cases h
    | some q =>
      rw [hp] at h
      cases h
      exact hp
  | none =>
    rw [hauto] at h
    simp only at h
    split at h
    · next hfound =>
      cases h
      exact (options.ordering.inverse_of_find? hfound).2
    · cases h

omit [Scalar α] in
theorem orderOf_ordered {a : Csc α} {options : Options α} {order inverse : Array Nat}
    (horder : options.order = some order) (hinverse : Permutation.inverse? order = some inverse) :
    orderOf a options = .ok (order, inverse) := by
  simp only [orderOf, horder, hinverse]

omit [Scalar α] in
theorem isUpper?_revalue (a : Csc α) (vs : Array α) :
    ({ a with values := vs }).isUpper? = a.isUpper? := by
  have hgo : ∀ js : List Nat,
      Csc.isUpper?.go { a with values := vs } js = Csc.isUpper?.go a js := by
    intro js
    induction js with
    | nil => rfl
    | cons j js ih =>
      rw [Csc.isUpper?.go, Csc.isUpper?.go, ih]
      rfl
  exact hgo (List.range a.cols)

omit [Scalar α] in
theorem checkStructure?_revalue (a : Csc α) (vs : Array α) :
    checkStructure? { a with values := vs } = checkStructure? a := by
  unfold checkStructure?
  rw [isUpper?_revalue]
  rfl

omit [Scalar α] in
theorem checkStructure?_ok {a : Csc α} (h : checkStructure? a = some (.ok ())) :
    a.rows = a.cols ∧ a.isUpper? = some true := by
  unfold checkStructure? at h
  split at h
  · cases h
  · next hsquare =>
    obtain ⟨upper, hupper, h⟩ := Option.bind_eq_some_iff.mp h
    refine ⟨by simpa [Csc.isSquare] using hsquare, ?_⟩
    cases upper with
    | true => exact hupper
    | false => cases h

/-- The analysis of a matrix serves all matrices with the same pattern. -/
theorem analyze?_revalue {a : Csc α} {options : Options α} {e : Factorization α}
    (h : analyze? a options = some (.ok e)) {vs old : Array α}
    (hvs : vs.size = e.permuted.position.size)
    (hold : old.size = e.permuted.matrix.values.size) :
    analyze? { a with values := vs } options = some (.ok { e with
      permuted := { e.permuted with
        matrix := { e.permuted.matrix with
          values := (e.permuted.position.toList.zip vs.toList).foldl
            (fun vs (k, v) => vs.setIfInBounds k v) old } } }) := by
  obtain ⟨hcheck, order, inverse, permuted, rows, symbolic, horder, hpermuted, hrows, hsymbolic,
    rfl⟩ := analyze?_eq_ok.mp h
  apply analyze?_eq_ok.mpr
  refine ⟨(checkStructure?_revalue a vs).trans hcheck, order, inverse, _, rows, symbolic, horder,
    ?_, ?_, hsymbolic, rfl⟩
  · obtain ⟨hsquare, hupper⟩ := checkStructure?_ok hcheck
    exact Csc.permuteSymmetric?_revalue hsquare (Csc.ordered_of_isUpper? hupper) hpermuted hvs hold
  · exact hrows

def outcome (f : Factorization α) (rows : Rows α) :
    Option PivotError → Except Error Unit × Factorization α
  | some e => (.error (.pivot e), { f with
      lower := overlay f.lower rows.columns, diag := rows.diag, invDiag := rows.invDiag
      positive := 0, negative := 0 })
  | none => (.ok (), { f with
      lower := overlay f.lower rows.columns, diag := rows.diag, invDiag := rows.invDiag
      positive := rows.positive, negative := f.permuted.matrix.cols - rows.positive })

theorem refactor?_eq_some {f : Factorization α}
    {result : Except Error Unit × Factorization α} :
    f.refactor? = some result ↔
      ∃ columns rows failure,
        (List.range f.permuted.matrix.cols).mapM f.permuted.matrix.column? = some columns ∧
        numeric? f.symbolic.parent f.tolerance columns f.invDiag = some (rows, failure) ∧
        result = outcome f rows failure := by
  constructor
  · intro h
    unfold refactor? at h
    obtain ⟨columns, hcolumns, h⟩ := Option.bind_eq_some_iff.mp h
    obtain ⟨⟨rows, failure⟩, hrows, h⟩ := Option.bind_eq_some_iff.mp h
    refine ⟨columns, rows, failure, hcolumns, hrows, ?_⟩
    cases failure <;> cases h <;> rfl
  · rintro ⟨columns, rows, failure, hcolumns, hrows, rfl⟩
    unfold refactor?
    simp only [hcolumns, hrows, Option.bind_eq_bind, Option.bind_some, Option.pure_def]
    cases failure <;> rfl

end Phases

end Factorization

end Ldl

end NonlinearOpt
