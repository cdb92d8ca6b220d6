import Mathlib
import NonlinearOpt.Ordering.MinimumDegree
import NonlinearOpt.Proofs.Arithmetic.Exact
import NonlinearOpt.Proofs.Ldl.Refresh

namespace NonlinearOpt

namespace Ldl

namespace Factorization

variable {α : Type} [Scalar α] {a : Csc α} {options : Options α} {blank f : Factorization α}
  {filled : Array (Array (Nat × α))}

section Analysis

theorem ready_of_refactor? (h : analyze? a options = some (.ok blank))
    (hf : blank.refactor? = some (.ok (), f)) : ∃ filled, blank.Ready filled := by
  obtain ⟨columns, rows, failure, hcolumns, hrows, hresult⟩ := refactor?_eq_some.mp hf
  cases failure with
  | some e => cases hresult
  | none =>
    obtain ⟨-, order, inverse, permuted, rowLists, symbolic, -, hpermuted, -, -, rfl⟩ :=
      analyze?_eq_ok.mp h
    refine ⟨rows.columns, ⟨columns, rows, hcolumns, hrows, rfl⟩, ?_, ?_⟩
    · intro j hj rowList hrowList i hi
      exact Csc.le_of_permuteSymmetric? hpermuted hj hrowList hi
    · obtain ⟨moved, nnz, -, -, rfl⟩ := Csc.permuteSymmetric?_eq_some.mp hpermuted
      exact Array.size_replicate

theorem nnz?_of_analyze? (h : analyze? a options = some (.ok blank)) :
    a.nnz? = some blank.permuted.position.size := by
  obtain ⟨-, order, inverse, permuted, rows, symbolic, -, hpermuted, -, -, rfl⟩ :=
    analyze?_eq_ok.mp h
  exact Csc.size_of_permuteSymmetric? hpermuted

theorem analyze?_ordered (h : analyze? a options = some (.ok blank)) :
    analyze? a { options with order := some blank.order } = some (.ok blank) := by
  obtain ⟨hcheck, order, inverse, permuted, rows, symbolic, horder, hpermuted, hrows, hsymbolic,
    rfl⟩ := analyze?_eq_ok.mp h
  exact analyze?_eq_ok.mpr ⟨hcheck, order, inverse, permuted, rows, symbolic,
    orderOf_ordered rfl (inverse?_of_orderOf horder), hpermuted, hrows, hsymbolic, rfl⟩

end Analysis

section Steps

theorem Retains.update (hanalyze : analyze? a options = some (.ok blank))
    (h : Retains blank filled f) {vs : Array α} (hvs : a.nnz? = some vs.size) :
    f.updateValues? vs = some (f.revalue (f.scattered vs)) ∧
      Retains blank filled (f.revalue (f.scattered vs)) ∧
      analyze? { a with values := vs } options = some (.ok (blank.revalue (f.scattered vs))) := by
  have hsize : vs.size = blank.permuted.position.size :=
    Option.some.inj (hvs.symm.trans (nnz?_of_analyze? hanalyze))
  refine ⟨updateValues?_eq (h.position ▸ hsize), h.revalue ?_, ?_⟩
  · exact (size_scattered f vs).trans h.values
  · unfold scattered
    rw [h.position]
    exact analyze?_revalue hanalyze hsize h.values

/-- Factors are computed again as they are computed from an analysis with the same values, and a
failure leaves no inertia. -/
theorem Retains.refactor (hready : Ready blank filled) (h : Retains blank filled f) :
    ∃ result g, f.refactor? = some (result, g) ∧ Retains blank filled g ∧
      g.permuted = f.permuted ∧
      complete? (.ok (blank.revalue f.permuted.matrix.values)) = some (completed (result, g)) ∧
      ∀ e, result = .error e → g.positive = 0 ∧ g.negative = 0 := by
  have hfresh := (Retains.refl blank filled).revalue h.values
  obtain ⟨result, f', g, hf', hg, -, hretains, hsame⟩ :=
    refactor?_agree hready hfresh h h.matrix.symm
  have hkept : g.permuted = f.permuted ∧
      ∀ e, result = .error e → g.positive = 0 ∧ g.negative = 0 := by
    obtain ⟨columns, rows, failure, -, -, houtcome⟩ := refactor?_eq_some.mp hg
    cases failure with
    | none =>
      cases houtcome
      exact ⟨rfl, nofun⟩
    | some e =>
      cases houtcome
      exact ⟨rfl, fun _ _ => ⟨rfl, rfl⟩⟩
  refine ⟨result, g, hg, hretains, hkept.1, ?_, hkept.2⟩
  rw [complete?, hf', Option.map_some]
  cases result with
  | error e => rfl
  | ok _ => rw [hsame rfl]

end Steps

section Histories

inductive Call (α : Type) where
  | solve (b : Array α)
  | updateValues (vs : Array α)
  | refactor

/-- The factorization after a call. Nothing changes where the call breaks off, and a solve never
changes anything. -/
def after (f : Factorization α) : Call α → Factorization α
  | .solve _ => f
  | .updateValues vs => (f.updateValues? vs).getD f
  | .refactor => (f.refactor?.map Prod.snd).getD f

def used (f : Factorization α) (calls : List (Call α)) : Factorization α := calls.foldl after f

omit [Scalar α] in
def supplied (vs : Array α) (calls : List (Call α)) : Array α :=
  calls.foldl (fun vs call => match call with
    | .updateValues vs' => vs'
    | .solve _ | .refactor => vs) vs

structure Stands (a : Csc α) (options : Options α) (blank : Factorization α)
    (filled : Array (Array (Nat × α))) (vs : Array α) (f : Factorization α) : Prop where
  retains : Retains blank filled f
  analysis : analyze? { a with values := vs } options =
    some (.ok (blank.revalue f.permuted.matrix.values))

theorem Stands.next {vs : Array α} (h : Stands a options blank filled vs f)
    (hanalyze : analyze? a options = some (.ok blank)) (hready : Ready blank filled) {call : Call α}
    (hcall : ∀ vs', call = .updateValues vs' → a.nnz? = some vs'.size) :
    Stands a options blank filled (supplied vs [call]) (f.after call) := by
  cases call with
  | solve b => exact h
  | updateValues vs' =>
    obtain ⟨hupdate, hretains, hanalysis⟩ := h.retains.update hanalyze (hcall vs' rfl)
    rw [after, hupdate]
    exact ⟨hretains, hanalysis⟩
  | refactor =>
    obtain ⟨result, g, hg, hretains, hpermuted, -, -⟩ := h.retains.refactor hready
    rw [after, hg]
    refine ⟨hretains, ?_⟩
    simp only [Option.map_some, Option.getD_some, hpermuted]
    exact h.analysis

theorem Stands.used {vs : Array α} (h : Stands a options blank filled vs f)
    (hanalyze : analyze? a options = some (.ok blank)) (hready : Ready blank filled)
    {calls : List (Call α)}
    (hcalls : ∀ vs', Call.updateValues vs' ∈ calls → a.nnz? = some vs'.size) :
    Stands a options blank filled (supplied vs calls) (f.used calls) := by
  induction calls generalizing vs f with
  | nil => exact h
  | cons call calls ih =>
    refine ih (h.next hanalyze hready ?_) fun vs' hvs' => hcalls vs' (List.mem_cons_of_mem _ hvs')
    rintro vs' rfl
    exact hcalls vs' List.mem_cons_self

theorem stands_of_new? (h : new? a options = some (.ok f)) :
    ∃ blank filled, analyze? a options = some (.ok blank) ∧ Ready blank filled ∧
      Stands a options blank filled a.values f := by
  rw [new?_eq] at h
  obtain ⟨analysis, hanalyze, h⟩ := Option.bind_eq_some_iff.mp h
  cases analysis with
  | error e => cases h
  | ok blank =>
    obtain ⟨⟨result, g⟩, hrefactor, h⟩ := Option.map_eq_some_iff.mp h
    cases result with
    | error e => cases h
    | ok _ =>
      cases h
      obtain ⟨filled, hready⟩ := ready_of_refactor? hanalyze hrefactor
      obtain ⟨_, g, hg, hretains, hpermuted, -, -⟩ := (Retains.refl blank filled).refactor hready
      rw [hrefactor] at hg
      cases hg
      refine ⟨blank, filled, hanalyze, hready, hretains, ?_⟩
      rw [hpermuted]
      exact hanalyze

/-- Factors that are computed again are those of a new factorization of the matrix with the values
that were supplied last, in the same order, whatever was done with them before; and if they cannot
be computed, neither can the new ones, for the same reason. No law of arithmetic is needed. -/
theorem refactor?_eq_new? (h : new? a options = some (.ok f)) (calls : List (Call α))
    (hcalls : ∀ vs, Call.updateValues vs ∈ calls → a.nnz? = some vs.size) :
    let b := { a with values := supplied a.values calls }
    ∃ result g, (f.used calls).refactor? = some (result, g) ∧
      new? b options = some (completed (result, g)) ∧
      new? b { options with order := some f.order } = some (completed (result, g)) ∧
      ∀ e, result = .error e → g.positive = 0 ∧ g.negative = 0 := by
  intro b
  obtain ⟨blank, filled, hanalyze, hready, hstands⟩ := stands_of_new? h
  have hused := hstands.used hanalyze hready hcalls
  obtain ⟨result, g, hg, -, -, hcomplete, hcounts⟩ := hused.retains.refactor hready
  have hordered := analyze?_ordered hused.analysis
  rw [show (blank.revalue (f.used calls).permuted.matrix.values).order = f.order from
    hstands.retains.order.symm] at hordered
  refine ⟨result, g, hg, ?_, ?_, hcounts⟩
  · rw [new?_eq, hused.analysis]
    exact hcomplete
  · rw [new?_eq, hordered]
    exact hcomplete

end Histories

section Tilted

def tiltedMatrix : Csc (Exact ℚ) := ⟨2, 2, #[0, 1, 3], #[0, 0, 1], #[1, 1, 1 + 1]⟩

def tiltedOptions : Options (Exact ℚ) := ⟨1.0, some #[1, 0], 0⟩

def tiltedPermuted : Permuted (Exact ℚ) :=
  ⟨⟨2, 2, #[0, 1, 3], #[0, 1, 0], #[1 + 1, 1, 1]⟩, #[1, 2, 0]⟩

def tiltedBlank : Factorization (Exact ℚ) :=
  Factorization.blank 2 #[1, 0] tiltedPermuted ⟨#[some 1, none], #[1, 0]⟩ 0

/-- A computation that is given up at the second row, and a solve with what it has left. -/
def tiltedCalls : List (Call (Exact ℚ)) :=
  [.updateValues #[1, 1, 1], .refactor, .solve #[1, 0], .updateValues #[1 + 1, 1, 1]]

theorem analyze?_tilted : analyze? tiltedMatrix tiltedOptions = some (.ok tiltedBlank) := by
  have horder : orderOf tiltedMatrix tiltedOptions = .ok (#[1, 0], #[1, 0]) :=
    orderOf_ordered rfl (by decide +kernel)
  have hsort : Moved.sort [⟨0, 1, 1, 1⟩, ⟨1, 0, 1, 1⟩, ⟨2, 0, 0, 1 + 1⟩] =
      ([⟨2, 0, 0, 1 + 1⟩, ⟨0, 1, 1, 1⟩, ⟨1, 0, 1, 1⟩] : List (Moved (Exact ℚ))) := by
    simp [Moved.sort, List.mergeSort, List.MergeSort.Internal.splitInTwo]
  have hpermuted : tiltedMatrix.permuteSymmetric? #[1, 0] = some tiltedPermuted := by
    apply Csc.permuteSymmetric?_eq_some.mpr
    refine ⟨[[⟨0, 1, 1, 1⟩], [⟨1, 0, 1, 1⟩, ⟨2, 0, 0, 1 + 1⟩]], 3, rfl, rfl, ?_⟩
    simp only [Moved.assemble, List.flatten_cons, List.flatten_nil, List.cons_append,
      List.nil_append, hsort]
    rfl
  have hsymbolic : (List.range 2).mapM tiltedPermuted.matrix.rowsOf? = some [[0], [1, 0]] ∧
      Symbolic.ofColumns? [[0], [1, 0]] = some ⟨#[some 1, none], #[1, 0]⟩ := by decide +kernel
  exact analyze?_eq_ok.mpr ⟨rfl, _, _, _, _, _, horder, hpermuted, hsymbolic.1, hsymbolic.2, rfl⟩

theorem refactor?_eq_new?_tilted :
    ∃ f g, new? tiltedMatrix tiltedOptions = some (.ok f) ∧
      (∀ vs, Call.updateValues vs ∈ tiltedCalls → tiltedMatrix.nnz? = some vs.size) ∧
      (f.used (tiltedCalls.take 1)).refactor?.map (·.1) = some (.error (.pivot (.zero 1))) ∧
      (f.used tiltedCalls).refactor? = some (.ok (), g) ∧
      new? ({ tiltedMatrix with values := #[1 + 1, 1, 1] } : Csc (Exact ℚ)) tiltedOptions =
        some (.ok g) := by
  have hrun : (tiltedBlank.refactor?.any fun (result, f) => result.isOk &&
      decide ((f.used (tiltedCalls.take 1)).refactor?.map (·.1) =
        some (.error (.pivot (.zero 1))) ∧
      (f.used tiltedCalls).refactor?.map (·.1) = some (.ok ()))) = true := by
    decide +kernel
  have hcalls : ∀ vs, Call.updateValues vs ∈ tiltedCalls → tiltedMatrix.nnz? = some vs.size := by
    simp [tiltedCalls, tiltedMatrix, Csc.nnz?]
  obtain ⟨⟨result, f⟩, hrefactor, hrun⟩ := (Option.any_eq_true ..).mp hrun
  cases result with
  | error e => cases hrun
  | ok _ =>
    obtain ⟨hfails, hok⟩ := of_decide_eq_true hrun
    have hf : new? tiltedMatrix tiltedOptions = some (.ok f) := by
      rw [new?_eq, analyze?_tilted, Option.bind_some, complete?, hrefactor]
      rfl
    obtain ⟨result, g, hg, hfresh, -, -⟩ := refactor?_eq_new? hf tiltedCalls hcalls
    rw [hg] at hok
    cases hok
    exact ⟨f, g, hf, hcalls, hfails, hg, hfresh⟩

end Tilted

end Factorization

end Ldl

end NonlinearOpt
