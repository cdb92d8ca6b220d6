import NonlinearOpt.Proofs.Ldl.InPlace
import NonlinearOpt.LinearSolver.Sparse
import NonlinearOpt.Ordering.MinimumDegree
import Mathlib

/-!
The sparse solver keeps the analysis of the last pattern, and the storage of the last factors, from
one matrix to the next. None of its answers shows this.
-/

namespace NonlinearOpt

namespace SparseSolver

variable {α : Type} [Scalar α]

section Input

structure Accepted (a : Csc α) : Prop where
  square : a.rows = a.cols
  divided : a.Divided
  stored : a.rowIndex.size = a.values.size
  last : a.colStart[a.cols]? = some a.rowIndex.size

theorem accepted_of_checkInput {a : Csc α} (h : LinearSolver.checkInput a = .ok ()) :
    Accepted a := by
  unfold LinearSolver.checkInput at h
  cases hformat : a.checkFormat with
  | error e =>
    rw [hformat] at h
    cases h
  | ok _ =>
    rw [hformat] at h
    simp only at h
    split_ifs at h with hsquare hupper hfinite
    obtain ⟨hstored, -, hlast, -⟩ := Csc.checkFormat_eq_ok.mp hformat
    exact ⟨by simpa [Csc.isSquare] using hsquare, Csc.divided_of_checkFormat hformat, hstored,
      hlast⟩

end Input

section Validity

omit [Scalar α] in
theorem eq_revalue {a b : Csc α} (ha : Accepted a) (hb : Accepted b)
    (hcolStart : a.colStart = b.colStart) (hrowIndex : a.rowIndex = b.rowIndex) :
    b = { a with values := b.values } ∧ b.values.size = a.values.size := by
  have hcols : a.cols = b.cols := by
    have := ha.divided.pointers
    have := hb.divided.pointers
    rw [hcolStart] at *
    omega
  have hrows : a.rows = b.rows := by rw [ha.square, hb.square, hcols]
  constructor
  · cases b
    rw [Csc.mk.injEq]
    exact ⟨hrows.symm, hcols.symm, hcolStart.symm, hrowIndex.symm, rfl⟩
  · rw [← ha.stored, ← hb.stored, hrowIndex]

variable {settings : Ldl.Options α}

def Valid (settings : Ldl.Options α) (c : CachedFactors α) : Prop :=
  ∃ a blank filled, Accepted a ∧ a.colStart = c.colStart ∧ a.rowIndex = c.rowIndex ∧
    Ldl.Factorization.analyze? a settings = some (.ok blank) ∧
    blank.Ready filled ∧ blank.Retains filled c.factors

def forgetful (result : Except Ldl.Error Unit) (c : CachedFactors α) :
    Except Ldl.Error Unit × Option (CachedFactors α) :=
  match result with
  | .ok () => (.ok (), some c)
  | .error e => (.error e, none)

theorem rebuild?_of_analyze? {a : Csc α} {blank f : Ldl.Factorization α}
    (h : Ldl.Factorization.analyze? a settings = some (.ok blank))
    {result : Except Ldl.Error Unit} (hf : blank.refactor? = some (result, f)) :
    rebuild? settings a = some (forgetful result ⟨a.colStart, a.rowIndex, f⟩) := by
  unfold rebuild?
  rw [Ldl.Factorization.new?_eq, h]
  simp only [Option.bind_some, Ldl.Factorization.complete?, hf, Option.map_some,
    Option.bind_eq_bind]
  cases result <;> rfl

theorem rebuild?_cases {a : Csc α} (ha : Accepted a) (horder : settings.Permutes a) :
    (∃ e, rebuild? settings a = some (.error e, none)) ∨
      ∃ blank f, Ldl.Factorization.analyze? a settings = some (.ok blank) ∧
        blank.refactor? = some (.ok (), f) ∧
        rebuild? settings a = some (.ok (), some ⟨a.colStart, a.rowIndex, f⟩) := by
  obtain ⟨analysis, hanalyze⟩ := Ldl.Factorization.exists_analyze? ha.divided horder
  cases analysis with
  | error e =>
    left
    rw [rebuild?, Ldl.Factorization.new?_eq, hanalyze]
    exact ⟨e, rfl⟩
  | ok blank =>
    obtain ⟨patterns, -, hreserves⟩ := Ldl.Factorization.reserves_of_analyze? hanalyze
    obtain ⟨result, f, hrefactor, -⟩ := hreserves.exists_refactor?
    rw [rebuild?_of_analyze? hanalyze hrefactor]
    cases result with
    | error e => exact .inl ⟨e, rfl⟩
    | ok _ => exact .inr ⟨blank, f, hanalyze, hrefactor, rfl⟩

theorem valid_of_refactor? {a : Csc α} (ha : Accepted a) {blank f : Ldl.Factorization α}
    (hanalyze : Ldl.Factorization.analyze? a settings = some (.ok blank))
    (hrefactor : blank.refactor? = some (.ok (), f)) :
    Valid settings ⟨a.colStart, a.rowIndex, f⟩ := by
  obtain ⟨filled, hready⟩ := Ldl.Factorization.ready_of_refactor? hanalyze hrefactor
  obtain ⟨_, f', -, hf', -, hretains, -⟩ := Ldl.Factorization.refactor?_agree hready
    (Ldl.Factorization.Retains.refl blank filled)
    (Ldl.Factorization.Retains.refl blank filled) rfl
  rw [hrefactor] at hf'
  cases hf'
  exact ⟨a, blank, filled, ha, rfl, rfl, hanalyze, hready, hretains⟩

/-- Refreshed factors are those that would be made from scratch. -/
theorem refresh?_eq_rebuild? {c : CachedFactors α} (hc : Valid settings c) {b : Csc α}
    (hb : Accepted b) (hcolStart : c.colStart = b.colStart) (hrowIndex : c.rowIndex = b.rowIndex) :
    ∃ result c', refresh? c.factors b = some (result, some c') ∧ Valid settings c' ∧
      rebuild? settings b = some (forgetful result c') := by
  obtain ⟨a, blank, filled, ha, hca, hra, hanalyze, hready, hretains⟩ := hc
  obtain ⟨hba, hsize⟩ := eq_revalue ha hb (hca.trans hcolStart) (hra.trans hrowIndex)
  have hnnz : a.nnz? = some b.values.size := by
    rw [hsize, ← ha.stored]
    exact ha.last
  obtain ⟨hupdate, hupdated, hanalyze'⟩ := hretains.update hanalyze hnnz
  rw [← hba] at hanalyze'
  obtain ⟨result, g, hg, hvalid, -, hcomplete, -⟩ := hupdated.refactor hready
  refine ⟨result, ⟨b.colStart, b.rowIndex, g⟩, ?_, ?_, ?_⟩
  · unfold refresh?
    simp only [hupdate, Option.bind_eq_bind, Option.bind_some, hg, Option.pure_def]
  · exact ⟨a, blank, filled, ha, hca.trans hcolStart, hra.trans hrowIndex, hanalyze, hready,
      hvalid⟩
  · have hcomplete : Ldl.Factorization.complete?
        (.ok (blank.revalue (c.factors.scattered b.values))) =
          some (Ldl.Factorization.completed (result, g)) := hcomplete
    rw [rebuild?, Ldl.Factorization.new?_eq, hanalyze', Option.bind_some, hcomplete]
    cases result <;> rfl

end Validity

section Attempts

def attempt? (s : SparseSolver α) (a : Csc α) :
    Option (Except Ldl.Error Unit × Option (CachedFactors α)) :=
  match s.cached? a with
  | some factors => refresh? factors a
  | none => rebuild? s.settings a

theorem factorize?_of_accepted {a : Csc α} (ha : LinearSolver.checkInput a = .ok ())
    (s : SparseSolver α) : s.factorize? a = (s.attempt? a).map s.conclude := by
  unfold factorize?
  rw [ha]
  rfl

theorem factorize_eq {s : SparseSolver α} {a : Csc α}
    {r : Except LinearSolverError Inertia × SparseSolver α} (h : s.factorize? a = some r) :
    s.factorize a = r := by
  rw [factorize, h, Option.getD_some]

omit [Scalar α] in
theorem cached?_cases (s : SparseSolver α) (a : Csc α) :
    s.cached? a = none ∨ ∃ c, s.cache = some c ∧ c.colStart = a.colStart ∧
      c.rowIndex = a.rowIndex ∧ s.cached? a = some c.factors := by
  unfold cached?
  cases s.cache with
  | none => exact .inl rfl
  | some c =>
    by_cases hsame : c.colStart = a.colStart ∧ c.rowIndex = a.rowIndex
    · exact .inr ⟨c, rfl, hsame.1, hsame.2, if_pos hsame⟩
    · exact .inl (if_neg hsame)

variable {settings : Ldl.Options α}

/-- Two attempts with the same outcome, of which the second one remembers no failure. -/
inductive Agree (settings : Ldl.Options α) :
    Except Ldl.Error Unit × Option (CachedFactors α) →
      Except Ldl.Error Unit × Option (CachedFactors α) → Prop
  | failed (e : Ldl.Error) (cache : Option (CachedFactors α))
      (hcache : ∀ c, cache = some c → Valid settings c) :
      Agree settings (.error e, cache) (.error e, none)
  | factored (c : CachedFactors α) (hc : Valid settings c) :
      Agree settings (.ok (), some c) (.ok (), some c)

theorem agree_rebuild? {a : Csc α} (ha : Accepted a) (horder : settings.Permutes a) :
    ∃ fresh, rebuild? settings a = some fresh ∧ Agree settings fresh fresh := by
  rcases rebuild?_cases ha horder with ⟨e, h⟩ | ⟨blank, f, hanalyze, hrefactor, h⟩
  · exact ⟨_, h, .failed e none nofun⟩
  · exact ⟨_, h, .factored _ (valid_of_refactor? ha hanalyze hrefactor)⟩

theorem exists_attempt? {s : SparseSolver α}
    (hvalid : ∀ c, s.cache = some c → Valid s.settings c) {a : Csc α} (ha : Accepted a)
    (horder : s.settings.Permutes a) :
    ∃ attempt fresh, s.attempt? a = some attempt ∧ rebuild? s.settings a = some fresh ∧
      Agree s.settings attempt fresh := by
  unfold attempt?
  rcases cached?_cases s a with hcached | ⟨c, hc, hcolStart, hrowIndex, hcached⟩
  · obtain ⟨fresh, hfresh, hagree⟩ := agree_rebuild? ha horder
    rw [hcached]
    exact ⟨fresh, fresh, hfresh, hfresh, hagree⟩
  · obtain ⟨result, c', hrefresh, hvalid', hrebuild⟩ :=
      refresh?_eq_rebuild? (hvalid c hc) ha hcolStart hrowIndex
    rw [hcached]
    refine ⟨_, _, hrefresh, hrebuild, ?_⟩
    cases result with
    | error e =>
      apply Agree.failed
      rintro _ ⟨⟩
      exact hvalid'
    | ok _ => exact .factored c' hvalid'

end Attempts

section Histories

variable [Ldl.Ordering]

inductive Call (α : Type) where
  | factorize (a : Csc α)
  | solve (size : Nat) (b : Array α)
  | inertia

inductive Answer (α : Type) where
  | factorized (result : Except LinearSolverError Inertia)
  | solved (result : Option (Except LinearSolverError (Array α)))
  | inertia (i : Option Inertia)
  deriving DecidableEq

def respond? (s : SparseSolver α) : Call α → Option (Answer α × SparseSolver α)
  | .factorize a => (s.factorize? a).map fun (result, s) => (.factorized result, s)
  | .solve size b => some (.solved (s.solve? size b), s)
  | .inertia => some (.inertia s.inertia, s)

def answers? (s : SparseSolver α) : List (Call α) → Option (List (Answer α))
  | [] => some []
  | call :: calls => do
    let (answer, s) ← s.respond? call
    return answer :: (← answers? s calls)

def recompute? (tolerance : α) (last : Option (Csc α)) :
    Call α → Option (Answer α × Option (Csc α))
  | .factorize a =>
    ((new tolerance).factorize? a).map fun (result, _) => (.factorized result, some a)
  | .solve size b => some (.solved (solution size b), last)
  | .inertia => some (.inertia (last.bind fun a => ((new tolerance).factorize a).1.toOption), last)
where
  solution (size : Nat) (b : Array α) : Option (Except LinearSolverError (Array α)) :=
    match last with
    | none => some (.error .singular)
    | some a =>
      match (new tolerance).factorize a with
      | (.error _, _) => some (.error .singular)
      | (.ok _, s) => s.solve? size b

def recomputed? (tolerance : α) (last : Option (Csc α)) : List (Call α) → Option (List (Answer α))
  | [] => some []
  | call :: calls => do
    let (answer, last) ← recompute? tolerance last call
    return answer :: (← recomputed? tolerance last calls)

/-- A solver in use, after a factorization of the last matrix. -/
structure Faithful (tolerance : α) (last : Option (Csc α)) (s : SparseSolver α) : Prop where
  settings : s.settings = (new tolerance).settings
  valid : ∀ c, s.cache = some c → Valid s.settings c
  inertia : s.inertia = last.bind fun a => ((new tolerance).factorize a).1.toOption
  cache : ∀ a i, last = some a → ((new tolerance).factorize a).1 = .ok i →
    s.cache = ((new tolerance).factorize a).2.cache

variable {tolerance : α} {last : Option (Csc α)} {s : SparseSolver α}

theorem faithful_new (tolerance : α) : Faithful tolerance none (new tolerance) := by
  constructor
  · rfl
  · intro c hc
    cases hc
  · rfl
  · intro a i ha
    cases ha

theorem Faithful.permutes (h : Faithful tolerance last s) (a : Csc α) : s.settings.Permutes a := by
  rw [h.settings]
  exact Ldl.Options.permutes_of_none rfl a

theorem Faithful.factorize?_eq (h : Faithful tolerance last s) (a : Csc α) :
    s.factorize? a = some (s.factorize a) := by
  have hsome : ∃ r, s.factorize? a = some r := by
    cases hcheck : LinearSolver.checkInput a with
    | error e =>
      unfold factorize?
      rw [hcheck]
      exact ⟨_, rfl⟩
    | ok _ =>
      obtain ⟨attempt, -, hattempt, -⟩ :=
        exists_attempt? h.valid (accepted_of_checkInput hcheck) (h.permutes a)
      rw [factorize?_of_accepted hcheck, hattempt]
      exact ⟨_, rfl⟩
  obtain ⟨r, hr⟩ := hsome
  rw [factorize_eq hr, hr]

theorem faithful_of_error {a : Csc α} {e : LinearSolverError}
    (hs : s.settings = (new tolerance).settings)
    (hvalid : ∀ c, s.cache = some c → Valid s.settings c) (hinertia : s.inertia = none)
    (hfresh : ((new tolerance).factorize a).1 = .error e) : Faithful tolerance (some a) s := by
  refine ⟨hs, hvalid, ?_, ?_⟩
  · rw [hinertia, Option.bind_some, hfresh]
    rfl
  · intro a' i ha' hi
    cases ha'
    rw [hfresh] at hi
    cases hi

theorem Agree.conclude {a : Csc α} {attempt fresh : Except Ldl.Error Unit × Option (CachedFactors α)}
    (h : Agree s.settings attempt fresh) (hs : s.settings = (new tolerance).settings)
    (hfresh : (new tolerance).factorize a = (new tolerance).conclude fresh) :
    (s.conclude attempt).1 = ((new tolerance).factorize a).1 ∧
      Faithful tolerance (some a) (s.conclude attempt).2 := by
  cases h with
  | failed e cache hcache =>
    have hanswer : ((new tolerance).factorize a).1 = .error (failure e) := by
      rw [hfresh]
      rfl
    exact ⟨hanswer.symm, faithful_of_error hs hcache rfl hanswer⟩
  | factored c hc =>
    refine ⟨?_, hs, ?_, ?_, ?_⟩
    · rw [hfresh]
      rfl
    · intro c' hc'
      cases hc'
      exact hc
    · rw [Option.bind_some, hfresh]
      rfl
    · intro a' i ha' _
      cases ha'
      rw [hfresh]
      rfl

theorem Faithful.factorize (h : Faithful tolerance last s) (a : Csc α) :
    (s.factorize a).1 = ((new tolerance).factorize a).1 ∧
      Faithful tolerance (some a) (s.factorize a).2 := by
  cases hcheck : LinearSolver.checkInput a with
  | error e =>
    have hrefused : ∀ t : SparseSolver α,
        t.factorize a = (.error e, { t with inertia := none }) := by
      intro t
      apply factorize_eq
      unfold SparseSolver.factorize?
      rw [hcheck]
    rw [hrefused s, hrefused (new tolerance)]
    exact ⟨rfl, faithful_of_error h.settings h.valid rfl (congrArg Prod.fst (hrefused _))⟩
  | ok _ =>
    obtain ⟨attempt, fresh, hattempt, hrebuild, hagree⟩ :=
      exists_attempt? h.valid (accepted_of_checkInput hcheck) (h.permutes a)
    have hanswer : s.factorize a = s.conclude attempt := by
      apply factorize_eq
      rw [factorize?_of_accepted hcheck, hattempt, Option.map_some]
    have hfresh : (new tolerance).factorize a = (new tolerance).conclude fresh := by
      apply factorize_eq
      rw [factorize?_of_accepted hcheck]
      exact congrArg _ (h.settings ▸ hrebuild)
    rw [hanswer]
    exact hagree.conclude h.settings hfresh

theorem Faithful.solve? (h : Faithful tolerance last s) (size : Nat) (b : Array α) :
    s.solve? size b = recompute?.solution tolerance last size b := by
  have hinertia := h.inertia
  cases last with
  | none =>
    unfold SparseSolver.solve?
    rw [hinertia]
    rfl
  | some a =>
    have hnew := ((faithful_new tolerance).factorize a).2.inertia
    have hcache := fun i => h.cache a i rfl
    rw [Option.bind_some] at hinertia hnew
    rw [recompute?.solution]
    generalize (new tolerance).factorize a = fresh at hinertia hcache hnew ⊢
    obtain ⟨result, t⟩ := fresh
    cases result with
    | error e =>
      unfold SparseSolver.solve?
      rw [hinertia]
      rfl
    | ok i =>
      have hsame : s.inertia = t.inertia := hinertia.trans hnew.symm
      unfold SparseSolver.solve?
      rw [hsame, hcache i rfl]

theorem Faithful.respond? (h : Faithful tolerance last s) (call : Call α) :
    ∃ answer t last', s.respond? call = some (answer, t) ∧
      recompute? tolerance last call = some (answer, last') ∧ Faithful tolerance last' t := by
  cases call with
  | factorize a =>
    obtain ⟨hanswer, hnext⟩ := h.factorize a
    refine ⟨.factorized (s.factorize a).1, (s.factorize a).2, some a, ?_, ?_, hnext⟩
    · rw [SparseSolver.respond?, h.factorize?_eq]
      rfl
    · rw [recompute?, (faithful_new tolerance).factorize?_eq, hanswer]
      rfl
  | solve size b =>
    exact ⟨_, s, last, rfl, congrArg some (Prod.ext (congrArg Answer.solved (h.solve? size b).symm)
      rfl), h⟩
  | inertia =>
    exact ⟨_, s, last, rfl, congrArg some (Prod.ext (congrArg Answer.inertia h.inertia.symm) rfl), h⟩

theorem Faithful.answers? (h : Faithful tolerance last s) (calls : List (Call α)) :
    ∃ answers, s.answers? calls = some answers ∧
      recomputed? tolerance last calls = some answers := by
  induction calls generalizing last s with
  | nil => exact ⟨[], rfl, rfl⟩
  | cons call calls ih =>
    obtain ⟨answer, t, last', hanswer, hfresh, hnext⟩ := h.respond? call
    obtain ⟨answers, hanswers, hrecomputed⟩ := ih hnext
    refine ⟨answer :: answers, ?_, ?_⟩
    · simp only [SparseSolver.answers?, hanswer, hanswers, Option.bind_eq_bind, Option.bind_some,
        Option.pure_def]
    · simp only [recomputed?, hfresh, hrecomputed, Option.bind_eq_bind, Option.bind_some,
        Option.pure_def]

/-- One solver used over and over answers like a new solver for each matrix, and no call breaks
off. -/
theorem answers?_eq_recomputed? (tolerance : α) (calls : List (Call α)) :
    ∃ answers, (new tolerance).answers? calls = some answers ∧
      recomputed? tolerance none calls = some answers :=
  (faithful_new tolerance).answers? calls

end Histories

/-- The second matrix has the pattern of the first one and is singular; its failure is forgotten when
the values change again. -/
theorem answers?_eq_recomputed?_recovered :
    let calls : List (Call (Exact ℚ)) := [.solve 1 #[1], .factorize ⟨1, 1, #[0, 1], #[0], #[1]⟩,
      .factorize ⟨1, 1, #[0, 1], #[0], #[0]⟩, .solve 1 #[1], .inertia,
      .factorize ⟨1, 1, #[0, 1], #[0], #[-1]⟩, .solve 1 #[1], .inertia]
    let answers := [.solved (some (.error .singular)), .factorized (.ok ⟨1, 0, 0⟩),
      .factorized (.error .singular), .solved (some (.error .singular)), .inertia none,
      .factorized (.ok ⟨0, 1, 0⟩), .solved (some (.ok #[-1])), .inertia (some ⟨0, 1, 0⟩)]
    (new 0).answers? calls = some answers ∧ recomputed? 0 none calls = some answers := by
  intro calls answers
  have hrun : (new 0).answers? calls = some answers := by decide +kernel
  obtain ⟨answers', hanswers, hrecomputed⟩ := answers?_eq_recomputed? (0 : Exact ℚ) calls
  rw [hrun, Option.some.injEq] at hanswers
  exact ⟨hrun, hanswers ▸ hrecomputed⟩

end SparseSolver

end NonlinearOpt
