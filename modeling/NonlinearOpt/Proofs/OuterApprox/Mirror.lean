import NonlinearOpt.Proofs.Arithmetic.Symmetric
import NonlinearOpt.Proofs.OuterApprox.Calls
import NonlinearOpt.Proofs.OuterApprox.Soundness

/-!
Minimization and maximization are mirror images. With all bounds and objectives negated, and lower
and upper bounds exchanged, a problem of the one kind has the same run as one of the other kind, if
negation is a symmetry of the scalars.
-/

namespace NonlinearOpt.OuterApprox

variable {π π' α β β' γ γ' : Type}

namespace Symmetry

def mirror [Scalar α] : Symmetry α := ⟨(-·), true, fun t => Scalar.isFinite t = true⟩

section Mirror

variable [Scalar α]

theorem progress_mirror (p : Progress α) :
    mirror.progress p =
      { p with
        sense := p.sense.opposite
        lower := -p.upper
        upper := -p.lower
        lowerHistory := p.upperHistory.map (-·)
        upperHistory := p.lowerHistory.map (-·)
        bestObjective := p.bestObjective.map (-·) } :=
  rfl

theorem sense_mirror (p : Progress α) : (mirror.progress p).sense = p.sense.opposite := rfl

variable [SymmetricScalar α]

theorem record_lower_neg (history : List α) (bound : α) :
    Progress.record Scalar.le (history.map (-·)) (-bound) =
      -Progress.record (fun last bound => Scalar.le bound last) history bound := by
  unfold Progress.record
  rw [List.getLast?_map]
  cases history.getLast? with
  | none => rfl
  | some last =>
    show (if Scalar.le (-last) (-bound) then -bound else -last) =
      -(if Scalar.le bound last then bound else last)
    rw [SymmetricScalar.le_neg]
    split <;> rfl

theorem record_upper_neg (history : List α) (bound : α) :
    Progress.record (fun last bound => Scalar.le bound last) (history.map (-·)) (-bound) =
      -Progress.record Scalar.le history bound := by
  unfold Progress.record
  rw [List.getLast?_map]
  cases history.getLast? with
  | none => rfl
  | some last =>
    show (if Scalar.le (-bound) (-last) then -bound else -last) =
      -(if Scalar.le last bound then bound else last)
    rw [SymmetricScalar.le_neg]
    split <;> rfl

variable (p : Progress α) (x : α)

theorem pushLower_mirror :
    (Progress.pushLower (-x) (mirror.progress p)).2 = mirror.progress (Progress.pushUpper x p).2 := by
  simp [Progress.pushLower, Progress.pushUpper, progress_mirror, record_lower_neg]

theorem pushUpper_mirror :
    (Progress.pushUpper (-x) (mirror.progress p)).2 = mirror.progress (Progress.pushLower x p).2 := by
  simp [Progress.pushLower, Progress.pushUpper, progress_mirror, record_upper_neg]

theorem setLower_mirror : (mirror.progress p).setLower (-x) = mirror.progress (p.setUpper x) :=
  pushLower_mirror { p with upper := x } x

theorem setUpper_mirror : (mirror.progress p).setUpper (-x) = mirror.progress (p.setLower x) :=
  pushUpper_mirror { p with lower := x } x

theorem raiseLower_mirror :
    (mirror.progress p).raiseLower (-x) = mirror.progress (p.cutUpper x) := by
  show (mirror.progress p).setLower (Scalar.max (-p.upper) (-x)) = _
  rw [Scalar.max_neg]
  exact setLower_mirror p _

theorem cutUpper_mirror :
    (mirror.progress p).cutUpper (-x) = mirror.progress (p.raiseLower x) := by
  show (mirror.progress p).setUpper (Scalar.min (-p.lower) (-x)) = _
  rw [Scalar.min_neg]
  exact setUpper_mirror p _

theorem boundsConverged_mirror {t : α} (ht : Scalar.isFinite t = true) :
    (mirror.progress p).boundsConverged t = p.boundsConverged t :=
  SymmetricScalar.le_neg_add p.lower p.upper ht

theorem afterMasterOptimal_mirror (master : SubproblemResult α) :
    (mirror.progress p).afterMasterOptimal (mirror.result master) =
      mirror.progress (p.afterMasterOptimal master) := by
  unfold Progress.afterMasterOptimal
  rw [sense_mirror]
  cases p.sense with
  | minimize => exact cutUpper_mirror p master.lower
  | maximize => exact raiseLower_mirror p master.upper

theorem afterMasterInfeasible_mirror :
    (mirror.progress p).afterMasterInfeasible = mirror.progress p.afterMasterInfeasible := by
  have hbest : (mirror.progress p).bestObjective.isSome = p.bestObjective.isSome :=
    Option.isSome_map
  rw [Progress.afterMasterInfeasible_eq, Progress.afterMasterInfeasible_eq, hbest]
  have hexhaust : (mirror.progress p).exhaust = mirror.progress p.exhaust := by
    cases hsense : p.sense with
    | minimize =>
      simpa [Progress.exhaust, progress_mirror, hsense, Sense.opposite] using
        pushUpper_mirror { p with lower := Scalar.infinity } p.upper
    | maximize =>
      simpa [Progress.exhaust, progress_mirror, hsense, Sense.opposite,
        SymmetricScalar.neg_neg] using pushLower_mirror { p with upper := -Scalar.infinity } p.lower
  rw [hexhaust]
  rfl

theorem afterMasterOther_mirror (master : SubproblemResult α) :
    (mirror.progress p).afterMasterOther (mirror.result master) =
      mirror.progress (p.afterMasterOther master) := by
  have hminimize : (if Scalar.isFinite (-master.lower) then
      (mirror.progress p).cutUpper (-master.lower) else mirror.progress p) =
        mirror.progress (if Scalar.isFinite master.lower then p.raiseLower master.lower else p) := by
    rw [SymmetricScalar.isFinite_neg, cutUpper_mirror]
    split <;> rfl
  have hmaximize : (if Scalar.isFinite (-master.upper) then
      (mirror.progress p).raiseLower (-master.upper) else mirror.progress p) =
        mirror.progress (if Scalar.isFinite master.upper then p.cutUpper master.upper else p) := by
    rw [SymmetricScalar.isFinite_neg, raiseLower_mirror]
    split <;> rfl
  have hcondition : (mirror.result master).condition = master.condition := rfl
  unfold Progress.afterMasterOther
  rw [hcondition, sense_mirror]
  cases master.condition <;> cases p.sense <;> first
    | exact hminimize
    | exact hmaximize
    | rfl

theorem improvesBound_mirror :
    (mirror.progress p).improvesBound (mirror.value x) = p.improvesBound x := by
  unfold Progress.improvesBound
  rw [sense_mirror]
  cases p.sense with
  | minimize => exact SymmetricScalar.lt_neg p.upper x
  | maximize => exact SymmetricScalar.lt_neg x p.lower

theorem afterFeasible_mirror :
    (mirror.progress p).afterFeasible (mirror.value x) = mirror.progress (p.afterFeasible x) := by
  unfold Progress.afterFeasible
  rw [sense_mirror]
  cases p.sense with
  | minimize => exact raiseLower_mirror p x
  | maximize => exact cutUpper_mirror p x

theorem improves_mirror : (mirror.progress p).improves (mirror.value x) = p.improves x := by
  have hbest : (mirror.progress p).bestObjective = p.bestObjective.map (-·) := rfl
  unfold Progress.improves
  rw [sense_mirror, hbest]
  cases p.bestObjective with
  | none => cases p.sense <;> rfl
  | some best =>
    cases p.sense with
    | minimize => exact SymmetricScalar.lt_neg best x
    | maximize => exact SymmetricScalar.lt_neg x best

theorem offer_mirror (solution : Array α) :
    ((mirror.progress p).offer (mirror.value x) solution).2 =
      mirror.progress (p.offer x solution).2 := by
  unfold Progress.offer
  rw [improves_mirror]
  split <;> rfl

theorem correctBound_mirror (master : SubproblemResult α) :
    (mirror.progress p).correctBound (mirror.result master) =
      mirror.progress (p.correctBound master) := by
  unfold Progress.correctBound
  rw [sense_mirror]
  cases p.sense with
  | minimize =>
    show (mirror.progress p).setUpper
      ((p.lowerHistory.map (-·)).dropLast.foldl Scalar.min (-master.lower)) = _
    rw [← List.map_dropLast, Scalar.foldl_min_neg]
    exact setUpper_mirror p _
  | maximize =>
    show (mirror.progress p).setLower
      ((p.upperHistory.map (-·)).dropLast.foldl Scalar.max (-master.upper)) = _
    rw [← List.map_dropLast, Scalar.foldl_max_neg]
    exact setLower_mirror p _

theorem lawful_mirror : (mirror : Symmetry α).Lawful where
  boundsConverged p ht := boundsConverged_mirror p ht
  afterMasterOptimal master p := afterMasterOptimal_mirror p master
  afterMasterInfeasible := afterMasterInfeasible_mirror
  afterMasterOther master p := afterMasterOther_mirror p master
  improvesBound x p := improvesBound_mirror p x
  afterFeasible x p := afterFeasible_mirror p x
  offer x solution p := offer_mirror p x solution
  correctBound master p := correctBound_mirror p master

theorem progress_mirror_new (s : Sense) :
    mirror.progress (Progress.new s : Progress α) = .new s.opposite := by
  rw [progress_mirror]
  simp [Progress.new, SymmetricScalar.neg_neg]

end Mirror

section Traces

variable {σ : Symmetry α} {inner : π → π'}

def call (σ : Symmetry α) : Call α → Call α
  | .solveMaster answer => .solveMaster (answer.map σ.result)
  | .solveNlp answer => .solveNlp (answer.map σ.result)
  | .readIntegers values => .readIntegers values
  | .addCuts answer => .addCuts answer
  | .addFeasibilityCut answer => .addFeasibilityCut answer
  | .addNoGoodCut answer => .addNoGoodCut answer
  | .dropLastNoGoodCut answer persistent => .dropLastNoGoodCut answer persistent
  | .reload answer => .reload answer
  | .afterMaster answer => .afterMaster answer
  | .afterNlp answer => .afterNlp answer

def traced (σ : Symmetry α) (inner : π → π') (r : Traced π α) : Traced π' α :=
  ⟨inner r.problem, r.trace.map σ.call⟩

theorem traced_append {v : γ → γ'} {x : γ × π} {y : γ' × π'} (entry : γ → π → Call α)
    (entry' : γ' → π' → Call α) (hy : y = x.map v inner)
    (hentry : entry' (v x.1) (inner x.2) = σ.call (entry x.1 x.2)) (r : Traced π α) :
    (y.1, (⟨y.2, r.trace.map σ.call ++ [entry' y.1 y.2]⟩ : Traced π' α)) =
      (x.1, (⟨x.2, r.trace ++ [entry x.1 x.2]⟩ : Traced π α)).map v (σ.traced inner) := by
  subst hy
  show (v x.1, (⟨inner x.2, r.trace.map σ.call ++ [entry' (v x.1) (inner x.2)]⟩ : Traced π' α)) =
    (v x.1, (⟨inner x.2, (r.trace ++ [entry x.1 x.2]).map σ.call⟩ : Traced π' α))
  rw [hentry, List.map_append, List.map_singleton]

theorem put_traced {v : Except Error β → Except Error β'} {x : Except Error β × π}
    {y : Except Error β' × π'} {entry : Except Error β → π → Call α}
    {entry' : Except Error β' → π' → Call α} (hy : y = x.map v inner)
    (hentry : entry' (v x.1) (inner x.2) = σ.call (entry x.1 x.2)) (r : Traced π α) :
    (σ.traced inner r).put entry' y = (r.put entry x).map v (σ.traced inner) :=
  traced_append entry entry' hy hentry r

variable [MinlpProblem π α] [MinlpProblem π' α]

theorem relates_traced (h : σ.Relates inner) : σ.Relates (σ.traced inner) where
  solveMaster p options r := put_traced (h.solveMaster p options r.problem) rfl r
  solveNlp p c r := put_traced (h.solveNlp p c r.problem) rfl r
  integers r :=
    traced_append (fun values _ => .readIntegers values) (fun values _ => .readIntegers values)
      (h.integers r.problem) rfl r
  addCuts p zeroTolerance r := put_traced (h.addCuts p zeroTolerance r.problem) rfl r
  addFeasibilityCut p zeroTolerance r :=
    put_traced (h.addFeasibilityCut p zeroTolerance r.problem) rfl r
  addNoGoodCut p r := put_traced (h.addNoGoodCut p r.problem) rfl r
  dropLastNoGoodCut r :=
    put_traced (h.dropLastNoGoodCut r.problem)
      (congrArg (Call.dropLastNoGoodCut _) (h.isPersistent _)) r
  isPersistent r := h.isPersistent r.problem
  reload r := put_traced (h.reload r.problem) rfl r

omit [MinlpProblem π α] [MinlpProblem π' α] in
theorem relatesCallback_traced {c : Option (Callback π α)} {c' : Option (Callback π' α)}
    {entry : Except Error Unit → Call α} (hentry : ∀ answer, σ.call (entry answer) = entry answer)
    (h : σ.RelatesCallback inner c c') :
    σ.RelatesCallback (σ.traced inner) (c.map (Traced.callback entry))
      (c'.map (Traced.callback entry)) := by
  cases h with
  | none => exact .none
  | @some f f' h =>
    exact .some fun p r =>
      traced_append (fun answer _ => entry (Except.mapError .callback answer))
        (fun answer _ => entry (Except.mapError .callback answer)) (h p r.problem) (hentry _).symm r

omit [MinlpProblem π α] [MinlpProblem π' α] in
theorem relatesCallbacks_traced {c : Callbacks π α} {c' : Callbacks π' α}
    (h : σ.RelatesCallbacks inner c c') :
    σ.RelatesCallbacks (σ.traced inner) c.traced c'.traced :=
  ⟨relatesCallback_traced (fun _ => rfl) h.afterMaster,
    relatesCallback_traced (fun _ => rfl) h.afterNlp⟩

variable [Scalar α] [Rounding α]

theorem calls_state (hσ : σ.Lawful) (h : σ.Relates inner) {c : Callbacks π α} {c' : Callbacks π' α}
    (hcalls : σ.RelatesCallbacks inner c c') {s : State π α}
    (hs : σ.admits s.config.boundTolerance) :
    Run.calls c' (σ.state inner s) = (Run.calls c s).map σ.call := by
  have hrun := (Run.parallel_loop hσ (relates_traced h) (relatesCallbacks_traced hcalls)
    s.traced hs).1
  exact congrArg (fun x => x.2.problem.trace) hrun

end Traces

end Symmetry

/-- `inner` leads from problems to their mirror images. These go in the opposite direction. When they
are shown the mirror image of a progress, they give that of the answer, or fail with the same error,
and all answers that are not about bounds are the same. -/
structure MirrorImage [Scalar α] [MinlpProblem π α] [MinlpProblem π' α] (inner : π → π') : Prop
    extends Symmetry.mirror.Relates inner where
  sense : ∀ r, MinlpProblem.sense (inner r) = (MinlpProblem.sense r).opposite

structure Progress.IsMirror [Scalar α] (p' p : Progress α) : Prop where
  lower : p'.lower = -p.upper
  upper : p'.upper = -p.lower
  lowerHistory : p'.lowerHistory = p.upperHistory.map (-·)
  upperHistory : p'.upperHistory = p.lowerHistory.map (-·)
  bestObjective : p'.bestObjective = p.bestObjective.map (-·)
  bestSolution : p'.bestSolution = p.bestSolution
  masterIter : p'.masterIter = p.masterIter
  previousAssignment : p'.previousAssignment = p.previousAssignment
  condition : p'.results.condition = p.results.condition

section Statement

variable [Scalar α] [SymmetricScalar α] [MinlpProblem π α] [MinlpProblem π' α] [Rounding α]

/-- The loop on the mirror image of a problem makes the same calls as on the problem itself, ends in
the same way, and leaves mirrored progress. -/
theorem Run.loop_mirrored {inner : π → π'} (hproblem : MirrorImage inner)
    {callbacks : Callbacks π α} {callbacks' : Callbacks π' α}
    (hcallbacks : Symmetry.mirror.RelatesCallbacks inner callbacks callbacks') (problem : π)
    {c : Config α} (hfinite : Scalar.isFinite c.boundTolerance = true) (timers : Timers α)
    (clock : Clock α) :
    let s := State.fresh (MinlpProblem.sense problem) problem c timers clock
    let s' := State.fresh (MinlpProblem.sense (inner problem)) (inner problem) c timers clock
    let run := (loop callbacks).run.run s
    let run' := (loop callbacks').run.run s'
    calls callbacks' s' = (calls callbacks s).map Symmetry.mirror.call ∧ run'.1 = run.1 ∧
      run'.2.progress.IsMirror run.2.progress := by
  intro s s' run run'
  have hstart : s' = Symmetry.mirror.state inner s := by
    show State.fresh _ _ c timers clock =
      ⟨inner problem, Symmetry.mirror.progress (.new _), c, timers, clock, []⟩
    rw [hproblem.sense, Symmetry.progress_mirror_new]
    rfl
  have hrun : run' = run.map id (Symmetry.mirror.state inner) := by
    have hparallel := (parallel_loop Symmetry.lawful_mirror hproblem.toRelates hcallbacks s
      hfinite).1
    rw [Except.map_id] at hparallel
    exact (congrArg (loop callbacks').run.run hstart).trans hparallel
  refine ⟨?_, ?_, ?_⟩
  · rw [hstart]
    exact Symmetry.calls_state Symmetry.lawful_mirror hproblem.toRelates hcallbacks hfinite
  · rw [hrun]
    rfl
  · rw [hrun]
    exact ⟨rfl, rfl, rfl, rfl, rfl, rfl, rfl, rfl, rfl⟩

end Statement

structure Scripted (α : Type) where
  sense : Sense
  masters : List (Except Error (SubproblemResult α))
  nlps : List (Except Error (SubproblemResult α))
  integers : List (Array α)
  cuts : List (Except Error Unit)
  persistent : Bool

namespace Scripted

def exhausted : Error := .subSolver "the script has ended"

def cut (b : Scripted α) : Except Error Unit × Scripted α :=
  (b.cuts.headD (.error exhausted), { b with cuts := b.cuts.tail })

instance : MinlpProblem (Scripted α) α where
  sense b := b.sense
  solveMaster _ _ b :=
    (b.masters.headD (.error exhausted), { b with masters := b.masters.tail })
  solveNlp _ _ b := (b.nlps.headD (.error exhausted), { b with nlps := b.nlps.tail })
  integers b := (b.integers.headD #[], { b with integers := b.integers.tail })
  addCuts _ _ b := b.cut
  addFeasibilityCut _ _ b := b.cut
  addNoGoodCut _ b := b.cut
  dropLastNoGoodCut b := b.cut
  isPersistent b := b.persistent
  reload b := b.cut

variable [Scalar α]

def mirror (b : Scripted α) : Scripted α :=
  { b with
    sense := b.sense.opposite
    masters := b.masters.map (Except.map Symmetry.mirror.result)
    nlps := b.nlps.map (Except.map Symmetry.mirror.result) }

theorem mirrorImage : MirrorImage (mirror : Scripted α → Scripted α) where
  solveMaster _ _ b := by
    obtain ⟨sense, masters, nlps, integers, cuts, persistent⟩ := b
    cases masters <;> rfl
  solveNlp _ _ b := by
    obtain ⟨sense, masters, nlps, integers, cuts, persistent⟩ := b
    cases nlps <;> rfl
  integers _ := rfl
  addCuts _ _ _ := rfl
  addFeasibilityCut _ _ _ := rfl
  addNoGoodCut _ _ := rfl
  dropLastNoGoodCut _ := rfl
  isPersistent _ := rfl
  reload _ := rfl
  sense _ := rfl

instance : Rounding (ExtendedNaN ℚ) where
  round
    | .nan => 0
    | .value x => Rounding.round x

/-- The first bound is no number and the second one is infinite. The second assignment has no point,
and the third master problem brings the bounds together. -/
def unbounded : Scripted (ExtendedNaN ℚ) where
  sense := .maximize
  masters := [.ok ⟨.optimal, .nan, .nan, .nan, #[]⟩,
    .ok ⟨.maxTimeLimit, 0, Scalar.infinity, .nan, #[]⟩, .ok ⟨.optimal, 0, 1, 1, #[]⟩]
  nlps := [.ok ⟨.optimal, 0, 0, 1, #[1]⟩, .ok ⟨.infeasible, 0, 0, .nan, #[]⟩]
  integers := [#[1], #[0]]
  cuts := [.ok (), .ok ()]
  persistent := false

def clock : Clock (ExtendedNaN ℚ) := ⟨fun _ => 0, 0⟩

def summary (x : Except Error Unit × State (Scripted (ExtendedNaN ℚ)) (ExtendedNaN ℚ)) :
    Option (Nat × Bool) :=
  x.1.toOption.map fun _ => (x.2.progress.masterIter,
    Scalar.eq x.2.progress.lower 1 && Scalar.eq x.2.progress.upper 1)

theorem loop_mirrored_unbounded :
    summary ((Run.loop .none).run.run
      (.fresh (MinlpProblem.sense unbounded) unbounded Config.default .new clock)) = some (3, true) ∧
    let s := State.fresh (MinlpProblem.sense unbounded) unbounded Config.default .new clock
    let s' := State.fresh (MinlpProblem.sense unbounded.mirror) unbounded.mirror Config.default
      .new clock
    let run := (Run.loop .none).run.run s
    let run' := (Run.loop .none).run.run s'
    Run.calls .none s' = (Run.calls .none s).map Symmetry.mirror.call ∧ run'.1 = run.1 ∧
      run'.2.progress.IsMirror run.2.progress := by
  have hcallbacks : (Symmetry.mirror : Symmetry (ExtendedNaN ℚ)).RelatesCallbacks
      (mirror (α := ExtendedNaN ℚ)) .none .none := ⟨.none, .none⟩
  have hfinite : Scalar.isFinite (Config.default : Config (ExtendedNaN ℚ)).boundTolerance = true :=
    rfl
  constructor
  · decide +kernel
  · exact Run.loop_mirrored mirrorImage hcallbacks unbounded hfinite .new clock

end Scripted

end NonlinearOpt.OuterApprox
