import NonlinearOpt.Proofs.OuterApprox.Parts
import NonlinearOpt.Proofs.OuterApprox.Soundness

/-!
Reports of optimality beside the reported bounds. A run that no infeasible master problem has ended
is optimal because its bounds have met. A correction after that may replace the bound of the master
problem by a worse one, and does not take the report back.
-/

namespace NonlinearOpt.OuterApprox

variable {π α β γ : Type}

structure Continues (s t : State π α) : Prop where
  condition : t.progress.results.condition = s.progress.results.condition
  tolerance : t.config.boundTolerance = s.config.boundTolerance
  events : s.events <+: t.events

theorem Continues.refl (s : State π α) : Continues s s := ⟨rfl, rfl, List.prefix_rfl⟩

theorem Continues.trans {s t u : State π α} (hst : Continues s t) (htu : Continues t u) :
    Continues s u :=
  ⟨htu.condition.trans hst.condition, htu.tolerance.trans hst.tolerance,
    hst.events.trans htu.events⟩

namespace Run

def Leaves (m : Run π α β) : Prop := ∀ s, Ensures (Continues s) m fun _ => Continues s

theorem Leaves.ensures {m : Run π α β} {P : State π α → Prop} (h : Leaves m)
    (hP : ∀ s t, Continues s t → P s → P t) : Ensures P m fun _ => P :=
  fun s hs b t hrun => hP s t (h s s (.refl s) b t hrun) hs

theorem leaves_pure (b : β) : Leaves (pure b : Run π α β) := fun _ => ensures_pure fun _ h => h

theorem leaves_bind {m : Run π α γ} {f : γ → Run π α β} (hm : Leaves m)
    (hf : ∀ c, Leaves (f c)) : Leaves (m >>= f) :=
  fun s => ensures_bind _ (hm s) fun c => hf c s

theorem leaves_get_bind {f : State π α → Run π α β} (h : ∀ s, Leaves (f s)) :
    Leaves (get >>= f) := by
  intro s
  apply ensures_get_bind
  intro t ht u hu b v hrun
  exact h t s u (hu ▸ ht) b v hrun

theorem leaves_progress_bind {f : Progress α → Run π α β} (h : ∀ p, Leaves (f p)) :
    Leaves (progress >>= f) :=
  fun s => ensures_progress_bind fun p => (h p s).pre fun _ ht => ht.1

theorem leaves_config_bind {f : Config α → Run π α β} (h : ∀ c, Leaves (f c)) :
    Leaves (config >>= f) :=
  fun s => ensures_config_bind fun c => (h c s).pre fun _ ht => ht.1

theorem leaves_note (e : Event α) : Leaves (note e : Run π α Unit) :=
  fun _ => ensures_modify fun _ h => h.trans ⟨rfl, rfl, List.prefix_append _ _⟩

theorem leaves_update {f : Progress α → Progress α}
    (h : ∀ p, (f p).results.condition = p.results.condition) :
    Leaves (update f : Run π α Unit) :=
  fun _ => ensures_update fun t ht => ht.trans ⟨h t.progress, rfl, List.prefix_rfl⟩

theorem leaves_ask (f : Progress α → π → Except Error β × π) : Leaves (ask f) :=
  fun _ => ensures_ask fun _ ht _ _ _ => ht.trans ⟨rfl, rfl, List.prefix_rfl⟩

theorem leaves_call (f : Option (Callback π α)) : Leaves (call f) := by
  cases f with
  | none => exact leaves_pure ()
  | some f => exact leaves_ask fun p problem => (f p problem).map (·.mapError .callback) id

theorem leaves_compareAssignment (assignment : List Int) :
    Leaves (compareAssignment assignment : Run π α Bool) := by
  apply leaves_bind
  · exact leaves_update fun _ => rfl
  intro _
  apply leaves_progress_bind
  intro p
  split
  · exact leaves_pure _
  · exact leaves_bind (leaves_update fun _ => rfl) fun _ => leaves_pure _

section Questions

variable [MinlpProblem π α]

theorem leaves_excludeAssignment : Leaves (excludeAssignment : Run π α Unit) := by
  apply leaves_config_bind
  intro c
  split
  · exact leaves_ask _
  · exact leaves_pure _

theorem leaves_linearize (nlp : SubproblemResult α) : Leaves (linearize nlp : Run π α Unit) := by
  apply leaves_progress_bind
  intro p
  apply leaves_bind (leaves_note _)
  intro _
  apply leaves_config_bind
  intro c
  exact leaves_bind (leaves_ask _) fun _ => leaves_excludeAssignment

theorem leaves_onNlpInfeasible : Leaves (onNlpInfeasible : Run π α Unit) := by
  apply leaves_bind (leaves_note _)
  intro _
  apply leaves_config_bind
  intro c
  exact leaves_bind (leaves_ask _) fun _ => leaves_excludeAssignment

theorem leaves_onNlpOther (condition : Termination) :
    Leaves (onNlpOther condition : Run π α Unit) := by
  apply leaves_progress_bind
  intro p
  exact leaves_bind (leaves_note _) fun _ => leaves_excludeAssignment

theorem leaves_repeatsAssignment [Rounding α] : Leaves (repeatsAssignment : Run π α Bool) := by
  rw [repeatsAssignment_eq]
  exact leaves_bind (leaves_ask _) fun _ => leaves_compareAssignment _

theorem leaves_nextMaster : Leaves (nextMaster : Run π α (SubproblemResult α)) := by
  apply leaves_bind
  · exact leaves_update fun _ => rfl
  intro _
  exact leaves_config_bind fun _ => leaves_ask _

theorem leaves_dropLast : Leaves (dropLast : Run π α Bool) :=
  leaves_bind (leaves_ask _) fun _ => leaves_get_bind fun _ => leaves_pure _

end Questions

variable [Scalar α]

theorem leaves_elapsed : Leaves (elapsed : Run π α α) :=
  fun _ => ensures_elapsed fun _ ht => ht.trans ⟨rfl, rfl, List.prefix_rfl⟩

theorem leaves_onMasterOptimal (master : SubproblemResult α) :
    Leaves (onMasterOptimal master : Run π α Unit) := by
  apply leaves_bind
  · apply leaves_update
    intro p
    unfold Progress.afterMasterOptimal
    cases p.sense <;> rfl
  intro _
  exact leaves_progress_bind fun _ => leaves_note _

theorem leaves_onMasterOther (master : SubproblemResult α) :
    Leaves (onMasterOther master : Run π α Unit) := by
  apply leaves_progress_bind
  intro _
  apply leaves_bind (leaves_note _)
  intro _
  apply leaves_update
  intro p
  unfold Progress.afterMasterOther
  split
  all_goals (try rfl)
  all_goals (split <;> split <;> rfl)

variable [MinlpProblem π α]

theorem leaves_onNlpOptimal (nlp : SubproblemResult α) :
    Leaves (onNlpOptimal nlp : Run π α Unit) := by
  rw [onNlpOptimal_eq]
  apply leaves_progress_bind
  intro _
  apply leaves_bind
  · apply leaves_update
    intro p
    unfold Progress.afterFeasible
    cases p.sense <;> rfl
  intro _
  split
  · apply leaves_bind
    · apply leaves_update
      intro p
      unfold Progress.offer
      split <;> rfl
    intro _
    exact leaves_bind (leaves_note _) fun _ => leaves_linearize nlp
  · exact leaves_linearize nlp

theorem leaves_onNlp (nlp : SubproblemResult α) : Leaves (onNlp nlp : Run π α Unit) := by
  unfold onNlp
  split
  · exact leaves_onNlpOptimal nlp
  · exact leaves_onNlpOptimal nlp
  · exact leaves_onNlpInfeasible
  · exact leaves_onNlpOther _

theorem leaves_nlpPhase (callbacks : Callbacks π α) : Leaves (nlpPhase callbacks) := by
  apply leaves_config_bind
  intro c
  split
  · apply leaves_bind (leaves_ask _)
    intro nlp
    exact leaves_bind (leaves_onNlp nlp) fun _ => leaves_call _
  · exact leaves_pure _

end Run

def OptimalOnly (t : α) (Q : State π α → Prop) (s : State π α) : Prop :=
  s.config.boundTolerance = t ∧
    (.masterInfeasible ∉ s.events → s.progress.results.condition = .optimal → Q s)

def Infeasible (t : α) (s : State π α) : Prop :=
  s.config.boundTolerance = t ∧ .masterInfeasible ∈ s.events

section Conditions

variable {t : α} {Q Q' : State π α → Prop} {s u : State π α}

theorem OptimalOnly.mono (h : OptimalOnly t Q s) (himp : Q s → Q' s) : OptimalOnly t Q' s :=
  ⟨h.1, fun hfeasible hoptimal => himp (h.2 hfeasible hoptimal)⟩

theorem OptimalOnly.continues (h : OptimalOnly t Q s) (hu : Continues s u) (hQ : Q s → Q' u) :
    OptimalOnly t Q' u := by
  constructor
  · exact hu.tolerance.trans h.1
  · intro hfeasible hoptimal
    apply hQ
    apply h.2
    · exact fun hmem => hfeasible (hu.events.subset hmem)
    · exact hu.condition.symm.trans hoptimal

theorem Run.Leaves.optimalOnly {m : Run π α β} (h : Leaves m)
    (hQ : ∀ s u, Continues s u → Q s → Q u) :
    Ensures (OptimalOnly t Q) m fun _ => OptimalOnly t Q :=
  h.ensures fun s u hu hs => hs.continues hu (hQ s u hu)

theorem Run.Leaves.undecided {m : Run π α β} (h : Leaves m) :
    Ensures (OptimalOnly t fun _ => False) m fun _ => OptimalOnly t fun _ => False :=
  h.optimalOnly fun _ _ _ => id

variable [Scalar α]

def Reported (t : α) (events : List (Event α)) : Prop :=
  ∃ lower upper, .converged lower t upper ∈ events ∧ Scalar.le upper (lower + t) = true

/-- Bounds were reported to have met within `t`, and a correction after that. -/
def Overruled (t : α) (events : List (Event α)) : Prop :=
  ∃ before after condition, events = before ++ after ∧ Reported t before ∧
    .corrected condition ∈ after

theorem Reported.mono {events more : List (Event α)} (h : Reported t events)
    (hgrown : events <+: more) : Reported t more := by
  obtain ⟨lower, upper, hmem, hmet⟩ := h
  exact ⟨lower, upper, hgrown.subset hmem, hmet⟩

theorem Overruled.mono {events more : List (Event α)} (h : Overruled t events)
    (hgrown : events <+: more) : Overruled t more := by
  obtain ⟨before, after, condition, rfl, hreported, hmem⟩ := h
  obtain ⟨rest, rfl⟩ := hgrown
  exact ⟨before, after ++ rest, condition, List.append_assoc _ _ _, hreported,
    List.mem_append_left rest hmem⟩

theorem Run.Leaves.reported {m : Run π α β} (h : Leaves m) :
    Ensures (OptimalOnly t fun s => Reported t s.events) m
      fun _ => OptimalOnly t fun s => Reported t s.events :=
  h.optimalOnly fun _ _ hu hreported => hreported.mono hu.events

/-- Bounds that have met, or that a correction has replaced after they had met. -/
def Justified (c : Config α) (lower upper : α) (events : List (Event α)) : Prop :=
  Scalar.le upper (lower + c.boundTolerance) = true ∨
    c.addNoGoodCuts = true ∧ Overruled c.boundTolerance events

theorem Justified.mono {c : Config α} {lower upper : α} {events more : List (Event α)}
    (h : Justified c lower upper events) (hgrown : events <+: more) :
    Justified c lower upper more :=
  h.imp_right fun h => ⟨h.1, h.2.mono hgrown⟩

def Fresh (c : Config α) (s : State π α) : Prop :=
  OptimalOnly c.boundTolerance (fun _ => False) s ∧ s.config = c

def Ended (c : Config α) : State π α → Prop :=
  OptimalOnly c.boundTolerance fun s => Justified c s.progress.lower s.progress.upper s.events

def Met (t : α) (s : State π α) : Prop :=
  s.progress.boundsConverged t = true ∧ Reported t s.events

end Conditions

namespace Run

variable {t : α} {Q : State π α → Prop}

theorem ensures_stop {e : Event α} {condition : Termination} {R : Bool → State π α → Prop}
    (h : condition ≠ .optimal) :
    Ensures (OptimalOnly t Q) (stop e condition) fun stops => OptimalOnly t (R stops) := by
  intro s hs stops u hrun
  cases hrun
  exact ⟨hs.1, fun _ hoptimal => absurd hoptimal h⟩

variable [Scalar α]

theorem ensures_stop_converged {p : Progress α} (h : p.boundsConverged t = true) :
    Ensures (fun s => OptimalOnly t Q s ∧ s.progress = p)
      (stop (.converged p.lower t p.upper) .optimal)
      fun stops => OptimalOnly t fun s => stops = true ∧ Met t s := by
  intro s hs stops u hrun
  cases hrun
  refine ⟨hs.1.1, fun _ _ => ⟨rfl, ?_, p.lower, p.upper, ?_, h⟩⟩
  · exact hs.2 ▸ h
  · exact List.mem_append_right _ (List.mem_singleton_self _)

theorem ensures_onMasterInfeasible {R : State π α → Prop} :
    Ensures (OptimalOnly t Q) (onMasterInfeasible : Run π α Unit) fun _ => OptimalOnly t R := by
  have hupdate : Ensures (Infeasible t) (update (·.afterMasterInfeasible))
      fun _ => OptimalOnly t R :=
    ensures_update fun s hs => ⟨hs.1, fun hfeasible => absurd hs.2 hfeasible⟩
  refine ensures_bind (fun _ => Infeasible t) (ensures_modify fun s hs => ?_) fun _ => ?_
  · exact ⟨hs.1, List.mem_append_right _ (List.mem_singleton_self _)⟩
  refine ensures_progress_bind fun p => Ensures.pre ?_ fun s hs => hs.1
  split
  · refine ensures_bind _ ((leaves_note _).ensures ?_) fun _ => hupdate
    exact fun s u hu hs => ⟨hu.tolerance.trans hs.1, hu.events.subset hs.2⟩
  · exact hupdate

theorem ensures_takeCorrection {c : Config α} (hc : c.boundTolerance = t)
    (master : SubproblemResult α) :
    Ensures (OptimalOnly t fun s => Reported t s.events) (takeCorrection c master : Run π α Unit)
      fun _ => OptimalOnly t fun s =>
        s.progress.boundsConverged t = true ∨ Overruled t s.events := by
  refine ensures_bind (fun _ => OptimalOnly t fun s => Overruled t s.events) ?_ fun _ => ?_
  · refine ensures_modify fun s hs => hs.continues ⟨rfl, rfl, List.prefix_append _ _⟩ ?_
    exact fun hreported => ⟨s.events, _, _, rfl, hreported, List.mem_singleton_self _⟩
  refine ensures_bind (fun _ => OptimalOnly t fun s => Overruled t s.events) ?_ fun _ => ?_
  · refine Leaves.optimalOnly (leaves_update fun p => ?_) fun s u hu h => h.mono hu.events
    unfold Progress.correctBound
    cases p.sense <;> rfl
  refine ensures_progress_bind fun p => ?_
  split
  next hconverged =>
    refine ensures_update fun s hs => ⟨hs.1.1, fun _ _ => .inl ?_⟩
    rw [← hc, hs.2]
    exact hconverged
  next => exact ensures_pure fun s hs => hs.1.mono .inr

variable [MinlpProblem π α]

theorem ensures_resolve {c : Config α} (hc : c.boundTolerance = t) :
    Ensures (OptimalOnly t fun s => Reported t s.events) (resolve c : Run π α Unit)
      fun _ => OptimalOnly t fun s =>
        s.progress.boundsConverged t = true ∨ Overruled t s.events := by
  have hmaster := ensures_bind _
    ((leaves_ask (π := π) (MinlpProblem.solveMaster · (correctionOptions c))).reported)
    (ensures_takeCorrection hc)
  refine ensures_bind _ leaves_dropLast.reported fun persistent => ?_
  split
  · exact ensures_bind _ (leaves_ask _).reported fun _ => hmaster
  · exact hmaster

/-- After a correction the bounds have met, or they had met before it. -/
theorem ensures_correctBound (settled : Bool) :
    Ensures (OptimalOnly t fun s => Reported t s.events) (correctBound settled : Run π α Unit)
      fun _ => OptimalOnly t fun s =>
        s.progress.boundsConverged t = true ∨ Overruled t s.events := by
  rw [correctBound_eq]
  refine ensures_bind (fun _ => OptimalOnly t fun s => Reported t s.events)
    (ensures_modify fun s hs => hs) fun _ => ?_
  intro s hs b u hrun
  have hamend : Ensures (OptimalOnly t fun s => Reported t s.events)
      (amend settled s.config : Run π α Unit) fun _ => OptimalOnly t fun s =>
        s.progress.boundsConverged t = true ∨ Overruled t s.events := by
    unfold amend
    split
    · refine ensures_bind _ (leaves_ask _).reported fun nlp => ?_
      exact ensures_bind _ (leaves_onNlp nlp).reported fun _ => ensures_resolve hs.1
    · exact ensures_resolve hs.1
  exact hamend s hs b u hrun

variable [Rounding α]

theorem ensures_shouldTerminate (checkCycling : Bool) :
    Ensures (OptimalOnly t fun _ => False) (shouldTerminate checkCycling : Run π α Bool)
      fun stops => OptimalOnly t fun s => stops = true ∧ Met t s := by
  rw [shouldTerminate_eq]
  refine ensures_config_bind fun c => ensures_progress_bind fun p => ?_
  split
  next hconverged =>
    intro s hs
    have hc : c.boundTolerance = t := hs.1.2 ▸ hs.1.1.1
    subst hc
    exact ensures_stop_converged hconverged s ⟨hs.1.1, hs.2⟩
  refine Ensures.pre ?_ fun s hs => hs.1.1
  split
  · exact ensures_stop (by decide)
  refine ensures_bind _ leaves_elapsed.undecided fun time => ?_
  split
  · exact ensures_stop (by decide)
  unfold stopIfCycling
  split
  · refine ensures_bind _ leaves_repeatsAssignment.undecided fun repeats => ?_
    split
    · exact ensures_stop (by decide)
    · exact ensures_pure fun s hs => hs.mono False.elim
  · exact ensures_pure fun s hs => hs.mono False.elim

theorem ensures_tryAssignment (callbacks : Callbacks π α) :
    Ensures (OptimalOnly t fun _ => False) (tryAssignment callbacks)
      fun settled => OptimalOnly t fun s => settled.isSome = true ∧ Met t s := by
  refine ensures_bind _ (leaves_call _).undecided fun _ => ?_
  refine ensures_bind _ (ensures_shouldTerminate true) fun stops => ?_
  cases stops with
  | true => exact ensures_pure fun s hs => hs.mono fun h => ⟨rfl, h.2⟩
  | false =>
    refine ensures_bind (fun _ => OptimalOnly t fun _ => False)
      ((leaves_nlpPhase callbacks).undecided.pre ?_) fun _ => ?_
    · exact fun s hs => hs.mono fun h => Bool.noConfusion h.1
    · exact ensures_pure fun s hs => hs.mono False.elim

theorem ensures_iteration (callbacks : Callbacks π α) :
    Ensures (OptimalOnly t fun _ => False) (iteration callbacks)
      fun settled => OptimalOnly t fun s => settled.isSome = true ∧ Met t s := by
  rw [iteration_eq]
  refine ensures_progress_bind fun p => Ensures.pre ?_ fun s hs => hs.1
  refine ensures_bind _ (leaves_note _).undecided fun _ => ?_
  refine ensures_bind _ (ensures_shouldTerminate false) fun stops => ?_
  cases stops with
  | true => exact ensures_pure fun s hs => hs.mono fun h => ⟨rfl, h.2⟩
  | false =>
    refine Ensures.pre (P := OptimalOnly t fun _ => False) ?_ fun s hs => hs.mono fun h =>
      Bool.noConfusion h.1
    refine ensures_bind _ leaves_nextMaster.undecided fun master => ?_
    split
    · exact ensures_bind _ ensures_onMasterInfeasible fun _ => ensures_pure fun s hs => hs
    split
    · exact ensures_bind _ (leaves_onMasterOptimal master).undecided fun _ =>
        ensures_tryAssignment callbacks
    · exact ensures_bind _ (leaves_onMasterOther master).undecided fun _ =>
        ensures_tryAssignment callbacks

theorem ensures_iterate (callbacks : Callbacks π α) (fuel : Nat) :
    Ensures (OptimalOnly t fun _ => False) (iterate callbacks fuel)
      fun _ => OptimalOnly t (Met t) := by
  induction fuel with
  | zero =>
    refine ensures_progress_bind fun p => Ensures.pre ?_ fun s hs => hs.1
    refine ensures_bind _ (leaves_note _).undecided fun _ => ?_
    refine ensures_bind _ (ensures_shouldTerminate false) fun stops => ?_
    exact ensures_pure fun s hs => hs.mono And.right
  | succ fuel ih =>
    refine ensures_bind _ (ensures_iteration callbacks) fun settled => ?_
    cases settled with
    | some settled => exact ensures_pure fun s hs => hs.mono And.right
    | none => exact ih.pre fun s hs => hs.mono fun h => Bool.noConfusion h.1

theorem ensures_loop (callbacks : Callbacks π α) (c : Config α) :
    Ensures (Fresh c) (loop callbacks) fun _ => Ended c := by
  refine ensures_config_bind fun c' s hs => ?_
  have hc : c' = c := hs.2.symm.trans hs.1.2
  subst hc
  refine Ensures.pre (P := OptimalOnly c'.boundTolerance fun _ => False) ?_ (fun _ h => h) s hs.1.1
  split
  · exact ensures_throw _
  refine ensures_progress_bind fun p => Ensures.pre ?_ fun s hs => hs.1
  refine ensures_bind _ (ensures_iterate callbacks _) fun settled => ?_
  refine ensures_progress_bind fun q => Ensures.pre ?_ fun s hs => hs.1
  split
  next hcorrects =>
    have hcuts : c'.addNoGoodCuts = true := (Bool.and_eq_true_iff.mp hcorrects).1
    refine (ensures_correctBound settled).mono (fun s hs => hs.mono And.right) ?_
    exact fun _ s hs => hs.mono (Or.imp_right fun h => ⟨hcuts, h⟩)
  next => exact ensures_pure fun s hs => hs.mono fun h => .inl h.1

theorem ensures_solve (callbacks : Callbacks π α) (c : Config α) :
    Ensures (Fresh c) (solve callbacks) fun r s => .masterInfeasible ∉ s.events →
      r.condition = .optimal → Justified c r.lower r.upper s.events := by
  refine ensures_bind (fun _ => Fresh c) (ensures_now fun s hs => hs) fun time => ?_
  refine ensures_bind (fun _ => Fresh c) (ensures_modify fun s hs => hs) fun _ => ?_
  refine ensures_bind _ (ensures_loop callbacks c) fun _ => ?_
  refine ensures_bind (fun _ => Ended c) (ensures_now fun s hs => hs) fun time => ?_
  refine ensures_bind (fun _ => Ended c) (ensures_modify fun s hs => hs) fun _ => ?_
  refine ensures_bind (fun _ => Ended c) (ensures_elapsed fun s hs => hs) fun time => ?_
  refine ensures_bind (fun _ s => .masterInfeasible ∉ s.events →
    s.progress.results.condition = .optimal →
      Justified c s.progress.results.lower s.progress.results.upper s.events)
    (ensures_update fun s hs => hs.2) fun _ => ?_
  refine ensures_progress_bind fun p => ?_
  refine ensures_bind (fun _ s => .masterInfeasible ∉ s.events → p.results.condition = .optimal →
    Justified c p.results.lower p.results.upper s.events) (ensures_modify fun s hs => ?_)
    fun _ => ensures_pure fun s hs => hs
  have hgrown (e : Event α) : s.events <+: s.events ++ [e] := List.prefix_append _ _
  intro hfeasible hoptimal
  rw [← hs.2] at hoptimal ⊢
  exact (hs.1 (fun hmem => hfeasible ((hgrown _).subset hmem)) hoptimal).mono (hgrown _)

/-- An optimal run that no infeasible master problem has ended returns bounds that have met, unless
they had met before a correction replaced one of them. -/
theorem solve_optimal_justified {callbacks : Callbacks π α} {problem : π} {config : Config α}
    {clock : Clock α} {r : Results α} {s : State π α}
    (hrun : (solve callbacks).run.run (.new problem config clock) = (.ok r, s))
    (hfeasible : .masterInfeasible ∉ s.events) (hoptimal : r.condition = .optimal) :
    Scalar.le r.upper (r.lower + config.boundTolerance) = true ∨
      config.addNoGoodCuts = true ∧ Overruled config.boundTolerance s.events := by
  have hstart : Fresh config (State.new problem config clock) :=
    ⟨⟨rfl, fun _ hoptimal => Termination.noConfusion hoptimal⟩, rfl⟩
  exact ensures_solve callbacks config _ hstart r s hrun hfeasible hoptimal

end Run

structure Playback (α : Type) where
  masters : List (SubproblemResult α)
  nlps : List (SubproblemResult α)
  integers : Array α := #[]

namespace Playback

instance [Scalar α] : MinlpProblem (Playback α) α where
  sense _ := .minimize
  solveMaster _ _ b :=
    let answer := b.masters.headD (.ofCondition .unknown)
    (.ok answer, { b with masters := b.masters.tail, integers := answer.solution })
  solveNlp _ _ b := (.ok (b.nlps.headD (.ofCondition .unknown)), { b with nlps := b.nlps.tail })
  integers b := (b.integers, b)
  addCuts _ _ b := (.ok (), b)
  addFeasibilityCut _ _ b := (.ok (), b)
  addNoGoodCut _ b := (.ok (), b)
  dropLastNoGoodCut b := (.ok (), b)

/-- The bounds meet at the second master problem. The master problem of the correction runs out of
time. -/
def outOfTime : Playback (Extended ℚ) where
  masters := [⟨.optimal, 0, 0, 0, #[]⟩, ⟨.optimal, 1, 1, 1, #[]⟩, .ofCondition .maxTimeLimit]
  nlps := [⟨.optimal, 1, 1, 1, #[]⟩, ⟨.optimal, 1, 1, 1, #[]⟩]

def isMasterInfeasible : Event α → Bool
  | .masterInfeasible => true
  | _ => false

def summary (x : Except Error (Results (Extended ℚ)) × State (Playback (Extended ℚ)) (Extended ℚ)) :
    Option (Termination × Bool × Bool) :=
  x.1.toOption.map fun r =>
    (r.condition, Scalar.le r.upper (r.lower + Menu.config.boundTolerance),
      x.2.events.any isMasterInfeasible)

theorem summary_outOfTime :
    summary ((Run.solve .none).run.run (.new outOfTime Menu.config Menu.clock)) =
      some (.optimal, false, false) := by decide +kernel

theorem exists_of_summary
    {x : Except Error (Results (Extended ℚ)) × State (Playback (Extended ℚ)) (Extended ℚ)}
    {condition : Termination} {met : Bool} (h : summary x = some (condition, met, false)) :
    ∃ r s, x = (.ok r, s) ∧ .masterInfeasible ∉ s.events ∧ r.condition = condition ∧
      Scalar.le r.upper (r.lower + Menu.config.boundTolerance) = met := by
  cases x with
  | mk result s =>
    cases result with
    | error e => cases h
    | ok r =>
      obtain ⟨hcondition, hrest⟩ := Prod.mk.inj (Option.some.inj h)
      obtain ⟨hmet, hany⟩ := Prod.mk.inj hrest
      refine ⟨r, s, rfl, fun hmem => ?_, hcondition, hmet⟩
      exact absurd (List.any_eq_true.mpr ⟨_, hmem, rfl⟩) (Bool.eq_false_iff.mp hany)

/-- An optimal run without an infeasible master problem whose bounds have not met. -/
theorem outOfTime_not_met :
    ∃ r s, (Run.solve .none).run.run (.new outOfTime Menu.config Menu.clock) = (.ok r, s) ∧
      .masterInfeasible ∉ s.events ∧ r.condition = .optimal ∧
        ¬ Scalar.le r.upper (r.lower + Menu.config.boundTolerance) = true := by
  obtain ⟨r, s, hrun, hfeasible, hoptimal, hmet⟩ := exists_of_summary summary_outOfTime
  exact ⟨r, s, hrun, hfeasible, hoptimal, Bool.eq_false_iff.mp hmet⟩

theorem outOfTime_overruled :
    ∃ r s, (Run.solve .none).run.run (.new outOfTime Menu.config Menu.clock) = (.ok r, s) ∧
      r.condition = .optimal ∧ Overruled Menu.config.boundTolerance s.events := by
  obtain ⟨r, s, hrun, hfeasible, hoptimal, hmet⟩ := exists_of_summary summary_outOfTime
  have hjustified := Run.solve_optimal_justified hrun hfeasible hoptimal
  exact ⟨r, s, hrun, hoptimal, (hjustified.resolve_left (Bool.eq_false_iff.mp hmet)).2⟩

end Playback

end NonlinearOpt.OuterApprox
