import NonlinearOpt.Proofs.OuterApprox.Invariant
import NonlinearOpt.Proofs.OuterApprox.Parts
import NonlinearOpt.Proofs.OuterApprox.Truth
import Mathlib.Algebra.Order.Field.Rat
import Mathlib.Data.Fin.VecNotation

namespace NonlinearOpt.OuterApprox

variable {π A α β : Type}

namespace Run

variable [LinearOrder α] [Scalar α] {s : Sense} {val : A → α} {t v : α} {o : Prop}

def Between (o : Prop) (s : Sense) (val : A → α) (t v : α) (l : Ledger A) (p : Progress α) : Prop :=
  InRun o s val t v l.excluded p

theorem Between.weaken {q : Prop} {l : Ledger A} {p : Progress α} (h : Between True s val t v l p) :
    Between q s val t v l p :=
  ⟨h.sound, h.kept, fun _ => h.opened trivial⟩

theorem holds_compareAssignment (assignment : List Int) :
    Ensures (Holds s val t (Between o s val t v))
      (compareAssignment assignment : Run (Recorded π A α) α Bool)
      fun _ => Holds s val t (Between o s val t v) := by
  refine ensures_bind (fun _ => Holds s val t (Between o s val t v))
    (holds_update fun l p hp => InRun.count hp _ _ _ _) fun _ => holds_progress_bind fun p => ?_
  split
  · exact ensures_pure fun _ h => h.mono fun _ _ hp => hp.1
  · refine ensures_bind _ (holds_update fun l p hp => ?_) fun _ => ensures_pure fun _ h => h
    exact InRun.count hp.1 _ _ _ _

theorem holds_stop (e : Event α) {condition : Termination} (hoptimal : condition ≠ .optimal)
    (hinfeasible : condition ≠ .infeasible) :
    Ensures (Holds s val t (Between True s val t v))
      (stop e condition : Run (Recorded π A α) α Bool)
      fun _ => Holds s val t (Between True s val t v) :=
  ensures_bind _ (holds_note e) fun _ =>
    ensures_bind _ (holds_update fun _ _ hp => InRun.conclude hp hoptimal hinfeasible) fun _ =>
      ensures_pure fun _ h => h

section Verdicts

variable [ExtendedScalar α]

theorem holds_onMasterInfeasible (ht : 0 ≤ t) (hv : s.IsBest val v)
    {master : SubproblemResult α} (hinfeasible : master.condition = .infeasible) :
    Ensures
      (Holds s val t fun l p => Between True s val t v l p ∧ master.TrueMaster s val l.excluded)
      (onMasterInfeasible : Run (Recorded π A α) α Unit)
      fun _ => Holds s val t (Between False s val t v) := by
  have hupdate : Ensures
      (Holds s val t fun l p => Between True s val t v l p ∧ master.TrueMaster s val l.excluded)
      (update (·.afterMasterInfeasible) : Run (Recorded π A α) α Unit)
      fun _ => Holds s val t (Between False s val t v) :=
    holds_update fun l p hp => InRun.afterMasterInfeasible ht hv hp.1 (hp.2.2.2 hinfeasible)
  refine ensures_bind _ (holds_note _) fun _ => holds_progress_bind fun p => ?_
  split
  · refine ensures_bind _ (holds_note _) fun _ => hupdate.pre fun _ h => h.mono fun _ _ hp => hp.1
  · exact hupdate.pre fun _ h => h.mono fun _ _ hp => hp.1

theorem holds_onMasterOptimal (master : SubproblemResult α) :
    Ensures
      (Holds s val t fun l p => Between True s val t v l p ∧ master.TrueMaster s val l.excluded)
      (onMasterOptimal master : Run (Recorded π A α) α Unit)
      fun _ => Holds s val t (Between True s val t v) := by
  refine ensures_bind (fun _ => Holds s val t (Between True s val t v)) (holds_update ?_) fun _ =>
    holds_progress_bind fun p => (holds_note _).post fun _ _ h => h.mono fun _ _ hp => hp.1
  exact fun l p hp => InRun.afterMasterOptimal hp.1 master hp.2.1 hp.2.2.1

theorem holds_onMasterOther (master : SubproblemResult α) :
    Ensures
      (Holds s val t fun l p => Between True s val t v l p ∧ master.TrueMaster s val l.excluded)
      (onMasterOther master : Run (Recorded π A α) α Unit)
      fun _ => Holds s val t (Between True s val t v) := by
  refine holds_progress_bind fun p => ensures_bind _ (holds_note _) fun _ => holds_update ?_
  exact fun l q hq => InRun.afterMasterOther hq.1.1 master hq.1.2.1 hq.1.2.2.1

theorem holds_stop_converged (ht : 0 ≤ t) (ht' : t < Scalar.infinity) (hv : s.IsBest val v)
    (e : Event α) {p : Progress α} (hconverged : p.boundsConverged t = true) :
    Ensures (Holds s val t fun l q => Between True s val t v l q ∧ q = p)
      (stop e .optimal : Run (Recorded π A α) α Bool)
      fun _ => Holds s val t (Between True s val t v) := by
  refine ensures_bind _ (holds_note e) fun _ => ?_
  refine ensures_bind (fun _ => Holds s val t (Between True s val t v))
    (holds_update fun l q hq => ?_) fun _ => ensures_pure fun _ h => h
  obtain ⟨⟨hsound, hkept, hopen⟩, rfl⟩ := hq
  exact ⟨hsound.conclude_optimal ht ht' hv (hopen trivial).master hconverged,
    ⟨hkept.passes, hkept.ne_worst⟩, fun _ => ⟨(hopen trivial).master, (hopen trivial).history⟩⟩

theorem holds_takeCorrection (ht : 0 ≤ t) (ht' : t < Scalar.infinity) (hv : s.IsBest val v)
    {c : Config α} (hc : c.boundTolerance = t) (master : SubproblemResult α) :
    Ensures
      (Holds s val t fun l p => Between False s val t v l p ∧ master.TrueMaster s val l.excluded)
      (takeCorrection c master : Run (Recorded π A α) α Unit)
      fun _ => Holds s val t fun l p => Sound s val t v l.excluded p := by
  refine ensures_bind _ (holds_note _) fun _ => ?_
  refine ensures_bind
    (fun _ => Holds s val t fun l p => Sound s val t v l.excluded p ∧ p.masterBound ≠ s.worst)
    (holds_update fun l p hp => InRun.correctBound hp.1 master hp.2.1 hp.2.2.1) fun _ => ?_
  refine holds_progress_bind fun p => ?_
  split
  · next hconverged =>
    refine holds_update fun l q hq => ?_
    obtain ⟨⟨hsound, hne⟩, rfl⟩ := hq
    rw [hc] at hconverged
    exact hsound.conclude_optimal ht ht' hv hne hconverged
  · exact ensures_pure fun _ h => h.mono fun _ _ hq => hq.1.1

end Verdicts

section Questions

variable [MinlpProblem π α]

theorem holds_solveMaster (options : MasterOptions) :
    Ensures (Holds s val t (Between o s val t v))
      (ask (MinlpProblem.solveMaster · options) :
        Run (Recorded π A α) α (SubproblemResult α))
      fun master => Holds s val t fun l p => Between o s val t v l p ∧
        master.TrueMaster s val l.excluded :=
  holds_ask (Q := fun (master : SubproblemResult α) l p => Between o s val t v l p ∧
    master.TrueMaster s val l.excluded) fun _ _ _ _ _ hp htruth =>
    ⟨hp, (truthful_cons.mp htruth).1⟩

theorem holds_solveNlp {P : Ledger A → Progress α → Prop} (c : Config α) :
    Ensures (Holds s val t P)
      (ask (MinlpProblem.solveNlp · c) : Run (Recorded π A α) α (SubproblemResult α))
      fun nlp => Holds s val t fun l p => P l p ∧ (Exchange.nlp nlp).Truthful s val l :=
  holds_ask (Q := fun nlp l p => P l p ∧ (Exchange.nlp nlp).Truthful s val l)
    fun _ _ _ _ _ hp htruth => ⟨hp, (truthful_cons.mp htruth).1⟩

theorem holds_excludeAssignment :
    Ensures
      (Holds s val t fun l p => Between o s val t v l p ∧
        ∀ a ∈ l.current, s.Le p.pointBound (val a))
      (excludeAssignment : Run (Recorded π A α) α Unit)
      fun _ => Holds s val t (Between o s val t v) := by
  refine holds_config_bind fun c _ => ?_
  split
  · refine holds_ask (Q := fun _ => Between o s val t v) fun _ _ _ l p hp _ => ?_
    refine hp.1.exclude fun a ha => hp.2 a ?_
    simpa using ha
  · exact ensures_pure fun _ h => h.mono fun _ _ hp => hp.1

theorem holds_linearize (nlp : SubproblemResult α) :
    Ensures
      (Holds s val t fun l p => Between o s val t v l p ∧
        ∀ a ∈ l.current, s.Le p.pointBound (val a))
      (linearize nlp : Run (Recorded π A α) α Unit)
      fun _ => Holds s val t (Between o s val t v) := by
  refine holds_progress_bind fun p => ?_
  refine ensures_bind _ (holds_note _) fun _ => holds_config_bind fun c _ => ?_
  refine ensures_bind _ holds_ask_unrecorded fun _ => holds_excludeAssignment.pre ?_
  exact fun _ h => h.mono fun _ _ hp => hp.1

theorem holds_repeatsAssignment [Rounding α] :
    Ensures (Holds s val t (Between o s val t v))
      (repeatsAssignment : Run (Recorded π A α) α Bool)
      fun _ => Holds s val t (Between o s val t v) := by
  rw [repeatsAssignment_eq]
  refine ensures_bind (fun _ => Holds s val t (Between o s val t v))
    (ensures_ask fun st hs values problem hask => ?_) fun _ => holds_compareAssignment _
  cases hask
  exact hs

theorem holds_stopIfCycling [Rounding α] (c : Config α) (p : Progress α) (checkCycling : Bool) :
    Ensures (Holds s val t (Between True s val t v))
      (stopIfCycling c p checkCycling : Run (Recorded π A α) α Bool)
      fun _ => Holds s val t (Between True s val t v) := by
  unfold stopIfCycling
  split
  · refine ensures_bind _ holds_repeatsAssignment fun cycles => ?_
    split
    · exact holds_stop _ (by decide) (by decide)
    · exact ensures_pure fun _ h => h
  · exact ensures_pure fun _ h => h

/-- The assignment of the last no-good cut is among the others again. -/
theorem holds_dropLast :
    Ensures (Holds s val t (Between False s val t v))
      (dropLast : Run (Recorded π A α) α Bool)
      fun _ => Holds s val t (Between False s val t v) := by
  refine ensures_bind (fun _ => Holds s val t (Between False s val t v))
    (holds_ask (Q := fun _ => Between False s val t v) fun _ _ _ l p hp _ => InRun.readmit hp)
    fun _ => ensures_get_bind fun st hst => ensures_pure ?_
  exact fun _ heq => heq ▸ hst

theorem holds_nextMaster :
    Ensures (Holds s val t (Between o s val t v))
      (nextMaster : Run (Recorded π A α) α (SubproblemResult α))
      fun master => Holds s val t fun l p => Between o s val t v l p ∧
        master.TrueMaster s val l.excluded :=
  ensures_bind (fun _ => Holds s val t (Between o s val t v))
    (holds_update fun _ _ hp => InRun.count hp _ _ _ _)
    fun _ => holds_config_bind fun _ _ => holds_solveMaster _

end Questions

variable [MinlpProblem π α] [ExtendedScalar α]

theorem holds_onNlpOptimal (nlp : SubproblemResult α) :
    Ensures
      (Holds s val t fun l p => Between o s val t v l p ∧
        ∃ a, l.current = some a ∧ nlp.objective = val a)
      (onNlpOptimal nlp : Run (Recorded π A α) α Unit)
      fun _ => Holds s val t (Between o s val t v) := by
  rw [onNlpOptimal_eq]
  refine holds_progress_bind fun p => ?_
  refine ensures_bind
    (fun _ => Holds s val t fun l q => q = p.afterFeasible nlp.objective ∧
      Between o s val t v l p ∧ ∃ a, l.current = some a ∧ nlp.objective = val a)
    (holds_update fun l q hq => ?_) fun _ => ?_
  · obtain ⟨⟨hbetween, ha⟩, rfl⟩ := hq
    exact ⟨rfl, hbetween, ha⟩
  split
  · next himproves =>
    refine ensures_bind _ (holds_update fun l q hq => ?_) fun _ =>
      ensures_bind _ (holds_note _) fun _ => holds_linearize nlp
    obtain ⟨rfl, hbetween, a, ha, hval⟩ := hq
    obtain ⟨hrun, hle⟩ := hbetween.offer nlp.solution hval.symm himproves
    exact ⟨hrun, Ledger.forall_current ha (hval ▸ hle)⟩
  · next himproves =>
    refine (holds_linearize nlp).pre fun _ h => h.mono fun l q hq => ?_
    obtain ⟨rfl, hbetween, a, ha, hval⟩ := hq
    obtain ⟨hrun, hle⟩ := hbetween.afterFeasible (Bool.eq_false_iff.mpr himproves)
    exact ⟨hrun, Ledger.forall_current ha (hval ▸ hle)⟩

theorem holds_onNlpInfeasible :
    Ensures
      (Holds s val t fun l p => Between o s val t v l p ∧
        ∃ a, l.current = some a ∧ val a = s.worst)
      (onNlpInfeasible : Run (Recorded π A α) α Unit)
      fun _ => Holds s val t (Between o s val t v) := by
  refine ensures_bind _ (holds_note _) fun _ => holds_config_bind fun c _ => ?_
  refine ensures_bind _ holds_ask_unrecorded fun _ => holds_excludeAssignment.pre ?_
  refine fun _ h => h.mono fun l p hp => ?_
  obtain ⟨hbetween, a, ha, hval⟩ := hp
  exact ⟨hbetween, Ledger.forall_current ha (hval ▸ Sense.le_worst s _)⟩

theorem holds_onNlp (nlp : SubproblemResult α) :
    Ensures
      (Holds s val t fun l p => Between o s val t v l p ∧ (Exchange.nlp nlp).Truthful s val l)
      (onNlp nlp : Run (Recorded π A α) α Unit)
      fun _ => Holds s val t (Between o s val t v) := by
  unfold onNlp
  split
  · next hcondition =>
    refine (holds_onNlpOptimal nlp).pre fun _ h => h.mono ?_
    rintro l p ⟨hp, a, ha, ⟨-, hval⟩ | ⟨hother, -⟩⟩
    · exact ⟨hp, a, ha, hval⟩
    · cases hcondition.symm.trans hother
  · next hcondition =>
    refine (holds_onNlpOptimal nlp).pre fun _ h => h.mono ?_
    rintro l p ⟨-, -, -, ⟨hother, -⟩ | ⟨hother, -⟩⟩
    · cases hcondition.symm.trans hother
    · cases hcondition.symm.trans hother
  · next hcondition =>
    refine holds_onNlpInfeasible.pre fun _ h => h.mono ?_
    rintro l p ⟨hp, a, ha, ⟨hother, -⟩ | ⟨-, hval⟩⟩
    · cases hcondition.symm.trans hother
    · exact ⟨hp, a, ha, hval⟩
  · next hoptimal _ hinfeasible =>
    refine holds_progress_bind fun p => ensures_bind _ (holds_note _) fun _ => ?_
    refine holds_excludeAssignment.pre fun _ h => h.mono ?_
    rintro l q ⟨⟨-, -, -, ⟨hother, -⟩ | ⟨hother, -⟩⟩, -⟩
    · cases hoptimal hother
    · cases hinfeasible hother

theorem holds_nlpPhase (callbacks : Callbacks π α) :
    Ensures (Holds s val t (Between o s val t v))
      (nlpPhase callbacks.recorded : Run (Recorded π A α) α Unit)
      fun _ => Holds s val t (Between o s val t v) := by
  refine holds_config_bind fun c _ => ?_
  split
  · exact ensures_bind _ (holds_solveNlp c) fun nlp =>
      ensures_bind _ (holds_onNlp nlp) fun _ => holds_call _
  · exact ensures_pure fun _ h => h

theorem holds_resolve (ht : 0 ≤ t) (ht' : t < Scalar.infinity) (hv : s.IsBest val v)
    {c : Config α} (hc : c.boundTolerance = t) :
    Ensures (Holds s val t (Between False s val t v))
      (resolve c : Run (Recorded π A α) α Unit)
      fun _ => Holds s val t fun l p => Sound s val t v l.excluded p := by
  have hmaster := ensures_bind _ (holds_solveMaster (π := π) (correctionOptions c))
    (holds_takeCorrection ht ht' hv hc)
  refine ensures_bind _ holds_dropLast fun persistent => ?_
  split
  · exact ensures_bind _ holds_ask_unrecorded fun _ => hmaster
  · exact hmaster

theorem holds_correctBound (ht : 0 ≤ t) (ht' : t < Scalar.infinity) (hv : s.IsBest val v)
    (settled : Bool) :
    Ensures (Holds s val t (Between False s val t v))
      (correctBound settled : Run (Recorded π A α) α Unit)
      fun _ => Holds s val t fun l p => Sound s val t v l.excluded p := by
  rw [correctBound_eq]
  refine ensures_bind (fun _ => Holds s val t (Between False s val t v))
    (ensures_modify fun _ h => h) fun _ => holds_config_bind fun c hc => ?_
  unfold amend
  split
  · exact ensures_bind _ (holds_solveNlp c) fun nlp =>
      ensures_bind _ (holds_onNlp nlp) fun _ => holds_resolve ht ht' hv hc
  · exact holds_resolve ht ht' hv hc

variable [Rounding α]

theorem holds_shouldTerminate (ht : 0 ≤ t) (ht' : t < Scalar.infinity) (hv : s.IsBest val v)
    (checkCycling : Bool) :
    Ensures (Holds s val t (Between True s val t v))
      (shouldTerminate checkCycling : Run (Recorded π A α) α Bool)
      fun _ => Holds s val t (Between True s val t v) := by
  rw [shouldTerminate_eq]
  refine holds_config_bind fun c hc => holds_progress_bind fun p => ?_
  split
  · next hconverged =>
    exact holds_stop_converged ht ht' hv _ (hc ▸ hconverged)
  refine Ensures.pre (P := Holds s val t (Between True s val t v)) ?_
    fun _ h => h.mono fun _ _ hp => hp.1
  split
  · exact holds_stop _ (by decide) (by decide)
  refine ensures_bind _ holds_elapsed fun time => ?_
  split
  · exact holds_stop _ (by decide) (by decide)
  · exact holds_stopIfCycling c p checkCycling

theorem holds_tryAssignment (ht : 0 ≤ t) (ht' : t < Scalar.infinity) (hv : s.IsBest val v)
    (callbacks : Callbacks π α) :
    Ensures (Holds s val t (Between True s val t v))
      (tryAssignment callbacks.recorded : Run (Recorded π A α) α (Option Bool))
      fun stops => Holds s val t (Between (stops = none) s val t v) := by
  refine ensures_bind _ (holds_call _) fun _ => ?_
  refine ensures_bind _ (holds_shouldTerminate ht ht' hv true) fun stops => ?_
  split
  · exact ensures_pure fun _ h => h.mono fun _ _ => Between.weaken
  · refine ensures_bind _ (holds_nlpPhase callbacks) fun _ => ensures_pure fun _ h => ?_
    exact h.mono fun _ _ => Between.weaken

theorem holds_iteration (ht : 0 ≤ t) (ht' : t < Scalar.infinity) (hv : s.IsBest val v)
    (callbacks : Callbacks π α) :
    Ensures (Holds s val t (Between True s val t v))
      (iteration callbacks.recorded : Run (Recorded π A α) α (Option Bool))
      fun stops => Holds s val t (Between (stops = none) s val t v) := by
  rw [iteration_eq]
  refine holds_progress_bind fun p => ensures_bind _ (holds_note _) fun _ => ?_
  refine ensures_bind _ ((holds_shouldTerminate ht ht' hv false).pre fun _ h =>
    h.mono fun _ _ hp => hp.1) fun stops => ?_
  split
  · exact ensures_pure fun _ h => h.mono fun _ _ => Between.weaken
  refine ensures_bind _ holds_nextMaster fun master => ?_
  split
  · next hinfeasible =>
    refine ensures_bind _ (holds_onMasterInfeasible ht hv hinfeasible) fun _ =>
      ensures_pure fun _ h => h.mono fun l p hp => ?_
    exact ⟨hp.sound, hp.kept, nofun⟩
  split
  · exact ensures_bind _ (holds_onMasterOptimal master) fun _ =>
      holds_tryAssignment ht ht' hv callbacks
  · exact ensures_bind _ (holds_onMasterOther master) fun _ =>
      holds_tryAssignment ht ht' hv callbacks

theorem holds_iterate (ht : 0 ≤ t) (ht' : t < Scalar.infinity) (hv : s.IsBest val v)
    (callbacks : Callbacks π α) (fuel : Nat) :
    Ensures (Holds s val t (Between True s val t v))
      (iterate callbacks.recorded fuel : Run (Recorded π A α) α Bool)
      fun _ => Holds s val t (Between False s val t v) := by
  induction fuel with
  | zero =>
    refine holds_progress_bind fun p => ensures_bind _ (holds_note _) fun _ => ?_
    refine ensures_bind _ ((holds_shouldTerminate ht ht' hv false).pre fun _ h =>
      h.mono fun _ _ hp => hp.1) fun stops => ensures_pure fun _ h => h.mono fun l p hp => ?_
    exact ⟨hp.sound, hp.kept, nofun⟩
  | succ fuel ih =>
    refine ensures_bind _ (holds_iteration ht ht' hv callbacks) fun stops => ?_
    cases stops with
    | some settled =>
      exact ensures_pure fun _ h => h.mono fun l p hp => ⟨hp.sound, hp.kept, nofun⟩
    | none =>
      refine ih.pre fun _ h => h.mono fun l p hp => ?_
      exact ⟨hp.sound, hp.kept, fun _ => hp.opened rfl⟩

theorem holds_loop (ht : 0 ≤ t) (ht' : t < Scalar.infinity) (hv : s.IsBest val v)
    (callbacks : Callbacks π α) :
    Ensures (Holds s val t (Between True s val t v))
      (loop callbacks.recorded : Run (Recorded π A α) α Unit)
      fun _ => Holds s val t fun l p => Sound s val t v l.excluded p := by
  refine holds_config_bind fun c hc => ?_
  split
  · exact ensures_throw _
  refine holds_progress_bind fun p => ?_
  refine ensures_bind _ ((holds_iterate ht ht' hv callbacks _).pre fun _ h =>
    h.mono fun _ _ hp => hp.1) fun settled => holds_progress_bind fun p => ?_
  split
  · exact (holds_correctBound ht ht' hv settled).pre fun _ h => h.mono fun _ _ hp => hp.1
  · exact ensures_pure fun _ h => h.mono fun _ _ hp => hp.1.sound

theorem holds_solve (ht : 0 ≤ t) (ht' : t < Scalar.infinity) (hv : s.IsBest val v)
    (callbacks : Callbacks π α) :
    Ensures (Holds s val t (Between True s val t v))
      (solve callbacks.recorded : Run (Recorded π A α) α (Results α))
      fun r => Holds s val t fun l _ => ∃ q time, Sound s val t v l.excluded q ∧
        r = q.finalize time := by
  refine ensures_bind _ holds_now fun _ => ensures_bind _ (holds_updateTimers _) fun _ => ?_
  refine ensures_bind _ (holds_loop ht ht' hv callbacks) fun _ => ?_
  refine ensures_bind _ holds_now fun _ => ensures_bind _ (holds_updateTimers _) fun _ => ?_
  refine ensures_bind _ holds_elapsed fun time => ?_
  refine ensures_bind
    (fun _ => Holds s val t fun l p => ∃ q, Sound s val t v l.excluded q ∧
      p.results = q.finalize time)
    (holds_update fun l p hp => ⟨p, hp, rfl⟩) fun _ => holds_progress_bind fun p => ?_
  refine ensures_bind _ (holds_note _) fun _ => ensures_pure fun _ h => h.mono ?_
  rintro l _ ⟨⟨q, hq, hresults⟩, rfl⟩
  exact ⟨q, time, hq, hresults⟩

end Run

section Statement

variable [LinearOrder α] [Scalar α] {s : Sense} {val : A → α} {t v : α}

/-- A final record that tells the truth about the best objective `v`, up to the tolerance `t`. -/
def Results.Correct (s : Sense) (t v : α) (r : Results α) : Prop :=
  match s with
  | .minimize => min r.lower r.upper ≤ v ∧ v ≤ r.upper ∧
      (r.condition = .optimal → r.bestObjective = some r.upper ∧ r.upper ≤ v + t) ∧
      (r.condition = .infeasible → v = Scalar.infinity)
  | .maximize => v ≤ max r.lower r.upper ∧ r.lower ≤ v ∧
      (r.condition = .optimal → r.bestObjective = some r.lower ∧ v ≤ r.lower + t) ∧
      (r.condition = .infeasible → v = -Scalar.infinity)

variable [ExtendedScalar α]

theorem Sound.correct_finalize {excluded : List A} {p : Progress α} (hv : s.IsBest val v)
    (h : Sound s val t v excluded p) (time : α) : (p.finalize time).Correct s t v := by
  have hpoint : s.Le v p.pointBound := by
    rcases h.point with hworst | ⟨a, ha⟩
    · rw [hworst]
      exact Sense.le_worst s v
    · rw [← ha]
      exact hv.le a
  have hoptimal : p.results.condition = .optimal →
      p.bestObjective = some p.pointBound ∧ s.Near t p.pointBound v := by
    intro hcondition
    obtain ⟨hne, hnear⟩ := h.optimal hcondition
    rw [h.best, if_neg hne]
    exact ⟨rfl, hnear⟩
  have hinfeasible : p.results.condition = .infeasible → v = s.worst := by
    intro hcondition
    refine Sense.eq_worst (hv.le_of_forall fun a => ?_)
    rw [h.infeasible hcondition a]
    exact Sense.Le.refl s _
  have hmaster := hv.le_or_le h.master
  have hsense := h.sense
  cases s with
  | minimize =>
    simp only [Progress.pointBound, Progress.masterBound, hsense] at hpoint hoptimal hmaster
    exact ⟨min_le_iff.mpr hmaster, hpoint, hoptimal, hinfeasible⟩
  | maximize =>
    simp only [Progress.pointBound, Progress.masterBound, hsense] at hpoint hoptimal hmaster
    exact ⟨le_max_iff.mpr hmaster.symm, hpoint, hoptimal, hinfeasible⟩

variable [MinlpProblem π α] [Rounding α]

/-- A run that receives true answers returns a record that tells the truth. -/
theorem Run.solve_correct {callbacks : Callbacks π α} {problem : π} {config : Config α}
    {clock : Clock α} {r : Results α} {st : State π α} (assignment : π → A)
    (ht : 0 ≤ config.boundTolerance) (hfinite : config.boundTolerance < Scalar.infinity)
    (hv : (MinlpProblem.sense problem).IsBest val v)
    (htruth : Truthful (MinlpProblem.sense problem) val .empty
      (exchanges assignment callbacks problem config clock))
    (hrun : (solve callbacks).run.run (.new problem config clock) = (.ok r, st)) :
    r.Correct (MinlpProblem.sense problem) config.boundTolerance v := by
  obtain ⟨st', hrecorded, hlog⟩ := exists_recorded_run assignment hrun
  have hstart : Holds (MinlpProblem.sense problem) val config.boundTolerance
      (Between True (MinlpProblem.sense problem) val config.boundTolerance v)
      (recordedStart assignment problem config clock) :=
    ⟨rfl, fun _ => inRun_new _ val v hfinite⟩
  obtain ⟨-, hholds⟩ := holds_solve ht hfinite hv callbacks _ hstart r st' hrecorded
  rw [hlog] at hholds
  obtain ⟨p, time, hsound, rfl⟩ := hholds htruth
  exact hsound.correct_finalize hv time

end Statement

/-- Three assignments, the last one infeasible, each with the objective of its subproblem. -/
def objectives : Fin 3 → Extended ℚ := ![3, 1, ⊤]

structure Menu where
  excluded : List (Fin 3)
  current : Fin 3

namespace Menu

def solveMaster (m : Menu) : SubproblemResult (Extended ℚ) × Menu :=
  match (List.finRange 3).find? (· ∉ m.excluded) with
  | none => (⟨.infeasible, 1, ⊤, ⊤, #[]⟩, m)
  | some a => (⟨.optimal, 1, ⊤, 1, #[]⟩, { m with current := a })

def solveNlp (m : Menu) : SubproblemResult (Extended ℚ) :=
  if objectives m.current = ⊤ then .ofCondition .infeasible
  else ⟨.optimal, 0, 0, objectives m.current, #[]⟩

instance : MinlpProblem Menu (Extended ℚ) where
  sense _ := .minimize
  solveMaster _ _ m := m.solveMaster.map .ok id
  solveNlp _ _ m := (.ok m.solveNlp, m)
  integers m := (#[Scalar.ofNat m.current], m)
  addCuts _ _ m := (.ok (), m)
  addFeasibilityCut _ _ m := (.ok (), m)
  addNoGoodCut _ m := (.ok (), { m with excluded := m.excluded ++ [m.current] })
  dropLastNoGoodCut m := (.ok (), { m with excluded := m.excluded.dropLast })

instance : Rounding (Extended ℚ) where
  round
    | some (some q) => if 0 ≤ q then (q + 1 / 2).floor else -(-q + 1 / 2).floor
    | _ => 0

def config : Config (Extended ℚ) := { Config.default with addNoGoodCuts := true }

def clock : Clock (Extended ℚ) := ⟨fun _ => 0, 0⟩

theorem isBest_objectives : Sense.minimize.IsBest objectives 1 := by
  constructor
  · rintro _ ⟨a, rfl⟩
    revert a
    decide +kernel
  · exact fun _ hx => hx (Set.mem_range_self 1)

theorem truthful_objectives : Truthful .minimize objectives .empty
    (Run.exchanges current .none ⟨[], 0⟩ config clock) := by decide +kernel

theorem optimal_objectives :
    ((Run.solve .none).run.run (.new (⟨[], 0⟩ : Menu) config clock)).1.toOption.map (·.condition) =
      some .optimal := by decide +kernel

theorem exists_ok {x : Except Error (Results α) × State π α} {condition : Termination}
    (h : x.1.toOption.map (·.condition) = some condition) :
    ∃ r st, x = (.ok r, st) ∧ r.condition = condition := by
  rcases x with ⟨e | r, st⟩
  · cases h
  · exact ⟨r, st, rfl, Option.some.inj h⟩

theorem solve_correct_objectives :
    ∃ r st, (Run.solve .none).run.run (.new (⟨[], 0⟩ : Menu) config clock) = (.ok r, st) ∧
      r.condition = .optimal ∧ r.Correct .minimize config.boundTolerance 1 := by
  obtain ⟨r, st, hrun, hoptimal⟩ := exists_ok optimal_objectives
  exact ⟨r, st, hrun, hoptimal, Run.solve_correct current (by decide +kernel) (by decide +kernel)
    isBest_objectives truthful_objectives hrun⟩

end Menu

end NonlinearOpt.OuterApprox
