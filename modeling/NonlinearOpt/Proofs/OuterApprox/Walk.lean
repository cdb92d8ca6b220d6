import NonlinearOpt.Proofs.OuterApprox.Trail

namespace NonlinearOpt.OuterApprox

variable {π α β γ : Type}

def Call.point? : Call α → Option (SubproblemResult α)
  | solveNlp (.ok nlp) =>
    if nlp.condition = .optimal ∨ nlp.condition = .locallyOptimal then some nlp else none
  | _ => none

structure Progress.KeepsFindings (p p' : Progress α) : Prop extends p.KeepsBounds p' where
  bestObjective : p'.bestObjective = p.bestObjective
  bestSolution : p'.bestSolution = p.bestSolution

section Sustained

variable [Scalar α]

def Progress.takePoint (nlp : SubproblemResult α) (p : Progress α) : Progress α :=
  if p.improvesBound nlp.objective then
    ((p.afterFeasible nlp.objective).offer nlp.objective nlp.solution).2
  else p.afterFeasible nlp.objective

/-- A property of the views so far and of the progress that is kept by all that happens in a
search. -/
structure Sustained (J : List (View α) → Progress α → Prop) : Prop where
  idle : ∀ {views p p'}, J views p → p.KeepsFindings p' → J views p'
  /-- Only points have to be dealt with. -/
  pass : ∀ {views p} {call : Call α}, call.point? = none → J views p →
    J (views ++ [⟨p, some call⟩]) p
  master : ∀ {views p} (master : SubproblemResult α), J views p →
    J (views ++ [⟨p, some (.solveMaster (.ok master))⟩]) (p.afterMasterOptimal master)
  exhausted : ∀ {views p} {master : SubproblemResult α}, master.condition = .infeasible →
    J views p → J (views ++ [⟨p, some (.solveMaster (.ok master))⟩]) p.afterMasterInfeasible
  point : ∀ {views p} {nlp : SubproblemResult α}, (Call.solveNlp (.ok nlp)).point? = some nlp →
    J views p → J (views ++ [⟨p, some (.solveNlp (.ok nlp))⟩]) (p.takePoint nlp)

/-- What is left of a property when the bound from master problems has been corrected. -/
structure Survives (J K : List (View α) → Progress α → Prop) : Prop where
  weaken : ∀ {views p}, J views p → K views p
  correct : ∀ {views p} (master : SubproblemResult α), J views p →
    K views (p.correctBound master)
  report : ∀ {views p} (results : Results α), K views p → K views { p with results }

end Sustained

namespace Run

variable {J K : List (View α) → Progress α → Prop} {answer : Call α}

/-- Between two answers. -/
def At (J : List (View α) → Progress α → Prop) (t : State (Watched π α) α) : Prop :=
  J t.problem.views t.progress

/-- After an answer that has had no effect yet. -/
def Answered (J : List (View α) → Progress α → Prop) (answer : Call α)
    (t : State (Watched π α) α) : Prop :=
  ∃ views, t.problem.views = views ++ [⟨t.progress, some answer⟩] ∧ J views t.progress

def Keeps (J : List (View α) → Progress α → Prop) (m : Run (Watched π α) α β) : Prop :=
  Carries (At J) (At J) m fun _ => At J

section Basic

theorem keeps_pure (b : β) : Keeps J (pure b : Run (Watched π α) α β) :=
  carries_pure fun _ ht => ⟨ht, ht⟩

theorem keeps_bind {m : Run (Watched π α) α γ} {f : γ → Run (Watched π α) α β} (hm : Keeps J m)
    (hf : ∀ c, Keeps J (f c)) : Keeps J (m >>= f) :=
  carries_bind _ hm hf

theorem keeps_progress_bind {f : Progress α → Run (Watched π α) α β} (h : ∀ p, Keeps J (f p)) :
    Keeps J (progress >>= f) :=
  carries_progress_bind fun p => (h p).pre fun _ ht => ht.1

theorem keeps_config_bind {f : Config α → Run (Watched π α) α β} (h : ∀ c, Keeps J (f c)) :
    Keeps J (config >>= f) :=
  carries_config_bind h

theorem keeps_note (e : Event α) : Keeps J (note e : Run (Watched π α) α Unit) :=
  carries_modify fun _ ht => ⟨ht, ht⟩

theorem keeps_updateTimers (f : Timers α → Timers α) :
    Keeps J (updateTimers f : Run (Watched π α) α Unit) :=
  carries_modify fun _ ht => ⟨ht, ht⟩

theorem keeps_now : Keeps J (now : Run (Watched π α) α α) := fun _ ht => ⟨ht, fun _ _ => ht⟩

theorem keeps_unseen (f : π → Except Error β × π) :
    Keeps J (ask fun _ r => (f r.problem).map id fun problem : π => { r with problem } :
      Run (Watched π α) α β) :=
  carries_ask fun _ ht => ⟨ht, fun _ _ => ht⟩

theorem keeps_dropLast [MinlpProblem π α] : Keeps J (dropLast : Run (Watched π α) α Bool) :=
  keeps_bind (keeps_unseen MinlpProblem.dropLastNoGoodCut) fun _ _ ht => ⟨ht, fun _ _ => ht⟩

variable [Scalar α]

theorem keeps_elapsed : Keeps J (elapsed : Run (Watched π α) α α) :=
  carries_elapsed fun _ ht => ⟨ht, ht⟩

theorem exists_run_onNlpOptimal [MinlpProblem π α] (nlp : SubproblemResult α)
    (t : State (Watched π α) α) :
    ∃ events, (onNlpOptimal nlp).run.run t =
      (linearize nlp).run.run { t with progress := t.progress.takePoint nlp, events } := by
  rw [onNlpOptimal_eq]
  unfold Progress.takePoint
  cases himproved : t.progress.improvesBound nlp.objective with
  | true =>
    refine ⟨t.events ++ [.incumbent nlp.objective], ?_⟩
    rw [run_bind]
    show (if t.progress.improvesBound nlp.objective then _ else _ : Run (Watched π α) α Unit).run.run
      _ = _
    rw [himproved]
    rfl
  | false =>
    refine ⟨t.events, ?_⟩
    rw [run_bind]
    show (if t.progress.improvesBound nlp.objective then _ else _ : Run (Watched π α) α Unit).run.run
      _ = _
    rw [himproved]
    rfl

end Basic

section Parts

variable [Scalar α] (h : Sustained J)

include h

theorem Answered.at (hpoint : answer.point? = none) {t : State (Watched π α) α}
    (ht : Answered J answer t) : At J t := by
  obtain ⟨views, hviews, hJ⟩ := ht
  unfold At
  rw [hviews]
  exact h.pass hpoint hJ

theorem Keeps.answered (hpoint : answer.point? = none) {m : Run (Watched π α) α β}
    (hm : Keeps J m) : Carries (At J) (Answered J answer) m fun _ => At J :=
  hm.pre fun _ ht => ht.at h hpoint

theorem keeps_update {f : Progress α → Progress α} (hf : ∀ p : Progress α, p.KeepsFindings (f p)) :
    Keeps J (update f : Run (Watched π α) α Unit) :=
  carries_modify fun t ht =>
    have hkept : J t.problem.views (f t.progress) := h.idle ht (hf t.progress)
    ⟨hkept, hkept⟩

theorem keeps_stop (e : Event α) (condition : Termination) :
    Keeps J (stop e condition : Run (Watched π α) α Bool) := by
  apply keeps_bind (keeps_note e)
  intro _
  exact keeps_bind (keeps_update h fun _ => ⟨⟨rfl, rfl, rfl, rfl, rfl⟩, rfl, rfl⟩) fun _ =>
    keeps_pure true

theorem keeps_compareAssignment (assignment : List Int) :
    Keeps J (compareAssignment assignment : Run (Watched π α) α Bool) := by
  apply keeps_bind
  · exact keeps_update h fun _ => ⟨⟨rfl, rfl, rfl, rfl, rfl⟩, rfl, rfl⟩
  intro _
  apply keeps_progress_bind
  intro p
  split
  · exact keeps_pure _
  · exact keeps_bind (keeps_update h fun _ => ⟨⟨rfl, rfl, rfl, rfl, rfl⟩, rfl, rfl⟩) fun _ =>
      keeps_pure _

theorem carries_see {f : Progress α → π → Except Error β × π} {entry : Except Error β → Call α}
    (hpoint : ∀ x, (entry x).point? = none) :
    Carries (At J) (At J) (ask fun p r => r.see p entry (f p r.problem))
      fun b => Answered J (entry (.ok b)) := by
  refine carries_ask fun t ht => ⟨h.pass (hpoint _) ht, fun b hb => ?_⟩
  refine ⟨t.problem.views, ?_, ht⟩
  rw [← hb]
  rfl

theorem keeps_see {f : Progress α → π → Except Error β × π} {entry : Except Error β → Call α}
    (hpoint : ∀ x, (entry x).point? = none) :
    Keeps J (ask fun p r => r.see p entry (f p r.problem)) :=
  (carries_see h hpoint).mono (fun _ ht => ht) (fun _ ht => ht) fun _ _ ht => ht.at h (hpoint _)

theorem keeps_see_bind {f : Progress α → π → Except Error γ × π} {entry : Except Error γ → Call α}
    {g : γ → Run (Watched π α) α β} (hpoint : ∀ e, (entry (.error e)).point? = none)
    (hg : ∀ c, Carries (At J) (Answered J (entry (.ok c))) (g c) fun _ => At J) :
    Keeps J (ask (fun p r => r.see p entry (f p r.problem)) >>= g) := by
  intro t ht
  have hask : (ask fun p r => r.see p entry (f p r.problem)).run.run t =
      ((f t.progress t.problem.problem).1,
        { t with problem := (t.problem.see t.progress entry
          (f t.progress t.problem.problem)).2 }) := rfl
  rw [run_bind, hask]
  cases hanswer : (f t.progress t.problem.problem).1 with
  | error e =>
    refine ⟨?_, nofun⟩
    show J (t.problem.views ++ [⟨t.progress, some (entry _)⟩]) t.progress
    rw [hanswer]
    exact h.pass (hpoint e) ht
  | ok c =>
    refine hg c _ ⟨t.problem.views, ?_, ht⟩
    show t.problem.views ++ [⟨t.progress, some (entry _)⟩] = _
    rw [hanswer]

theorem keeps_call (f : Option (Callback π α)) (entry : Except Error Unit → Call α)
    (hpoint : ∀ x, (entry x).point? = none) :
    Keeps J (call (f.map (Watched.callback entry))) := by
  cases f with
  | none => exact keeps_pure ()
  | some f =>
    show Keeps J (ask fun p r => (Watched.callback entry f p r).map (·.mapError .callback) id)
    apply carries_ask
    intro t ht
    have hkept : J (t.problem.views ++ [⟨t.progress, some
        (entry ((f t.progress t.problem.problem).1.mapError .callback))⟩]) t.progress :=
      h.pass (hpoint _) ht
    exact ⟨hkept, fun _ _ => hkept⟩

omit [Scalar α] h in
theorem carries_answer {f : Progress α → Progress α}
    (hf : ∀ {views p}, J views p → J (views ++ [⟨p, some answer⟩]) (f p)) :
    Carries (At J) (Answered J answer) (update f : Run (Watched π α) α Unit) fun _ => At J := by
  apply carries_modify
  rintro t ⟨views, hviews, hJ⟩
  have hkept : At J { t with progress := f t.progress } := by
    show J t.problem.views (f t.progress)
    rw [hviews]
    exact hf hJ
  exact ⟨hkept, hkept⟩

theorem carries_note_answered (hpoint : answer.point? = none) (e : Event α) :
    Carries (At J) (Answered J answer) (note e : Run (Watched π α) α Unit)
      fun _ => Answered J answer :=
  carries_modify fun _ ht => ⟨ht.at h hpoint, ht⟩

theorem carries_onMasterOptimal (master : SubproblemResult α) :
    Carries (At J) (Answered J (.solveMaster (.ok master)))
      (onMasterOptimal master : Run (Watched π α) α Unit) fun _ => At J := by
  apply carries_bind _ (carries_answer fun hJ => h.master master hJ)
  intro _
  exact keeps_progress_bind fun _ => keeps_note _

theorem carries_onMasterOther (master : SubproblemResult α) :
    Carries (At J) (Answered J (.solveMaster (.ok master)))
      (onMasterOther master : Run (Watched π α) α Unit) fun _ => At J := by
  apply carries_progress_bind
  intro p
  refine Carries.pre ?_ fun _ ht => ht.1
  apply carries_bind _ (carries_note_answered h rfl _)
  intro _
  refine carries_answer fun {views p} hJ => ?_
  rcases p.afterMasterOther_eq master with heq | heq
  · rw [heq]
    exact h.pass rfl hJ
  · rw [heq]
    exact h.master master hJ

theorem carries_onMasterInfeasible {master : SubproblemResult α}
    (hmaster : master.condition = .infeasible) :
    Carries (At J) (Answered J (.solveMaster (.ok master)))
      (onMasterInfeasible : Run (Watched π α) α Unit) fun _ => At J := by
  have hupdate : Carries (At J) (Answered J (.solveMaster (.ok master)))
      (update (·.afterMasterInfeasible) : Run (Watched π α) α Unit) fun _ => At J :=
    carries_answer fun hJ => h.exhausted hmaster hJ
  apply carries_bind _ (carries_note_answered h rfl _)
  intro _
  apply carries_progress_bind
  intro p
  refine Carries.pre ?_ fun _ ht => ht.1
  split
  · exact carries_bind _ (carries_note_answered h rfl _) fun _ => hupdate
  · exact hupdate

variable [MinlpProblem π α]

theorem keeps_excludeAssignment : Keeps J (excludeAssignment : Run (Watched π α) α Unit) := by
  apply keeps_config_bind
  intro c
  split
  · exact keeps_see h fun _ => rfl
  · exact keeps_pure ()

theorem keeps_onNlpInfeasible : Keeps J (onNlpInfeasible : Run (Watched π α) α Unit) := by
  apply keeps_bind (keeps_note _)
  intro _
  apply keeps_config_bind
  intro c
  exact keeps_bind (keeps_see h fun _ => rfl) fun _ => keeps_excludeAssignment h

theorem keeps_onNlpOther (condition : Termination) :
    Keeps J (onNlpOther condition : Run (Watched π α) α Unit) := by
  apply keeps_progress_bind
  intro p
  exact keeps_bind (keeps_note _) fun _ => keeps_excludeAssignment h

theorem keeps_linearize (nlp : SubproblemResult α) :
    Keeps J (linearize nlp : Run (Watched π α) α Unit) := by
  apply keeps_progress_bind
  intro p
  apply keeps_bind (keeps_note _)
  intro _
  apply keeps_config_bind
  intro c
  exact keeps_bind (keeps_see h fun _ => rfl) fun _ => keeps_excludeAssignment h

theorem carries_onNlpOptimal {nlp : SubproblemResult α}
    (hpoint : (Call.solveNlp (.ok nlp)).point? = some nlp) :
    Carries (At J) (Answered J (.solveNlp (.ok nlp)))
      (onNlpOptimal nlp : Run (Watched π α) α Unit) fun _ => At J := by
  rintro t ⟨views, hviews, hJ⟩
  obtain ⟨events, hrun⟩ := exists_run_onNlpOptimal nlp t
  rw [hrun]
  refine keeps_linearize h nlp _ ?_
  show J t.problem.views (t.progress.takePoint nlp)
  rw [hviews]
  exact h.point hpoint hJ

theorem carries_onNlp (nlp : SubproblemResult α) :
    Carries (At J) (Answered J (.solveNlp (.ok nlp)))
      (onNlp nlp : Run (Watched π α) α Unit) fun _ => At J := by
  unfold onNlp
  split
  · next hcondition => exact carries_onNlpOptimal h (if_pos (.inl hcondition))
  · next hcondition => exact carries_onNlpOptimal h (if_pos (.inr hcondition))
  · next hcondition =>
    have hpoint : (Call.solveNlp (.ok nlp)).point? = none := by
      rw [Call.point?, hcondition]
      exact if_neg (by decide)
    exact (keeps_onNlpInfeasible h).answered h hpoint
  · next hoptimal hlocally _ =>
    have hpoint : (Call.solveNlp (.ok nlp)).point? = none :=
      if_neg (not_or.mpr ⟨hoptimal, hlocally⟩)
    exact (keeps_onNlpOther h _).answered h hpoint

theorem keeps_subproblem (c : Config α) :
    Keeps J (do onNlp (← ask (MinlpProblem.solveNlp · c)) : Run (Watched π α) α Unit) :=
  keeps_see_bind h (fun _ => rfl) (carries_onNlp h)

theorem keeps_nlpPhase (callbacks : Callbacks π α) : Keeps J (nlpPhase callbacks.watched) := by
  apply keeps_config_bind
  intro c
  split
  · have hphase := keeps_bind (keeps_subproblem h c) fun _ =>
      keeps_call h callbacks.afterNlp .afterNlp fun _ => rfl
    rwa [bind_assoc] at hphase
  · exact keeps_pure ()

theorem carries_nextMaster :
    Carries (At J) (At J) (nextMaster : Run (Watched π α) α (SubproblemResult α))
      fun master => Answered J (.solveMaster (.ok master)) := by
  apply carries_bind (fun _ => At J)
  · exact keeps_update h fun _ => ⟨⟨rfl, rfl, rfl, rfl, rfl⟩, rfl, rfl⟩
  intro _
  exact carries_config_bind fun _ => carries_see h fun _ => rfl

end Parts

section Search

variable [Scalar α] [Rounding α] [MinlpProblem π α] (h : Sustained J)

include h

theorem keeps_repeatsAssignment : Keeps J (repeatsAssignment : Run (Watched π α) α Bool) :=
  keeps_bind (keeps_unseen fun problem => (MinlpProblem.integers problem).map .ok id)
    fun _ => keeps_compareAssignment h _

theorem keeps_shouldTerminate (checkCycling : Bool) :
    Keeps J (shouldTerminate checkCycling : Run (Watched π α) α Bool) := by
  rw [shouldTerminate_eq]
  apply keeps_config_bind
  intro c
  apply keeps_progress_bind
  intro p
  split
  · exact keeps_stop h _ _
  split
  · exact keeps_stop h _ _
  apply keeps_bind keeps_elapsed
  intro time
  split
  · exact keeps_stop h _ _
  unfold stopIfCycling
  split
  · apply keeps_bind (keeps_repeatsAssignment h)
    intro repeats
    split
    · exact keeps_stop h _ _
    · exact keeps_pure _
  · exact keeps_pure _

theorem keeps_tryAssignment (callbacks : Callbacks π α) :
    Keeps J (tryAssignment callbacks.watched) := by
  apply keeps_bind (keeps_call h _ _ fun _ => rfl)
  intro _
  apply keeps_bind (keeps_shouldTerminate h true)
  intro stops
  split
  · exact keeps_pure _
  · exact keeps_bind (keeps_nlpPhase h callbacks) fun _ => keeps_pure _

theorem keeps_iteration (callbacks : Callbacks π α) : Keeps J (iteration callbacks.watched) := by
  rw [iteration_eq]
  apply keeps_progress_bind
  intro p
  apply keeps_bind (keeps_note _)
  intro _
  apply keeps_bind (keeps_shouldTerminate h false)
  intro stops
  split
  · exact keeps_pure _
  apply carries_bind _ (carries_nextMaster h)
  intro master
  split
  · next hinfeasible =>
    exact carries_bind _ (carries_onMasterInfeasible h hinfeasible) fun _ => keeps_pure _
  split
  · exact carries_bind _ (carries_onMasterOptimal h master) fun _ =>
      keeps_tryAssignment h callbacks
  · exact carries_bind _ (carries_onMasterOther h master) fun _ => keeps_tryAssignment h callbacks

theorem keeps_iterate (callbacks : Callbacks π α) (fuel : Nat) :
    Keeps J (iterate callbacks.watched fuel) := by
  induction fuel with
  | zero =>
    apply keeps_progress_bind
    intro p
    apply keeps_bind (keeps_note _)
    intro _
    exact keeps_bind (keeps_shouldTerminate h false) fun _ => keeps_pure _
  | succ fuel ih =>
    apply keeps_bind (keeps_iteration h callbacks)
    intro settled
    cases settled with
    | some settled => exact keeps_pure _
    | none => exact ih

theorem keeps_search (callbacks : Callbacks π α) : Keeps J (search callbacks.watched) := by
  apply keeps_config_bind
  intro c
  split
  · exact carries_throw _ fun _ ht => ht
  · exact keeps_progress_bind fun _ => keeps_iterate h callbacks _

end Search

section Correction

variable [Scalar α] (h : Sustained J) (hsurvives : Survives J K)

include hsurvives

theorem Keeps.survives {m : Run (Watched π α) α β} (hm : Keeps J m) :
    Carries (At K) (At J) m fun _ => At J :=
  hm.mono (fun _ ht => ht) (fun _ ht => hsurvives.weaken ht) fun _ _ ht => ht

theorem carries_takeCorrection (c : Config α) (master : SubproblemResult α) :
    Carries (At K) (At J) (takeCorrection c master : Run (Watched π α) α Unit) fun _ => At K := by
  apply carries_bind _ ((keeps_note _).survives hsurvives)
  intro _
  refine carries_bind (fun _ => At K) (carries_modify fun t ht => ?_) fun _ => ?_
  · have hkept : K t.problem.views (t.progress.correctBound master) := hsurvives.correct master ht
    exact ⟨hkept, hkept⟩
  apply carries_progress_bind
  intro p
  refine Carries.pre ?_ fun _ ht => ht.1
  split
  · refine carries_modify fun t ht => ?_
    have hkept : K t.problem.views (t.progress.conclude .optimal) := hsurvives.report _ ht
    exact ⟨hkept, hkept⟩
  · exact keeps_pure _

include h

variable [MinlpProblem π α]

theorem carries_resolve (c : Config α) :
    Carries (At K) (At J) (resolve c : Run (Watched π α) α Unit) fun _ => At K := by
  have hmaster : Carries (At K) (At J) (do
      takeCorrection c (← ask (MinlpProblem.solveMaster · (correctionOptions c))) :
        Run (Watched π α) α Unit) fun _ => At K :=
    carries_bind _ ((keeps_see h fun _ => rfl).survives hsurvives)
      (carries_takeCorrection hsurvives c)
  apply carries_bind _ (keeps_dropLast.survives hsurvives)
  intro persistent
  split
  · exact carries_bind _ ((keeps_unseen MinlpProblem.reload).survives hsurvives) fun _ => hmaster
  · exact hmaster

theorem carries_amend (settled : Bool) (c : Config α) :
    Carries (At K) (At J) (amend settled c : Run (Watched π α) α Unit) fun _ => At K := by
  unfold amend
  split
  · simpa only [bind_assoc] using carries_bind _ ((keeps_subproblem h c).survives hsurvives)
      fun _ => carries_resolve h hsurvives c
  · exact carries_resolve h hsurvives c

theorem carries_correctBound (settled : Bool) :
    Carries (At K) (At J) (correctBound settled : Run (Watched π α) α Unit) fun _ => At K := by
  intro t ht
  rw [correctBound_run]
  exact carries_amend h hsurvives settled _ _ ht

theorem carries_correctIfExcluded (c : Config α) (settled : Bool) :
    Carries (At K) (At J) (correctIfExcluded c settled : Run (Watched π α) α Unit)
      fun _ => At K := by
  apply carries_progress_bind
  intro p
  refine Carries.pre ?_ fun _ ht => ht.1
  split
  · exact carries_correctBound h hsurvives settled
  · exact (keeps_pure ()).mono (fun _ ht => ht) (fun _ ht => hsurvives.weaken ht)
      fun _ _ ht => hsurvives.weaken ht

theorem carries_loop [Rounding α] (callbacks : Callbacks π α) :
    Carries (At K) (At J) (loop callbacks.watched) fun _ => At K := by
  intro t ht
  rw [loop_run_eq_search]
  exact carries_bind _ ((keeps_search h callbacks).survives hsurvives)
    (fun settled => carries_correctIfExcluded h hsurvives _ settled) t ht

theorem carries_solve [Rounding α] (callbacks : Callbacks π α) :
    Carries (At K) (At J) (solve callbacks.watched)
      fun r t => At K t ∧ ∃ time, r = t.progress.finalize time := by
  apply carries_bind _ (keeps_now.survives hsurvives)
  intro _
  apply carries_bind _ ((keeps_updateTimers _).survives hsurvives)
  intro _
  apply carries_bind _ (carries_loop h hsurvives callbacks)
  intro _
  apply carries_bind _ keeps_now
  intro _
  apply carries_bind _ (keeps_updateTimers _)
  intro _
  apply carries_bind _ keeps_elapsed
  intro time
  refine carries_bind (fun _ t => At K t ∧ t.progress.results = t.progress.finalize time)
    (carries_modify fun t ht => ?_) fun _ => ?_
  · have hkept : K t.problem.views { t.progress with results := t.progress.finalize time } :=
      hsurvives.report _ ht
    exact ⟨hkept, hkept, rfl⟩
  apply carries_progress_bind
  intro p
  refine carries_bind (fun _ t => (At K t ∧ t.progress.results = t.progress.finalize time) ∧
    t.progress = p) (carries_modify fun t ht => ⟨ht.1.1, ht⟩) fun _ => carries_pure fun t ht => ?_
  exact ⟨ht.1.1, ht.1.1, time, ht.2 ▸ ht.1.2⟩

end Correction

end Run

end NonlinearOpt.OuterApprox
