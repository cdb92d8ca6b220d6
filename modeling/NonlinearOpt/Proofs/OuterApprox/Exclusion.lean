import NonlinearOpt.Proofs.OuterApprox.Trail
import NonlinearOpt.Proofs.OuterApprox.Agreement
import Mathlib.Data.List.TakeWhile

/-!
The no-good cuts of a run. Every subproblem that is solved adds one, and the correction at the end
takes one back. It does so even if there is none: when the first master problem is infeasible, or
when the master solver makes its own cuts and nothing is left to be solved after the loop.
-/

namespace NonlinearOpt.OuterApprox

variable {π α β γ : Type}

namespace Call

def isExclusion : Call α → Bool
  | addNoGoodCut _ => true
  | _ => false

def isDrop : Call α → Bool
  | dropLastNoGoodCut _ _ => true
  | _ => false

end Call

def surplus (calls : List (Call α)) : Int :=
  calls.countP Call.isNlp - calls.countP Call.isExclusion

theorem surplus_append (first rest : List (Call α)) :
    surplus (first ++ rest) = surplus first + surplus rest := by
  unfold surplus
  rw [List.countP_append, List.countP_append]
  omega

theorem surplus_eq_zero {calls : List (Call α)} :
    surplus calls = 0 ↔ calls.countP Call.isExclusion = calls.countP Call.isNlp := by
  unfold surplus
  omega

namespace Script

variable {c : Config α}

/-- A script that takes no cut back. If it gets through and no-good cuts are wanted, it solves `d`
more subproblems than it adds such cuts. -/
structure Owes (c : Config α) (d : Int) (script : Script α β) : Prop where
  undropped : ∀ ⦃n steps r k⦄, script n steps r k → ∀ call ∈ Step.calls steps, call.isDrop = false
  surplus : c.addNoGoodCuts = true → ∀ ⦃n steps b k⦄, script n steps (.ok b) k →
    surplus (Step.calls steps) = d

theorem owes_pure (b : β) : Owes c 0 (pure b : Script α β) where
  undropped := by
    intro n steps r k h
    cases h
    exact fun _ hcall => nomatch hcall
  surplus := by
    intro _ n steps r k h
    cases h
    rfl

theorem owes_bind {d e : Int} {script : Script α γ} {next : γ → Script α β}
    (h : Owes c d script) (hnext : ∀ x, Owes c e (next x)) : Owes c (d + e) (script >>= next) where
  undropped := by
    intro n steps r k hrun
    cases hrun with
    | broken hfirst => exact h.undropped hfirst
    | through hfirst hrest =>
      rw [Step.calls_append, List.forall_mem_append]
      exact ⟨h.undropped hfirst, (hnext _).undropped hrest⟩
  surplus := by
    intro hcuts n steps b k hrun
    cases hrun with
    | through hfirst hrest =>
      rw [Step.calls_append, surplus_append, h.surplus hcuts hfirst, (hnext _).surplus hcuts hrest]

theorem owes_asked {d : Int} {entry : Except Error β → Call α}
    (h : ∀ answer, (entry answer).isDrop = false ∧ surplus [entry answer] = d) :
    Owes c d (asked entry) where
  undropped := by
    intro n steps r k hrun
    cases hrun
    exact List.forall_mem_singleton.mpr (h _).1
  surplus := by
    intro _ n steps b k hrun
    cases hrun
    exact (h _).2

theorem owes_called (callback : Option (Callback π α)) {entry : Except Error Unit → Call α}
    (h : ∀ answer, (entry answer).isDrop = false ∧ surplus [entry answer] = 0) :
    Owes c 0 (called callback entry) := by
  unfold called
  split
  · exact owes_asked h
  · exact owes_pure ()

theorem owes_excluded (c : Config α) : Owes c (-1) (excluded c) := by
  unfold excluded
  split
  · exact owes_asked fun _ => ⟨rfl, rfl⟩
  next hcuts => exact ⟨(owes_pure (c := c) ()).undropped, fun h => absurd h hcuts⟩

theorem owes_cuts (c : Config α) (condition : Termination) :
    Owes c (-1) (cuts c condition) := by
  have hcuts {entry : Except Error Unit → Call α}
      (h : ∀ answer, (entry answer).isDrop = false ∧ surplus [entry answer] = 0) :
      Owes c (0 + -1) (asked entry >>= fun _ => excluded c) :=
    owes_bind (owes_asked h) fun _ => owes_excluded c
  unfold cuts
  split
  · exact hcuts fun _ => ⟨rfl, rfl⟩
  · exact hcuts fun _ => ⟨rfl, rfl⟩
  · exact hcuts fun _ => ⟨rfl, rfl⟩
  · exact owes_excluded c

theorem owes_solveNlp : Owes c 1 (asked Call.solveNlp) :=
  owes_asked fun _ => ⟨rfl, rfl⟩

theorem owes_subproblem (c : Config α) (callbacks : Callbacks π α) :
    Owes c 0 (subproblem c callbacks) := by
  unfold subproblem
  split
  · apply owes_bind (d := 1) (e := -1) owes_solveNlp
    intro nlp
    exact owes_bind (d := -1) (e := 0) (owes_cuts c nlp.condition) fun _ =>
      owes_called _ fun _ => ⟨rfl, rfl⟩
  · exact owes_pure ()

theorem owes_nextMaster : Owes c 0 nextMaster where
  undropped := by
    intro n steps r k h
    cases h
    exact List.forall_mem_singleton.mpr rfl
  surplus := by
    intro _ n steps b k h
    cases h
    rfl

theorem countP_isNlp_of_asked {next : SubproblemResult α → Script α β} {n k : Nat}
    {steps : List (Step α)} {r : Except Error β} (h : (asked .solveNlp >>= next) n steps r k) :
    (Step.calls steps).countP Call.isNlp ≠ 0 := by
  cases h with
  | broken hnlp =>
    cases hnlp
    exact Nat.one_ne_zero
  | through hnlp =>
    cases hnlp
    rw [Step.calls_append, List.countP_append]
    exact Nat.ne_of_gt (Nat.add_pos_left Nat.one_pos _)

theorem countP_isNlp_of_subproblem {callbacks : Callbacks π α} (htree : c.singleTree = false)
    {n k : Nat} {steps : List (Step α)} {r : Except Error Unit}
    (h : subproblem c callbacks n steps r k) : (Step.calls steps).countP Call.isNlp ≠ 0 := by
  unfold subproblem at h
  rw [htree, if_pos (by decide)] at h
  exact countP_isNlp_of_asked h

section Iterations

variable [Scalar α]

theorem owes_check (c : Config α) (checkCycling : Bool) : Owes c 0 (check c checkCycling) where
  undropped := by
    intro n steps r k h
    cases h with
    | cycling => exact List.forall_mem_singleton.mpr rfl
    | fresh => exact List.forall_mem_singleton.mpr rfl
    | converged | iterationLimit | timeLimit | unmet => exact fun _ hcall => nomatch hcall
  surplus := by
    intro _ n steps b k h
    cases h <;> rfl

theorem owes_assignment (c : Config α) (callbacks : Callbacks π α) :
    Owes c 0 (assignment c callbacks) := by
  apply owes_bind (d := 0) (e := 0) (owes_called _ fun _ => ⟨rfl, rfl⟩)
  intro _
  apply owes_bind (d := 0) (e := 0) (owes_check c true)
  intro stops
  split
  · exact owes_pure _
  · exact owes_bind (d := 0) (e := 0) (owes_subproblem c callbacks) fun _ => owes_pure _

theorem owes_iteration (c : Config α) (callbacks : Callbacks π α) :
    Owes c 0 (iteration c callbacks) := by
  apply owes_bind (d := 0) (e := 0) (owes_check c false)
  intro stops
  split
  · exact owes_pure _
  apply owes_bind (d := 0) (e := 0) owes_nextMaster
  intro master
  split
  · exact owes_pure _
  · exact owes_assignment c callbacks

theorem owes_iterations (c : Config α) (callbacks : Callbacks π α) :
    Owes c 0 (Iterations c callbacks) where
  undropped := by
    intro n steps r k h
    induction h with
    | broken h => exact (owes_iteration c callbacks).undropped h
    | last h => exact (owes_iteration c callbacks).undropped h
    | next h _ ih =>
      rw [Step.calls_append, List.forall_mem_append]
      exact ⟨(owes_iteration c callbacks).undropped h, ih⟩
  surplus := by
    intro hcuts n steps b k hrun
    generalize hr : (.ok b : Except Error Bool) = r at hrun
    induction hrun with
    | broken => cases hr
    | last hlast => exact (owes_iteration c callbacks).surplus hcuts hlast
    | next hfirst _ ih =>
      rw [Step.calls_append, surplus_append, (owes_iteration c callbacks).surplus hcuts hfirst,
        ih hr]
      rfl

theorem calls_check {n k : Nat} {steps : List (Step α)} {r : Except Error Bool}
    (h : check c false n steps r k) : Step.calls steps = [] := by
  cases h with
  | cycling _ hdue => simp at hdue
  | fresh _ hdue => simp at hdue
  | converged | iterationLimit | timeLimit | unmet => rfl

theorem assignment_without_nlp {callbacks : Callbacks π α} (htree : c.singleTree = false)
    {n k : Nat} {steps : List (Step α)} {ending : Option Bool}
    (h : assignment c callbacks n steps (.ok ending) k)
    (hnlp : (Step.calls steps).countP Call.isNlp = 0) : ending = some false := by
  cases h with
  | through hcalled hrest =>
    rw [Step.calls_append, List.countP_append, Nat.add_eq_zero_iff] at hnlp
    cases hrest with
    | @through _ _ _ _ stops _ hcheck hrest =>
      rw [Step.calls_append, List.countP_append, Nat.add_eq_zero_iff] at hnlp
      cases stops with
      | true =>
        cases hrest
        rfl
      | false =>
        cases hrest with
        | through hsub hpure =>
          rw [Step.calls_append, List.countP_append, Nat.add_eq_zero_iff] at hnlp
          exact absurd hnlp.2.2.1 (countP_isNlp_of_subproblem htree hsub)

theorem iteration_without_nlp {callbacks : Callbacks π α} (htree : c.singleTree = false)
    {n k : Nat} {steps : List (Step α)} {ending : Option Bool}
    (h : iteration c callbacks n steps (.ok ending) k)
    (hnlp : (Step.calls steps).countP Call.isNlp = 0) :
    (ending = some true ∧ k = n) ∨ ending = some false ∨
      (ending = some true ∧ ∃ master, master.condition = .infeasible ∧
        Step.calls steps = [.solveMaster (.ok master)]) := by
  cases h with
  | @through _ _ _ _ stops _ hcheck hrest =>
    have hhead := calls_check hcheck
    have hcount := (quiet_check c false).uncounted hcheck
    rw [Step.calls_append, hhead, List.nil_append] at hnlp ⊢
    cases stops with
    | true =>
      cases hrest
      exact .inl ⟨rfl, hcount⟩
    | false =>
      cases hrest with
      | @through _ _ _ _ master _ hmaster hafter =>
        cases hmaster
        by_cases hinfeasible : master.condition = .infeasible
        · rw [if_pos hinfeasible] at hafter
          cases hafter
          exact .inr (.inr ⟨rfl, master, hinfeasible, rfl⟩)
        · rw [if_neg hinfeasible] at hafter
          rw [Step.calls_append, List.countP_append, Nat.add_eq_zero_iff] at hnlp
          exact .inr (.inl (assignment_without_nlp htree hafter hnlp.2))

theorem iterations_without_nlp {callbacks : Callbacks π α} (htree : c.singleTree = false)
    {n k : Nat} {steps : List (Step α)} (h : Iterations c callbacks n steps (.ok true) k)
    (hnlp : (Step.calls steps).countP Call.isNlp = 0) :
    k = n ∨ ∃ master, master.condition = .infeasible ∧
      Step.calls steps = [.solveMaster (.ok master)] := by
  cases h with
  | last hlast =>
    rcases iteration_without_nlp htree hlast hnlp with ⟨-, hcount⟩ | hending | ⟨-, hmaster⟩
    · exact .inl hcount
    · cases hending
    · exact .inr hmaster
  | next hfirst hrest =>
    rw [Step.calls_append, List.countP_append, Nat.add_eq_zero_iff] at hnlp
    rcases iteration_without_nlp htree hfirst hnlp.1 with ⟨hending, -⟩ | hending | ⟨hending, -⟩
    all_goals cases hending

end Iterations

def pending (c : Config α) (settled : Bool) : Script α Unit := do
  if !settled then
    let nlp ← asked .solveNlp
    cuts c nlp.condition

def resolved : Script α Unit := do
  if ← dropped then asked .reload
  let _ ← asked .solveMaster

theorem then_of_correction {settled : Bool} {n k : Nat} {steps : List (Step α)}
    {r : Except Error Unit} (h : correction c settled n steps r k) :
    (pending c settled >>= fun _ => resolved) n steps r k := by
  cases settled with
  | true => exact .through (Done.mk n) h
  | false =>
    cases h with
    | broken hnlp => exact .broken (.broken hnlp)
    | through hnlp hrest =>
      cases hrest with
      | broken hcuts => exact .broken (.through hnlp hcuts)
      | through hcuts hresolved =>
        rw [← List.append_assoc]
        exact .through (.through hnlp hcuts) hresolved

theorem quiet_pending (c : Config α) (settled : Bool) : Quiet (pending c settled) := by
  unfold pending
  split
  · exact quiet_bind (quiet_asked fun _ => rfl) fun nlp => quiet_cuts c nlp.condition
  · exact quiet_pure ()

theorem owes_pending (c : Config α) (settled : Bool) : Owes c 0 (pending c settled) := by
  unfold pending
  split
  · exact owes_bind (d := 1) (e := -1) owes_solveNlp fun nlp => owes_cuts c nlp.condition
  · exact owes_pure ()

theorem calls_dropped {n k : Nat} {steps : List (Step α)} {r : Except Error Bool}
    (h : dropped n steps r k) :
    ∃ answer persistent, Step.calls steps = [.dropLastNoGoodCut answer persistent] := by
  cases h with
  | mk answer persistent => exact ⟨answer, persistent, rfl⟩

theorem calls_resolved (c : Config α) {n k : Nat} {steps : List (Step α)} {r : Except Error Unit}
    (h : resolved n steps r k) :
    ∃ answer persistent rest, Step.calls steps = .dropLastNoGoodCut answer persistent :: rest ∧
      ∀ call ∈ rest, call.isDrop = false := by
  have hmaster : Owes c 0 (do let _ ← asked .solveMaster : Script α Unit) :=
    owes_bind (d := 0) (e := 0) (owes_asked fun _ => ⟨rfl, rfl⟩) fun _ => owes_pure ()
  cases h with
  | broken hdrop =>
    obtain ⟨answer, persistent, hcalls⟩ := calls_dropped hdrop
    exact ⟨answer, persistent, [], hcalls, fun _ h => nomatch h⟩
  | @through _ _ _ rest reloads _ hdrop hrest =>
    obtain ⟨answer, persistent, hcalls⟩ := calls_dropped hdrop
    refine ⟨answer, persistent, Step.calls rest, by rw [Step.calls_append, hcalls]; rfl, ?_⟩
    split at hrest
    · have hreload : Owes c 0 (asked .reload) := owes_asked fun _ => ⟨rfl, rfl⟩
      exact (owes_bind hreload fun _ => hmaster).undropped hrest
    · exact hmaster.undropped hrest

theorem calls_correction {settled : Bool} {n k : Nat} {steps : List (Step α)}
    {r : Except Error Unit} (h : correction c settled n steps r k) :
    (∀ call ∈ Step.calls steps, call.isDrop = false) ∨
      ∃ last answer persistent rest, pending c settled n last (.ok ()) n ∧
        Step.calls steps = Step.calls last ++ .dropLastNoGoodCut answer persistent :: rest ∧
        ∀ call ∈ rest, call.isDrop = false := by
  cases then_of_correction h with
  | broken hpending => exact .inl ((owes_pending c settled).undropped hpending)
  | @through _ _ last rest _ _ hpending hresolved =>
    have hcount := (quiet_pending c settled).uncounted hpending
    rw [hcount] at hpending
    obtain ⟨answer, persistent, rest', hrest, hundropped⟩ := calls_resolved c hresolved
    refine .inr ⟨last, answer, persistent, rest', hpending, ?_, hundropped⟩
    rw [Step.calls_append, hrest]

variable [Scalar α] {callbacks : Callbacks π α}

theorem exists_settled_of_loop {first second : List (Step α)} {r : Except Error Unit} {n : Nat}
    {before after : List (Call α)} {answer : Except Error Unit} {persistent : Bool}
    (h : Loop c callbacks first second r n)
    (hcalls : Step.calls (first ++ second) =
      before ++ .dropLastNoGoodCut answer persistent :: after) :
    c.addNoGoodCuts = true ∧ 0 < n ∧ ∃ settled last,
      Iterations c callbacks 0 first (.ok settled) n ∧ pending c settled n last (.ok ()) n ∧
        before = Step.calls first ++ Step.calls last := by
  have hkept {calls : List (Call α)} (hundropped : ∀ call ∈ calls, call.isDrop = false) :
      .dropLastNoGoodCut answer persistent ∉ calls :=
    fun hmem => Bool.noConfusion (hundropped _ hmem)
  have hmem : .dropLastNoGoodCut answer persistent ∈ Step.calls (first ++ second) := by
    rw [hcalls]
    exact List.mem_append_right _ List.mem_cons_self
  cases h with
  | broken hfirst =>
    rw [List.append_nil] at hmem
    exact absurd hmem (hkept ((owes_iterations c callbacks).undropped hfirst))
  | uncorrected hfirst =>
    rw [List.append_nil] at hmem
    exact absurd hmem (hkept ((owes_iterations c callbacks).undropped hfirst))
  | @corrected _ _ _ settled _ hfirst hcorrects hsecond =>
    have hundropped := (owes_iterations c callbacks).undropped hfirst
    obtain ⟨hcuts, hcount⟩ := Bool.and_eq_true_iff.mp hcorrects
    refine ⟨hcuts, of_decide_eq_true hcount, settled, ?_⟩
    rcases calls_correction hsecond with hnone | ⟨last, _, _, rest, hlast, hsplit, hrest⟩
    · rw [Step.calls_append] at hmem
      exact absurd hmem (hkept (List.forall_mem_append.mpr ⟨hundropped, hnone⟩))
    · have hbefore := List.forall_mem_append.mpr
        ⟨hundropped, (owes_pending c settled).undropped hlast⟩
      rw [Step.calls_append, hsplit, ← List.append_assoc] at hcalls
      exact ⟨last, hfirst, hlast,
        ((List.append_cons_inj_of_notMem (hkept hbefore) (hkept hrest)).mp hcalls).1.symm⟩

theorem exclusions_of_loop {first second : List (Step α)} {r : Except Error Unit} {n : Nat}
    {before after : List (Call α)} {answer : Except Error Unit} {persistent : Bool}
    (h : Loop c callbacks first second r n)
    (hcalls : Step.calls (first ++ second) =
      before ++ .dropLastNoGoodCut answer persistent :: after) :
    before.countP Call.isExclusion = before.countP Call.isNlp := by
  obtain ⟨hcuts, -, settled, last, hfirst, hlast, rfl⟩ := exists_settled_of_loop h hcalls
  rw [← surplus_eq_zero, surplus_append, (owes_iterations c callbacks).surplus hcuts hfirst,
    (owes_pending c settled).surplus hcuts hlast]
  rfl

/-- Without cuts by the master solver, a cut is taken back before any subproblem only after a first
master problem that is infeasible. -/
theorem exists_infeasible_of_loop {first second : List (Step α)} {r : Except Error Unit} {n : Nat}
    {before after : List (Call α)} {answer : Except Error Unit} {persistent : Bool}
    (h : Loop c callbacks first second r n)
    (hcalls : Step.calls (first ++ second) =
      before ++ .dropLastNoGoodCut answer persistent :: after)
    (htree : c.singleTree = false) (hnlp : before.countP Call.isNlp = 0) :
    ∃ master, master.condition = .infeasible ∧ before = [.solveMaster (.ok master)] := by
  obtain ⟨-, hcount, settled, last, hfirst, hlast, rfl⟩ := exists_settled_of_loop h hcalls
  rw [List.countP_append, Nat.add_eq_zero_iff] at hnlp
  cases settled with
  | true =>
    cases hlast
    have hbefore : Step.calls first ++ Step.calls ([] : List (Step α)) = Step.calls first :=
      List.append_nil _
    rw [hbefore]
    exact (iterations_without_nlp htree hfirst hnlp.1).resolve_left (Nat.ne_of_gt hcount)
  | false => exact absurd hnlp.2 (countP_isNlp_of_asked hlast)

end Script

theorem not_failed_of_failsFast {before after : List (Call α)} {call : Call α}
    {r : Except Error β} (h : FailsFast (before ++ call :: after) r) :
    ∀ call ∈ before, call.failure? = none := by
  generalize hcalls : before ++ call :: after = calls at h
  cases h with
  | through hnone =>
    rw [← hcalls] at hnone
    exact fun call hcall => hnone call (List.mem_append_left _ hcall)
  | @broken first last _ hnone =>
    -- the last call is not one of those before `call`
    have hbefore : before <+: first := by
      have hdropped := congrArg List.dropLast hcalls
      rw [List.dropLast_concat, List.dropLast_append_of_ne_nil (List.cons_ne_nil _ _)] at hdropped
      exact ⟨_, hdropped⟩
    exact fun call hcall => hnone call (hbefore.subset hcall)

def Untried (c : Config α) (before : List (Call α)) : Prop :=
  (∃ master, master.condition = .infeasible ∧ before = [.solveMaster (.ok master)]) ∨
    (c.singleTree = true ∧ ∀ answer, .solveNlp answer ∉ before)

theorem countP_isNlp_of_untried {c : Config α} {before : List (Call α)} (h : Untried c before) :
    before.countP Call.isNlp = 0 := by
  rcases h with ⟨master, -, rfl⟩ | ⟨-, hnlp⟩
  · rfl
  · rw [List.countP_eq_zero]
    intro call hcall hisNlp
    cases call with
    | solveNlp answer => exact hnlp answer hcall
    | _ => cases hisNlp

namespace Run

variable [Scalar α] [Rounding α] [MinlpProblem π α]

theorem solve_problem (callbacks : Callbacks π α) (s : State π α) :
    ((solve callbacks).run.run s).2.problem =
      ((loop callbacks).run.run { s with
        timers := s.timers.start s.clock.now "main"
        clock := s.clock.tick }).2.problem := by
  unfold solve
  rw [run_bind]
  show ((loop callbacks >>= _).run.run { s with
      timers := s.timers.start s.clock.now "main"
      clock := s.clock.tick }).2.problem = _
  rw [run_bind]
  cases (loop callbacks).run.run _ with
  | mk r t => cases r <;> rfl

def solveCalls (callbacks : Callbacks π α) (s : State π α) : List (Call α) :=
  ((solve callbacks.traced).run.run s.traced).2.problem.trace

theorem exists_solve_steps (callbacks : Callbacks π α) (problem : π) (config : Config α)
    (clock : Clock α) {call : Call α}
    (hcall : call ∈ solveCalls callbacks (.new problem config clock)) :
    ∃ first second r n, Script.Loop config callbacks first second r n ∧
      solveCalls callbacks (.new problem config clock) = Step.calls (first ++ second) ∧
      FailsFast (Step.calls (first ++ second)) r := by
  let s : State (Traced π α) α := (State.new problem config clock).traced
  let t := { s with timers := s.timers.start s.clock.now "main", clock := s.clock.tick }
  have htrace : solveCalls callbacks (.new problem config clock) =
      ((loop callbacks.traced).run.run t).2.problem.trace := by
    rw [solveCalls, solve_problem]
  cases himplemented : config.strategy.isImplemented with
  | true =>
    obtain ⟨first, second, hloop, hcalls, -, hfails⟩ := exists_loop_steps (s := t) himplemented
      rfl rfl rfl (Prod.eta ((loop callbacks.traced).run.run t)).symm
    exact ⟨first, second, _, _, hloop, htrace.trans hcalls, hfails⟩
  | false =>
    rw [htrace, loop_run_of_not_implemented callbacks.traced t himplemented] at hcall
    cases hcall

/-- When a run takes its last no-good cut back, such cuts are wanted, and as many were added before
as subproblems were solved. None was added only if none was solved: after a first master problem
that was infeasible, or if the master solver makes its own cuts. -/
theorem solve_drops_exclusion (callbacks : Callbacks π α) (problem : π) (config : Config α)
    (clock : Clock α) :
    let s := State.new problem config clock
    ((solve callbacks.traced).run.run s.traced).map id (State.mapProblem Traced.problem) =
        (solve callbacks).run.run s ∧
      ∀ before answer persistent after,
        solveCalls callbacks s = before ++ .dropLastNoGoodCut answer persistent :: after →
          config.addNoGoodCuts = true ∧
          before.countP Call.isExclusion = before.countP Call.isNlp ∧
          (.addNoGoodCut (.ok ()) ∈ before ↔ ¬ Untried config before) := by
  intro s
  refine ⟨(mirrors_solve Traced.simulates callbacks.simulates_traced s.traced).symm, ?_⟩
  intro before answer persistent after hcalls
  have hdrop : .dropLastNoGoodCut answer persistent ∈ solveCalls callbacks s := by
    rw [hcalls]
    exact List.mem_append_right _ List.mem_cons_self
  obtain ⟨first, second, r, n, hloop, hsteps, hfails⟩ :=
    exists_solve_steps callbacks problem config clock hdrop
  have hsplit := hsteps.symm.trans hcalls
  have hcount := Script.exclusions_of_loop hloop hsplit
  refine ⟨(Script.exists_settled_of_loop hloop hsplit).1, hcount, ?_, ?_⟩
  · intro hexclusion huntried
    have hnone := hcount.trans (countP_isNlp_of_untried huntried)
    exact absurd rfl (List.countP_eq_zero.mp hnone _ hexclusion)
  · intro htried
    have hnlp : before.countP Call.isExclusion ≠ 0 := by
      intro hnone
      apply htried
      cases htree : config.singleTree with
      | true => exact .inr ⟨htree, fun answer hmem =>
          absurd rfl (List.countP_eq_zero.mp (hcount.symm.trans hnone) _ hmem)⟩
      | false => exact .inl (Script.exists_infeasible_of_loop hloop hsplit htree
          (hcount.symm.trans hnone))
    rw [hsplit] at hfails
    obtain ⟨call, hcall, hexclusion⟩ := List.countP_pos_iff.mp (Nat.pos_of_ne_zero hnlp)
    have hthrough := not_failed_of_failsFast hfails call hcall
    cases call with
    | addNoGoodCut answer =>
      cases answer with
      | ok => exact hcall
      | error e => cases hthrough
    | _ => cases hexclusion

end Run

theorem exists_drop {calls : List (Call α)} (h : calls.any Call.isDrop = true) :
    ∃ answer persistent after,
      calls = calls.takeWhile (!·.isDrop) ++ .dropLastNoGoodCut answer persistent :: after := by
  have hsplit := List.takeWhile_append_dropWhile (p := fun call => !call.isDrop) (l := calls)
  cases hrest : calls.dropWhile (!·.isDrop) with
  | nil =>
    obtain ⟨call, hcall, hdrop⟩ := List.any_eq_true.mp h
    have hkept := List.dropWhile_eq_nil_iff.mp hrest call hcall
    rw [hdrop] at hkept
    cases hkept
  | cons call after =>
    rw [hrest] at hsplit
    have hdrop := List.head?_dropWhile_not (fun call => !call.isDrop) calls
    rw [hrest, List.head?_cons] at hdrop
    cases call with
    | dropLastNoGoodCut answer persistent => exact ⟨answer, persistent, after, hsplit.symm⟩
    | _ => cases hdrop

namespace Playback

def hopeless : Playback (Extended ℚ) where
  masters := [.ofCondition .infeasible]
  nlps := []

/-- No-good cuts are wanted, and the last one is taken back, but none has been added. -/
theorem hopeless_drops_nothing :
    let calls := Run.solveCalls .none (.new hopeless Menu.config Menu.clock)
    Menu.config.addNoGoodCuts = true ∧ ∃ before answer persistent after,
      calls = before ++ .dropLastNoGoodCut answer persistent :: after ∧
        ∀ answer, .addNoGoodCut answer ∉ before := by
  intro calls
  have hdrop : calls.any Call.isDrop = true := by decide +kernel
  have hnone : (calls.takeWhile (!·.isDrop)).any Call.isExclusion = false := by decide +kernel
  obtain ⟨answer, persistent, after, hsplit⟩ := exists_drop hdrop
  refine ⟨rfl, _, answer, persistent, after, hsplit, fun answer hmem => ?_⟩
  exact absurd rfl (List.any_eq_false.mp hnone _ hmem)

theorem outOfTime_drops_exclusion :
    let calls := Run.solveCalls .none (.new outOfTime Menu.config Menu.clock)
    ∃ before answer persistent after,
      calls = before ++ .dropLastNoGoodCut answer persistent :: after ∧
        before.countP Call.isExclusion = 2 ∧ before.countP Call.isNlp = 2 ∧
        .addNoGoodCut (.ok ()) ∈ before := by
  intro calls
  have hdrop : calls.any Call.isDrop = true := by decide +kernel
  have hnlp : (calls.takeWhile (!·.isDrop)).countP Call.isNlp = 2 := by decide +kernel
  obtain ⟨answer, persistent, after, hsplit⟩ := exists_drop hdrop
  obtain ⟨-, hcount, hexcluded⟩ := (Run.solve_drops_exclusion (π := Playback (Extended ℚ)) .none
    outOfTime Menu.config Menu.clock).2 _ answer persistent after hsplit
  refine ⟨_, answer, persistent, after, hsplit, hcount.trans hnlp, hnlp, hexcluded.mpr ?_⟩
  intro huntried
  rw [countP_isNlp_of_untried huntried] at hnlp
  cases hnlp

end Playback

end NonlinearOpt.OuterApprox
