import NonlinearOpt.OuterApprox.Problem
import Mathlib.Tactic.Common

/-!
The protocol of outer approximation: which calls of its problem and of its callbacks a run makes, in
which order, and which stopping criteria it reports in between. A script allows what a part of a run
may do, whatever the answers are. Scripts are put together as runs are, and an error ends a script
as it ends a run, but all that a run computes for itself is left open.
-/

namespace NonlinearOpt.OuterApprox

variable {π α β γ : Type}

inductive Call (α : Type) where
  | solveMaster (answer : Except Error (SubproblemResult α))
  | solveNlp (answer : Except Error (SubproblemResult α))
  | readIntegers (values : Array α)
  | addCuts (answer : Except Error Unit)
  | addFeasibilityCut (answer : Except Error Unit)
  | addNoGoodCut (answer : Except Error Unit)
  /-- Also tells whether the problem is persistent afterwards. -/
  | dropLastNoGoodCut (answer : Except Error Unit) (persistent : Bool)
  | reload (answer : Except Error Unit)
  | afterMaster (answer : Except Error Unit)
  | afterNlp (answer : Except Error Unit)

def errorOf? : Except Error β → Option Error
  | .ok _ => none
  | .error e => some e

namespace Call

def failure? : Call α → Option Error
  | solveMaster answer | solveNlp answer => errorOf? answer
  | readIntegers _ => none
  | addCuts answer | addFeasibilityCut answer | addNoGoodCut answer | dropLastNoGoodCut answer _
  | reload answer | afterMaster answer | afterNlp answer => errorOf? answer

def isMaster : Call α → Bool
  | solveMaster _ => true
  | _ => false

end Call

inductive FailsFast : List (Call α) → Except Error β → Prop
  | through {calls : List (Call α)} {b : β} :
      (∀ call ∈ calls, call.failure? = none) → FailsFast calls (.ok b)
  | broken {calls : List (Call α)} {call : Call α} {e : Error} :
      (∀ call ∈ calls, call.failure? = none) → call.failure? = some e →
        FailsFast (calls ++ [call]) (.error e)

namespace FailsFast

theorem nil (b : β) : FailsFast ([] : List (Call α)) (.ok b : Except Error β) :=
  .through fun _ h => nomatch h

theorem single {call : Call α} {r : Except Error β} (h : call.failure? = errorOf? r) :
    FailsFast [call] r := by
  cases r with
  | ok b =>
    apply through
    intro c hc
    rw [List.mem_singleton.mp hc]
    exact h
  | error e => exact @broken _ _ [] call e (fun _ h => nomatch h) h

theorem append {first rest : List (Call α)} {c : γ} {r : Except Error β}
    (hfirst : FailsFast first (.ok c : Except Error γ)) (hrest : FailsFast rest r) :
    FailsFast (first ++ rest) r := by
  cases hfirst with
  | through hnone =>
    cases hrest with
    | through hall =>
      exact through fun call h => (List.mem_append.mp h).elim (hnone call) (hall call)
    | broken hall hlast =>
      rw [← List.append_assoc]
      exact broken (fun call h => (List.mem_append.mp h).elim (hnone call) (hall call)) hlast

theorem ok {calls : List (Call α)} {c : γ} (h : FailsFast calls (.ok c : Except Error γ)) (b : β) :
    FailsFast calls (.ok b : Except Error β) := by
  cases h with
  | through hnone => exact through hnone

theorem error {calls : List (Call α)} {e : Error}
    (h : FailsFast calls (.error e : Except Error γ)) :
    FailsFast calls (.error e : Except Error β) := by
  cases h with
  | broken hall hlast => exact broken hall hlast

end FailsFast

inductive Step (α : Type) where
  | call (c : Call α)
  /-- A stopping criterion is reported. -/
  | report (e : Event α)

namespace Step

def call? : Step α → Option (Call α)
  | call c => some c
  | report _ => none

def report? : Step α → Option (Event α)
  | call _ => none
  | report e => some e

def calls (steps : List (Step α)) : List (Call α) := steps.filterMap call?

def reports (steps : List (Step α)) : List (Event α) := steps.filterMap report?

@[simp]
theorem calls_append (first rest : List (Step α)) :
    calls (first ++ rest) = calls first ++ calls rest :=
  List.filterMap_append

@[simp]
theorem reports_append (first rest : List (Step α)) :
    reports (first ++ rest) = reports first ++ reports rest :=
  List.filterMap_append

def masters (steps : List (Step α)) : Nat := (calls steps).countP Call.isMaster

@[simp]
theorem masters_append (first rest : List (Step α)) :
    masters (first ++ rest) = masters first + masters rest := by
  rw [masters, calls_append, List.countP_append]
  rfl

end Step

def Event.isCriterion : Event α → Bool
  | converged _ _ _ | iterationLimit _ _ _ | timeLimit _ _ _ _ | cycling _ _ _ => true
  | _ => false

/-- What a part of a run may do: after so many counted master solves, take these steps, end with
this outcome, and have counted as many master solves by then. -/
def Script (α β : Type) : Type := Nat → List (Step α) → Except Error β → Nat → Prop

namespace Script

inductive Done (b : β) : Nat → List (Step α) → Except Error β → Nat → Prop
  | mk (n : Nat) : Done b n [] (.ok b) n

inductive Then (script : Script α γ) (next : γ → Script α β) :
    Nat → List (Step α) → Except Error β → Nat → Prop
  | broken {n k : Nat} {steps : List (Step α)} {e : Error} :
      script n steps (.error e) k → Then script next n steps (.error e) k
  | through {n k m : Nat} {first rest : List (Step α)} {c : γ} {r : Except Error β} :
      script n first (.ok c) k → next c k rest r m → Then script next n (first ++ rest) r m

instance : Monad (Script α) where
  pure := Done
  bind := Then

inductive Asked (entry : Except Error β → Call α) :
    Nat → List (Step α) → Except Error β → Nat → Prop
  | mk (n : Nat) (answer : Except Error β) : Asked entry n [.call (entry answer)] answer n

def asked (entry : Except Error β → Call α) : Script α β := Asked entry

inductive NextMaster :
    Nat → List (Step α) → Except Error (SubproblemResult α) → Nat → Prop
  | mk (n : Nat) (answer : Except Error (SubproblemResult α)) :
      NextMaster n [.call (.solveMaster answer)] answer (n + 1)

def nextMaster : Script α (SubproblemResult α) := NextMaster

inductive Dropped : Nat → List (Step α) → Except Error Bool → Nat → Prop
  | mk (n : Nat) (answer : Except Error Unit) (persistent : Bool) :
      Dropped n [.call (.dropLastNoGoodCut answer persistent)] (answer.map fun _ => persistent) n

def dropped : Script α Bool := Dropped

inductive Compared : Nat → List (Step α) → Except Error Bool → Nat → Prop
  | mk (n : Nat) (values : Array α) (repeats : Bool) :
      Compared n [.call (.readIntegers values)] (.ok repeats) n

def compared : Script α Bool := Compared

inductive Reported (e : Event α) : Nat → List (Step α) → Except Error Bool → Nat → Prop
  | mk (n : Nat) : Reported e n [.report e] (.ok true) n

def reported (e : Event α) : Script α Bool := Reported e

def Uncounted (script : Script α β) : Prop :=
  ∀ ⦃n steps r k⦄, script n steps r k → k = n

theorem uncounted_bind {script : Script α γ} {next : γ → Script α β} (h : Uncounted script)
    (hnext : ∀ c, Uncounted (next c)) : Uncounted (script >>= next) := by
  intro n steps r k hrun
  cases hrun with
  | broken hfirst => exact h hfirst
  | through hfirst hrest => exact (hnext _ hrest).trans (h hfirst)

theorem uncounted_asked (entry : Except Error β → Call α) : Uncounted (asked entry) := by
  intro n steps r k hrun
  cases hrun
  rfl

theorem uncounted_dropped : Uncounted (dropped : Script α Bool) := by
  intro n steps r k hrun
  cases hrun
  rfl

structure Quiet (script : Script α β) : Prop where
  uncounted : Uncounted script
  masters : ∀ ⦃n steps r k⦄, script n steps r k → Step.masters steps = 0

theorem quiet_pure (b : β) : Quiet (pure b : Script α β) := by
  constructor
  all_goals
    intro n steps r k h
    cases h
    rfl

theorem quiet_bind {script : Script α γ} {next : γ → Script α β} (h : Quiet script)
    (hnext : ∀ c, Quiet (next c)) : Quiet (script >>= next) where
  uncounted := uncounted_bind h.uncounted fun c => (hnext c).uncounted
  masters := by
    intro n steps r k hrun
    cases hrun with
    | broken hfirst => exact h.masters hfirst
    | through hfirst hrest => rw [Step.masters_append, h.masters hfirst, (hnext _).masters hrest]

theorem quiet_asked {entry : Except Error β → Call α}
    (h : ∀ answer, (entry answer).isMaster = false) : Quiet (asked entry) where
  uncounted := uncounted_asked entry
  masters := by
    intro n steps r k hrun
    cases hrun
    simp [Step.masters, Step.calls, Step.call?, h]

section Criteria

variable [Scalar α]

/-- A check of the stopping criteria after `n` master solves. The first one that is met is reported.
The integers are read only if cycling is of interest and all other criteria have failed. -/
inductive Check (c : Config α) (checkCycling : Bool) :
    Nat → List (Step α) → Except Error Bool → Nat → Prop
  | converged {n : Nat} {lower upper : α} :
      Scalar.le upper (lower + c.boundTolerance) = true →
        Check c checkCycling n [.report (.converged lower c.boundTolerance upper)] (.ok true) n
  | iterationLimit {n : Nat} {lower upper : α} :
      c.iterationLimit ≤ n →
        Check c checkCycling n [.report (.iterationLimit n lower upper)] (.ok true) n
  | timeLimit {n : Nat} {elapsed lower upper : α} :
      n < c.iterationLimit → Scalar.le c.timeLimit elapsed = true →
        Check c checkCycling n [.report (.timeLimit c.timeLimit elapsed lower upper)] (.ok true) n
  | cycling {n : Nat} {values : Array α} {lower upper : α} :
      n < c.iterationLimit → (c.cyclingCheck && decide (1 ≤ n) && checkCycling) = true →
        Check c checkCycling n [.call (.readIntegers values), .report (.cycling n lower upper)]
          (.ok true) n
  | fresh {n : Nat} {values : Array α} :
      n < c.iterationLimit → (c.cyclingCheck && decide (1 ≤ n) && checkCycling) = true →
        Check c checkCycling n [.call (.readIntegers values)] (.ok false) n
  | unmet {n : Nat} :
      n < c.iterationLimit → (c.cyclingCheck && decide (1 ≤ n) && checkCycling) = false →
        Check c checkCycling n [] (.ok false) n

def check (c : Config α) (checkCycling : Bool) : Script α Bool := Check c checkCycling

theorem quiet_check (c : Config α) (checkCycling : Bool) : Quiet (check c checkCycling) := by
  constructor
  all_goals
    intro n steps r k hrun
    cases hrun <;> rfl

theorem lt_of_check {c : Config α} {checkCycling : Bool} {n k : Nat} {steps : List (Step α)}
    (h : check c checkCycling n steps (.ok false) k) : n < c.iterationLimit := by
  cases h with
  | fresh hlimit => exact hlimit
  | unmet hlimit => exact hlimit

end Criteria

def called (callback : Option (Callback π α)) (entry : Except Error Unit → Call α) :
    Script α Unit :=
  if callback.isSome then asked entry else pure ()

theorem quiet_called (callback : Option (Callback π α)) {entry : Except Error Unit → Call α}
    (h : ∀ answer, (entry answer).isMaster = false) : Quiet (called callback entry) := by
  unfold called
  split
  · exact quiet_asked h
  · exact quiet_pure ()

def excluded (c : Config α) : Script α Unit :=
  if c.addNoGoodCuts then asked .addNoGoodCut else pure ()

theorem quiet_excluded (c : Config α) : Quiet (excluded c) := by
  unfold excluded
  split
  · exact quiet_asked fun _ => rfl
  · exact quiet_pure ()

def cuts (c : Config α) (condition : Termination) : Script α Unit :=
  match condition with
  | .optimal | .locallyOptimal => do
    asked .addCuts
    excluded c
  | .infeasible => do
    asked .addFeasibilityCut
    excluded c
  | _ => excluded c

theorem quiet_cuts (c : Config α) (condition : Termination) : Quiet (cuts c condition) := by
  unfold cuts
  split
  · exact quiet_bind (quiet_asked fun _ => rfl) fun _ => quiet_excluded c
  · exact quiet_bind (quiet_asked fun _ => rfl) fun _ => quiet_excluded c
  · exact quiet_bind (quiet_asked fun _ => rfl) fun _ => quiet_excluded c
  · exact quiet_excluded c

def subproblem (c : Config α) (callbacks : Callbacks π α) : Script α Unit := do
  if !c.singleTree then
    let nlp ← asked .solveNlp
    cuts c nlp.condition
    called callbacks.afterNlp .afterNlp

theorem quiet_subproblem (c : Config α) (callbacks : Callbacks π α) :
    Quiet (subproblem c callbacks) := by
  unfold subproblem
  split
  · apply quiet_bind (quiet_asked fun _ => rfl)
    intro nlp
    exact quiet_bind (quiet_cuts c nlp.condition) fun _ => quiet_called _ fun _ => rfl
  · exact quiet_pure ()

def correction (c : Config α) (settled : Bool) : Script α Unit := do
  if !settled then
    let nlp ← asked .solveNlp
    cuts c nlp.condition
  if ← dropped then asked .reload
  let _ ← asked .solveMaster

theorem uncounted_correction (c : Config α) (settled : Bool) :
    Uncounted (correction c settled) := by
  have hmaster : Uncounted (do let _ ← asked .solveMaster : Script α Unit) :=
    uncounted_bind (uncounted_asked _) fun _ => (quiet_pure _).uncounted
  have hresolve : Uncounted (do
      if ← dropped then asked .reload
      let _ ← asked .solveMaster : Script α Unit) := by
    apply uncounted_bind uncounted_dropped
    intro persistent
    split
    · exact uncounted_bind (uncounted_asked _) fun _ => hmaster
    · exact hmaster
  unfold correction
  split
  · apply uncounted_bind (uncounted_asked _)
    intro nlp
    exact uncounted_bind (quiet_cuts c _).uncounted fun _ => hresolve
  · exact hresolve

variable [Scalar α]

def assignment (c : Config α) (callbacks : Callbacks π α) : Script α (Option Bool) := do
  called callbacks.afterMaster .afterMaster
  if ← check c true then return some false
  else
    subproblem c callbacks
    return none

theorem quiet_assignment (c : Config α) (callbacks : Callbacks π α) :
    Quiet (assignment c callbacks) := by
  apply quiet_bind (quiet_called _ fun _ => rfl)
  intro _
  apply quiet_bind (quiet_check c true)
  intro stops
  split
  · exact quiet_pure _
  · exact quiet_bind (quiet_subproblem c callbacks) fun _ => quiet_pure _

def trial (c : Config α) (callbacks : Callbacks π α) : Script α (Option Bool) := do
  let master ← nextMaster
  if master.condition = .infeasible then return some true
  else assignment c callbacks

theorem masters_trial {c : Config α} {callbacks : Callbacks π α} {n k : Nat}
    {steps : List (Step α)} {r : Except Error (Option Bool)} (h : trial c callbacks n steps r k) :
    k = n + 1 ∧ Step.masters steps = 1 := by
  have hrest (master : SubproblemResult α) : Quiet
      (if master.condition = .infeasible then pure (some true) else assignment c callbacks) := by
    split
    · exact quiet_pure _
    · exact quiet_assignment c callbacks
  cases h with
  | broken hmaster =>
    cases hmaster
    exact ⟨rfl, rfl⟩
  | through hmaster hafter =>
    cases hmaster
    rw [Step.masters_append, (hrest _).masters hafter]
    exact ⟨(hrest _).uncounted hafter, rfl⟩

/-- One iteration. If it is the last one, the value tells whether it ended before the check that
follows the master problem. -/
def iteration (c : Config α) (callbacks : Callbacks π α) : Script α (Option Bool) := do
  if ← check c false then return some true
  else trial c callbacks

theorem masters_iteration {c : Config α} {callbacks : Callbacks π α} {n k : Nat}
    {steps : List (Step α)} {r : Except Error (Option Bool)}
    (h : iteration c callbacks n steps r k) :
    (k = n ∧ Step.masters steps = 0 ∧ r = .ok (some true)) ∨
      (k = n + 1 ∧ Step.masters steps = 1 ∧ n < c.iterationLimit) := by
  cases h with
  | broken hcheck => cases hcheck
  | @through _ _ _ _ stops _ hcheck hrest =>
    have hcount := (quiet_check c false).uncounted hcheck
    rw [Step.masters_append, (quiet_check c false).masters hcheck, Nat.zero_add, ← hcount]
    cases stops with
    | true =>
      cases hrest
      exact .inl ⟨rfl, rfl, rfl⟩
    | false =>
      have hlimit := lt_of_check hcheck
      have hmasters := masters_trial hrest
      exact .inr ⟨hmasters.1, hmasters.2, hcount ▸ hlimit⟩

theorem iteration_of_check {c : Config α} {callbacks : Callbacks π α} {n k : Nat}
    {steps : List (Step α)} {stops : Bool} (hlimit : c.iterationLimit ≤ n)
    (h : check c false n steps (.ok stops) k) :
    iteration c callbacks n steps (.ok (some true)) k := by
  cases stops with
  | false => exact absurd (lt_of_check h) (Nat.not_lt.mpr hlimit)
  | true =>
    have hrest : iteration c callbacks n (steps ++ []) (.ok (some true)) k :=
      .through h (.mk k)
    rwa [List.append_nil] at hrest

inductive Iterations (c : Config α) (callbacks : Callbacks π α) :
    Nat → List (Step α) → Except Error Bool → Nat → Prop
  | broken {n k : Nat} {steps : List (Step α)} {e : Error} :
      iteration c callbacks n steps (.error e) k → Iterations c callbacks n steps (.error e) k
  | last {n k : Nat} {steps : List (Step α)} {settled : Bool} :
      iteration c callbacks n steps (.ok (some settled)) k →
        Iterations c callbacks n steps (.ok settled) k
  | next {n k m : Nat} {first rest : List (Step α)} {r : Except Error Bool} :
      iteration c callbacks n first (.ok none) k → Iterations c callbacks k rest r m →
        Iterations c callbacks n (first ++ rest) r m

theorem iterations_of_then {c : Config α} {callbacks : Callbacks π α} {n k : Nat}
    {steps : List (Step α)} {r : Except Error Bool}
    (h : (iteration c callbacks >>= fun
      | some settled => pure settled
      | none => Iterations c callbacks : Script α Bool) n steps r k) :
    Iterations c callbacks n steps r k := by
  cases h with
  | broken hfirst => exact .broken hfirst
  | @through _ _ _ _ settled _ hfirst hrest =>
    cases settled with
    | none => exact .next hfirst hrest
    | some settled =>
      cases hrest
      rw [List.append_nil]
      exact .last hfirst

theorem masters_iterations {c : Config α} {callbacks : Callbacks π α} {n k : Nat}
    {steps : List (Step α)} {r : Except Error Bool} (h : Iterations c callbacks n steps r k) :
    k = n + Step.masters steps ∧ (n ≤ c.iterationLimit → k ≤ c.iterationLimit) := by
  induction h with
  | broken h =>
    have := masters_iteration h
    omega
  | last h =>
    have := masters_iteration h
    omega
  | next h _ ih =>
    have := masters_iteration h
    rw [Step.masters_append]
    omega

inductive Loop (c : Config α) (callbacks : Callbacks π α) :
    List (Step α) → List (Step α) → Except Error Unit → Nat → Prop
  | broken {n : Nat} {steps : List (Step α)} {e : Error} :
      Iterations c callbacks 0 steps (.error e) n → Loop c callbacks steps [] (.error e) n
  | uncorrected {n : Nat} {steps : List (Step α)} {settled : Bool} :
      Iterations c callbacks 0 steps (.ok settled) n → (c.addNoGoodCuts && decide (0 < n)) = false →
        Loop c callbacks steps [] (.ok ()) n
  | corrected {n : Nat} {first second : List (Step α)} {settled : Bool} {r : Except Error Unit} :
      Iterations c callbacks 0 first (.ok settled) n → (c.addNoGoodCuts && decide (0 < n)) = true →
        correction c settled n second r n → Loop c callbacks first second r n

theorem masters_loop {c : Config α} {callbacks : Callbacks π α} {first second : List (Step α)}
    {r : Except Error Unit} {n : Nat} (h : Loop c callbacks first second r n) :
    n = Step.masters first ∧ n ≤ c.iterationLimit := by
  have hmasters {r : Except Error Bool} (h : Iterations c callbacks 0 first r n) :
      n = Step.masters first ∧ n ≤ c.iterationLimit := by
    have hcount := masters_iterations h
    omega
  cases h with
  | broken h => exact hmasters h
  | uncorrected h => exact hmasters h
  | corrected h => exact hmasters h

end Script

end NonlinearOpt.OuterApprox
