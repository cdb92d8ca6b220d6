import NonlinearOpt.Proofs.Arithmetic.Products
import NonlinearOpt.Proofs.InteriorPoint.Passes

/-!
The barrier parameters of a solve. Each one is the one before or what the settings reduce it to, and
a reduction lowers a parameter down to the least one. It raises a parameter that is below that, with
which a solve begins if its settings say so.
-/

namespace NonlinearOpt.InteriorPoint

open Attempt

section Reduction

variable {α : Type} [Scalar α]

/-- What the reduction of barrier parameters relies on. -/
structure Settings.Reducing (c : Settings α) : Prop where
  muInit : Scalar.lt 0 c.muInit = true
  muMin : Scalar.lt 0 c.muMin = true
  decrease : Scalar.lt 0 c.muLinearDecrease = true
  decrease_lt : Scalar.lt c.muLinearDecrease 1 = true

theorem Settings.reducing_of_validate {c : Settings α} (h : c.validate = .ok ()) :
    c.Reducing := by
  have hconditions := conditions_of_validate h
  have hmuInit := hconditions ("mu_init", isPositive c.muInit) (by simp [conditions])
  have hmuMin := hconditions ("mu_min", isPositive c.muMin) (by simp [conditions])
  have hdecrease := hconditions ("mu_linear_decrease", inUnitInterval c.muLinearDecrease)
    (by simp [conditions])
  simp only [isPositive, inUnitInterval, Bool.and_eq_true] at hmuInit hmuMin hdecrease
  exact ⟨hmuInit, hmuMin, hdecrease.1, hdecrease.2⟩

def Settings.Succeeds (c : Settings α) (mu next : α) : Prop := next = mu ∨ next = Solver.nextMu c mu

namespace Solver

variable [ContractingScalar α] {c : Settings α} {mu : α}

theorem candidate_le (hc : c.Reducing) (hmu : Scalar.lt 0 mu = true) :
    Scalar.le (Scalar.min (c.muLinearDecrease * mu) (Scalar.pow mu c.muSuperlinearPower)) mu =
      true := by
  have hproduct := ContractingScalar.mul_le hc.decrease hc.decrease_lt hmu
  exact LawfulComparison.le_trans
    (Scalar.min_le_left (LawfulComparison.number_of_le hproduct).1 _) hproduct

theorem muMin_le_nextMu (hc : c.Reducing) (mu : α) : Scalar.le c.muMin (nextMu c mu) = true :=
  Scalar.le_max_left (Scalar.number_of_pos hc.muMin) _

theorem nextMu_le (hc : c.Reducing) (hmu : Scalar.lt 0 mu = true)
    (hmin : Scalar.le c.muMin mu = true) : Scalar.le (nextMu c mu) mu = true := by
  rw [Scalar.le_iff_atMost, nextMu, Scalar.isNaN_max, Scalar.number_of_pos hc.muMin, Bool.false_and,
    Scalar.atMost_max]
  exact ⟨rfl, .inr hmin, .inr (candidate_le hc hmu)⟩

theorem nextMu_eq_muMin (hc : c.Reducing) (hmu : Scalar.lt 0 mu = true)
    (hmin : Scalar.le mu c.muMin = true) : nextMu c mu = c.muMin := by
  have hle := LawfulComparison.le_trans (candidate_le hc hmu) hmin
  rw [nextMu, Scalar.max, Scalar.number_of_pos hc.muMin, if_neg Bool.false_ne_true]
  refine if_neg fun hlt => ?_
  rw [(LawfulComparison.lt_iff.mp hlt).2] at hle
  cases hle

theorem pos_nextMu (hc : c.Reducing) (mu : α) : Scalar.lt 0 (nextMu c mu) = true :=
  Scalar.lt_of_lt_of_le hc.muMin (muMin_le_nextMu hc mu)

end Solver

/-- Barrier parameters that begin with the first one of the settings, each of them after the first
the one before or its reduction. -/
structure Settings.Course (c : Settings α) (mus : List α) : Prop where
  head : mus.head? = some c.muInit
  chain : mus.IsChain c.Succeeds

namespace Settings.Course

variable {c : Settings α} {mus : List α}

theorem forall_mem (h : c.Course mus) {p : α → Prop} (hfirst : p c.muInit)
    (hnext : ∀ mu, p mu → p (Solver.nextMu c mu)) : ∀ mu ∈ mus, p mu := by
  refine h.chain.induction p mus ?_ fun hne => ?_
  · rintro mu _ (rfl | rfl) hmu
    · exact hmu
    · exact hnext mu hmu
  · have hhead := h.head
    rw [List.head?_eq_some_head hne, Option.some_inj] at hhead
    rwa [hhead]

variable [ContractingScalar α]

theorem pos (h : c.Course mus) (hc : c.Reducing) : ∀ mu ∈ mus, Scalar.lt 0 mu = true :=
  h.forall_mem hc.muInit fun mu _ => Solver.pos_nextMu hc mu

theorem muMin_le (h : c.Course mus) (hc : c.Reducing)
    (hstart : Scalar.le c.muMin c.muInit = true) : ∀ mu ∈ mus, Scalar.le c.muMin mu = true :=
  h.forall_mem hstart fun mu _ => Solver.muMin_le_nextMu hc mu

theorem antitone (h : c.Course mus) (hc : c.Reducing)
    (hstart : Scalar.le c.muMin c.muInit = true) :
    mus.Pairwise fun mu next => Scalar.le next mu = true := by
  have htrans : Trans (fun mu next : α => Scalar.le next mu = true)
      (fun mu next : α => Scalar.le next mu = true) fun mu next => Scalar.le next mu = true :=
    ⟨fun hxy hyz => LawfulComparison.le_trans hyz hxy⟩
  refine List.IsChain.pairwise (h.chain.imp_of_mem_imp ?_)
  intro mu next hmem _ hnext
  rcases hnext with heq | heq <;> rw [heq]
  · exact Scalar.le_refl (Scalar.number_of_pos (h.pos hc mu hmem))
  · exact Solver.nextMu_le hc (h.pos hc mu hmem) (h.muMin_le hc hstart mu hmem)

omit [ContractingScalar α] in
theorem replicate_of_isChain {mu least : α} (hmu : Solver.nextMu c mu = least)
    (hleast : Solver.nextMu c least = least) (rest : List α)
    (hchain : (mu :: rest).IsChain c.Succeeds) :
    ∃ before after, rest = List.replicate before mu ++ List.replicate after least := by
  induction rest generalizing mu with
  | nil => exact ⟨0, 0, rfl⟩
  | cons next rest ih =>
    obtain ⟨hnext, hrest⟩ := List.isChain_cons_cons.mp hchain
    rcases hnext with rfl | rfl
    · obtain ⟨before, after, hlist⟩ := ih hmu hrest
      exact ⟨before + 1, after, by rw [hlist, List.replicate_succ, List.cons_append]⟩
    · rw [hmu] at hrest ⊢
      obtain ⟨before, after, hlist⟩ := ih hleast hrest
      refine ⟨0, before + after + 1, ?_⟩
      rw [hlist, List.replicate_append_replicate, List.replicate_succ, List.replicate_zero,
        List.nil_append]

theorem eq_replicate (h : c.Course mus) (hc : c.Reducing)
    (hstart : Scalar.lt c.muInit c.muMin = true) :
    ∃ before after, mus = List.replicate (before + 1) c.muInit ++ List.replicate after c.muMin := by
  have hfirst := Solver.nextMu_eq_muMin hc hc.muInit (Scalar.le_of_lt hstart)
  have hleast := Solver.nextMu_eq_muMin hc hc.muMin
    (Scalar.le_refl (Scalar.number_of_pos hc.muMin))
  obtain ⟨hhead, hchain⟩ := h
  cases mus with
  | nil => cases hhead
  | cons mu rest =>
    cases hhead
    obtain ⟨before, after, hrest⟩ := replicate_of_isChain hfirst hleast rest hchain
    exact ⟨before, after, by rw [hrest, List.replicate_succ, List.cons_append]⟩

end Settings.Course

end Reduction

def BarrierProblem.mu {α : Type} (p : BarrierProblem α) : α := p.iterate.mu

section Frames

variable {α : Type} [Scalar α]

theorem Iterate.fixes_addStep (step : Iterate α) (primal dual : α) :
    Fixes Iterate.mu (addStep step primal dual) := by
  have hpart {β : Type} (v : Iterate α → Option β) (put : Iterate α → β → Iterate α)
      (hput : ∀ t x, (put t x).mu = t.mu) :
      Fixes Iterate.mu (change fun t => do return put t (← v t)) := by
    refine fixes_change fun t t' ht => ?_
    obtain ⟨x, -, hx⟩ := Option.bind_eq_some_iff.mp ht
    obtain rfl := Option.some_inj.mp hx
    exact hput t x
  refine fixes_bind (hpart _ _ fun _ _ => rfl) fun _ => ?_
  refine fixes_bind (hpart _ _ fun _ _ => rfl) fun _ => ?_
  refine fixes_bind (hpart _ _ fun _ _ => rfl) fun _ => ?_
  refine fixes_bind (hpart _ _ fun _ _ => rfl) fun _ => ?_
  refine fixes_bind (hpart _ _ fun _ _ => rfl) fun _ => ?_
  refine fixes_bind (hpart _ _ fun _ _ => rfl) fun _ => ?_
  exact fixes_bind (hpart _ _ fun _ _ => rfl) fun _ => hpart _ _ fun _ _ => rfl

namespace BarrierProblem

theorem fixes_takeStep (primal dual : α) :
    Fixes BarrierProblem.mu (takeStep primal dual : Attempt (BarrierProblem α) Unit) := by
  refine fixes_get_bind fun p => ?_
  have hmove : Fixes BarrierProblem.mu (Attempt.on BarrierProblem.iterate
      (fun iterate p => { p with iterate }) (Iterate.addStep p.step primal dual)) :=
    fixes_on (Iterate.fixes_addStep p.step primal dual) fun _ _ h => h
  exact hmove p

theorem fixes_setSolution (solution : Array α) :
    Fixes BarrierProblem.mu (setSolution solution : Attempt (BarrierProblem α) Unit) := by
  refine fixes_get_bind fun p => ?_
  split
  · rfl
  · have hstep (a : Attempt (Iterate α) Unit) : Fixes BarrierProblem.mu (do
        Attempt.on BarrierProblem.step (fun step p => { p with step }) a
        modify withMultiplierSteps) :=
      fixes_bind (fun _ => rfl) fun _ => fixes_modify fun _ => rfl
    exact hstep _ p

end BarrierProblem

end Frames

def Event.checkedMu {α : Type} : Event α → Option α
  | .checked info => some info.mu
  | _ => none

namespace Work

variable {α σ β : Type}

def standing (s : Session α σ) : Settings α × α × List α :=
  (s.solver.settings, s.problem.mu, s.events.filterMap Event.checkedMu)

theorem stands_note {e : Event α} (he : e.checkedMu = none) :
    Fixes standing (note e : Work α σ Unit) :=
  fixes_modify fun s => by
    simp only [standing, List.filterMap_append, List.filterMap_cons, he, List.filterMap_nil,
      List.append_nil]

theorem stands_eval (f : BarrierProblem α → Option β) : Fixes standing (eval f : Work α σ β) :=
  fixes_get_bind fun _ => rfl

theorem stands_onProblem {a : Attempt (BarrierProblem α) β} (h : Fixes BarrierProblem.mu a) :
    Fixes standing (onProblem a : Work α σ β) :=
  fixes_on h fun s p hp => by
    show (s.solver.settings, p.mu, _) = (s.solver.settings, s.problem.mu, _)
    rw [hp]

variable [Scalar α]

theorem stands_timed {name : String} {part : Work α σ β} (h : Fixes standing part) :
    Fixes standing (timed name part) :=
  fixes_bracketed (fun _ => rfl) (fun _ => fixes_modify fun _ => rfl) h

theorem stands_elapsed : Fixes standing (elapsed : Work α σ α) :=
  fixes_bind (fun _ => rfl) fun _ => fixes_get_bind fun _ => rfl

theorem stands_direct (solution : Array α) : Fixes standing (direct solution : Work α σ Bool) :=
  fixes_bind (stands_onProblem (BarrierProblem.fixes_setSolution solution)) fun _ =>
    fixes_get_bind fun _ => rfl

theorem stands_move (mu coefficient : α) :
    Fixes standing (move mu coefficient : Work α σ Unit) := by
  unfold move
  refine fixes_bind (fixes_get_bind fun _ => rfl) fun c => fixes_get_bind fun s => ?_
  have hstep (primal dual : α) : Fixes standing (onProblem (BarrierProblem.takeStep primal dual) >>=
      fun _ => updateInfo fun i =>
        { i with stepPrimal := primal, stepDual := dual, regularization := coefficient } :
      Work α σ Unit) :=
    fixes_bind (stands_onProblem (BarrierProblem.fixes_takeStep _ _)) fun _ =>
      fixes_modify fun _ => rfl
  exact hstep _ _ s

theorem stands_conclude (status : Status) :
    Fixes standing (conclude status : Work α σ Status) :=
  fixes_bind (fun _ => rfl) fun _ => fixes_bind (fixes_modify fun _ => rfl) fun _ =>
    fixes_bind stands_elapsed fun _ => fixes_bind (fixes_modify fun _ => rfl) fun _ =>
      fixes_get_bind fun s => by
        have hrest : Fixes standing (do
            note (.finished s.solver.info)
            modify fun s => { s with solver := { s.solver with timers := some s.timers } }
            return status : Work α σ Status) :=
          fixes_bind (stands_note rfl) fun _ => fixes_bind (fixes_modify fun _ => rfl) fun _ =>
            fixes_pure _
        exact hrest s

variable [LinearSolver σ α]

theorem stands_factorize (k : KktSystem α) : Fixes standing (factorize k : Work α σ _) := by
  refine fixes_get_bind fun s => ?_
  have hsettings : (s.solver.factorize k).solver.settings = s.solver.settings := by
    unfold Solver.factorize
    split <;> rfl
  have hevents : ((s.solver.factorize k).events.map Event.regularization).filterMap
      Event.checkedMu = [] := by
    rw [List.filterMap_map, List.filterMap_eq_nil_iff]
    exact fun _ _ => rfl
  show ((s.solver.factorize k).solver.settings, s.problem.mu, (s.events ++
    (s.solver.factorize k).events.map Event.regularization).filterMap Event.checkedMu) = _
  rw [hsettings, List.filterMap_append, hevents, List.append_nil]
  rfl

theorem stands_solveSystem (iteration : Nat) :
    Fixes standing (solveSystem iteration : Work α σ _) := by
  refine fixes_bind (stands_timed (stands_eval _)) fun k => ?_
  refine fixes_bind (stands_timed (stands_factorize k)) fun factored => ?_
  cases factored with
  | error e => exact fixes_bind (stands_note rfl) fun _ => fixes_pure _
  | ok reg =>
    refine fixes_bind (stands_timed (fixes_get_bind fun _ => rfl)) fun solved => ?_
    cases solved with
    | error e => exact fixes_bind (stands_note rfl) fun _ => fixes_pure _
    | ok solution => exact fixes_pure _

end Work

section Course

variable {α σ : Type} [Scalar α] {c : Settings α} {mu : α}

/-- A parameter is set, and the parameters at the checks so far lead up to it. -/
structure Reached (c : Settings α) (mu : α) (v : Settings α × α × List α) : Prop where
  settings : v.1 = c
  parameter : v.2.1 = mu
  course : c.Course (v.2.2 ++ [mu])

structure Checked (c : Settings α) (mu : α) (v : Settings α × α × List α) : Prop where
  settings : v.1 = c
  parameter : v.2.1 = mu
  course : c.Course v.2.2
  last : v.2.2.getLast? = some mu

theorem Reached.checked {c' : Settings α} {m : α} {mus : List α} (h : Reached c mu (c', m, mus)) :
    Checked c mu (c', m, mus ++ [mu]) :=
  ⟨h.settings, h.parameter, h.course, List.getLast?_concat⟩

theorem Checked.follow {c' : Settings α} {m next : α} {mus : List α}
    (h : Checked c mu (c', m, mus)) (hnext : c.Succeeds mu next) :
    Reached c next (c', next, mus) := by
  refine ⟨h.settings, rfl, ?_, ?_⟩
  · have hne : mus ≠ [] := by
      rintro rfl
      cases h.last
    rw [List.head?_append_of_ne_nil _ hne]
    exact h.course.head
  · refine h.course.chain.append (.singleton next) fun last hlast first hfirst => ?_
    obtain rfl := Option.mem_unique hlast h.last
    obtain rfl := Option.some_inj.mp hfirst
    exact hnext

theorem Checked.reached {v : Settings α × α × List α} (h : Checked c mu v) : Reached c mu v := by
  obtain ⟨c', m, mus⟩ := v
  obtain rfl : m = mu := h.parameter
  exact h.follow (.inl rfl)

namespace Work

def OnCourse (c : Settings α) (s : Session α σ) : Prop := ∃ mu, Reached c mu (standing s)

variable {β : Type}

theorem carries_reached {a : Work α σ β} (h : Fixes standing a) :
    Carries (OnCourse c) (fun s => Reached c mu (standing s)) a
      fun _ s => Reached c mu (standing s) :=
  h.carries (p := Reached c mu) fun _ hs => ⟨mu, hs⟩

theorem carries_checked {a : Work α σ β} (h : Fixes standing a) :
    Carries (OnCourse c) (fun s => Checked c mu (standing s)) a
      fun _ s => Checked c mu (standing s) :=
  h.carries (p := Checked c mu) fun _ hs => ⟨mu, hs.reached⟩

theorem untimed_check_run (s : Session α σ) : ∃ t : Session α σ,
    (untimed (do note (.checked (← get).solver.info))).run s = (some (), t) ∧
      standing t = (s.solver.settings, s.problem.mu,
        s.events.filterMap Event.checkedMu ++ [s.solver.info.mu]) :=
  ⟨_, rfl, by simp [standing, Event.checkedMu]⟩

theorem checked_checkConvergence (iteration : Nat) :
    Carries (OnCourse c) (fun s => Reached c mu (standing s))
      (checkConvergence iteration mu : Work α σ Bool) fun _ s => Checked c mu (standing s) := by
  refine carries_bind _ (carries_reached (stands_eval _)) fun residuals => ?_
  refine carries_bind _ (carries_reached (stands_eval _)) fun objective => ?_
  refine carries_bind (fun _ s => Reached c mu (standing s) ∧ s.solver.info.mu = mu) ?_ fun _ => ?_
  · exact fun s hs => ⟨⟨mu, hs⟩, fun _ _ => ⟨hs, rfl⟩⟩
  refine carries_bind (fun _ s => Checked c mu (standing s)) ?_ fun _ => ?_
  · rintro s ⟨hs, hmu⟩
    obtain ⟨t, hrun, ht⟩ := untimed_check_run s
    have hchecked : Checked c mu (standing t) := by
      rw [ht, hmu]
      exact hs.checked
    rw [hrun]
    exact ⟨⟨mu, hchecked.reached⟩, fun _ _ => hchecked⟩
  · exact carries_checked (fixes_bind (fixes_get_bind fun _ => rfl) fun _ => fixes_pure _)

omit [Scalar α] in
theorem carries_of_settings {I P : Session α σ → Prop} {Q : β → Session α σ → Prop}
    {f : Settings α → Work α σ β} (hP : ∀ s, P s → s.solver.settings = c)
    (h : Carries I P (f c) Q) : Carries I P (settings >>= f) Q := by
  intro s hs
  obtain rfl : s.solver.settings = c := hP s hs
  exact h s hs

theorem reached_setMu :
    Carries (OnCourse c) (fun s => Checked c mu (standing s))
      (onProblem (modify (·.setMu (Solver.nextMu c mu))) : Work α σ Unit)
      fun _ s => Reached c (Solver.nextMu c mu) (standing s) := by
  intro s hs
  have hnext := hs.follow (.inr rfl)
  exact ⟨⟨_, hnext⟩, fun _ _ => hnext⟩

/-- The one place where a parameter changes. -/
theorem reached_reduceBarrier :
    Carries (OnCourse c) (fun s => Checked c mu (standing s)) (reduceBarrier mu : Work α σ α)
      fun next s => Reached c next (standing s) := by
  refine carries_of_settings (fun _ hs => hs.settings) ?_
  refine carries_bind _ (carries_checked (stands_eval _)) fun residuals => ?_
  split
  · refine carries_bind _ reached_setMu fun _ => ?_
    exact carries_pure (fun _ hs => ⟨_, hs⟩) fun _ hs => hs
  · exact carries_pure (fun _ hs => ⟨_, hs.reached⟩) fun _ hs => hs.reached

theorem reached_prepare (remaining : Nat) :
    Carries (OnCourse c) (fun s => Reached c mu (standing s)) (prepare remaining mu : Work α σ _)
      fun prepared s => match prepared with
        | .error _ => OnCourse c s
        | .ok next => Reached c next.2 (standing s) := by
  refine carries_of_settings (fun _ hs => hs.settings) ?_
  refine carries_bind _ (checked_checkConvergence _) fun converged => ?_
  cases converged with
  | true => exact carries_pure (fun _ hs => ⟨mu, hs.reached⟩) fun _ hs => ⟨mu, hs.reached⟩
  | false =>
    refine carries_bind _ (carries_checked stands_elapsed) fun t => ?_
    split
    · exact carries_pure (fun _ hs => ⟨mu, hs.reached⟩) fun _ hs => ⟨mu, hs.reached⟩
    · refine carries_bind _ reached_reduceBarrier fun next => ?_
      exact carries_pure (fun _ hs => ⟨next, hs⟩) fun _ hs => hs

variable [LinearSolver σ α]

theorem onCourse_iterate (remaining : Nat) (mu : α) :
    Carries (OnCourse c) (fun s => Reached c mu (standing s)) (iterate remaining mu : Work α σ _)
      fun _ s => OnCourse c s := by
  have hpure {mu : α} (status : Status) : Carries (OnCourse c) (fun s => Reached c mu (standing s))
      (pure status : Work α σ Status) fun _ s => OnCourse c s :=
    carries_pure (fun _ hs => ⟨mu, hs⟩) fun _ hs => ⟨mu, hs⟩
  induction remaining generalizing mu with
  | zero =>
    refine carries_of_settings (fun _ hs => hs.settings) ?_
    refine carries_bind _ (checked_checkConvergence _) fun converged => ?_
    split <;> exact carries_pure (fun _ hs => ⟨mu, hs.reached⟩) fun _ hs => ⟨mu, hs.reached⟩
  | succ remaining ih =>
    rw [iterate_succ]
    refine carries_bind _ (reached_prepare remaining) fun prepared => ?_
    cases prepared with
    | error status => exact carries_pure (fun _ hs => hs) fun _ hs => hs
    | ok next =>
      refine carries_bind _ (carries_reached (stands_solveSystem _)) fun solved => ?_
      cases solved with
      | error status => exact hpure status
      | ok found =>
        refine carries_bind _ (carries_reached (stands_direct _)) fun finite => ?_
        cases finite with
        | false => exact hpure .numericalError
        | true => exact carries_bind _ (carries_reached (stands_move _ _)) fun _ => ih next.2

theorem reached_enter : Carries (OnCourse c)
    (fun s : Session α σ => s.solver.settings = c ∧ s.events = []) (enter : Work α σ _)
    fun c' s => c' = c ∧ Reached c c.muInit (standing s) := by
  rintro s ⟨rfl, hevents⟩
  have hrun : ∃ t : Session α σ, (enter : Work α σ _).run s = (some s.solver.settings, t) ∧
      standing t = (s.solver.settings, s.solver.settings.muInit,
        (s.events ++ [Event.started ⟨s.problem.primals, s.problem.equalities,
          s.problem.inequalities⟩ (LinearSolver.name s.solver.backend)]).filterMap
            Event.checkedMu) :=
    ⟨_, rfl, rfl⟩
  obtain ⟨t, hrun, ht⟩ := hrun
  have hreached : Reached s.solver.settings s.solver.settings.muInit (standing t) := by
    rw [ht, hevents]
    exact ⟨rfl, rfl, rfl, .singleton _⟩
  rw [hrun]
  refine ⟨⟨_, hreached⟩, ?_⟩
  rintro _ ⟨⟩
  exact ⟨rfl, hreached⟩

theorem onCourse_solve : Carries (OnCourse c)
    (fun s : Session α σ => s.solver.settings = c ∧ s.events = []) (solve : Work α σ _)
    fun _ s => OnCourse c s := by
  rw [solve_eq]
  refine carries_bind _ reached_enter fun c' => ?_
  refine carries_of_known (fun _ hs => hs.1) ?_
  rintro rfl
  refine carries_bind _ ((onCourse_iterate _ _).mono (fun _ hs => hs.2) fun _ _ hs => hs)
    fun status => ?_
  exact (stands_conclude status).carries (p := fun v => ∃ mu, Reached c' mu v) fun _ hs => hs

end Work

/-- The barrier parameters of a solve: those in force at its checks, in order, and the one that it
leaves. A parameter that is set is in force at the next check or is left, so none is missing. -/
def Session.barriers (s : Session α σ) : List α :=
  s.events.filterMap Event.checkedMu ++ [s.problem.mu]

theorem Work.OnCourse.barriers {s : Session α σ} (h : OnCourse c s) : c.Course s.barriers := by
  obtain ⟨mu, hreached⟩ := h
  obtain rfl : s.problem.mu = mu := hreached.parameter
  exact hreached.course

namespace Solver

variable [LinearSolver σ α]

/-- However a solve goes and whether or not it breaks off, its barrier parameters begin with the
first one of the settings, and each of them is the one before or its reduction. -/
theorem course_solve (s : Solver α σ) (p : BarrierProblem α) (clock : Clock α) :
    s.settings.Course (s.solve p clock).2.barriers :=
  (Work.onCourse_solve ⟨s, p, .new, clock, []⟩ ⟨rfl, rfl⟩).1.barriers

/-- The barrier parameters of a solve are positive. If they begin no lower than the least one, they
never increase and never get below it. If they begin below it, they stay there until the first
reduction, which raises them to the least one, where they stay. -/
theorem barriers_of_validate [ContractingScalar α] {s : Solver α σ}
    (hvalid : s.settings.validate = .ok ()) (p : BarrierProblem α) (clock : Clock α) :
    let c := s.settings
    let mus := (s.solve p clock).2.barriers
    mus.head? = some c.muInit ∧ mus.IsChain c.Succeeds ∧
      (∀ mu ∈ mus, Scalar.lt 0 mu = true) ∧
      (Scalar.le c.muMin c.muInit = true →
        mus.Pairwise (fun mu next => Scalar.le next mu = true) ∧
          ∀ mu ∈ mus, Scalar.le c.muMin mu = true) ∧
      (Scalar.lt c.muInit c.muMin = true → ∃ before after,
        mus = List.replicate (before + 1) c.muInit ++ List.replicate after c.muMin) := by
  intro c mus
  have hcourse : c.Course mus := course_solve s p clock
  have hc : c.Reducing := Settings.reducing_of_validate hvalid
  exact ⟨hcourse.head, hcourse.chain, hcourse.pos hc,
    fun hstart => ⟨hcourse.antitone hc hstart, hcourse.muMin_le hc hstart⟩, hcourse.eq_replicate hc⟩

-- In exact arithmetic: begun too low, the parameter is raised by its first reduction.
example :
    let c : Settings (Extended ℚ) :=
      { Settings.default with maxIter := 1, muInit := 0.01, muMin := 0.1, barrierTolFactor := 1000 }
    let s := { exactSolver with settings := c }
    (s.solve halfLineProblem ⟨fun _ => 0, 0⟩).2.barriers = [0.01, 0.1, 0.1] := by
  decide +kernel

end Solver

end Course

def hasty : Settings Float := { Settings.default with maxIter := 0, muInit := 0.01, muMin := 0.1 }

def hastySolver : Solver Float (Backend Float) := { defaultSolver with settings := hasty }

theorem new_hasty : Solver.new hasty = .ok hastySolver := by
  have hvalid : hasty.validate = .ok () := by decide +kernel
  simp only [Solver.new, hvalid]
  rfl

theorem barriers_of_validate_default :
    (defaultSolver.settings.validate = .ok () ∧
      Scalar.le defaultSolver.settings.muMin defaultSolver.settings.muInit = true ∧
      (defaultSolver.solve (constantProblem 1) stopped).2.barriers.Pairwise
        fun mu next => Scalar.le next mu = true) ∧
    hastySolver.settings.validate = .ok () ∧
      Scalar.lt hastySolver.settings.muInit hastySolver.settings.muMin = true ∧
      ∃ before after, (hastySolver.solve (constantProblem 1) stopped).2.barriers =
        List.replicate (before + 1) hasty.muInit ++ List.replicate after hasty.muMin := by
  have hdefault : defaultSolver.settings.validate = .ok () := by decide +kernel
  have hhasty : hastySolver.settings.validate = .ok () := by decide +kernel
  have hle : Scalar.le defaultSolver.settings.muMin defaultSolver.settings.muInit = true := by
    decide +kernel
  have hlt : Scalar.lt hastySolver.settings.muInit hastySolver.settings.muMin = true := by
    decide +kernel
  obtain ⟨-, -, -, hantitone, -⟩ :=
    Solver.barriers_of_validate hdefault (constantProblem 1) stopped
  obtain ⟨-, -, -, -, hraised⟩ := Solver.barriers_of_validate hhasty (constantProblem 1) stopped
  exact ⟨⟨hdefault, hle, (hantitone hle).1⟩, hhasty, hlt, hraised hlt⟩

/-- Accepted settings may start a solve below their least barrier parameter. -/
theorem barriers_below_least :
    Solver.new hasty = .ok hastySolver ∧
      BarrierProblem.new? (constantModel 1) = some (.ok (constantProblem 1)) ∧
      (hastySolver.solve (constantProblem 1) stopped).1 = some .maxIterations ∧
      (hastySolver.solve (constantProblem 1) stopped).2.barriers ≠ [] ∧
      ∀ mu ∈ (hastySolver.solve (constantProblem 1) stopped).2.barriers,
        ¬ Scalar.le hasty.muMin mu = true := by
  have hstatus : (hastySolver.solve (constantProblem 1) stopped).1 = some .maxIterations := by
    decide +kernel
  have hsome : (hastySolver.solve (constantProblem 1) stopped).2.barriers ≠ [] := by
    simp [Session.barriers]
  have hbelow : ((hastySolver.solve (constantProblem 1) stopped).2.barriers.all
      fun mu => !Scalar.le hasty.muMin mu) = true := by
    decide +kernel
  refine ⟨new_hasty, new?_constantModel 1, hstatus, hsome, fun mu hmu => ?_⟩
  simpa using List.all_eq_true.mp hbelow mu hmu

end NonlinearOpt.InteriorPoint
