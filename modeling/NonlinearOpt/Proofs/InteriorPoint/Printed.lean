import NonlinearOpt.InteriorPoint.Printing
import NonlinearOpt.Proofs.Coupling
import NonlinearOpt.Proofs.InteriorPoint.Passes

/-!
A solve that writes its report while it runs is one that notes down its events, and the report is
that of the events. So whatever becomes of the text, the solve is the same.
-/

namespace NonlinearOpt.InteriorPoint

open Attempt

namespace Work

section Log

variable {α σ β : Type}

def log (s : Session α σ) : Settings α × List (Event α) := (s.solver.settings, s.events)

def record (s : Session α σ) : (Settings α × List (Event α)) × Nat :=
  (log s, s.solver.info.iterations)

theorem records_now : Fixes record (now : Work α σ α) := fun _ => rfl

theorem records_updateTimers (f : Timers α → Timers α) :
    Fixes record (updateTimers f : Work α σ Unit) :=
  fixes_modify fun _ => rfl

theorem records_settings : Fixes record (settings : Work α σ (Settings α)) :=
  fixes_get_bind fun _ => rfl

theorem records_eval (f : BarrierProblem α → Option β) : Fixes record (eval f : Work α σ β) :=
  fixes_get_bind fun _ => rfl

theorem records_onProblem (a : Attempt (BarrierProblem α) β) :
    Fixes record (onProblem a : Work α σ β) :=
  fun _ => rfl

variable [Scalar α]

theorem records_timed {name : String} {part : Work α σ β} (h : Fixes record part) :
    Fixes record (timed name part) :=
  fixes_bracketed records_now records_updateTimers h

theorem records_elapsed : Fixes record (elapsed : Work α σ α) :=
  fixes_bind records_now fun _ => fixes_get_bind fun _ => rfl

omit [Scalar α] in
theorem records_backSolve [LinearSolver σ α] (size : Nat) (rhs : Array α) :
    Fixes record (backSolve size rhs : Work α σ _) :=
  fixes_get_bind fun _ => rfl

theorem records_reduceBarrier (mu : α) : Fixes record (reduceBarrier mu : Work α σ α) := by
  refine fixes_bind records_settings fun c => fixes_bind (records_eval _) fun residuals => ?_
  split
  · exact fixes_bind (records_onProblem _) fun _ => fixes_pure _
  · exact fixes_pure _

theorem records_move (mu coefficient : α) :
    Fixes record (move mu coefficient : Work α σ Unit) := by
  refine fixes_bind records_settings fun c => fixes_get_bind fun s => ?_
  have hstep (primal dual : α) : Fixes record (onProblem (BarrierProblem.takeStep primal dual) >>=
      fun _ => updateInfo fun i =>
        { i with stepPrimal := primal, stepDual := dual, regularization := coefficient } :
      Work α σ Unit) :=
    fixes_bind (records_onProblem _) fun _ => fixes_modify fun _ => rfl
  exact hstep _ _ s

end Log

theorem forM_note_run {α σ γ : Type} (f : γ → Event α) (xs : List γ) (s : Session α σ) :
    (xs.forM fun x => note (f x) : Work α σ Unit).run s =
      (some (), { s with events := s.events ++ xs.map f }) := by
  induction xs generalizing s with
  | nil =>
    rw [List.map_nil, List.append_nil]
    rfl
  | cons x xs ih =>
    have hrest := ih { s with events := s.events ++ [f x] }
    rw [List.append_assoc] at hrest
    exact hrest

theorem settings_factorize {α σ : Type} [Scalar α] [LinearSolver σ α] (k : KktSystem α)
    (s : Solver α σ) : (s.factorize k).solver.settings = s.settings := by
  unfold Solver.factorize
  split <;> rfl

theorem factorize_eq {α σ : Type} [Scalar α] [LinearSolver σ α] (k : KktSystem α) :
    (factorize k : Work α σ _) = (do
      let r := (← get).solver.factorize k
      modify fun s => { s with solver := r.solver }
      r.events.forM fun e => note (.regularization e)
      return r.result) := by
  refine OptionT.ext (funext fun s => ?_)
  have hnotes := forM_note_run Event.regularization (s.solver.factorize k).events
    { s with solver := (s.solver.factorize k).solver }
  symm
  show ((do
    (s.solver.factorize k).events.forM fun e => note (.regularization e)
    return (s.solver.factorize k).result : Work α σ _).run
      { s with solver := (s.solver.factorize k).solver }) = _
  rw [run_bind, hnotes]
  rfl

end Work

section Following

variable {σ ω β γ : Type}

theorem Event.reportEach_concat (w : Writer ω) (c : Settings Float) (place : ω)
    (es : List (Event Float)) (e : Event Float) :
    Event.reportEach w c place (es ++ [e]) =
      ((e.report w c (Event.reportEach w c place es).1).1,
        (Event.reportEach w c place es).2 ++ (e.report w c (Event.reportEach w c place es).1).2) := by
  rw [reportEach, List.foldl_concat]
  rfl

/-- A solve that writes to a place and one that does not are at the same point, and what has been
written is the report of the events up to there. -/
structure Reported (w : Writer ω) (c : Settings Float) (place : ω) (d : Printout σ ω)
    (s : Session Float σ) : Prop where
  session : d.session = s
  settings : s.solver.settings = c
  report : (d.place, d.notices) = Event.reportEach w c place s.events

namespace Printing

variable {w : Writer ω} {c : Settings Float} {place : ω}

def Follows (w : Writer ω) (c : Settings Float) (place : ω) (b : Printing σ ω β)
    (a : Work Float σ β) : Prop :=
  Couples (Reported w c place) Eq b a

theorem follows_bind {b : Printing σ ω γ} {a : Work Float σ γ} {g : γ → Printing σ ω β}
    {f : γ → Work Float σ β} (h : Follows w c place b a)
    (hf : ∀ x, Follows w c place (g x) (f x)) : Follows w c place (b >>= g) (a >>= f) := by
  refine couples_bind h ?_
  rintro x _ rfl
  exact hf x

theorem follows_pure (b : β) : Follows (σ := σ) w c place (pure b) (pure b) := couples_pure rfl

theorem follows_get_bind {g : Printout σ ω → Printing σ ω β} {f : Session Float σ → Work Float σ β}
    (h : ∀ d s, d.session = s → Follows w c place (g d) (f s)) :
    Follows w c place (get >>= g) (get >>= f) :=
  couples_get_bind fun d s hs => h d s hs.session d s hs

theorem follows_quietly {a : Work Float σ β} (h : Fixes Work.log a) :
    Follows w c place (quietly a) a := by
  rintro ⟨s, place', notices⟩ _ ⟨rfl, hsettings, hreport⟩
  have hlog := h s
  refine meets_eq_iff.mpr ⟨rfl, rfl, ?_, ?_⟩
  · exact (congrArg Prod.fst hlog).trans hsettings
  · have hevents : (a.run s).2.events = s.events := congrArg Prod.snd hlog
    show (place', notices) = _
    rw [hevents, ← hreport]

theorem follows_tell (e : Event Float) :
    Follows (σ := σ) w c place (tell w e) (Work.note e) := by
  rintro ⟨s, place', notices⟩ _ ⟨rfl, rfl, hreport⟩
  have hreport : (place', notices) = Event.reportEach w s.solver.settings place s.events := hreport
  refine ⟨.some rfl, rfl, rfl, ?_⟩
  show ((e.report w s.solver.settings place').1,
    notices ++ (e.report w s.solver.settings place').2) =
      Event.reportEach w s.solver.settings place (s.events ++ [e])
  rw [Event.reportEach_concat, ← hreport]

theorem follows_bracketed {f g : Float → Timers Float → Timers Float} {b : Printing σ ω β}
    {a : Work Float σ β} (h : Follows w c place b a) :
    Follows w c place (do
        let t ← quietly Work.now
        quietly (Work.updateTimers (f t))
        let x ← b
        let t ← quietly Work.now
        quietly (Work.updateTimers (g t))
        return x) (do
        let t ← Work.now
        Work.updateTimers (f t)
        let x ← a
        let t ← Work.now
        Work.updateTimers (g t)
        return x) := by
  refine follows_bind (follows_quietly Work.records_now.fst) fun first => ?_
  refine follows_bind (follows_quietly (Work.records_updateTimers _).fst) fun _ => ?_
  refine follows_bind h fun x => ?_
  refine follows_bind (follows_quietly Work.records_now.fst) fun last => ?_
  exact follows_bind (follows_quietly (Work.records_updateTimers _).fst) fun _ => follows_pure x

theorem follows_timed {b : Printing σ ω β} {a : Work Float σ β} (name : String)
    (h : Follows w c place b a) : Follows w c place (timed name b) (Work.timed name a) :=
  follows_bracketed h

theorem follows_untimed {b : Printing σ ω β} {a : Work Float σ β} (h : Follows w c place b a) :
    Follows w c place (untimed b) (Work.untimed a) :=
  follows_bracketed h

theorem follows_settings :
    Follows (σ := σ) w c place (quietly Work.settings) Work.settings :=
  follows_quietly Work.records_settings.fst

theorem follows_eval (f : BarrierProblem Float → Option β) :
    Follows (σ := σ) w c place (quietly (Work.eval f)) (Work.eval f) :=
  follows_quietly (Work.records_eval f).fst

theorem follows_updateInfo (f : Info Float → Info Float) :
    Follows (σ := σ) w c place (quietly (Work.updateInfo f)) (Work.updateInfo f) :=
  follows_quietly (fixes_modify fun _ => rfl)

theorem follows_checkConvergence (iteration : Nat) (mu : Float) :
    Follows (σ := σ) w c place (checkConvergence w iteration mu)
      (Work.checkConvergence iteration mu) := by
  refine follows_bind (follows_eval _) fun residuals => ?_
  refine follows_bind (follows_eval _) fun objective => ?_
  refine follows_bind (follows_updateInfo _) fun _ => ?_
  refine follows_bind (follows_untimed (follows_get_bind ?_)) fun _ => ?_
  · rintro d _ rfl
    exact follows_tell _
  · exact follows_bind follows_settings fun _ => follows_pure _

variable [LinearSolver σ Float]

theorem follows_factorize (k : KktSystem Float) :
    Follows (σ := σ) w c place (factorize w k) (Work.factorize k) := by
  rw [Work.factorize_eq]
  refine couples_get_bind fun d s hs => ?_
  obtain rfl := hs.session
  refine meets_bind (meets_eq_iff.mpr ⟨rfl, rfl, ?_, hs.report⟩) ?_
  · exact (Work.settings_factorize k d.session.solver).trans hs.settings
  · rintro _ _ -
    exact follows_bind (couples_forM fun e => follows_tell _) fun _ => follows_pure _

theorem follows_newtonStep (iteration : Nat) (mu : Float) :
    Follows (σ := σ) w c place (newtonStep w iteration mu) (Work.newtonStep iteration mu) := by
  refine follows_bind (follows_quietly (Work.records_timed (Work.records_eval _)).fst) fun k => ?_
  refine follows_bind (follows_timed _ (follows_factorize k)) fun factored => ?_
  cases factored with
  | error e => exact follows_bind (follows_tell _) fun _ => follows_pure _
  | ok reg =>
    refine follows_bind
      (follows_quietly (Work.records_timed (Work.records_backSolve _ _)).fst) fun solved => ?_
    cases solved with
    | error e => exact follows_bind (follows_tell _) fun _ => follows_pure _
    | ok solution =>
      refine follows_bind (follows_quietly (Work.records_onProblem _).fst) fun _ => ?_
      refine follows_get_bind ?_
      rintro d _ rfl
      split
      · exact follows_bind (follows_quietly (Work.records_move _ _).fst) fun _ => follows_pure _
      · exact follows_pure _

theorem follows_iterate (remaining : Nat) (mu : Float) :
    Follows (σ := σ) w c place (iterate w remaining mu) (Work.iterate remaining mu) := by
  induction remaining generalizing mu with
  | zero =>
    refine follows_bind follows_settings fun settings => ?_
    refine follows_bind (follows_checkConvergence _ _) fun converged => ?_
    cases converged <;> exact follows_pure _
  | succ remaining ih =>
    refine follows_bind follows_settings fun settings => ?_
    refine follows_bind (follows_checkConvergence _ _) fun converged => ?_
    cases converged with
    | true => exact follows_pure _
    | false =>
      refine follows_bind (follows_quietly Work.records_elapsed.fst) fun t => ?_
      split
      · exact follows_pure _
      · refine follows_bind (follows_quietly (Work.records_reduceBarrier _).fst) fun mu' => ?_
        refine follows_bind (follows_newtonStep _ _) fun ended => ?_
        cases ended with
        | some status => exact follows_pure _
        | none => exact ih mu'

theorem follows_solve : Follows (σ := σ) w c place (solve w) Work.solve := by
  refine follows_bind (follows_quietly (fixes_modify fun _ => rfl)) fun _ => ?_
  refine follows_get_bind ?_
  rintro d _ rfl
  refine follows_bind (follows_untimed (follows_tell _)) fun _ => ?_
  refine follows_bind (follows_quietly (Work.records_onProblem _).fst) fun _ => ?_
  refine follows_bind (follows_timed _ (follows_iterate _ _)) fun status => ?_
  refine follows_bind (follows_quietly Work.records_elapsed.fst) fun solveTime => ?_
  refine follows_bind (follows_updateInfo _) fun _ => ?_
  refine follows_get_bind ?_
  rintro d' _ rfl
  refine follows_bind (follows_tell _) fun _ => ?_
  exact follows_bind (follows_quietly (fixes_modify fun _ => rfl)) fun _ => follows_pure status

end Printing

end Following

/-- Writing while it runs, a solve is the one that does not write, and what it has written and left
is the report of that one. -/
theorem Solver.print_eq {σ ω : Type} [LinearSolver σ Float] (w : Writer ω) (s : Solver Float σ)
    (p : BarrierProblem Float) (clock : Clock Float) (place : ω) :
    let r := s.solve p clock
    let report := Event.reportEach w s.settings place r.2.events
    s.print w p clock place = (r.1, ⟨r.2, report.1, report.2⟩) := by
  intro r report
  have hstart : Reported w s.settings place ⟨⟨s, p, .new, clock, []⟩, place, []⟩
      (⟨s, p, .new, clock, []⟩ : Session Float σ) := ⟨rfl, rfl, rfl⟩
  obtain ⟨hstatus, hsession, -, hreport⟩ := meets_eq_iff.mp (Printing.follows_solve _ _ hstart)
  obtain ⟨hplace, hnotices⟩ := Prod.mk.inj hreport
  have hend : (s.print w p clock place).2 = ⟨r.2, report.1, report.2⟩ :=
    Printout.ext hsession hplace hnotices
  exact Prod.ext hstatus hend

end NonlinearOpt.InteriorPoint
