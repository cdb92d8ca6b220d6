import NonlinearOpt.Proofs.InteriorPoint.Alike
import NonlinearOpt.Proofs.InteriorPoint.Recording
import NonlinearOpt.Proofs.Text.Lines

namespace NonlinearOpt.InteriorPoint

open Attempt

section Rows

variable {α : Type}

def Event.isShown : Event α → Bool
  | started .. | checked _ | finished _ => true
  | regularization _ | stopped .. => false

/-- A start and a check for each of the first `k` iterations, by the given settings. -/
structure Tabled (c : Settings α) (first : Event α) (k : Nat)
    (v : Settings α × Nat × List (Event α)) : Prop where
  settings : v.1 = c
  rows : ∃ rows : List (Info α),
    rows.map Info.iterations = List.range k ∧ v.2.2 = first :: rows.map Event.checked

structure TabledThrough (c : Settings α) (first : Event α) (k : Nat)
    (v : Settings α × Nat × List (Event α)) : Prop where
  table : Tabled c first (k + 1) v
  latest : v.2.1 = k

variable {c c' : Settings α} {first : Event α} {k n : Nat} {es : List (Event α)}

theorem Tabled.check (h : Tabled c first k (c', n, es)) {info : Info α}
    (hinfo : info.iterations = k) : TabledThrough c first k (c', k, es ++ [.checked info]) := by
  obtain ⟨hsettings, rows, hrows, rfl⟩ := h
  refine ⟨⟨hsettings, rows ++ [info], ?_, ?_⟩, rfl⟩
  · rw [List.map_append, hrows, List.range_succ, List.map_singleton, hinfo]
  · rw [List.map_append, List.map_singleton, List.cons_append]

end Rows

namespace Work

variable {α σ β : Type}

def shown (s : Session α σ) : Settings α × Nat × List (Event α) :=
  (s.solver.settings, s.solver.info.iterations, s.events.filter Event.isShown)

theorem shows_of_records {a : Work α σ β} (h : Fixes record a) : Fixes shown a :=
  fun s => congrArg (fun v => (v.1.1, v.2, v.1.2.filter Event.isShown)) (h s)

theorem shows_note {e : Event α} (he : e.isShown = false) :
    Fixes shown (note e : Work α σ Unit) := by
  refine fixes_modify fun s => ?_
  show (_, _, (s.events ++ [e]).filter Event.isShown) = _
  rw [List.filter_append, List.filter_singleton, he, Bool.cond_false, List.append_nil]
  rfl

variable [Scalar α]

theorem shows_timed {name : String} {part : Work α σ β} (h : Fixes shown part) :
    Fixes shown (timed name part) :=
  fixes_bracketed (shows_of_records records_now)
    (fun f => shows_of_records (records_updateTimers f)) h

section Newton

variable [LinearSolver σ α]

theorem shows_factorize (k : KktSystem α) : Fixes shown (factorize k : Work α σ _) := by
  refine fixes_get_bind fun s => ?_
  have hinfo : (s.solver.factorize k).solver.info = s.solver.info :=
    congrArg (fun v => v.1.2) (fixes_factorize k s)
  have hevents : ((s.solver.factorize k).events.map Event.regularization).filter Event.isShown =
      [] := by
    rw [List.filter_map, List.map_eq_nil_iff, List.filter_eq_nil_iff]
    exact fun _ _ => Bool.false_ne_true
  show ((s.solver.factorize k).solver.settings, (s.solver.factorize k).solver.info.iterations,
    (s.events ++ (s.solver.factorize k).events.map Event.regularization).filter Event.isShown) = _
  rw [settings_factorize, hinfo, List.filter_append, hevents, List.append_nil]
  rfl

theorem shows_newtonStep (iteration : Nat) (mu : α) :
    Fixes shown (newtonStep iteration mu : Work α σ _) := by
  refine fixes_bind (shows_timed (shows_of_records (records_eval _))) fun k => ?_
  refine fixes_bind (shows_timed (shows_factorize k)) fun factored => ?_
  cases factored with
  | error e => exact fixes_bind (shows_note rfl) fun _ => fixes_pure _
  | ok reg =>
    refine fixes_bind (shows_timed (shows_of_records (records_backSolve _ _))) fun solved => ?_
    cases solved with
    | error e => exact fixes_bind (shows_note rfl) fun _ => fixes_pure _
    | ok solution =>
      refine fixes_bind (shows_of_records (records_onProblem _)) fun _ => fixes_get_bind fun s => ?_
      split
      · have hmove : Fixes shown (do
            move mu reg.coefficient
            return none : Work α σ (Option Status)) :=
          fixes_bind (shows_of_records (records_move _ _)) fun _ => fixes_pure _
        exact hmove s
      · rfl

end Newton

section Table

variable {c : Settings α} {first : Event α} {k : Nat}

theorem untimed_check_shown (s : Session α σ) : ∃ t : Session α σ,
    (untimed (do note (.checked (← get).solver.info))).run s = (some (), t) ∧
      shown t = (s.solver.settings, s.solver.info.iterations,
        s.events.filter Event.isShown ++ [.checked s.solver.info]) :=
  ⟨_, rfl, by simp [shown, Event.isShown]⟩

theorem tabled_checkConvergence (mu : α) :
    Ensures (fun s => Tabled c first k (shown s)) (checkConvergence k mu : Work α σ Bool)
      fun _ s => TabledThrough c first k (shown s) := by
  refine ensures_bind _ ((shows_of_records (records_eval _)).keeps _) fun residuals => ?_
  refine ensures_bind _ ((shows_of_records (records_eval _)).keeps _) fun objective => ?_
  refine ensures_bind (fun _ s => Tabled c first k (shown s) ∧ s.solver.info.iterations = k)
    (ensures_modify fun s hs => ⟨⟨hs.settings, hs.rows⟩, rfl⟩) fun _ => ?_
  refine ensures_bind (fun _ s => TabledThrough c first k (shown s)) ?_ fun _ => ?_
  · rintro s ⟨hs, hk⟩ _ _ hrun
    obtain ⟨t, hcheck, ht⟩ := untimed_check_shown s
    obtain ⟨-, rfl⟩ := Prod.mk.inj (hcheck.symm.trans hrun)
    rw [ht, hk]
    exact hs.check hk
  · exact ensures_bind _ ((shows_of_records records_settings).keeps _) fun _ =>
      ensures_pure fun _ hs => hs

variable [LinearSolver σ α]

theorem tabled_iterate (remaining : Nat) (hremaining : remaining ≤ c.maxIter) (mu : α) :
    Ensures (fun s => Tabled c first (c.maxIter - remaining) (shown s))
      (iterate remaining mu : Work α σ Status)
      fun _ s => Tabled c first ((shown s).2.1 + 1) (shown s) := by
  -- the row of an iteration is there before any way out of it is taken
  have hends {β : Type} {k : Nat} (b : β) : Ensures (fun s => TabledThrough c first k (shown s))
      (pure b : Work α σ β) fun _ s => Tabled c first ((shown s).2.1 + 1) (shown s) :=
    ensures_pure fun s hs => hs.latest.symm ▸ hs.table
  induction remaining generalizing mu with
  | zero =>
    refine ensures_settings_bind (fun _ hs => hs.settings) ?_
    refine ensures_bind _ (tabled_checkConvergence mu) fun converged => ?_
    cases converged <;> exact hends _
  | succ remaining ih =>
    have hnext : c.maxIter - (remaining + 1) + 1 = c.maxIter - remaining := by omega
    refine ensures_settings_bind (fun _ hs => hs.settings) ?_
    refine ensures_bind _ (tabled_checkConvergence mu) fun converged => ?_
    cases converged with
    | true => exact hends _
    | false =>
      refine ensures_bind _ ((shows_of_records records_elapsed).keeps _) fun t => ?_
      split
      · exact hends _
      · refine ensures_bind _ ((shows_of_records (records_reduceBarrier mu)).keeps _) fun mu' => ?_
        refine ensures_bind _ ((shows_newtonStep _ mu').keeps _) fun ended => ?_
        cases ended with
        | some status => exact hends _
        | none => exact (ih (by omega) mu').mono (fun _ hs => hnext ▸ hs.table) fun _ _ hs => hs

def opening (s : Session α σ) : Event α :=
  .started ⟨s.problem.primals, s.problem.equalities, s.problem.inequalities⟩
    (LinearSolver.name s.solver.backend)

structure Completed (first : Event α) (status : Status) (s : Session α σ) : Prop where
  status : s.solver.info.status = status
  rows : ∃ rows : List (Info α),
    rows.map Info.iterations = List.range (s.solver.info.iterations + 1) ∧
      s.events.filter Event.isShown = first :: rows.map Event.checked ++ [.finished s.solver.info]

theorem tabled_enter (s : Session α σ) (hs : s.events = []) :
    ∃ t : Session α σ, (enter : Work α σ _).run s = (some s.solver.settings, t) ∧
      Tabled s.solver.settings (opening s) 0 (shown t) := by
  refine ⟨_, rfl, rfl, [], rfl, ?_⟩
  show (s.events ++ [_]).filter Event.isShown = _
  rw [hs]
  rfl

omit [LinearSolver σ α] in
theorem conclude_shown (status : Status) (s : Session α σ) : ∃ t : Session α σ,
    (conclude status).run s = (some status, t) ∧ t.solver.info.status = status ∧
      t.solver.info.iterations = s.solver.info.iterations ∧
      t.events = s.events ++ [.finished t.solver.info] :=
  ⟨_, rfl, rfl, rfl, rfl⟩

omit [LinearSolver σ α] in
theorem completed_conclude (status : Status) :
    Ensures (fun s => Tabled c first ((shown s).2.1 + 1) (shown s))
      (conclude status : Work α σ Status) (Completed first) := by
  intro s hs status' t hrun
  obtain ⟨u, hu, hstatus, hiterations, hevents⟩ := conclude_shown status s
  obtain ⟨hvalue, rfl⟩ := Prod.mk.inj (hu.symm.trans hrun)
  obtain rfl := Option.some.inj hvalue
  obtain ⟨rows, hrows, hshown⟩ := hs.rows
  have hshown : s.events.filter Event.isShown = first :: rows.map Event.checked := hshown
  refine ⟨hstatus, rows, ?_, ?_⟩
  · rw [hiterations]
    exact hrows
  · rw [hevents, List.filter_append, hshown]
    rfl

theorem completed_solve (s : Session α σ) (hs : s.events = []) :
    Ensures (· = s) (solve : Work α σ Status) (Completed (opening s)) := by
  rw [solve_eq]
  obtain ⟨t, henter, ht⟩ := tabled_enter s hs
  refine ensures_bind (fun c' u => c' = s.solver.settings ∧ u = t) ?_ fun c' => ?_
  · rintro _ rfl c' u hrun
    obtain ⟨hc, hu⟩ := Prod.mk.inj (hrun.symm.trans henter)
    exact ⟨Option.some.inj hc, hu⟩
  · rintro t ⟨rfl, rfl⟩
    refine ensures_bind _ (tabled_iterate _ (Nat.le_refl _) _) completed_conclude t ?_
    rwa [Nat.sub_self]

end Table

end Work

section Text

variable {c : Settings Float} {out : Output}

theorem writeAll_buffer (hout : out.target = .buffer) (pieces : List String) :
    Output.writer.writeAll pieces out =
      (.ok (), { out with buffer := out.buffer ++ String.join pieces }) := by
  induction pieces generalizing out with
  | nil => rw [String.join_nil, String.append_empty]; rfl
  | cons piece pieces ih =>
    have hwrite : Output.writer.write piece out =
        (.ok (), { out with buffer := out.buffer ++ piece }) := by
      simp only [Output.writer, Output.write, hout]
    rw [Writer.writeAll, hwrite, String.join_cons, ← String.append_assoc]
    exact ih hout

namespace Event

theorem report_buffer (hverbose : c.verbose = true) (hout : out.target = .buffer)
    (e : Event Float) : (e.report Output.writer c out).1 =
      { out with buffer := out.buffer ++ String.join (e.pieces c) } := by
  have hsend : (e.send Output.writer c out).2 =
      { out with buffer := out.buffer ++ String.join (e.pieces c) } := by
    rw [send, if_pos hverbose, writeAll_buffer hout]
    dsimp only
    split <;> rfl
  exact hsend

theorem reportEach_buffer (hverbose : c.verbose = true) (hout : out.target = .buffer)
    (es : List (Event Float)) : (reportEach Output.writer c out es).1 =
      { out with buffer := out.buffer ++ String.join (es.flatMap (pieces c)) } := by
  induction es using List.reverseRecOn with
  | nil => rw [List.flatMap_nil, String.join_nil, String.append_empty]; rfl
  | append_singleton es e ih =>
    have hbefore : { out with
        buffer := out.buffer ++ String.join (es.flatMap (pieces c)) }.target = .buffer := hout
    rw [reportEach_concat, ih, List.flatMap_append, List.flatMap_singleton, String.join_append,
      ← String.append_assoc]
    exact report_buffer hverbose hbefore e

/-- Where no report is wanted, nothing gets to any place. -/
theorem reportEach_quiet {ω : Type} (hverbose : c.verbose = false) (w : Writer ω) (place : ω)
    (es : List (Event Float)) : (reportEach w c place es).1 = place := by
  induction es using List.reverseRecOn with
  | nil => rfl
  | append_singleton es e ih =>
    have hsend (place : ω) : (e.send w c place).2 = place := by
      rw [send, hverbose, if_neg Bool.false_ne_true]
    rw [reportEach_concat]
    exact (hsend _).trans ih

theorem flatMap_pieces_filter (c : Settings Float) (es : List (Event Float)) :
    (es.filter isShown).flatMap (pieces c) = es.flatMap (pieces c) := by
  induction es with
  | nil => rfl
  | cons e es ih =>
    cases e with
    | started | checked | finished => exact congrArg (pieces c _ ++ ·) ih
    | regularization | stopped => exact ih

end Event

end Text

namespace Solver

variable {σ : Type} [LinearSolver σ Float]

theorem print_buffer {s : Solver Float σ} {p : BarrierProblem Float} {clock : Clock Float}
    {out : Output} {status : Status} (hverbose : s.settings.verbose = true)
    (hout : out.target = .buffer)
    (hstatus : (s.print Output.writer p clock out).1 = some status) :
    let r := (s.print Output.writer p clock out).2
    let info := r.session.solver.info
    info.status = status ∧ ∃ rows : List (Info Float),
      rows.map Info.iterations = List.range (info.iterations + 1) ∧
      let text := String.join (Report.configuration s.settings
        ⟨p.primals, p.equalities, p.inequalities⟩ (LinearSolver.name s.backend) ++
          Report.header ++ rows.flatMap Report.row ++ Report.footer info)
      r.place = { out with buffer := out.buffer ++ text } := by
  have hprint := print_eq Output.writer s p clock out
  rw [hprint] at hstatus ⊢
  have hrun : s.solve p clock = (some status, (s.solve p clock).2) := Prod.ext hstatus rfl
  obtain ⟨hend, rows, hrows, hshown⟩ :=
    Work.completed_solve ⟨s, p, .new, clock, []⟩ rfl _ rfl status _ hrun
  refine ⟨hend, rows, hrows, ?_⟩
  show (Event.reportEach Output.writer s.settings out (s.solve p clock).2.events).1 = _
  rw [Event.reportEach_buffer hverbose hout, ← Event.flatMap_pieces_filter, hshown]
  have hflat : (rows.map Event.checked).flatMap (Event.pieces s.settings) =
      rows.flatMap Report.row := List.flatMap_map ..
  rw [List.flatMap_append, List.flatMap_cons, hflat, List.flatMap_singleton]
  rfl

/-- The report of a solve is complete: in a buffer, whatever ends the solve, it consists of the
configuration, the head of the table, one line for each iteration from the start to the last one,
and the footer with the status that is returned and no other. Where no report is wanted, nothing is
written. And the solve does not depend on it: without a time limit, the status, the problem that is
left behind and all statistics but the time are the same whether or not a report is wanted, wherever
it goes, and whatever is refused there. -/
theorem report_complete_and_inert (s : Solver Float σ) (p : BarrierProblem Float)
    (clock : Clock Float) :
    (∀ (out : Output) (status : Status), s.settings.verbose = true → out.target = .buffer →
      (s.print Output.writer p clock out).1 = some status →
      let r := (s.print Output.writer p clock out).2
      let info := r.session.solver.info
      let dims : Dimensions := ⟨p.primals, p.equalities, p.inequalities⟩
      let configuration := Report.configuration s.settings dims (LinearSolver.name s.backend)
      info.status = status ∧ ∃ rows : List (Info Float),
        rows.map Info.iterations = List.range (info.iterations + 1) ∧
        Report.IsConfiguration s.settings dims (LinearSolver.name s.backend)
          (String.join configuration) ∧
        Report.IsHeader (String.join Report.header) ∧
        (∀ row ∈ rows, Report.IsRow row.iterations (String.join (Report.row row))) ∧
        (∀ status', Report.IsFooter status' info.solveTime (String.join (Report.footer info)) ↔
          status' = status) ∧
        let text := String.join (configuration ++ Report.header ++ rows.flatMap Report.row ++
          Report.footer info)
        r.place = { out with buffer := out.buffer ++ text }) ∧
    (∀ (ω : Type) (w : Writer ω) (place : ω), s.settings.verbose = false →
      (s.print w p clock place).2.place = place) ∧
    ∀ (ω ω' : Type) (w : Writer ω) (w' : Writer ω') (place : ω) (place' : ω') (verbose : Bool)
        (clock' : Clock Float),
      s.settings.timeLimit = Scalar.infinity → clock.IsFinite → clock'.IsFinite →
      let r := s.print w p clock place
      let r' := (s.reporting verbose).print w' p clock' place'
      r'.1 = r.1 ∧ r'.2.session.problem = r.2.session.problem ∧
        ∃ solveTime, r'.2.session.solver.info = r.2.session.solver.info.lasting solveTime := by
  refine ⟨?_, ?_, ?_⟩
  · intro out status hverbose hout hstatus
    obtain ⟨hend, rows, hrows, htext⟩ := print_buffer hverbose hout hstatus
    have hfooter := Report.isFooter_footer (s.print Output.writer p clock out).2.session.solver.info
    rw [hend] at hfooter
    refine ⟨hend, rows, hrows, Report.isConfiguration_configuration _ _ _, Report.isHeader_header,
      fun row _ => Report.isRow_row row, fun status' => ⟨Report.status_of_isFooter hfooter, ?_⟩,
      htext⟩
    rintro rfl
    exact hfooter
  · intro ω w place hverbose
    rw [print_eq]
    exact Event.reportEach_quiet hverbose w place _
  · intro ω ω' w w' place place' verbose clock' hlimit hclock hclock'
    rw [print_eq, print_eq]
    obtain ⟨hstatus, ⟨_, solveTime, _, hsolver⟩, hproblem⟩ := solve_timed
      (Settings.unhurried_of_infinity hlimit hclock)
      (Settings.unhurried_of_infinity hlimit hclock') verbose s.info.solveTime s.timers (p := p)
    exact ⟨hstatus, hproblem, solveTime, congrArg Solver.info hsolver⟩

end Solver

theorem isFinite_standing (reading : Float) (h : 0 + (reading - reading) = 0) :
    Clock.IsFinite ⟨fun _ => reading, 0⟩ := by
  intro t ht
  rw [ht.eq_zero fun _ _ => h]
  decide +kernel

def ray : NlpModel Float :=
  { primals := 1
    equalities := 0
    inequalities := 0
    xLower := #[0]
    xUpper := #[Scalar.infinity]
    dLower := #[]
    dUpper := #[]
    start := #[1]
    startEqDuals := #[]
    startIneqDuals := #[]
    objective := fun x => x[0]?
    gradient := fun _ => some #[1]
    eqConstraints := fun _ => some #[]
    ineqConstraints := fun _ => some #[]
    jacobianEq := fun _ => some (.zeros 0 1)
    jacobianIneq := fun _ => some (.zeros 0 1)
    hessian := fun _ _ _ => some (.zeros 1 1) }

def rayProblem : BarrierProblem Float :=
  { model := ray
    xBounds := #[⟨some 0, none⟩]
    sBounds := #[]
    iterate := ⟨#[1], #[], #[], #[], #[1], #[0], #[], #[], 0⟩
    step := .zero 1 0 0 }

def roughSolver : Solver Float (Backend Float) :=
  { defaultSolver with settings := { Settings.default with muInit := 0.05, tolerance := 0.1 } }

def printed : Option Status × Printout (Backend Float) Output :=
  roughSolver.print Output.writer rayProblem stopped (Output.new.redirect .buffer)

def full : Output := Output.new.redirect (.failing "full")

/-- The same solve with its report refused, under another clock. -/
def refused (verbose : Bool) : Option Status × Printout (Backend Float) Output :=
  (roughSolver.reporting verbose).print Output.writer rayProblem ⟨fun _ => 1, 0⟩ full

theorem report_complete_and_inert_ray :
    roughSolver.settings.validate = .ok () ∧ roughSolver.settings.verbose = true ∧
      roughSolver.settings.timeLimit = Scalar.infinity ∧
      stopped.IsFinite ∧ Clock.IsFinite (⟨fun _ => 1, 0⟩ : Clock Float) ∧
      printed.1 = some .optimal ∧
      (∃ rows : List (Info Float), rows.map Info.iterations = [0, 1] ∧
        (∀ row ∈ rows, Report.IsRow row.iterations (String.join (Report.row row))) ∧
        (∀ status, Report.IsFooter status printed.2.session.solver.info.solveTime
          (String.join (Report.footer printed.2.session.solver.info)) ↔ status = .optimal) ∧
        printed.2.place.buffer =
          "" ++ String.join (Report.configuration roughSolver.settings ⟨1, 0, 0⟩ "qdldl" ++
            Report.header ++ rows.flatMap Report.row ++
            Report.footer printed.2.session.solver.info)) ∧
      (refused false).2.place = full ∧ (refused true).1 = some .optimal ∧
      (refused true).2.session.problem = printed.2.session.problem := by
  have hvalid : roughSolver.settings.validate = .ok () := by decide +kernel
  have hstopped : stopped.IsFinite := isFinite_standing 0 (by decide +kernel)
  have hlater : Clock.IsFinite (⟨fun _ => 1, 0⟩ : Clock Float) :=
    isFinite_standing 1 (by decide +kernel)
  have hoptimal : printed.1 = some .optimal := by decide +kernel
  have hiterations : printed.2.session.solver.info.iterations = 1 := by decide +kernel
  obtain ⟨htext, -, hsame⟩ := roughSolver.report_complete_and_inert rayProblem stopped
  obtain ⟨-, hsilent, -⟩ :=
    (roughSolver.reporting false).report_complete_and_inert rayProblem ⟨fun _ => 1, 0⟩
  obtain ⟨-, rows, hrows, -, -, hlines, hfooter, hplace⟩ := htext _ .optimal rfl rfl hoptimal
  obtain ⟨hstatus, hproblem, -⟩ :=
    hsame _ _ Output.writer Output.writer (Output.new.redirect .buffer) full true ⟨fun _ => 1, 0⟩ rfl
      hstopped hlater
  have hrow : rows.map Info.iterations = [0, 1] :=
    hrows.trans (congrArg (fun n => List.range (n + 1)) hiterations)
  exact ⟨hvalid, rfl, rfl, hstopped, hlater, hoptimal,
    ⟨rows, hrow, hlines, hfooter, congrArg Output.buffer hplace⟩, hsilent _ Output.writer full rfl,
    hstatus.trans hoptimal, hproblem⟩

end NonlinearOpt.InteriorPoint
