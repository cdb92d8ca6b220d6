import NonlinearOpt.Proofs.Arithmetic.Comparison
import NonlinearOpt.Proofs.OuterApprox.Bounds
import NonlinearOpt.Proofs.OuterApprox.Calls
import Mathlib.Data.List.Chain

/-!
Bounds as they are seen along a run. A problem can be made to note down the progress that it is
shown with every call. What an answer does to the bounds is one step of a trail, and along such
steps bounds only get closer to each other, whatever the answers are: a bound that is not a number
is passed over, and so is one that would be a step back.
-/

namespace NonlinearOpt.OuterApprox

open Scalar (isNaN)

variable {π α β γ ε : Type}

namespace Call

def isNlp : Call α → Bool
  | solveNlp _ => true
  | _ => false

def isInfeasible : Call α → Bool
  | solveMaster (.ok master) => decide (master.condition = .infeasible)
  | _ => false

end Call

/-- What can be seen at a point of a run: the progress, and the call that is made there. Nothing is
called before the first point and after the last one. -/
structure View (α : Type) where
  progress : Progress α
  call : Option (Call α)

namespace View

def isMaster (v : View α) : Bool := v.call.any Call.isMaster

def isNlp (v : View α) : Bool := v.call.any Call.isNlp

def isInfeasible (v : View α) : Bool := v.call.any Call.isInfeasible

end View

structure Watched (π α : Type) where
  problem : π
  views : List (View α)

namespace Watched

def see (r : Watched π α) (p : Progress α) (entry : Except ε β → Call α) (x : Except ε β × π) :
    Except ε β × Watched π α :=
  (x.1, ⟨x.2, r.views ++ [⟨p, some (entry x.1)⟩]⟩)

instance [MinlpProblem π α] : MinlpProblem (Watched π α) α where
  sense r := MinlpProblem.sense r.problem
  solveMaster p options r :=
    r.see p .solveMaster (MinlpProblem.solveMaster p options r.problem)
  solveNlp p c r := r.see p .solveNlp (MinlpProblem.solveNlp p c r.problem)
  integers r := (MinlpProblem.integers r.problem).map id ({ r with problem := · })
  addCuts p zeroTolerance r := r.see p .addCuts (MinlpProblem.addCuts p zeroTolerance r.problem)
  addFeasibilityCut p zeroTolerance r :=
    r.see p .addFeasibilityCut (MinlpProblem.addFeasibilityCut p zeroTolerance r.problem)
  addNoGoodCut p r := r.see p .addNoGoodCut (MinlpProblem.addNoGoodCut p r.problem)
  dropLastNoGoodCut r := (MinlpProblem.dropLastNoGoodCut r.problem).map id ({ r with problem := · })
  isPersistent r := MinlpProblem.isPersistent r.problem
  reload r := (MinlpProblem.reload r.problem).map id ({ r with problem := · })

def callback (entry : Except Error Unit → Call α) (f : Callback π α) : Callback (Watched π α) α :=
  fun p r => r.see p (fun answer => entry (answer.mapError .callback)) (f p r.problem)

theorem simulates [MinlpProblem π α] : Simulates (Watched.problem : Watched π α → π) where
  solveMaster _ _ _ := rfl
  solveNlp _ _ _ := rfl
  integers _ := rfl
  addCuts _ _ _ := rfl
  addFeasibilityCut _ _ _ := rfl
  addNoGoodCut _ _ := rfl
  dropLastNoGoodCut _ := rfl
  isPersistent _ := rfl
  reload _ := rfl

end Watched

def Callbacks.watched (c : Callbacks π α) : Callbacks (Watched π α) α :=
  ⟨c.afterMaster.map (Watched.callback .afterMaster), c.afterNlp.map (Watched.callback .afterNlp)⟩

theorem Callbacks.simulates_watched (c : Callbacks π α) :
    c.watched.Simulates Watched.problem c :=
  Callbacks.simulates_map (fun _ _ _ => rfl) (fun _ _ _ => rfl) c

namespace State

def watched (s : State π α) : State (Watched π α) α :=
  ⟨⟨s.problem, [⟨s.progress, none⟩]⟩, s.progress, s.config, s.timers, s.clock, s.events⟩

def trail (s : State (Watched π α) α) : List (View α) :=
  s.problem.views ++ [⟨s.progress, none⟩]

end State

namespace Progress

def MasterRecorded (p : Progress α) : Prop := p.masterHistory.getLast? = some p.masterBound

def PointRecorded (p : Progress α) : Prop := p.pointHistory.getLast? = some p.pointBound

def recordings (p : Progress α) : Nat := p.masterHistory.length + p.pointHistory.length

structure KeepsBounds (p p' : Progress α) : Prop where
  sense : p'.sense = p.sense
  masterBound : p'.masterBound = p.masterBound
  masterHistory : p'.masterHistory = p.masterHistory
  pointBound : p'.pointBound = p.pointBound
  pointHistory : p'.pointHistory = p.pointHistory

end Progress

theorem forall_of_isChain {P : View α → Prop} {exception : View α → Bool} {v : View α}
    {views : List (View α)}
    (hchain : (v :: views).IsChain fun v w => exception v = false → P v → P w) (hv : P v)
    {before after : List (View α)} {w : View α} (hsplit : v :: views = before ++ w :: after)
    (hbefore : ∀ u ∈ before, exception u = false) : P w := by
  induction before generalizing v views with
  | nil =>
    obtain ⟨rfl, -⟩ := List.cons.inj hsplit
    exact hv
  | cons u before ih =>
    obtain ⟨rfl, rfl⟩ := List.cons.inj hsplit
    rw [List.forall_mem_cons] at hbefore
    cases before with
    | nil => exact (List.isChain_cons_cons.mp hchain).1 hbefore.1 hv
    | cons b before =>
      obtain ⟨hb, htail⟩ := List.isChain_cons_cons.mp hchain
      exact ih htail (hb hbefore.1 hv) rfl hbefore.2

section Bounds

variable [Scalar α]

structure Climbs (better : α → α → Bool) (history : List α) : Prop where
  pairwise : history.Pairwise fun x y => better x y = true
  number : ∀ x ∈ history, isNaN x = false
  nonempty : history ≠ []

namespace Progress

structure Orderly (p : Progress α) : Prop where
  lower : p.lowerHistory.Pairwise fun x y => Scalar.le x y = true
  upper : p.upperHistory.Pairwise fun x y => Scalar.le y x = true
  number : ∀ x ∈ p.lowerHistory ++ p.upperHistory, isNaN x = false

structure Climbing (s : Sense) (p : Progress α) : Prop where
  sense : p.sense = s
  master : Climbs s.closer p.masterHistory
  point : Climbs s.opposite.closer p.pointHistory

/-- Good bounds with a good history. -/
structure Steady (s : Sense) (p : Progress α) : Prop extends Climbing s p where
  masterNumber : isNaN p.masterBound = false
  pointNumber : isNaN p.pointBound = false
  pointRecorded : p.PointRecorded

end Progress

/-- What may follow a view: the bound that the call there is about gets closer, the other one is
left, and both are recorded. -/
structure Effect (s : Sense) (v : View α) (p : Progress α) : Prop where
  master : s.closer v.progress.masterBound p.masterBound = true
  point : s.opposite.closer v.progress.pointBound p.pointBound = true
  keepsMaster : v.isMaster = false →
    p.masterBound = v.progress.masterBound ∧ p.masterHistory = v.progress.masterHistory
  keepsPoint : v.isNlp = false →
    p.pointBound = v.progress.pointBound ∧ p.pointHistory = v.progress.pointHistory
  recorded : v.isInfeasible = false → v.progress.MasterRecorded → p.MasterRecorded
  once : p.recordings ≤ v.progress.recordings + 1

def Fits (s : Sense) (v : View α) (p : Progress α) : Prop := Effect s v p ∧ p.Steady s

/-- A run that was seen from `views` is at `p`. -/
structure Arrived (s : Sense) (views : List (View α)) (p : Progress α) : Prop where
  start : ∃ v ∈ views.head?, v.progress.MasterRecorded
  chain : views.IsChain fun v w => Effect s v w.progress
  last : ∀ v ∈ views.getLast?, Effect s v p
  before : ∀ v ∈ views, v.progress.Steady s
  now : p.Steady s

structure Monotone (s : Sense) (trail : List (View α)) : Prop where
  sense : ∀ v ∈ trail, v.progress.sense = s
  lower : trail.Pairwise fun v w => Scalar.le v.progress.lower w.progress.lower = true
  upper : trail.Pairwise fun v w => Scalar.le w.progress.upper v.progress.upper = true
  number : ∀ v ∈ trail, isNaN v.progress.lower = false ∧ isNaN v.progress.upper = false
  /-- Only answers of master problems change the bound from master problems. -/
  master : trail.IsChain fun v w => v.isMaster = false →
    w.progress.masterBound = v.progress.masterBound ∧
      w.progress.masterHistory = v.progress.masterHistory
  /-- Only answers of subproblems change the bound from feasible points. -/
  point : trail.IsChain fun v w => v.isNlp = false →
    w.progress.pointBound = v.progress.pointBound ∧
      w.progress.pointHistory = v.progress.pointHistory
  /-- What is recorded last is the bound itself, until a master problem is infeasible. -/
  masterRecorded : ∀ before v after, trail = before ++ v :: after →
    (∀ u ∈ before, u.isInfeasible = false) → v.progress.MasterRecorded
  pointRecorded : ∀ v ∈ trail, v.progress.PointRecorded
  /-- The views miss nothing: at most one bound is recorded from one to the next. -/
  once : trail.IsChain fun v w => w.progress.recordings ≤ v.progress.recordings + 1

section Records

variable {s : Sense} {x : α} {p p' : Progress α}

theorem Climbs.singleton {better : α → α → Bool} (hx : isNaN x = false) : Climbs better [x] :=
  ⟨List.pairwise_singleton _ _, by simpa using hx, List.cons_ne_nil _ _⟩

namespace Progress

variable {b : α}

theorem Climbing.orderly (h : p.Climbing s) : p.Orderly := by
  obtain ⟨rfl, hmaster, hpoint⟩ := h
  cases hsense : p.sense with
  | minimize =>
    simp only [masterHistory, pointHistory, hsense] at hmaster hpoint
    refine ⟨hmaster.pairwise, hpoint.pairwise, fun x hx => ?_⟩
    exact (List.mem_append.mp hx).elim (hmaster.number x) (hpoint.number x)
  | maximize =>
    simp only [masterHistory, pointHistory, hsense] at hmaster hpoint
    refine ⟨hpoint.pairwise, hmaster.pairwise, fun x hx => ?_⟩
    exact (List.mem_append.mp hx).elim (hpoint.number x) (hmaster.number x)

theorem Steady.keepsBounds (h : p.Steady s) (hp : p.KeepsBounds p') : p'.Steady s := by
  obtain ⟨⟨hsense, hmaster, hpoint⟩, hmasterNumber, hpointNumber, hrecorded⟩ := h
  unfold PointRecorded at hrecorded
  rw [← hp.sense] at hsense
  rw [← hp.masterHistory] at hmaster
  rw [← hp.masterBound] at hmasterNumber
  rw [← hp.pointBound] at hpointNumber
  rw [← hp.pointHistory, ← hp.pointBound] at hrecorded
  rw [← hp.pointHistory] at hpoint
  exact ⟨⟨hsense, hmaster, hpoint⟩, hmasterNumber, hpointNumber, hrecorded⟩

theorem Steady.number (h : p.Steady s) : isNaN p.lower = false ∧ isNaN p.upper = false := by
  obtain ⟨⟨rfl, -, -⟩, hmaster, hpoint, -⟩ := h
  unfold masterBound at hmaster
  unfold pointBound at hpoint
  cases hsense : p.sense with
  | minimize =>
    rw [hsense] at hmaster hpoint
    exact ⟨hmaster, hpoint⟩
  | maximize =>
    rw [hsense] at hmaster hpoint
    exact ⟨hpoint, hmaster⟩

/-- A bound that gets closer is recorded as it is. -/
theorem MovesMaster.masterRecorded (hmoves : p.MovesMaster b b p')
    (hb : p.sense.closer p.masterBound b = true) (h : p.MasterRecorded) : p'.MasterRecorded := by
  unfold MasterRecorded
  rw [hmoves.history, hmoves.masterBound, record_eq_self h hb, List.getLast?_concat]

theorem MovesMaster.recordings {r : α} (hmoves : p.MovesMaster b r p') :
    p'.recordings = p.recordings + 1 := by
  unfold Progress.recordings
  rw [hmoves.history, hmoves.pointHistory, List.length_append, List.length_singleton]
  omega

theorem MovesPoint.recordings (hmoves : p.MovesPoint b p') :
    p'.recordings = p.recordings + 1 := by
  unfold Progress.recordings
  rw [hmoves.history, hmoves.pointHistory, List.length_append, List.length_singleton]
  omega

theorem MovesPoint.pointRecorded (hmoves : p.MovesPoint b p')
    (hb : p.sense.opposite.closer p.pointBound b = true) (h : p.PointRecorded) :
    p'.PointRecorded := by
  unfold PointRecorded
  rw [hmoves.pointHistory, hmoves.pointBound, record_eq_self h hb, List.getLast?_concat]

end Progress

theorem Effect.keepsBounds {v : View α} (h : Effect s v p) (hp : p.KeepsBounds p') :
    Effect s v p' := by
  obtain ⟨hmaster, hpoint, hkeepsMaster, hkeepsPoint, hrecorded, honce⟩ := h
  unfold Progress.MasterRecorded at hrecorded
  unfold Progress.recordings at honce
  rw [← hp.masterHistory, ← hp.pointHistory] at honce
  rw [← hp.masterBound] at hmaster
  rw [← hp.pointBound] at hpoint
  rw [← hp.masterBound, ← hp.masterHistory] at hkeepsMaster hrecorded
  rw [← hp.pointBound, ← hp.pointHistory] at hkeepsPoint
  exact ⟨hmaster, hpoint, hkeepsMaster, hkeepsPoint, hrecorded, honce⟩

theorem Arrived.next {views : List (View α)} (h : Arrived s views p) {call : Call α}
    (hnext : Fits s ⟨p, some call⟩ p') : Arrived s (views ++ [⟨p, some call⟩]) p' := by
  obtain ⟨v, hv, hrecorded⟩ := h.start
  refine ⟨⟨v, ?_, hrecorded⟩, h.chain.append (List.isChain_singleton _) ?_, ?_, ?_, hnext.2⟩
  · rw [List.head?_append, hv]
    rfl
  · intro v hv w hw
    obtain rfl := Option.mem_some.mp hw
    exact h.last v hv
  · intro v hv
    rw [List.getLast?_concat, Option.mem_some] at hv
    rw [← hv]
    exact hnext.1
  · intro v hv
    rcases List.mem_append.mp hv with hv | hv
    · exact h.before v hv
    · rw [List.mem_singleton.mp hv]
      exact h.now

theorem Arrived.keepsBounds {views : List (View α)} (h : Arrived s views p)
    (hp : p.KeepsBounds p') : Arrived s views p' :=
  ⟨h.start, h.chain, fun v hv => (h.last v hv).keepsBounds hp, h.before, h.now.keepsBounds hp⟩

theorem pairwise_bounds {trail : List (View α)} (hsense : ∀ v ∈ trail, v.progress.sense = s)
    (hmaster : trail.Pairwise fun v w =>
      s.closer v.progress.masterBound w.progress.masterBound = true)
    (hpoint : trail.Pairwise fun v w =>
      s.opposite.closer v.progress.pointBound w.progress.pointBound = true) :
    (trail.Pairwise fun v w => Scalar.le v.progress.lower w.progress.lower = true) ∧
      trail.Pairwise fun v w => Scalar.le w.progress.upper v.progress.upper = true := by
  cases s with
  | minimize =>
    constructor
    · refine hmaster.imp_of_mem fun {v w} hv hw h => ?_
      simpa [Progress.masterBound, hsense v hv, hsense w hw, Sense.closer] using h
    · refine hpoint.imp_of_mem fun {v w} hv hw h => ?_
      simpa [Progress.pointBound, hsense v hv, hsense w hw, Sense.closer, Sense.opposite] using h
  | maximize =>
    constructor
    · refine hpoint.imp_of_mem fun {v w} hv hw h => ?_
      simpa [Progress.pointBound, hsense v hv, hsense w hw, Sense.closer, Sense.opposite] using h
    · refine hmaster.imp_of_mem fun {v w} hv hw h => ?_
      simpa [Progress.masterBound, hsense v hv, hsense w hw, Sense.closer] using h

end Records

section Laws

variable [LawfulComparison α] {s : Sense} {x y z : α}

namespace Sense

theorem closer_refl (s : Sense) (hx : isNaN x = false) : s.closer x x = true := by
  cases s <;> exact Scalar.le_refl hx

theorem closer_trans (hxy : s.closer x y = true) (hyz : s.closer y z = true) :
    s.closer x z = true := by
  cases s with
  | minimize => exact LawfulComparison.le_trans hxy hyz
  | maximize => exact LawfulComparison.le_trans hyz hxy

theorem number_of_closer (h : s.closer x y = true) : isNaN y = false := by
  cases s with
  | minimize => exact (LawfulComparison.number_of_le h).2
  | maximize => exact (LawfulComparison.number_of_le h).1

theorem closer_tighten (s : Sense) (hx : isNaN x = false) (y : α) :
    s.closer x (s.tighten x y) = true := by
  cases s with
  | minimize => exact Scalar.le_max_left hx y
  | maximize => exact Scalar.min_le_left hx y

theorem closer_better (s : Sense) (hx : isNaN x = false) (y : α) :
    s.opposite.closer x (s.better x y) = true := by
  cases s with
  | minimize => exact closer_tighten .maximize hx y
  | maximize => exact closer_tighten .minimize hx y

end Sense

theorem Climbs.record {history : List α} (h : Climbs s.closer history) (bound : α) :
    Climbs s.closer (history ++ [Progress.record s.closer history bound]) := by
  obtain ⟨init, last, rfl⟩ := (List.eq_nil_or_concat' history).resolve_left h.nonempty
  have hbetter : s.closer last (Progress.record s.closer (init ++ [last]) bound) = true := by
    unfold Progress.record
    rw [List.getLast?_concat]
    show s.closer last (if s.closer last bound then bound else last) = true
    split
    next hbound => exact hbound
    next => exact s.closer_refl (h.number last (by simp))
  refine ⟨List.pairwise_append.mpr ⟨h.pairwise, List.pairwise_singleton _ _, ?_⟩, ?_, by simp⟩
  · intro x hx y hy
    rw [List.mem_singleton.mp hy]
    rcases List.mem_append.mp hx with hx | hx
    · exact Sense.closer_trans ((List.pairwise_append.mp h.pairwise).2.2 x hx last (by simp)) hbetter
    · rwa [List.mem_singleton.mp hx]
  · intro x hx
    rcases List.mem_append.mp hx with hx | hx
    · exact h.number x hx
    · rw [List.mem_singleton.mp hx]
      exact Sense.number_of_closer hbetter

namespace Progress

variable {p p' : Progress α} {b r : α}

theorem Climbing.movesMaster (h : p.Climbing s) (hmoves : p.MovesMaster b r p') :
    p'.Climbing s := by
  obtain ⟨rfl, hmaster, hpoint⟩ := h
  refine ⟨hmoves.sense, ?_, ?_⟩
  · rw [hmoves.history]
    exact hmaster.record r
  · rw [hmoves.pointHistory]
    exact hpoint

theorem Climbing.movesPoint (h : p.Climbing s) (hmoves : p.MovesPoint b p') :
    p'.Climbing s := by
  obtain ⟨rfl, hmaster, hpoint⟩ := h
  refine ⟨hmoves.sense, ?_, ?_⟩
  · rw [hmoves.history]
    exact hmaster
  · rw [hmoves.pointHistory]
    exact hpoint.record b

theorem Steady.movesMaster (h : p.Steady s) (hmoves : p.MovesMaster b r p')
    (hb : s.closer p.masterBound b = true) : p'.Steady s := by
  refine ⟨h.toClimbing.movesMaster hmoves, ?_, ?_, ?_⟩
  · rw [hmoves.masterBound]
    exact Sense.number_of_closer hb
  · rw [hmoves.pointBound]
    exact h.pointNumber
  · unfold PointRecorded
    rw [hmoves.pointHistory, hmoves.pointBound]
    exact h.pointRecorded

theorem Steady.movesPoint (h : p.Steady s) (hmoves : p.MovesPoint b p')
    (hb : s.opposite.closer p.pointBound b = true) : p'.Steady s := by
  refine ⟨h.toClimbing.movesPoint hmoves, ?_, ?_, ?_⟩
  · rw [hmoves.masterBound]
    exact h.masterNumber
  · rw [hmoves.pointBound]
    exact Sense.number_of_closer hb
  · rw [← h.sense] at hb
    exact hmoves.pointRecorded hb h.pointRecorded

end Progress

section Effects

variable {v : View α} {p p' : Progress α} {b r : α}

theorem Effect.refl (h : v.progress.Steady s) : Effect s v v.progress :=
  ⟨s.closer_refl h.masterNumber, s.opposite.closer_refl h.pointNumber, fun _ => ⟨rfl, rfl⟩,
    fun _ => ⟨rfl, rfl⟩, fun _ hrecorded => hrecorded, Nat.le_succ _⟩

theorem Effect.movesMaster (h : v.progress.Steady s) (hcall : v.isMaster = true)
    (hmoves : v.progress.MovesMaster b r p)
    (hb : s.closer v.progress.masterBound b = true) (hr : v.isInfeasible = false → r = b) :
    Effect s v p := by
  refine ⟨?_, ?_, ?_, ?_, ?_, ?_⟩
  · rw [hmoves.masterBound]
    exact hb
  · rw [hmoves.pointBound]
    exact s.opposite.closer_refl h.pointNumber
  · intro hnot
    rw [hcall] at hnot
    cases hnot
  · exact fun _ => ⟨hmoves.pointBound, hmoves.pointHistory⟩
  · intro hfeasible hrecorded
    obtain rfl := hr hfeasible
    rw [← h.sense] at hb
    exact hmoves.masterRecorded hb hrecorded
  · exact hmoves.recordings.le

theorem Effect.movesPoint (h : v.progress.Steady s) (hcall : v.isNlp = true)
    (hmoves : v.progress.MovesPoint b p)
    (hb : s.opposite.closer v.progress.pointBound b = true) : Effect s v p := by
  refine ⟨?_, ?_, ?_, ?_, ?_, ?_⟩
  · rw [hmoves.masterBound]
    exact s.closer_refl h.masterNumber
  · rw [hmoves.pointBound]
    exact hb
  · exact fun _ => ⟨hmoves.masterBound, hmoves.history⟩
  · intro hnot
    rw [hcall] at hnot
    cases hnot
  · intro _ hrecorded
    unfold Progress.MasterRecorded
    rw [hmoves.history, hmoves.masterBound]
    exact hrecorded
  · exact hmoves.recordings.le

theorem fits_afterMasterOptimal (h : p.Steady s) (master : SubproblemResult α) :
    Fits s ⟨p, some (.solveMaster (.ok master))⟩ (p.afterMasterOptimal master) := by
  have hmoves := p.movesMaster_afterMasterOptimal master
  rw [h.sense] at hmoves
  have hcloser := s.closer_tighten h.masterNumber (master.bound s)
  exact ⟨.movesMaster h rfl hmoves hcloser fun _ => rfl, h.movesMaster hmoves hcloser⟩

theorem fits_afterFeasible (h : p.Steady s) (nlp : SubproblemResult α) :
    Fits s ⟨p, some (.solveNlp (.ok nlp))⟩ (p.afterFeasible nlp.objective) := by
  have hmoves := p.movesPoint_afterFeasible nlp.objective
  rw [h.sense] at hmoves
  have hcloser := s.closer_better h.pointNumber nlp.objective
  exact ⟨.movesPoint h rfl hmoves hcloser, h.movesPoint hmoves hcloser⟩

theorem pairwise_of_isChain {f : View α → α} {trail : List (View α)}
    (h : trail.IsChain fun v w => s.closer (f v) (f w) = true) :
    trail.Pairwise fun v w => s.closer (f v) (f w) = true := by
  have _ : Trans (fun v w : View α => s.closer (f v) (f w) = true)
      (fun v w => s.closer (f v) (f w) = true) (fun v w => s.closer (f v) (f w) = true) :=
    ⟨Sense.closer_trans⟩
  exact h.pairwise

/-- The views of a run are monotone wherever it is. -/
theorem Arrived.monotone {views : List (View α)} (h : Arrived s views p) :
    Monotone s (views ++ [⟨p, none⟩]) := by
  have hchain : List.IsChain (fun v w : View α => Effect s v w.progress)
      (views ++ [⟨p, none⟩]) := by
    refine h.chain.append (List.isChain_singleton _) fun v hv w hw => ?_
    obtain rfl := Option.mem_some.mp hw
    exact h.last v hv
  have hsteady : ∀ v ∈ views ++ [⟨p, none⟩], v.progress.Steady s := by
    intro v hv
    rcases List.mem_append.mp hv with hv | hv
    · exact h.before v hv
    · rw [List.mem_singleton.mp hv]
      exact h.now
  have hsense : ∀ v ∈ views ++ [⟨p, none⟩], v.progress.sense = s := fun v hv => (hsteady v hv).sense
  obtain ⟨hlower, hupper⟩ := pairwise_bounds hsense
    (pairwise_of_isChain (hchain.imp fun _ _ h => h.master))
    (pairwise_of_isChain (hchain.imp fun _ _ h => h.point))
  refine ⟨hsense, hlower, hupper, fun v hv => (hsteady v hv).number,
    hchain.imp fun _ _ h => h.keepsMaster, hchain.imp fun _ _ h => h.keepsPoint, ?_,
    fun v hv => (hsteady v hv).pointRecorded, hchain.imp fun _ _ h => h.once⟩
  intro before v after hsplit hbefore
  obtain ⟨first, hfirst, hrecorded⟩ := h.start
  obtain ⟨rest, rfl⟩ := List.head?_eq_some_iff.mp hfirst
  exact forall_of_isChain (hchain.imp fun _ _ h => h.recorded) hrecorded hsplit hbefore

end Effects

end Laws

section Infinities

variable [BoundedComparison α] {s : Sense} {x : α}

theorem Sense.closer_worst (s : Sense) (hx : isNaN x = false) : s.closer x s.worst = true := by
  cases s with
  | minimize => exact BoundedComparison.le_infinity hx
  | maximize => exact BoundedComparison.negInfinity_le hx

theorem Sense.isNaN_worst (s : Sense) : isNaN (s.worst : α) = false := by
  cases s with
  | minimize => exact BoundedComparison.number_infinities.2
  | maximize => exact BoundedComparison.number_infinities.1

theorem Sense.isNaN_unbounded (s : Sense) : isNaN (s.unbounded : α) = false := by
  cases s with
  | minimize => exact BoundedComparison.number_infinities.1
  | maximize => exact BoundedComparison.number_infinities.2

omit [BoundedComparison α] in
theorem Progress.masterRecorded_new (s : Sense) :
    (Progress.new s : Progress α).MasterRecorded := by
  unfold MasterRecorded
  rw [masterHistory_new, masterBound_new]
  rfl

theorem steady_new (s : Sense) : (Progress.new s : Progress α).Steady s := by
  refine ⟨⟨rfl, ?_, ?_⟩, ?_, ?_, ?_⟩
  · rw [Progress.masterHistory_new]
    exact .singleton s.isNaN_unbounded
  · rw [Progress.pointHistory_new]
    exact .singleton s.isNaN_worst
  · rw [Progress.masterBound_new]
    exact s.isNaN_unbounded
  · rw [Progress.pointBound_new]
    exact s.isNaN_worst
  · unfold Progress.PointRecorded
    rw [Progress.pointHistory_new, Progress.pointBound_new]
    rfl

theorem fits_afterMasterInfeasible {p : Progress α} (h : p.Steady s) {call : Call α}
    (hmaster : call.isMaster = true) (hcall : call.isInfeasible = true) :
    Fits s ⟨p, some call⟩ p.afterMasterInfeasible := by
  have hmoves := p.movesMaster_exhaust
  rw [h.sense] at hmoves
  have hcloser := s.closer_worst h.masterNumber
  have hexhaust : Effect s ⟨p, some call⟩ p.exhaust := by
    apply Effect.movesMaster h (v := ⟨p, some call⟩) hmaster hmoves hcloser
    intro hfeasible
    rw [View.isInfeasible, Option.any_some, hcall] at hfeasible
    cases hfeasible
  rw [p.afterMasterInfeasible_eq]
  exact ⟨hexhaust.keepsBounds ⟨rfl, rfl, rfl, rfl, rfl⟩,
    (h.movesMaster hmoves hcloser).keepsBounds ⟨rfl, rfl, rfl, rfl, rfl⟩⟩

end Infinities

end Bounds

end NonlinearOpt.OuterApprox
