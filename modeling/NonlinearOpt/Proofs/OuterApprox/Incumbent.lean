import NonlinearOpt.Proofs.Arithmetic.Binary64
import NonlinearOpt.Proofs.OuterApprox.Agreement
import NonlinearOpt.Proofs.OuterApprox.Walk

namespace NonlinearOpt.OuterApprox

open Scalar (isNaN)

variable {π α : Type}

def Sense.beats [Scalar α] : Sense → α → α → Bool
  | minimize => Scalar.lt
  | maximize => fun x y => Scalar.lt y x

def View.points (views : List (View α)) : List (SubproblemResult α) :=
  views.filterMap fun v => v.call.bind Call.point?

/-- The best one of some points and the bound that they give. -/
structure Progress.Incumbent [Scalar α] (s : Sense) (points : List (SubproblemResult α))
    (p : Progress α) : Prop where
  sense : p.sense = s
  number : isNaN p.pointBound = false
  none_iff : p.bestObjective = none ↔ p.pointBound = s.worst
  solution : p.bestSolution = none ↔ p.bestObjective = none
  /-- No point is better than the bound. -/
  least : ∀ r ∈ points, isNaN r.objective = false → s.closer p.pointBound r.objective = true
  /-- The best point is the first one that is as good as the bound. -/
  attained : ∀ b, p.bestObjective = some b → b = p.pointBound ∧
    ∃ before r after, points = before ++ r :: after ∧ r.objective = b ∧
      p.bestSolution = some r.solution ∧
      ∀ q ∈ before, isNaN q.objective = true ∨ s.beats b q.objective = true

def Guarded [Scalar α] (s : Sense) (views : List (View α)) (p : Progress α) : Prop :=
  p.Incumbent s (View.points views) ∧
    ∀ before v after, views = before ++ v :: after → v.progress.Incumbent s (View.points before)

theorem View.points_concat (views : List (View α)) (p : Progress α) (call : Call α) :
    View.points (views ++ [⟨p, some call⟩]) = View.points views ++ call.point?.toList := by
  unfold View.points
  rw [List.filterMap_append]
  cases hpoint : call.point? <;> simp [hpoint]

section Fields

variable [Scalar α]

theorem Progress.improvesBound_eq (objective : α) (p : Progress α) :
    p.improvesBound objective = p.sense.beats objective p.pointBound := by
  unfold improvesBound pointBound
  cases p.sense <;> rfl

theorem Progress.improves_of_some {objective best : α} {p : Progress α}
    (h : p.bestObjective = some best) : p.improves objective = p.sense.beats objective best := by
  unfold improves
  rw [h]
  cases p.sense <;> rfl

theorem Progress.bestSolution_afterFeasible (objective : α) (p : Progress α) :
    (p.afterFeasible objective).bestSolution = p.bestSolution := by
  unfold afterFeasible
  cases p.sense <;> rfl

theorem Progress.bestSolution_afterMasterOptimal (master : SubproblemResult α) (p : Progress α) :
    (p.afterMasterOptimal master).bestSolution = p.bestSolution := by
  unfold afterMasterOptimal
  cases p.sense <;> rfl

theorem Progress.bestSolution_afterMasterInfeasible (p : Progress α) :
    p.afterMasterInfeasible.bestSolution = p.bestSolution := by
  unfold afterMasterInfeasible
  cases p.sense <;> rfl

theorem Progress.bestSolution_correctBound (master : SubproblemResult α) (p : Progress α) :
    (p.correctBound master).bestSolution = p.bestSolution := by
  unfold correctBound
  cases p.sense <;> rfl

end Fields

section Beating

variable [Scalar α] [LawfulComparison α] {s : Sense} {x y z : α}

namespace Sense

theorem closer_of_beats (h : s.beats x y = true) : s.closer x y = true := by
  cases s <;> exact Scalar.le_of_lt h

theorem number_of_beats (h : s.beats x y = true) : isNaN x = false := by
  cases s with
  | minimize => exact (LawfulComparison.number_of_le (Scalar.le_of_lt h)).1
  | maximize => exact (LawfulComparison.number_of_le (Scalar.le_of_lt h)).2

theorem not_closer_of_beats (h : s.beats x y = true) : s.closer y x = false := by
  cases s <;> exact (LawfulComparison.lt_iff.mp h).2

theorem closer_of_not_beats (hx : isNaN x = false) (hy : isNaN y = false)
    (h : s.beats x y = false) : s.closer y x = true := by
  cases s with
  | minimize => exact Scalar.le_of_not_lt hx hy h
  | maximize => exact Scalar.le_of_not_lt hy hx h

theorem beats_of_closer (hxy : s.beats x y = true) (hyz : s.closer y z = true) :
    s.beats x z = true := by
  have hxz := closer_trans (closer_of_beats hxy) hyz
  have hzx : s.closer z x = false := by
    by_contra hzx
    have hyx := closer_trans hyz (eq_true_of_ne_false hzx)
    rw [not_closer_of_beats hxy] at hyx
    cases hyx
  cases s <;> exact LawfulComparison.lt_iff.mpr ⟨hxz, hzx⟩

omit [LawfulComparison α] in
/-- An objective is taken over only if it is better. -/
theorem better_eq (s : Sense) (hx : isNaN x = false) (y : α) :
    s.better x y = if s.beats y x then y else x := by
  cases s with
  | minimize =>
    show Scalar.min x y = if Scalar.lt y x then y else x
    rw [Scalar.min, hx, if_neg Bool.false_ne_true]
  | maximize =>
    show Scalar.max x y = if Scalar.lt x y then y else x
    rw [Scalar.max, hx, if_neg Bool.false_ne_true]

end Sense

end Beating

section Incumbent

variable [Scalar α] {s : Sense} {points : List (SubproblemResult α)} {p p' : Progress α}

theorem Progress.Incumbent.congr (h : p.Incumbent s points) (hsense : p'.sense = p.sense)
    (hbound : p'.pointBound = p.pointBound) (hbest : p'.bestObjective = p.bestObjective)
    (hsolution : p'.bestSolution = p.bestSolution) : p'.Incumbent s points := by
  obtain ⟨h₁, h₂, h₃, h₄, h₅, h₆⟩ := h
  rw [← hsense] at h₁
  rw [← hbound] at h₂ h₅
  rw [← hbound, ← hbest] at h₃
  rw [← hsolution, ← hbest] at h₄
  rw [← hbound, ← hbest, ← hsolution] at h₆
  exact ⟨h₁, h₂, h₃, h₄, h₅, h₆⟩

variable [BoundedComparison α]

theorem incumbent_new (s : Sense) : (Progress.new s : Progress α).Incumbent s [] := by
  have hbound := Progress.pointBound_new (α := α) s
  refine ⟨rfl, hbound ▸ s.isNaN_worst, ⟨fun _ => hbound, fun _ => rfl⟩,
    ⟨fun _ => rfl, fun _ => rfl⟩, by simp, ?_⟩
  intro b hb
  cases hb

theorem Progress.Incumbent.improved (h : p.Incumbent s points) {nlp : SubproblemResult α}
    (hbeats : s.beats nlp.objective p.pointBound = true) :
    (p.takePoint nlp).Incumbent s (points ++ [nlp]) := by
  have hmoves := p.movesPoint_afterFeasible nlp.objective
  rw [h.sense, s.better_eq h.number, if_pos hbeats] at hmoves
  have himproves : (p.afterFeasible nlp.objective).improves nlp.objective = true := by
    cases hbest : p.bestObjective with
    | none => rw [improves, hmoves.best, hbest]
    | some b =>
      rw [improves_of_some (hmoves.best.trans hbest), hmoves.sense, h.sense,
        (h.attained b hbest).1, hbeats]
  have htake : p.takePoint nlp = { p.afterFeasible nlp.objective with
      bestObjective := some nlp.objective, bestSolution := some nlp.solution } := by
    rw [takePoint, improvesBound_eq, h.sense, if_pos hbeats, offer, if_pos himproves]
  have hbound : (p.takePoint nlp).pointBound = nlp.objective := by
    rw [htake]
    exact hmoves.pointBound
  constructor
  · rw [htake]
    exact hmoves.sense.trans h.sense
  · rw [hbound]
    exact Sense.number_of_beats hbeats
  · rw [hbound, htake]
    refine ⟨nofun, fun hworst => ?_⟩
    have hnot := Sense.not_closer_of_beats hbeats
    rw [hworst, s.closer_worst h.number] at hnot
    cases hnot
  · rw [htake]
    exact ⟨nofun, nofun⟩
  · intro r hr hnumber
    rw [hbound]
    rcases List.mem_append.mp hr with hr | hr
    · exact Sense.closer_trans (Sense.closer_of_beats hbeats) (h.least r hr hnumber)
    · rw [List.mem_singleton.mp hr]
      exact s.closer_refl (Sense.number_of_beats hbeats)
  · intro b hb
    rw [htake] at hb
    obtain rfl := Option.some.inj hb
    refine ⟨hbound.symm, points, nlp, [], rfl, rfl, by rw [htake], fun q hq => ?_⟩
    cases hnumber : isNaN q.objective with
    | true => exact .inl rfl
    | false => exact .inr (Sense.beats_of_closer hbeats (h.least q hq hnumber))

theorem Progress.Incumbent.passed (h : p.Incumbent s points) {nlp : SubproblemResult α}
    (hbeats : s.beats nlp.objective p.pointBound = false) :
    (p.takePoint nlp).Incumbent s (points ++ [nlp]) := by
  have hnot : ¬ s.beats nlp.objective p.pointBound = true := by simp [hbeats]
  have hmoves := p.movesPoint_afterFeasible nlp.objective
  rw [h.sense, s.better_eq h.number, if_neg hnot] at hmoves
  have htake : p.takePoint nlp = p.afterFeasible nlp.objective := by
    rw [takePoint, improvesBound_eq, h.sense, if_neg hnot]
  rw [htake]
  have hkept : p.Incumbent s (points ++ [nlp]) := by
    refine { h with least := ?_, attained := ?_ }
    · intro r hr hnumber
      rcases List.mem_append.mp hr with hr | hr
      · exact h.least r hr hnumber
      · rw [List.mem_singleton.mp hr] at hnumber ⊢
        exact Sense.closer_of_not_beats hnumber h.number hbeats
    · intro b hb
      obtain ⟨hbound, before, r, after, hpoints, hrest⟩ := h.attained b hb
      refine ⟨hbound, before, r, after ++ [nlp], ?_, hrest⟩
      rw [hpoints, List.append_assoc, List.cons_append]
  exact hkept.congr hmoves.sense hmoves.pointBound hmoves.best (p.bestSolution_afterFeasible _)

theorem Progress.Incumbent.takePoint (h : p.Incumbent s points) (nlp : SubproblemResult α) :
    (p.takePoint nlp).Incumbent s (points ++ [nlp]) := by
  cases hbeats : s.beats nlp.objective p.pointBound with
  | true => exact h.improved hbeats
  | false => exact h.passed hbeats

end Incumbent

section Guarded

variable [Scalar α] {s : Sense} {views : List (View α)} {p p' : Progress α}

theorem Guarded.congr (h : Guarded s views p) (hsense : p'.sense = p.sense)
    (hbound : p'.pointBound = p.pointBound) (hbest : p'.bestObjective = p.bestObjective)
    (hsolution : p'.bestSolution = p.bestSolution) : Guarded s views p' :=
  ⟨h.1.congr hsense hbound hbest hsolution, h.2⟩

theorem Guarded.splits (h : Guarded s views p) {call : Option (Call α)} :
    ∀ before v after, views ++ [⟨p, call⟩] = before ++ v :: after →
      v.progress.Incumbent s (View.points before) := by
  intro before v after hsplit
  rcases List.eq_nil_or_concat' after with rfl | ⟨after, w, rfl⟩
  · obtain ⟨rfl, hv⟩ := List.append_inj' hsplit rfl
    rw [← List.singleton_inj.mp hv]
    exact h.1
  · rw [← List.cons_append, ← List.append_assoc] at hsplit
    exact h.2 before v after (List.append_inj' hsplit rfl).1

theorem Guarded.next (h : Guarded s views p) {call : Call α}
    (hnext : p'.Incumbent s (View.points views ++ call.point?.toList)) :
    Guarded s (views ++ [⟨p, some call⟩]) p' :=
  ⟨View.points_concat views p call ▸ hnext, h.splits⟩

theorem Guarded.pass (h : Guarded s views p) {call : Call α} (hpoint : call.point? = none) :
    Guarded s (views ++ [⟨p, some call⟩]) p := by
  apply h.next
  rw [hpoint, Option.toList_none, List.append_nil]
  exact h.1

variable [BoundedComparison α]

theorem sustained_guarded (s : Sense) : Sustained (Guarded (α := α) s) where
  idle h hp := h.congr hp.sense hp.pointBound hp.bestObjective hp.bestSolution
  pass hpoint h := h.pass hpoint
  master {_ p} master h := by
    have hmoves := p.movesMaster_afterMasterOptimal master
    exact (h.pass rfl).congr hmoves.sense hmoves.pointBound hmoves.best
      (p.bestSolution_afterMasterOptimal master)
  exhausted {_ p _} _ h := by
    have hmoves := p.movesMaster_exhaust
    have hsolution := p.bestSolution_afterMasterInfeasible
    rw [p.afterMasterInfeasible_eq] at hsolution ⊢
    exact (h.pass rfl).congr hmoves.sense hmoves.pointBound hmoves.best hsolution
  point {_ p nlp} hpoint h := by
    apply h.next
    rw [hpoint]
    exact h.1.takePoint nlp

omit [BoundedComparison α] in
theorem survives_guarded (s : Sense) : Survives (Guarded (α := α) s) (Guarded s) where
  weaken h := h
  correct {_ p} master h := by
    have hmoves := p.movesMaster_correctBound master
    exact h.congr hmoves.sense hmoves.pointBound hmoves.best (p.bestSolution_correctBound master)
  report _ h := h.congr rfl rfl rfl rfl

theorem guarded_new (s : Sense) :
    Guarded s [⟨(.new s : Progress α), none⟩] (.new s) := by
  refine ⟨incumbent_new s, fun before v after hsplit => ?_⟩
  have hnil : Guarded s [] (.new s : Progress α) := ⟨incumbent_new s, by simp⟩
  exact hnil.splits before v after hsplit

namespace Run

variable [MinlpProblem π α] [Rounding α]

/-- At every call of a run and at its end, broken off or not, the best point is the first of the
best points found so far, and its objective is the bound that they give. The final record has the
best point and the bounds of the end. -/
theorem solve_incumbent (callbacks : Callbacks π α) (problem : π) (config : Config α)
    (clock : Clock α) :
    let s := State.new problem config clock
    let run := (solve callbacks.watched).run.run s.watched
    run.map id (State.mapProblem Watched.problem) = (solve callbacks).run.run s ∧
      (∀ before v after, run.2.trail = before ++ v :: after →
        v.progress.Incumbent (MinlpProblem.sense problem) (View.points before)) ∧
      ∀ r, run.1 = .ok r → r.lower = run.2.progress.lower ∧ r.upper = run.2.progress.upper ∧
        r.bestObjective = run.2.progress.bestObjective ∧
        r.bestSolution = run.2.progress.bestSolution := by
  intro s run
  have hstart : At (Guarded (MinlpProblem.sense problem)) s.watched := guarded_new _
  have hrun := carries_solve (sustained_guarded _) (survives_guarded _) callbacks s.watched hstart
  refine ⟨(mirrors_solve Watched.simulates callbacks.simulates_watched s.watched).symm,
    hrun.1.splits, fun r hr => ?_⟩
  obtain ⟨-, time, rfl⟩ := hrun.2 r hr
  exact ⟨rfl, rfl, rfl, rfl⟩

end Run

end Guarded

namespace Playback

/-- The first two points do not count, and the last two are equally good. Then no assignment is
left. -/
def tied : Playback Float where
  masters := [⟨.optimal, 0, 0, 0, #[]⟩, ⟨.optimal, 0, 0, 0, #[]⟩, ⟨.optimal, 0, 0, 0, #[]⟩,
    ⟨.optimal, 0, 0, 0, #[]⟩, .ofCondition .infeasible]
  nlps := [⟨.optimal, 0, 0, Scalar.nan, #[]⟩, ⟨.optimal, 0, 0, Scalar.infinity, #[1]⟩,
    ⟨.locallyOptimal, 2, 2, 2, #[1, 2]⟩, ⟨.optimal, 2, 2, 2, #[1, 2, 3]⟩]

def tiedConfig : Config Float :=
  { Config.default with cyclingCheck := false, addNoGoodCuts := true }

theorem solve_incumbent_tied :
    let run := (Run.solve (Callbacks.watched (π := Playback Float) .none)).run.run
      (State.new tied tiedConfig ⟨fun _ => 0, 0⟩).watched
    (View.points run.2.problem.views).length = 4 ∧
      run.2.progress.bestSolution.map Array.size = some 2 ∧
      ∀ before v after, run.2.trail = before ++ v :: after →
        v.progress.Incumbent .minimize (View.points before) := by
  intro run
  have hincumbent := Run.solve_incumbent (π := Playback Float) .none tied tiedConfig
    ⟨fun _ => 0, 0⟩
  exact ⟨by decide +kernel, by decide +kernel, hincumbent.2.1⟩

end Playback

end NonlinearOpt.OuterApprox
