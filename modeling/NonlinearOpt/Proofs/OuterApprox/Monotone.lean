import NonlinearOpt.Proofs.Arithmetic.Binary64
import NonlinearOpt.Proofs.OuterApprox.Agreement
import NonlinearOpt.Proofs.OuterApprox.Walk

namespace NonlinearOpt.OuterApprox

variable {π α : Type}

section Arrived

variable [Scalar α] [BoundedComparison α] {s : Sense}

theorem fits_takePoint {p : Progress α} (h : p.Steady s) (nlp : SubproblemResult α) :
    Fits s ⟨p, some (.solveNlp (.ok nlp))⟩ (p.takePoint nlp) := by
  have hfits := fits_afterFeasible h nlp
  unfold Progress.takePoint
  split
  · have hoffer (p : Progress α) : p.KeepsBounds (p.offer nlp.objective nlp.solution).2 := by
      unfold Progress.offer
      split <;> exact ⟨rfl, rfl, rfl, rfl, rfl⟩
    exact ⟨hfits.1.keepsBounds (hoffer _), hfits.2.keepsBounds (hoffer _)⟩
  · exact hfits

theorem sustained_arrived (s : Sense) : Sustained (Arrived (α := α) s) where
  idle h hp := h.keepsBounds hp.toKeepsBounds
  pass _ h := h.next ⟨.refl h.now, h.now⟩
  master master h := h.next (fits_afterMasterOptimal h.now master)
  exhausted hmaster h := h.next (fits_afterMasterInfeasible h.now rfl (decide_eq_true hmaster))
  point _ h := h.next (fits_takePoint h.now _)

/-- A correction may take a bound back, but none that is recorded. -/
def Corrected (s : Sense) (views : List (View α)) (p : Progress α) : Prop :=
  (∃ q, Arrived s views q) ∧ p.Climbing s

theorem survives_corrected (s : Sense) : Survives (Arrived (α := α) s) (Corrected s) where
  weaken {_ p} h := ⟨⟨p, h⟩, h.now.toClimbing⟩
  correct {_ p} master h :=
    ⟨⟨p, h⟩, h.now.toClimbing.movesMaster (p.movesMaster_correctBound master)⟩
  report _ h := ⟨h.1, h.2.sense, h.2.master, h.2.point⟩

omit [BoundedComparison α] in
theorem Corrected.orderly {views : List (View α)} {p : Progress α} (h : Corrected s views p) :
    ∀ v ∈ views ++ [⟨p, none⟩], v.progress.Orderly := by
  obtain ⟨⟨q, hq⟩, hclimbing⟩ := h
  intro v hv
  rcases List.mem_append.mp hv with hv | hv
  · exact (hq.before v hv).toClimbing.orderly
  · rw [List.mem_singleton.mp hv]
    exact hclimbing.orderly

theorem arrived_fresh (sense : Sense) :
    Arrived sense [⟨(.new sense : Progress α), none⟩] (.new sense) := by
  have hnew : (Progress.new sense : Progress α).Steady sense := steady_new sense
  refine ⟨⟨_, rfl, Progress.masterRecorded_new sense⟩, List.isChain_singleton _, ?_, ?_, hnew⟩
  · rintro v hv
    obtain rfl := Option.mem_some.mp hv
    exact .refl hnew
  · intro v hv
    rw [List.mem_singleton.mp hv]
    exact hnew

namespace Run

variable [MinlpProblem π α] [Rounding α]

/-- Bounds are monotone along every run of the loop from the start, whatever the problem and the
callbacks answer: the recorded ones to the end, and the bounds themselves until the correction. -/
theorem loop_monotone (callbacks : Callbacks π α) (sense : Sense) (problem : π) (c : Config α)
    (timers : Timers α) (clock : Clock α) :
    let s := State.fresh sense problem c timers clock
    let run := (loop callbacks.watched).run.run s.watched
    let searched := (search callbacks.watched).run.run s.watched
    run.map id (State.mapProblem Watched.problem) = (loop callbacks).run.run s ∧
      searched.map id (State.mapProblem Watched.problem) = (search callbacks).run.run s ∧
      run = (search callbacks.watched >>= correctIfExcluded c).run.run s.watched ∧
      (∀ v ∈ run.2.trail, v.progress.Orderly) ∧ Monotone sense searched.2.trail := by
  intro s run searched
  have hsearch : Run.Keeps (Arrived sense) (search callbacks.watched) :=
    keeps_search (sustained_arrived sense) callbacks
  have hstart : At (Arrived sense) s.watched := arrived_fresh sense
  have hsplit : run = (search callbacks.watched >>= correctIfExcluded c).run.run s.watched :=
    loop_run_eq_search callbacks.watched s.watched
  have hrun := carries_loop (sustained_arrived sense) (survives_corrected sense) callbacks
    s.watched hstart
  refine ⟨?_, ?_, hsplit, ?_, ?_⟩
  · exact (mirrors_loop Watched.simulates callbacks.simulates_watched s.watched).symm
  · exact (mirrors_search Watched.simulates callbacks.simulates_watched s.watched).symm
  · exact hrun.1.orderly
  · exact (hsearch s.watched hstart).1.monotone

end Run

end Arrived

namespace Playback

/-- The first answer of the master problem has no bound and its objective is not a number, and the
third bound falls back. The second point has no objective. Then no assignment is left. -/
def wayward : Playback Float where
  masters := [.ofCondition .optimal, ⟨.optimal, 1, 1, 1, #[]⟩, ⟨.optimal, 0, 0, 0, #[]⟩,
    .ofCondition .infeasible]
  nlps := [⟨.optimal, 2, 2, 2, #[]⟩, ⟨.optimal, 0, 0, Scalar.nan, #[]⟩]

def waywardStart : State (Playback Float) Float :=
  .fresh .minimize wayward { Config.default with cyclingCheck := false } .new ⟨fun _ => 0, 0⟩

theorem loop_monotone_wayward :
    let run := (Run.loop (Callbacks.watched (π := Playback Float) .none)).run.run
      waywardStart.watched
    let searched := (Run.search (Callbacks.watched (π := Playback Float) .none)).run.run
      waywardStart.watched
    run.2.problem.views.length = 10 ∧ run.2.problem.views.any View.isInfeasible = true ∧
      (∀ v ∈ run.2.trail, v.progress.Orderly) ∧ Monotone .minimize searched.2.trail := by
  intro run searched
  have hmonotone := Run.loop_monotone (π := Playback Float) .none .minimize wayward
    { Config.default with cyclingCheck := false } .new ⟨fun _ => 0, 0⟩
  exact ⟨by decide +kernel, by decide +kernel, hmonotone.2.2.2.1, hmonotone.2.2.2.2⟩

end Playback

end NonlinearOpt.OuterApprox
