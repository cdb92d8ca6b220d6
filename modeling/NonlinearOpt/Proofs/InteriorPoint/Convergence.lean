import NonlinearOpt.InteriorPoint.Solve
import NonlinearOpt.Proofs.Attempt
import NonlinearOpt.Proofs.InteriorPoint.Conditions

namespace NonlinearOpt.InteriorPoint

open Attempt

variable {α σ β : Type}

def Sees (P : Settings α → BarrierProblem α → Prop) (s : Session α σ) : Prop :=
  P s.solver.settings s.problem

namespace Work

variable {P : Settings α → BarrierProblem α → Prop}

theorem ensures_note (e : Event α) : Ensures (Sees P) (note e : Work α σ _) fun _ => Sees P :=
  ensures_modify fun _ hs => hs

theorem ensures_note_seen (f : Session α σ → Event α) :
    Ensures (Sees P) (do note (f (← get)) : Work α σ Unit) fun _ => Sees P := by
  refine ensures_get_bind fun s hs => ?_
  exact (ensures_note _).mono (fun _ ht => ht ▸ hs) fun _ _ ht => ht

theorem ensures_updateInfo (f : Info α → Info α) :
    Ensures (Sees P) (updateInfo f : Work α σ _) fun _ => Sees P :=
  ensures_modify fun _ hs => hs

theorem ensures_updateTimers (f : Timers α → Timers α) :
    Ensures (Sees P) (updateTimers f : Work α σ _) fun _ => Sees P :=
  ensures_modify fun _ hs => hs

theorem ensures_now : Ensures (Sees P) (now : Work α σ α) fun _ => Sees P := by
  refine ensures_get_bind fun s hs => ?_
  refine ensures_bind (fun _ => Sees P) ?_ fun _ => ensures_pure fun _ ht => ht
  exact ensures_set fun _ _ => hs

theorem ensures_settings :
    Ensures (Sees P) (settings : Work α σ _) fun c => Sees fun c' p => c' = c ∧ P c' p := by
  refine ensures_get_bind fun s hs => ensures_pure ?_
  rintro t rfl
  exact ⟨rfl, hs⟩

theorem ensures_eval (f : BarrierProblem α → Option β) :
    Ensures (Sees P) (eval f : Work α σ β) fun x => Sees fun c p => f p = some x ∧ P c p := by
  refine ensures_get_bind fun s hs => ensures_ofOption ?_
  rintro x t hx rfl
  exact ⟨hx, hs⟩

def Under (c : Settings α) : Session α σ → Prop := Sees fun c' _ => c' = c

variable {c : Settings α}

theorem keeps_onProblem (a : Attempt (BarrierProblem α) β) :
    Keeps (Under c) (onProblem a : Work α σ β) :=
  ensures_on fun _ hs _ _ => hs

theorem keeps_backSolve [LinearSolver σ α] (size : Nat) (rhs : Array α) :
    Keeps (Under c) (backSolve size rhs : Work α σ _) := by
  refine ensures_get_bind fun s hs => ensures_ofOption ?_
  rintro _ t - rfl
  exact hs

theorem ensures_elapsed [Scalar α] : Ensures (Sees P) (elapsed : Work α σ α) fun _ => Sees P := by
  refine ensures_bind _ ensures_now fun t => ?_
  refine ensures_get_bind fun s hs => ensures_pure ?_
  rintro t rfl
  exact hs

theorem ensures_bracketed [Scalar α] {Q : β → Settings α → BarrierProblem α → Prop}
    {f g : α → Timers α → Timers α} {part : Work α σ β}
    (h : Ensures (Sees P) part fun b => Sees (Q b)) :
    Ensures (Sees P) (do
      let t ← now
      updateTimers (f t)
      let x ← part
      let t ← now
      updateTimers (g t)
      return x) fun b => Sees (Q b) := by
  refine ensures_bind _ ensures_now fun t => ?_
  refine ensures_bind _ (ensures_updateTimers _) fun _ => ?_
  refine ensures_bind _ h fun b => ?_
  refine ensures_bind _ ensures_now fun t => ?_
  refine ensures_bind _ (ensures_updateTimers _) fun _ => ?_
  exact ensures_pure fun _ hs => hs

theorem ensures_timed [Scalar α] {Q : β → Settings α → BarrierProblem α → Prop} {name : String}
    {part : Work α σ β} (h : Ensures (Sees P) part fun b => Sees (Q b)) :
    Ensures (Sees P) (timed name part) fun b => Sees (Q b) :=
  ensures_bracketed h

theorem ensures_untimed [Scalar α] {Q : β → Settings α → BarrierProblem α → Prop}
    {part : Work α σ β} (h : Ensures (Sees P) part fun b => Sees (Q b)) :
    Ensures (Sees P) (untimed part) fun b => Sees (Q b) :=
  ensures_bracketed h

variable [Scalar α]

theorem ensures_checkConvergence (iteration : Nat) (mu : α) :
    Ensures (Sees P) (checkConvergence iteration mu : Work α σ Bool) fun converged =>
      Sees fun c p => P c p ∧ (converged = true → p.Converged c.tolerance) := by
  refine ensures_bind _ (ensures_eval _) fun residuals => ?_
  refine ensures_bind _ (ensures_eval _) fun objective => ?_
  refine ensures_bind _ (ensures_updateInfo _) fun _ => ?_
  refine ensures_bind _ (ensures_untimed (ensures_note_seen _)) fun _ => ?_
  refine ensures_bind _ ensures_settings fun c => ensures_pure ?_
  rintro t ⟨rfl, -, hresiduals, ht⟩
  exact ⟨ht, fun hle => ⟨residuals, hresiduals, hle⟩⟩

theorem keeps_reduceBarrier (mu : α) :
    Ensures (Under c) (reduceBarrier mu : Work α σ α) fun _ => Under c := by
  refine ensures_bind _ ensures_settings fun s => ?_
  refine ensures_bind _ (ensures_eval _) fun residuals => ?_
  split
  · refine ensures_bind (fun _ => Under c) ?_ fun _ => ensures_pure fun _ hs => hs
    exact (keeps_onProblem _).mono (fun _ hs => hs.2.2) fun _ _ hs => hs
  · exact ensures_pure fun _ hs => hs.2.2

theorem keeps_move (mu coefficient : α) :
    Keeps (Under c) (move mu coefficient : Work α σ Unit) := by
  refine ensures_bind _ ensures_settings fun s => ?_
  refine ensures_get_bind fun s hs => ?_
  refine ensures_bind (fun _ => Under c) ?_ fun _ => ensures_updateInfo _
  exact (keeps_onProblem _).mono (fun _ ht => ht ▸ hs.2) fun _ _ ht => ht

variable [LinearSolver σ α]

theorem keeps_factorize (k : KktSystem α) :
    Keeps (Under c) (factorize k : Work α σ _) := by
  refine ensures_get_bind fun s hs => ?_
  refine ensures_bind (fun _ => Under c) (ensures_set fun _ _ => ?_) fun _ =>
    ensures_pure fun _ ht => ht
  show (s.solver.factorize k).solver.settings = c
  unfold Solver.factorize
  split
  · exact hs
  · exact hs

theorem ensures_newtonStep (iteration : Nat) (mu : α) :
    Ensures (Under c) (newtonStep iteration mu : Work α σ _) fun status t =>
      Under c t ∧ status ≠ some .optimal := by
  refine ensures_bind _ (ensures_timed (Q := fun _ c' _ => c' = c) ?_) fun k => ?_
  · exact (ensures_eval _).post fun _ _ hs => hs.2
  refine ensures_bind _ (ensures_timed (keeps_factorize k)) fun factored => ?_
  cases factored with
  | error e =>
    refine ensures_bind _ (ensures_note _) fun _ => ensures_pure fun _ hs => ⟨hs, ?_⟩
    cases e <;> simp [failureStatus]
  | ok reg =>
    refine ensures_bind _ (ensures_timed (keeps_backSolve _ _)) fun solved => ?_
    cases solved with
    | error e =>
      refine ensures_bind _ (ensures_note _) fun _ => ensures_pure fun _ hs => ⟨hs, by simp⟩
    | ok solution =>
      refine ensures_bind _ (keeps_onProblem _) fun _ => ensures_get_bind fun s hs => ?_
      split
      · refine ensures_bind (fun _ => Under c) ?_ fun _ => ensures_pure fun _ ht => ⟨ht, by simp⟩
        exact (keeps_move _ _).mono (fun _ ht => ht ▸ hs) fun _ _ ht => ht
      · exact ensures_pure fun _ ht => ⟨ht ▸ hs, by simp⟩

/-- A solve that ends as optimal is at a point where the residuals are at most the tolerance. -/
def Ended (c : Settings α) (status : Status) : Session α σ → Prop :=
  Sees fun c' p => c' = c ∧ (status = .optimal → p.Converged c.tolerance)

/-- A point at which the iteration ends as optimal has passed the convergence check. -/
theorem ensures_iterate (remaining : Nat) (mu : α) :
    Ensures (Under c) (iterate remaining mu : Work α σ Status) (Ended c) := by
  induction remaining generalizing mu with
  | zero =>
    refine ensures_bind _ ensures_settings fun s => ?_
    refine ensures_bind _ (ensures_checkConvergence _ _) fun converged => ?_
    cases converged with
    | true => exact ensures_pure fun _ ⟨⟨_, hc⟩, hconv⟩ => ⟨hc, fun _ => hc ▸ hconv rfl⟩
    | false => exact ensures_pure fun _ ⟨⟨_, hc⟩, _⟩ => ⟨hc, by simp⟩
  | succ remaining ih =>
    refine ensures_bind _ ensures_settings fun s => ?_
    refine ensures_bind _ (ensures_checkConvergence _ _) fun converged => ?_
    cases converged with
    | true => exact ensures_pure fun _ ⟨⟨_, hc⟩, hconv⟩ => ⟨hc, fun _ => hc ▸ hconv rfl⟩
    | false =>
      refine ensures_bind _ ensures_elapsed fun t => ?_
      split
      · exact ensures_pure fun _ ⟨⟨_, hc⟩, _⟩ => ⟨hc, by simp⟩
      · refine ensures_bind (fun _ => Under c) ?_ fun mu' => ?_
        · exact (keeps_reduceBarrier mu).mono (fun _ hs => hs.1.2) fun _ _ hs => hs
        refine ensures_bind _ (ensures_newtonStep _ mu') fun status => ?_
        cases status with
        | none => exact (ih mu').mono (fun _ hs => hs.1) fun _ _ hs => hs
        | some status =>
          refine ensures_pure fun _ ⟨hc, hne⟩ => ⟨hc, fun heq => ?_⟩
          exact absurd (congrArg some heq) hne

theorem ensures_solve :
    Ensures (Under c) (solve : Work α σ Status) (Ended c) := by
  refine ensures_bind (fun _ => Under c) (ensures_modify fun _ hs => hs) fun _ => ?_
  refine ensures_get_bind fun s hs => ?_
  refine ensures_bind (fun _ => Under c) ?_ fun _ => ?_
  · exact (ensures_untimed (ensures_note _)).mono (fun _ ht => ht ▸ hs) fun _ _ ht => ht
  refine ensures_bind _ (keeps_onProblem _) fun _ => ?_
  refine ensures_bind _ (ensures_timed (ensures_iterate _ _)) fun status => ?_
  refine ensures_bind _ ensures_elapsed fun t => ?_
  refine ensures_bind _ (ensures_updateInfo _) fun _ => ?_
  refine ensures_get_bind fun s' hs' => ?_
  refine ensures_bind (fun _ => Ended c status) ?_ fun _ => ?_
  · exact (ensures_note _).mono (fun _ ht => ht ▸ hs') fun _ _ ht => ht
  refine ensures_bind (fun _ => Ended c status) (ensures_modify fun _ ht => ht) fun _ => ?_
  exact ensures_pure fun _ ht => ht

end Work

end NonlinearOpt.InteriorPoint
