import NonlinearOpt.OuterApprox.Search
import Mathlib.Tactic.Common

namespace NonlinearOpt.OuterApprox.Run

variable {π α β γ : Type}

theorem run_bind (m : Run π α γ) (f : γ → Run π α β) (s : State π α) :
    (m >>= f).run.run s = match m.run.run s with
      | (.ok c, t) => (f c).run.run t
      | (.error e, t) => (.error e, t) := by
  rw [ExceptT.run_bind, StateT.run_bind]
  rcases m.run.run s with ⟨_ | _, _⟩ <;> rfl

def Ensures (P : State π α → Prop) (m : Run π α β) (Q : β → State π α → Prop) : Prop :=
  ∀ s, P s → ∀ b t, m.run.run s = (.ok b, t) → Q b t

variable {P P' : State π α → Prop} {Q Q' : β → State π α → Prop}

theorem Ensures.mono {m : Run π α β} (h : Ensures P m Q) (hpre : ∀ s, P' s → P s)
    (hpost : ∀ b t, Q b t → Q' b t) : Ensures P' m Q' :=
  fun s hs b t hrun => hpost b t (h s (hpre s hs) b t hrun)

theorem Ensures.pre {m : Run π α β} (h : Ensures P m Q) (hpre : ∀ s, P' s → P s) :
    Ensures P' m Q :=
  h.mono hpre fun _ _ ht => ht

theorem Ensures.post {m : Run π α β} (h : Ensures P m Q) (hpost : ∀ b t, Q b t → Q' b t) :
    Ensures P m Q' :=
  h.mono (fun _ hs => hs) hpost

theorem ensures_pure {b : β} (h : ∀ s, P s → Q b s) : Ensures P (pure b) Q := by
  intro s hs c t hrun
  cases hrun
  exact h s hs

theorem ensures_throw (e : Error) : Ensures P (throw e : Run π α β) Q := by
  intro s hs b t hrun
  cases hrun

theorem ensures_bind {m : Run π α γ} {f : γ → Run π α β} (R : γ → State π α → Prop)
    (hm : Ensures P m R) (hf : ∀ c, Ensures (R c) (f c) Q) : Ensures P (m >>= f) Q := by
  intro s hs b u hrun
  rw [run_bind] at hrun
  cases hfirst : m.run.run s with
  | mk c t =>
    rw [hfirst] at hrun
    cases c with
    | error e => cases hrun
    | ok c => exact hf c t (hm s hs c t hfirst) b u hrun

theorem ensures_get_bind {f : State π α → Run π α β}
    (h : ∀ s, P s → Ensures (· = s) (f s) Q) : Ensures P (get >>= f) Q := by
  intro s hs b t hrun
  rw [run_bind] at hrun
  exact h s hs s rfl b t hrun

theorem ensures_progress_bind {f : Progress α → Run π α β}
    (h : ∀ p, Ensures (fun s => P s ∧ s.progress = p) (f p) Q) :
    Ensures P (progress >>= f) Q := by
  intro s hs b t hrun
  rw [run_bind] at hrun
  exact h s.progress s ⟨hs, rfl⟩ b t hrun

theorem ensures_config_bind {f : Config α → Run π α β}
    (h : ∀ c, Ensures (fun s => P s ∧ s.config = c) (f c) Q) : Ensures P (config >>= f) Q := by
  intro s hs b t hrun
  rw [run_bind] at hrun
  exact h s.config s ⟨hs, rfl⟩ b t hrun

theorem ensures_modify {f : State π α → State π α} {Q : PUnit → State π α → Prop}
    (h : ∀ s, P s → Q ⟨⟩ (f s)) : Ensures P (modify f : Run π α PUnit) Q := by
  intro s hs b t hrun
  cases hrun
  exact h s hs

theorem ensures_update {f : Progress α → Progress α} {Q : Unit → State π α → Prop}
    (h : ∀ s, P s → Q () { s with progress := f s.progress }) : Ensures P (update f) Q :=
  ensures_modify h

theorem ensures_ask {f : Progress α → π → Except Error β × π}
    (h : ∀ s, P s → ∀ b problem, f s.progress s.problem = (.ok b, problem) →
      Q b { s with problem }) : Ensures P (ask f) Q := by
  intro s hs b t hrun
  have hask : (ask f).run.run s =
      ((f s.progress s.problem).1, { s with problem := (f s.progress s.problem).2 }) := rfl
  rw [hask] at hrun
  obtain ⟨hvalue, rfl⟩ := Prod.mk.inj hrun
  exact h s hs b _ (Prod.ext hvalue rfl)

theorem ensures_now {R : State π α → Prop} (h : ∀ s, P s → R { s with clock := s.clock.tick }) :
    Ensures P (now : Run π α α) fun _ => R := by
  intro s hs b t hrun
  cases hrun
  exact h s hs

theorem ensures_elapsed [Scalar α] {R : State π α → Prop}
    (h : ∀ s, P s → R { s with clock := s.clock.tick }) :
    Ensures P (elapsed : Run π α α) fun _ => R := by
  refine ensures_bind _ (ensures_now h) fun time => ensures_get_bind fun s hs => ?_
  exact ensures_pure fun u hu => hu ▸ hs

/-- From `P` a part of a run ends in `I` even if an error breaks it off, and in `Q` if it gets
through. -/
def Carries (I P : State π α → Prop) (m : Run π α β) (Q : β → State π α → Prop) : Prop :=
  ∀ s, P s → I (m.run.run s).2 ∧ ∀ b, (m.run.run s).1 = .ok b → Q b (m.run.run s).2

section Carries

variable {I I' : State π α → Prop}

theorem Carries.mono {m : Run π α β} (h : Carries I P m Q) (hpre : ∀ s, P' s → P s)
    (hend : ∀ s, I s → I' s) (hpost : ∀ b t, Q b t → Q' b t) : Carries I' P' m Q' :=
  fun s hs => ⟨hend _ (h s (hpre s hs)).1, fun b hb => hpost b _ ((h s (hpre s hs)).2 b hb)⟩

theorem Carries.pre {m : Run π α β} (h : Carries I P m Q) (hpre : ∀ s, P' s → P s) :
    Carries I P' m Q :=
  h.mono hpre (fun _ hs => hs) fun _ _ ht => ht

theorem carries_pure {b : β} (h : ∀ s, P s → I s ∧ Q b s) : Carries I P (pure b) Q := by
  intro s hs
  refine ⟨(h s hs).1, ?_⟩
  rintro _ ⟨⟩
  exact (h s hs).2

theorem carries_throw (e : Error) (h : ∀ s, P s → I s) :
    Carries I P (throw e : Run π α β) Q :=
  fun s hs => ⟨h s hs, nofun⟩

theorem carries_bind {m : Run π α γ} {f : γ → Run π α β} (R : γ → State π α → Prop)
    (hm : Carries I P m R) (hf : ∀ c, Carries I (R c) (f c) Q) : Carries I P (m >>= f) Q := by
  intro s hs
  rw [run_bind]
  have hfirst := hm s hs
  cases hrun : m.run.run s with
  | mk c t =>
    rw [hrun] at hfirst
    cases c with
    | error e => exact ⟨hfirst.1, nofun⟩
    | ok c => exact hf c t (hfirst.2 c rfl)

theorem carries_progress_bind {f : Progress α → Run π α β}
    (h : ∀ p, Carries I (fun s => P s ∧ s.progress = p) (f p) Q) :
    Carries I P (progress >>= f) Q := by
  intro s hs
  rw [run_bind]
  exact h s.progress s ⟨hs, rfl⟩

theorem carries_config_bind {f : Config α → Run π α β} (h : ∀ c, Carries I P (f c) Q) :
    Carries I P (config >>= f) Q := by
  intro s hs
  rw [run_bind]
  exact h s.config s hs

theorem carries_modify {f : State π α → State π α} {Q : PUnit → State π α → Prop}
    (h : ∀ s, P s → I (f s) ∧ Q ⟨⟩ (f s)) : Carries I P (modify f : Run π α PUnit) Q :=
  fun s hs => ⟨(h s hs).1, fun _ _ => (h s hs).2⟩

theorem carries_ask {f : Progress α → π → Except Error β × π}
    (h : ∀ s, P s → I { s with problem := (f s.progress s.problem).2 } ∧
      ∀ b, (f s.progress s.problem).1 = .ok b →
        Q b { s with problem := (f s.progress s.problem).2 }) :
    Carries I P (ask f) Q :=
  h

theorem carries_elapsed [Scalar α] {R : State π α → Prop}
    (h : ∀ s, P s → I { s with clock := s.clock.tick } ∧ R { s with clock := s.clock.tick }) :
    Carries I P (elapsed : Run π α α) fun _ => R :=
  fun s hs => ⟨(h s hs).1, fun _ _ => (h s hs).2⟩

end Carries

end NonlinearOpt.OuterApprox.Run
