import NonlinearOpt.Attempt
import Mathlib.Tactic.Common

/-!
What computations on a state ensure. A rule for each way of building one lets a property of the
state be carried through a computation part by part.
-/

namespace NonlinearOpt.Attempt

variable {σ ρ β γ : Type}

theorem run_bind (a : Attempt σ γ) (f : γ → Attempt σ β) (s : σ) :
    (a >>= f).run s = match a.run s with
      | (some c, t) => (f c).run t
      | (none, t) => (none, t) := by
  rw [OptionT.run_bind]
  simp only [Option.elimM, bind, StateT.bind]
  rcases a.run s with ⟨_ | c, t⟩ <;> rfl

theorem run_map (f : γ → β) (a : Attempt σ γ) (s : σ) :
    (f <$> a).run s = ((a.run s).1.map f, (a.run s).2) := by
  rw [map_eq_pure_bind, run_bind]
  rcases a.run s with ⟨_ | c, t⟩ <;> rfl

theorem run_get_bind (f : σ → Attempt σ β) (s : σ) : (get >>= f).run s = (f s).run s := by
  rw [run_bind]
  rfl

theorem run_change (f : σ → Option σ) (s : σ) :
    (change f).run s = match f s with
      | some s' => (some (), s')
      | none => (none, s) :=
  rfl

theorem run_change_bind (f : σ → Option σ) (a : Unit → Attempt σ β) (s : σ) :
    (change f >>= a).run s = match f s with
      | some s' => (a ()).run s'
      | none => (none, s) := by
  rw [run_bind, run_change]
  cases f s <;> rfl

theorem run_on (part : σ → ρ) (put : ρ → σ → σ) (a : Attempt ρ β) (s : σ) :
    (on part put a).run s = ((a.run (part s)).1, put (a.run (part s)).2 s) :=
  rfl

/-- A computation that starts in `P` and gets through ends in `Q`, with its value. -/
def Ensures (P : σ → Prop) (a : Attempt σ β) (Q : β → σ → Prop) : Prop :=
  ∀ s, P s → ∀ b t, a.run s = (some b, t) → Q b t

def Keeps (P : σ → Prop) (a : Attempt σ β) : Prop := Ensures P a fun _ => P

variable {P P' : σ → Prop} {Q Q' : β → σ → Prop}

theorem Ensures.mono {a : Attempt σ β} (h : Ensures P a Q) (hpre : ∀ s, P' s → P s)
    (hpost : ∀ b t, Q b t → Q' b t) : Ensures P' a Q' :=
  fun s hs b t hrun => hpost b t (h s (hpre s hs) b t hrun)

theorem Ensures.post {a : Attempt σ β} (h : Ensures P a Q) (hpost : ∀ b t, Q b t → Q' b t) :
    Ensures P a Q' :=
  h.mono (fun _ hs => hs) hpost

theorem ensures_pure {b : β} (h : ∀ s, P s → Q b s) : Ensures P (pure b) Q := by
  intro s hs c t hrun
  cases hrun
  exact h s hs

theorem ensures_bind {a : Attempt σ γ} {f : γ → Attempt σ β} (R : γ → σ → Prop)
    (ha : Ensures P a R) (hf : ∀ c, Ensures (R c) (f c) Q) : Ensures P (a >>= f) Q := by
  intro s hs b u hrun
  rw [run_bind] at hrun
  cases hfirst : a.run s with
  | mk c t =>
    rw [hfirst] at hrun
    cases c with
    | none => cases hrun
    | some c => exact hf c t (ha s hs c t hfirst) b u hrun

theorem ensures_get_bind {f : σ → Attempt σ β} (h : ∀ s, P s → Ensures (· = s) (f s) Q) :
    Ensures P (get >>= f) Q := by
  intro s hs b t hrun
  rw [run_bind] at hrun
  exact h s hs s rfl b t hrun

theorem ensures_set {s' : σ} {Q : PUnit → σ → Prop} (h : ∀ s, P s → Q ⟨⟩ s') :
    Ensures P (set s' : Attempt σ PUnit) Q := by
  intro s hs b t hrun
  cases hrun
  exact h s hs

theorem ensures_modify {f : σ → σ} {Q : PUnit → σ → Prop} (h : ∀ s, P s → Q ⟨⟩ (f s)) :
    Ensures P (modify f : Attempt σ PUnit) Q := by
  intro s hs b t hrun
  cases hrun
  exact h s hs

theorem ensures_ofOption {x : Option β} (h : ∀ b s, x = some b → P s → Q b s) :
    Ensures P (ofOption x) Q := by
  intro s hs b t hrun
  cases x with
  | none => cases hrun
  | some c =>
    cases hrun
    exact h b s rfl hs

theorem ensures_on {part : σ → ρ} {put : ρ → σ → σ} {a : Attempt ρ β}
    (h : ∀ s, P s → ∀ b p, Q b (put p s)) : Ensures P (on part put a) Q := by
  intro s hs b t hrun
  have hput : (on part put a).run s = ((a.run (part s)).1, put (a.run (part s)).2 s) := rfl
  rw [hput] at hrun
  obtain ⟨-, rfl⟩ := Prod.mk.inj hrun
  exact h s hs b _

/-- From `P` a computation ends in `I` wherever it breaks off, and in `Q` if it gets through. -/
def Carries (I P : σ → Prop) (a : Attempt σ β) (Q : β → σ → Prop) : Prop :=
  ∀ s, P s → I (a.run s).2 ∧ ∀ b, (a.run s).1 = some b → Q b (a.run s).2

/-- A computation that leaves one view of the state as it is, whether or not it gets through. -/
def Fixes (view : σ → ρ) (a : Attempt σ β) : Prop := ∀ s, view (a.run s).2 = view s

section Carries

variable {I : σ → Prop}

theorem Carries.ensures {a : Attempt σ β} (h : Carries I P a Q) : Ensures P a Q := by
  intro s hs b t hrun
  have hq := (h s hs).2 b (by rw [hrun])
  rwa [hrun] at hq

theorem Carries.mono {a : Attempt σ β} (h : Carries I P a Q) (hpre : ∀ s, P' s → P s)
    (hpost : ∀ b t, Q b t → Q' b t) : Carries I P' a Q' :=
  fun s hs => ⟨(h s (hpre s hs)).1, fun b hb => hpost b _ ((h s (hpre s hs)).2 b hb)⟩

theorem carries_pure {b : β} (hi : ∀ s, P s → I s) (hq : ∀ s, P s → Q b s) :
    Carries I P (pure b) Q := by
  intro s hs
  refine ⟨hi s hs, ?_⟩
  rintro _ ⟨⟩
  exact hq s hs

theorem carries_bind {a : Attempt σ γ} {f : γ → Attempt σ β} (R : γ → σ → Prop)
    (ha : Carries I P a R) (hf : ∀ c, Carries I (R c) (f c) Q) : Carries I P (a >>= f) Q := by
  intro s hs
  rw [run_bind]
  cases hfirst : a.run s with
  | mk c t =>
    have hrun := ha s hs
    rw [hfirst] at hrun
    cases c with
    | none => exact ⟨hrun.1, nofun⟩
    | some c => exact hf c t (hrun.2 c rfl)

theorem carries_get_bind {f : σ → Attempt σ β} (h : ∀ s, P s → Carries I P (f s) Q) :
    Carries I P (get >>= f) Q := by
  intro s hs
  rw [run_get_bind]
  exact h s hs s hs

theorem carries_of_known {a : Attempt σ β} {known : Prop} (hknown : ∀ s, P s → known)
    (h : known → Carries I P a Q) : Carries I P a Q :=
  fun s hs => h (hknown s hs) s hs

theorem Fixes.carries {view : σ → ρ} {a : Attempt σ β} (h : Fixes view a) {p : ρ → Prop}
    (hi : ∀ s, p (view s) → I s) : Carries I (fun s => p (view s)) a fun _ s => p (view s) := by
  intro s hs
  have hend : p (view (a.run s).2) := by rwa [h s]
  exact ⟨hi _ hend, fun _ _ => hend⟩

end Carries

section Fixes

variable {view : σ → ρ}

theorem Fixes.fst {ρ' : Type} {other : σ → ρ'} {a : Attempt σ β}
    (h : Fixes (fun s => (view s, other s)) a) : Fixes view a :=
  fun s => congrArg Prod.fst (h s)

theorem Fixes.snd {ρ' : Type} {other : σ → ρ'} {a : Attempt σ β}
    (h : Fixes (fun s => (other s, view s)) a) : Fixes view a :=
  fun s => congrArg Prod.snd (h s)

theorem Fixes.keeps {a : Attempt σ β} (h : Fixes view a) (p : ρ → Prop) :
    Keeps (fun s => p (view s)) a := by
  intro s hs b t hrun
  have hview := h s
  rw [hrun] at hview
  exact hview ▸ hs

theorem fixes_pure (b : β) : Fixes view (pure b : Attempt σ β) := fun _ => rfl

theorem fixes_modify {f : σ → σ} (h : ∀ s, view (f s) = view s) :
    Fixes view (modify f : Attempt σ PUnit) := h

theorem fixes_change {f : σ → Option σ} (h : ∀ s s', f s = some s' → view s' = view s) :
    Fixes view (change f) := by
  intro s
  rw [run_change]
  cases hf : f s with
  | none => rfl
  | some s' => exact h s s' hf

theorem fixes_on {π τ : Type} {inner : π → τ} {part : σ → π} {put : π → σ → σ} {a : Attempt π β}
    (h : Fixes inner a) (hput : ∀ s p, inner p = inner (part s) → view (put p s) = view s) :
    Fixes view (on part put a) :=
  fun s => hput s _ (h (part s))

theorem fixes_bind {a : Attempt σ γ} {f : γ → Attempt σ β} (ha : Fixes view a)
    (hf : ∀ c, Fixes view (f c)) : Fixes view (a >>= f) := by
  intro s
  rw [run_bind]
  have hfirst := ha s
  cases hrun : a.run s with
  | mk c t =>
    rw [hrun] at hfirst
    cases c with
    | none => exact hfirst
    | some c => exact (hf c t).trans hfirst

theorem fixes_get_bind {f : σ → Attempt σ β} (h : ∀ s, view ((f s).run s).2 = view s) :
    Fixes view (get >>= f) := by
  intro s
  rw [run_get_bind]
  exact h s

end Fixes

def Achieves (P : σ → Prop) (a : Attempt σ β) (Q : β → σ → Prop) : Prop :=
  ∀ s, P s → ∃ b t, a.run s = (some b, t) ∧ Q b t

section Achieves

theorem Achieves.mono {a : Attempt σ β} (h : Achieves P a Q) (hpre : ∀ s, P' s → P s)
    (hpost : ∀ b t, Q b t → Q' b t) : Achieves P' a Q' := by
  intro s hs
  obtain ⟨b, t, hrun, hq⟩ := h s (hpre s hs)
  exact ⟨b, t, hrun, hpost b t hq⟩

theorem achieves_pure {b : β} (h : ∀ s, P s → Q b s) : Achieves P (pure b) Q :=
  fun s hs => ⟨b, s, rfl, h s hs⟩

theorem achieves_bind {a : Attempt σ γ} {f : γ → Attempt σ β} (R : γ → σ → Prop)
    (ha : Achieves P a R) (hf : ∀ c, Achieves (R c) (f c) Q) : Achieves P (a >>= f) Q := by
  intro s hs
  obtain ⟨c, t, hfirst, hc⟩ := ha s hs
  rw [run_bind, hfirst]
  exact hf c t hc

end Achieves

def outcome (a : Attempt σ Unit) (s : σ) : Option σ := (a.run s).1.map fun _ => (a.run s).2

section Outcome

theorem outcome_bind (a : Attempt σ Unit) (f : Unit → Attempt σ Unit) (s : σ) :
    (a >>= f).outcome s = (a.outcome s).bind (f ()).outcome := by
  unfold outcome
  rw [run_bind]
  rcases a.run s with ⟨_ | _, t⟩ <;> rfl

theorem outcome_ofOption_bind (x : Option γ) (f : γ → Attempt σ Unit) (s : σ) :
    (ofOption x >>= f).outcome s = x.bind fun c => (f c).outcome s := by
  unfold outcome
  rw [run_bind]
  cases x <;> rfl

theorem outcome_get_bind (f : σ → Attempt σ Unit) (s : σ) :
    (get >>= f).outcome s = (f s).outcome s := by
  rw [outcome, run_get_bind, outcome]

theorem outcome_change (f : σ → Option σ) (s : σ) : (change f).outcome s = f s := by
  unfold outcome
  rw [run_change]
  cases f s <;> rfl

theorem outcome_forM (f : β → Attempt σ Unit) (xs : List β) (s : σ) :
    (xs.forM f).outcome s = xs.foldlM (fun s x => (f x).outcome s) s := by
  induction xs generalizing s with
  | nil => rfl
  | cons x xs ih =>
    rw [List.foldlM_cons]
    refine (outcome_bind (f x) (fun _ => xs.forM f) s).trans ?_
    exact congrArg _ (funext ih)

end Outcome

end NonlinearOpt.Attempt
