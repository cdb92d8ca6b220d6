import NonlinearOpt.Proofs.Attempt

/-!
Two computations side by side. From related states they both get through, with related values, or
both break off, and either way the states that they end in are related again. A rule for each way of
building computations lets a relation be carried through two of them part by part.
-/

namespace NonlinearOpt.Attempt

variable {σ σ' ρ β β' γ γ' : Type}

structure Meets (R : σ → σ' → Prop) (Q : β → β' → Prop) (x : Option β × σ) (x' : Option β' × σ') :
    Prop where
  value : Option.Rel Q x.1 x'.1
  state : R x.2 x'.2

/-- From related states two computations end alike. -/
def Couples (R : σ → σ' → Prop) (Q : β → β' → Prop) (a : Attempt σ β) (a' : Attempt σ' β') :
    Prop :=
  ∀ s s', R s s' → Meets R Q (a.run s) (a'.run s')

variable {R : σ → σ' → Prop} {Q : β → β' → Prop}

theorem meets_eq_iff {x : Option β × σ} {x' : Option β × σ'} :
    Meets R Eq x x' ↔ x.1 = x'.1 ∧ R x.2 x'.2 := by
  constructor
  · rintro ⟨hvalue, hstate⟩
    refine ⟨?_, hstate⟩
    generalize x.1 = b, x'.1 = b' at hvalue
    cases hvalue with
    | none => rfl
    | some h => rw [h]
  · rintro ⟨hvalue, hstate⟩
    refine ⟨?_, hstate⟩
    rw [hvalue]
    cases x'.1 with
    | none => exact .none
    | some b => exact .some rfl

theorem meets_bind {Q' : γ → γ' → Prop} {a : Attempt σ γ} {a' : Attempt σ' γ'}
    {f : γ → Attempt σ β} {f' : γ' → Attempt σ' β'} {s : σ} {s' : σ'}
    (ha : Meets R Q' (a.run s) (a'.run s')) (hf : ∀ c c', Q' c c' → Couples R Q (f c) (f' c')) :
    Meets R Q ((a >>= f).run s) ((a' >>= f').run s') := by
  rw [run_bind, run_bind]
  obtain ⟨hvalue, hstate⟩ := ha
  revert hvalue hstate
  rcases a.run s with ⟨_ | c, t⟩ <;> rcases a'.run s' with ⟨_ | c', t'⟩ <;> intro hvalue hstate
  · exact ⟨.none, hstate⟩
  · cases hvalue
  · cases hvalue
  · cases hvalue with
    | some hc => exact hf c c' hc t t' hstate

theorem couples_bind {Q' : γ → γ' → Prop} {a : Attempt σ γ} {a' : Attempt σ' γ'}
    {f : γ → Attempt σ β} {f' : γ' → Attempt σ' β'} (ha : Couples R Q' a a')
    (hf : ∀ c c', Q' c c' → Couples R Q (f c) (f' c')) :
    Couples R Q (a >>= f) (a' >>= f') :=
  fun s s' h => meets_bind (ha s s' h) hf

theorem couples_pure {b : β} {b' : β'} (h : Q b b') : Couples R Q (pure b) (pure b') :=
  fun _ _ hs => ⟨.some h, hs⟩

theorem couples_get_bind {f : σ → Attempt σ β} {f' : σ' → Attempt σ' β'}
    (h : ∀ s s', R s s' → Meets R Q ((f s).run s) ((f' s').run s')) :
    Couples R Q (get >>= f) (get >>= f') := by
  intro s s' hs
  rw [run_get_bind, run_get_bind]
  exact h s s' hs

theorem couples_modify {f : σ → σ} {f' : σ' → σ'} (h : ∀ s s', R s s' → R (f s) (f' s')) :
    Couples R (fun _ _ => True) (modify f : Attempt σ PUnit) (modify f' : Attempt σ' PUnit) :=
  fun s s' hs => ⟨.some trivial, h s s' hs⟩

theorem couples_forM {xs : List γ} {f : γ → Attempt σ Unit} {f' : γ → Attempt σ' Unit}
    (h : ∀ x, Couples R Eq (f x) (f' x)) : Couples R Eq (xs.forM f) (xs.forM f') := by
  induction xs with
  | nil => exact couples_pure rfl
  | cons x xs ih => exact couples_bind (h x) fun _ _ _ => ih

end NonlinearOpt.Attempt
