/-!
Computations on a state that may break off. A computation breaks off where something it relies on
does not hold; what it did to the state up to there stays done.
-/

namespace NonlinearOpt

abbrev Attempt (σ β : Type) := OptionT (StateM σ) β

namespace Attempt

variable {σ β : Type}

def ofOption (x : Option β) : Attempt σ β := OptionT.mk fun s => (x, s)

/-- Replaces the state. Where the new state is undefined, the old one stays. -/
def change (f : σ → Option σ) : Attempt σ Unit :=
  OptionT.mk fun s => match f s with
    | some s => (some (), s)
    | none => (none, s)

def on {ρ : Type} (part : σ → ρ) (put : ρ → σ → σ) (a : Attempt ρ β) : Attempt σ β :=
  OptionT.mk fun s =>
    let (x, p) := a.run (part s)
    (x, put p s)

end Attempt

end NonlinearOpt
