/-!
Clocks. A clock is the sequence of its readings, so that what a program does is determined by the
times that it was told.
-/

namespace NonlinearOpt

structure Clock (τ : Type) where
  reading : Nat → τ
  count : Nat

namespace Clock

variable {τ : Type}

def now (c : Clock τ) : τ := c.reading c.count

def tick (c : Clock τ) : Clock τ := { c with count := c.count + 1 }

end Clock

end NonlinearOpt
