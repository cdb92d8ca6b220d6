
namespace NonlinearOpt

/-- A stopwatch. It is active while it has a starting time, and runs while it is active and not
suspended. -/
structure Stopwatch (τ : Type) where
  started : Option τ
  banked : τ
  suspended : Bool
  deriving Repr

namespace Stopwatch

variable {τ : Type} [Zero τ] [Add τ] [Sub τ]

def new : Stopwatch τ := ⟨none, 0, false⟩

def runningSince (w : Stopwatch τ) : Option τ := if w.suspended then none else w.started

def elapsed (now : τ) (w : Stopwatch τ) : τ :=
  match w.runningSince with
  | some t => w.banked + (now - t)
  | none => w.banked

/-- Starts a new interval. An interval that was running is lost. -/
def start (now : τ) (w : Stopwatch τ) : Stopwatch τ :=
  { w with started := some now, suspended := false }

def stop (now : τ) (w : Stopwatch τ) : Stopwatch τ := ⟨none, w.elapsed now, false⟩

def isRunning (w : Stopwatch τ) : Bool := w.runningSince.isSome

def isPaused (w : Stopwatch τ) : Bool := w.suspended && w.started.isSome

def suspend (now : τ) (w : Stopwatch τ) : Stopwatch τ :=
  { w with banked := w.elapsed now, suspended := true }

def resume (now : τ) (w : Stopwatch τ) : Stopwatch τ := w.start now

end Stopwatch

end NonlinearOpt
