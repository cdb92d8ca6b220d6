import NonlinearOpt.Timing.Stopwatch

namespace NonlinearOpt

inductive Timer (τ : Type) where
  | node (watch : Stopwatch τ) (children : List (String × Timer τ))

namespace Timer

variable {τ : Type} [Zero τ] [Add τ] [Sub τ]

def watch : Timer τ → Stopwatch τ
  | node w _ => w

def children : Timer τ → List (String × Timer τ)
  | node _ ts => ts

def new : Timer τ := node .new []

def mapWatch (f : Stopwatch τ → Stopwatch τ) : Timer τ → Timer τ
  | node w ts => node (f w) ts

mutual

/-- Suspends a running timer and all that run below it. -/
def suspend (now : τ) : Timer τ → Timer τ
  | node w ts => if w.isRunning then node (w.suspend now) (suspendAll now ts) else node w ts

def suspendAll (now : τ) : List (String × Timer τ) → List (String × Timer τ)
  | [] => []
  | (name, t) :: ts => (name, t.suspend now) :: suspendAll now ts

end

mutual

def resume (now : τ) : Timer τ → Timer τ
  | node w ts => if w.isPaused then node (w.resume now) (resumeAll now ts) else node w ts

def resumeAll (now : τ) : List (String × Timer τ) → List (String × Timer τ)
  | [] => []
  | (name, t) :: ts => (name, t.resume now) :: resumeAll now ts

end

mutual

def lines (depth : Nat) (name : String) : Timer τ → List String
  | node _ ts => (String.ofList (List.replicate (4 * depth) ' ') ++ name) :: linesOf (depth + 1) ts

def linesOf (depth : Nat) : List (String × Timer τ) → List String
  | [] => []
  | (name, t) :: ts => t.lines depth name ++ linesOf depth ts

end

def upsert (name : String) (f : Timer τ → Timer τ) :
    List (String × Timer τ) → List (String × Timer τ)
  | [] => [(name, f new)]
  | (other, t) :: ts => if other = name then (name, f t) :: ts else (other, t) :: upsert name f ts

def updateAt? (f : Timer τ → Timer τ) :
    List String → List (String × Timer τ) → Option (List (String × Timer τ))
  | [], _ => none
  | name :: path, ts => do
    let t ← ts.lookup name
    if path.isEmpty then return upsert name f ts
    let below ← updateAt? f path t.children
    return upsert name (fun t => node t.watch below) ts

end Timer

/-- A collection of timers. The active ones, from the outermost inwards, are given by their names. -/
structure Timers (τ : Type) where
  active : List String
  timers : List (String × Timer τ)

namespace Timers

variable {τ : Type} [Zero τ] [Add τ] [Sub τ]

def new : Timers τ := ⟨[], []⟩

def reset (name : String) (s : Timers τ) : Timers τ :=
  { s with timers := Timer.upsert name (fun _ => .new) s.timers }

/-- Starts a timer below the innermost active one. If that one was lost in a reset, the new timer is
kept at the top level. -/
def start (now : τ) (name : String) (s : Timers τ) : Timers τ :=
  let go := Timer.upsert name (Timer.mapWatch (·.start now))
  let timers := match Timer.updateAt? (fun t => .node t.watch (go t.children)) s.active s.timers with
    | some timers => timers
    | none => go s.timers
  ⟨s.active ++ [name], timers⟩

def stop (now : τ) (s : Timers τ) : Timers τ :=
  match Timer.updateAt? (Timer.mapWatch (·.stop now)) s.active s.timers with
  | some timers => ⟨s.active.dropLast, timers⟩
  | none => s

def suspend (now : τ) (s : Timers τ) : Timers τ :=
  { s with timers := Timer.suspendAll now s.timers }

def resume (now : τ) (s : Timers τ) : Timers τ :=
  { s with timers := Timer.resumeAll now s.timers }

def elapsed (now : τ) (name : String) (s : Timers τ) : τ :=
  match s.timers.lookup name with
  | some t => t.watch.elapsed now
  | none => 0

def total (now : τ) (s : Timers τ) : τ :=
  s.timers.foldl (fun sum (_, t) => sum + t.watch.elapsed now) 0

def lines (s : Timers τ) : List String := Timer.linesOf 0 s.timers

end Timers

end NonlinearOpt
