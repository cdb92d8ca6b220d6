import NonlinearOpt.Proofs.Timing.Timers
import NonlinearOpt.Scalar
import NonlinearOpt.Timing.Clock

namespace NonlinearOpt

variable {τ : Type}

/-- The lengths of time that can be measured with a clock: nothing, and what was measured before with
one more interval between two readings. -/
inductive Clock.Span [Zero τ] [Add τ] [Sub τ] (reading : Nat → τ) : τ → Prop
  | nothing : Span reading 0
  | more {t : τ} (before : Span reading t) (i j : Nat) :
      Span reading (t + (reading j - reading i))

namespace Clock

def IsFinite [Scalar τ] (clock : Clock τ) : Prop :=
  ∀ t, Span clock.reading t → Scalar.lt t Scalar.infinity = true

theorem Span.eq_zero [Zero τ] [Add τ] [Sub τ] {reading : Nat → τ} {t : τ}
    (hreading : ∀ i j, 0 + (reading j - reading i) = 0) (h : Span reading t) : t = 0 := by
  induction h with
  | nothing => rfl
  | more _ i j ih =>
    rw [ih]
    exact hreading i j

end Clock

section Stopwatch

variable [Zero τ] [Add τ] [Sub τ] {reading : Nat → τ} {w : Stopwatch τ}

structure Stopwatch.Tells (reading : Nat → τ) (w : Stopwatch τ) : Prop where
  banked : Clock.Span reading w.banked
  started : ∀ t, w.started = some t → ∃ i, t = reading i

namespace Stopwatch.Tells

theorem new : Tells reading .new := ⟨.nothing, nofun⟩

theorem start (h : w.Tells reading) (i : Nat) : (w.start (reading i)).Tells reading := by
  refine ⟨h.banked, ?_⟩
  rintro _ ⟨⟩
  exact ⟨i, rfl⟩

theorem elapsed (h : w.Tells reading) (i : Nat) : Clock.Span reading (w.elapsed (reading i)) := by
  unfold Stopwatch.elapsed
  cases hsince : w.runningSince with
  | none => exact h.banked
  | some t =>
    have hstarted : w.started = some t := by
      unfold runningSince at hsince
      split at hsince
      · cases hsince
      · exact hsince
    obtain ⟨j, rfl⟩ := h.started t hstarted
    exact h.banked.more j i

theorem stop (h : w.Tells reading) (i : Nat) : (w.stop (reading i)).Tells reading :=
  ⟨h.elapsed i, nofun⟩

theorem suspend (h : w.Tells reading) (i : Nat) : (w.suspend (reading i)).Tells reading :=
  ⟨h.elapsed i, h.started⟩

end Stopwatch.Tells

end Stopwatch

namespace Timer

variable {P : Stopwatch τ → Prop} {name : String} {f : Timer τ → Timer τ}
  {ts ts' : List (String × Timer τ)}

def Shows (P : Stopwatch τ → Prop) (name : String) (ts : List (String × Timer τ)) : Prop :=
  ∀ t, ts.lookup name = some t → P t.watch

theorem Shows.map (h : Shows P name ts) (hf : ∀ t, P t.watch → P (f t).watch) :
    Shows P name (ts.map fun e => (e.1, f e.2)) := by
  intro t ht
  rw [lookup_map] at ht
  obtain ⟨t, hlookup, rfl⟩ := Option.map_eq_some_iff.mp ht
  exact hf t (h t hlookup)

variable [Zero τ]

theorem Shows.upsert (h : Shows P name ts) (hnew : P .new) (hf : ∀ t, P t.watch → P (f t).watch)
    (other : String) : Shows P name (upsert other f ts) := by
  intro t ht
  by_cases hname : name = other
  · subst hname
    rw [lookup_upsert] at ht
    obtain rfl := Option.some.inj ht
    apply hf
    cases hlookup : ts.lookup name with
    | none => exact hnew
    | some t => exact h t hlookup
  · rw [lookup_upsert_of_ne hname] at ht
    exact h t ht

theorem Shows.updateAt? {path : List String} (h : Shows P name ts) (hnew : P .new)
    (hf : ∀ t, P t.watch → P (f t).watch) (hupdate : updateAt? f path ts = some ts') :
    Shows P name ts' := by
  cases path with
  | nil => cases hupdate
  | cons first path =>
    obtain ⟨t, hlookup, hupdate⟩ := Option.bind_eq_some_iff.mp hupdate
    split at hupdate
    · obtain rfl := Option.some.inj hupdate
      exact h.upsert hnew hf first
    · obtain ⟨below, -, hupdate⟩ := Option.bind_eq_some_iff.mp hupdate
      obtain rfl := Option.some.inj hupdate
      refine h.upsert hnew ?_ first
      exact fun _ ht => ht

end Timer

namespace Timers

variable [Zero τ] [Add τ] [Sub τ] {reading : Nat → τ} {name : String} {s : Timers τ}

def Tells (reading : Nat → τ) (name : String) (s : Timers τ) : Prop :=
  Timer.Shows (Stopwatch.Tells reading) name s.timers

theorem tells_reset (s : Timers τ) : (s.reset name).Tells reading name := by
  intro t ht
  have hreset : (s.reset name).timers.lookup name = some .new := Timer.lookup_upsert ..
  rw [hreset] at ht
  obtain rfl := Option.some.inj ht
  exact .new

theorem Tells.start (h : s.Tells reading name) (i : Nat) (other : String) :
    (s.start (reading i) other).Tells reading name := by
  have hstart : ∀ t : Timer τ, t.watch.Tells reading →
      (t.mapWatch (·.start (reading i))).watch.Tells reading := by
    rintro ⟨w, below⟩ ht
    exact ht.start i
  unfold Tells Timers.start
  dsimp only
  split
  next hupdate =>
    refine h.updateAt? .new ?_ hupdate
    exact fun _ ht => ht
  next => exact h.upsert .new hstart other

theorem Tells.stop (h : s.Tells reading name) (i : Nat) :
    (s.stop (reading i)).Tells reading name := by
  have hstop : ∀ t : Timer τ, t.watch.Tells reading →
      (t.mapWatch (·.stop (reading i))).watch.Tells reading := by
    rintro ⟨w, below⟩ ht
    exact ht.stop i
  unfold Tells Timers.stop
  split
  next hupdate => exact h.updateAt? .new hstop hupdate
  next => exact h

theorem Tells.suspend (h : s.Tells reading name) (i : Nat) :
    (s.suspend (reading i)).Tells reading name := by
  unfold Tells Timers.suspend
  rw [Timer.suspendAll_eq]
  refine h.map ?_
  rintro ⟨w, below⟩ ht
  rw [Timer.suspend]
  split
  · exact Stopwatch.Tells.suspend ht i
  · exact ht

theorem Tells.resume (h : s.Tells reading name) (i : Nat) :
    (s.resume (reading i)).Tells reading name := by
  unfold Tells Timers.resume
  rw [Timer.resumeAll_eq]
  refine h.map ?_
  rintro ⟨w, below⟩ ht
  rw [Timer.resume]
  split
  · exact Stopwatch.Tells.start ht i
  · exact ht

theorem Tells.elapsed (h : s.Tells reading name) (i : Nat) :
    Clock.Span reading (s.elapsed (reading i) name) := by
  unfold Timers.elapsed
  cases hlookup : s.timers.lookup name with
  | none => exact .nothing
  | some t => exact (h t hlookup).elapsed i

end Timers

end NonlinearOpt
