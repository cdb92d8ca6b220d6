import NonlinearOpt.Timing.Timers
import Mathlib.Data.List.Basic
import Mathlib.Tactic.Common

namespace NonlinearOpt

variable {τ : Type}

namespace Timer

@[simp]
theorem watch_node (w : Stopwatch τ) (ts : List (String × Timer τ)) : (node w ts).watch = w := rfl

@[simp]
theorem children_node (w : Stopwatch τ) (ts : List (String × Timer τ)) :
    (node w ts).children = ts := rfl

section Names

theorem lookup_map (f : Timer τ → Timer τ) (name : String) (ts : List (String × Timer τ)) :
    (ts.map fun e => (e.1, f e.2)).lookup name = (ts.lookup name).map f := by
  induction ts with
  | nil => rfl
  | cons e ts ih =>
    rw [List.map_cons, List.lookup_cons, List.lookup_cons, ih]
    split <;> rfl

theorem suspendAll_eq [Add τ] [Sub τ] (now : τ) (ts : List (String × Timer τ)) :
    suspendAll now ts = ts.map fun e => (e.1, e.2.suspend now) := by
  induction ts with
  | nil => simp [suspendAll]
  | cons e ts ih =>
    obtain ⟨name, t⟩ := e
    rw [suspendAll, ih, List.map_cons]

theorem resumeAll_eq (now : τ) (ts : List (String × Timer τ)) :
    resumeAll now ts = ts.map fun e => (e.1, e.2.resume now) := by
  induction ts with
  | nil => simp [resumeAll]
  | cons e ts ih =>
    obtain ⟨name, t⟩ := e
    rw [resumeAll, ih, List.map_cons]

variable [Zero τ] {name other : String} {f : Timer τ → Timer τ} {ts : List (String × Timer τ)}

theorem lookup_upsert (name : String) (f : Timer τ → Timer τ) (ts : List (String × Timer τ)) :
    (upsert name f ts).lookup name = some (f ((ts.lookup name).getD new)) := by
  induction ts with
  | nil => simp [upsert]
  | cons e ts ih =>
    obtain ⟨first, t⟩ := e
    rw [upsert]
    split_ifs with h
    · simp [h]
    · rw [List.lookup_cons, List.lookup_cons, beq_eq_false_iff_ne.mpr (Ne.symm h), ih]

theorem lookup_upsert_of_ne (h : other ≠ name) :
    (upsert name f ts).lookup other = ts.lookup other := by
  induction ts with
  | nil => simp [upsert, h]
  | cons e ts ih =>
    obtain ⟨first, t⟩ := e
    rw [upsert]
    split_ifs with hfirst
    · rw [List.lookup_cons, List.lookup_cons, hfirst, beq_eq_false_iff_ne.mpr h]
    · rw [List.lookup_cons, List.lookup_cons, ih]

theorem upsert_upsert (name : String) (f g : Timer τ → Timer τ) (ts : List (String × Timer τ)) :
    upsert name f (upsert name g ts) = upsert name (f ∘ g) ts := by
  induction ts with
  | nil => simp [upsert]
  | cons e ts ih =>
    obtain ⟨first, t⟩ := e
    simp only [upsert]
    split_ifs with h
    · simp [upsert]
    · simp [upsert, h, ih]

theorem mem_upsert {e : String × Timer τ} (h : e ∈ upsert name f ts) :
    e ∈ ts ∨ e = (name, f ((ts.lookup name).getD new)) := by
  induction ts with
  | nil => simpa [upsert] using h
  | cons e' ts ih =>
    obtain ⟨first, t⟩ := e'
    rw [upsert] at h
    split_ifs at h with hname
    · rcases List.mem_cons.mp h with rfl | hmem
      · right
        simp [hname]
      · exact .inl (List.mem_cons_of_mem _ hmem)
    · rcases List.mem_cons.mp h with rfl | hmem
      · exact .inl List.mem_cons_self
      · rcases ih hmem with hold | hnew
        · exact .inl (List.mem_cons_of_mem _ hold)
        · right
          rw [hnew, List.lookup_cons, beq_eq_false_iff_ne.mpr (Ne.symm hname)]

end Names

inductive Idle : Timer τ → Prop
  | node {w : Stopwatch τ} {ts : List (String × Timer τ)} (started : w.started = none)
      (suspended : w.suspended = false) (children : ∀ e ∈ ts, Idle e.2) : Idle (.node w ts)

section Idle

variable {t : Timer τ} {ts : List (String × Timer τ)}

theorem idle_new [Zero τ] : (new : Timer τ).Idle := .node rfl rfl (by simp)

theorem Idle.of_mem (h : t.Idle) : ∀ e ∈ t.children, e.2.Idle := by
  obtain ⟨-, -, hchildren⟩ := h
  exact hchildren

theorem Idle.suspend [Add τ] [Sub τ] (h : t.Idle) (now : τ) : t.suspend now = t := by
  obtain ⟨hstarted, hsuspended, -⟩ := h
  rw [Timer.suspend, if_neg]
  simp [Stopwatch.isRunning, Stopwatch.runningSince, hstarted]

theorem Idle.resume (h : t.Idle) (now : τ) : t.resume now = t := by
  obtain ⟨hstarted, hsuspended, -⟩ := h
  rw [Timer.resume, if_neg]
  simp [Stopwatch.isPaused, hsuspended]

theorem suspendAll_of_idle [Add τ] [Sub τ] (h : ∀ e ∈ ts, e.2.Idle) (now : τ) :
    suspendAll now ts = ts := by
  rw [suspendAll_eq]
  have hmap : (ts.map fun e => (e.1, e.2.suspend now)) = ts.map id :=
    List.map_congr_left fun e he => Prod.ext rfl ((h e he).suspend now)
  rw [hmap, List.map_id]

theorem resumeAll_of_idle (h : ∀ e ∈ ts, e.2.Idle) (now : τ) : resumeAll now ts = ts := by
  rw [resumeAll_eq]
  have hmap : (ts.map fun e => (e.1, e.2.resume now)) = ts.map id :=
    List.map_congr_left fun e he => Prod.ext rfl ((h e he).resume now)
  rw [hmap, List.map_id]

theorem idle_upsert [Zero τ] [Add τ] [Sub τ] {name : String} (h : ∀ e ∈ ts, e.2.Idle)
    (f : Stopwatch τ → Stopwatch τ) (now : τ) :
    ∀ e ∈ upsert name (mapWatch (·.stop now) ∘ mapWatch f) ts, e.2.Idle := by
  intro e he
  rcases mem_upsert he with hmem | rfl
  · exact h e hmem
  · have hlast : ((ts.lookup name).getD new).Idle := by
      cases hlookup : ts.lookup name with
      | none => exact idle_new
      | some t =>
        obtain ⟨before, after, rfl, -⟩ := List.lookup_eq_some_iff.mp hlookup
        exact h (name, t) (by simp)
    revert hlast
    cases (ts.lookup name).getD new with
    | node w below => exact fun hlast => .node rfl rfl hlast.of_mem

end Idle

structure Measures (t : Timer τ) : Prop where
  started : ∃ time, t.watch.started = some time
  suspended : t.watch.suspended = false
  below : ∀ e ∈ t.children, e.2.Idle

section Measures

variable {t : Timer τ}

theorem Idle.start (h : t.Idle) (now : τ) : (t.mapWatch (·.start now)).Measures := by
  obtain ⟨-, -, hchildren⟩ := h
  exact ⟨⟨now, rfl⟩, rfl, hchildren⟩

theorem Measures.stop [Add τ] [Sub τ] (h : t.Measures) (now : τ) :
    (t.mapWatch (·.stop now)).Idle := by
  obtain ⟨w, ts⟩ := t
  exact .node rfl rfl h.below

theorem Measures.pause [Add τ] [Sub τ] (h : t.Measures) (now later : τ) :
    ((t.suspend now).resume later).Measures := by
  obtain ⟨⟨started, banked, suspended⟩, ts⟩ := t
  obtain ⟨⟨time, htime⟩, hsuspended, hbelow⟩ := h
  obtain rfl : started = some time := htime
  obtain rfl : suspended = false := hsuspended
  have hbelow : ∀ e ∈ ts, e.2.Idle := hbelow
  have hsuspend : (Timer.node ⟨some time, banked, false⟩ ts).suspend now =
      .node ⟨some time, banked + (now - time), true⟩ ts := by
    rw [Timer.suspend, suspendAll_of_idle hbelow]
    rfl
  have hresume : (Timer.node ⟨some time, banked + (now - time), true⟩ ts).resume later =
      .node ⟨some later, banked + (now - time), false⟩ ts := by
    rw [Timer.resume, resumeAll_of_idle hbelow]
    rfl
  rw [hsuspend, hresume]
  exact ⟨⟨later, rfl⟩, rfl, hbelow⟩

end Measures

end Timer

namespace Timers

section Parts

/-- The timers other than the given one are as they were, as far as they were idle. -/
def Apart (name : String) (before after : Timers τ) : Prop :=
  ∀ other, other ≠ name → (∀ t, before.timers.lookup other = some t → t.Idle) →
    after.timers.lookup other = before.timers.lookup other

structure Rests (name : String) (before after : Timers τ) : Prop where
  active : after.active = []
  idle : ∃ t, after.timers.lookup name = some t ∧ t.Idle
  apart : Apart name before after

structure Runs (name : String) (before after : Timers τ) : Prop where
  active : after.active = [name]
  measures : ∃ t, after.timers.lookup name = some t ∧ t.Measures
  apart : Apart name before after

variable {name : String} {before s : Timers τ}

theorem Apart.upsert [Zero τ] (h : Apart name before s) (active : List String)
    (f : Timer τ → Timer τ) : Apart name before ⟨active, Timer.upsert name f s.timers⟩ :=
  fun other hne hidle => (Timer.lookup_upsert_of_ne hne).trans (h other hne hidle)

variable [Add τ] [Sub τ]

theorem lookup_pause (s : Timers τ) (name : String) (now later : τ) :
    ((s.suspend now).resume later).timers.lookup name =
      (s.timers.lookup name).map fun t => (t.suspend now).resume later := by
  rw [resume, suspend, Timer.resumeAll_eq, Timer.suspendAll_eq, Timer.lookup_map,
    Timer.lookup_map, Option.map_map]
  rfl

theorem Apart.pause (h : Apart name before s) (now later : τ) :
    Apart name before ((s.suspend now).resume later) := by
  intro other hne hidle
  rw [lookup_pause, h other hne hidle]
  cases hlookup : before.timers.lookup other with
  | none => rfl
  | some t =>
    have ht := hidle t hlookup
    rw [Option.map_some, ht.suspend, ht.resume]

theorem Rests.pause (h : Rests name before s) (now later : τ) :
    Rests name before ((s.suspend now).resume later) := by
  obtain ⟨t, hlookup, ht⟩ := h.idle
  refine ⟨h.active, ⟨t, ?_, ht⟩, h.apart.pause now later⟩
  rw [lookup_pause, hlookup, Option.map_some, ht.suspend, ht.resume]

theorem Runs.pause (h : Runs name before s) (now later : τ) :
    Runs name before ((s.suspend now).resume later) := by
  obtain ⟨t, hlookup, ht⟩ := h.measures
  refine ⟨h.active, ⟨_, ?_, ht.pause now later⟩, h.apart.pause now later⟩
  rw [lookup_pause, hlookup, Option.map_some]

variable [Zero τ]

omit [Add τ] [Sub τ] in
theorem rests_reset (h : s.active = []) (name : String) : Rests name s (s.reset name) :=
  ⟨h, ⟨.new, Timer.lookup_upsert .., Timer.idle_new⟩,
    fun _ hne _ => Timer.lookup_upsert_of_ne hne⟩

omit [Add τ] [Sub τ] in
theorem Rests.start (h : Rests name before s) (now : τ) : Runs name before (s.start now name) := by
  obtain ⟨t, hlookup, ht⟩ := h.idle
  have hstart : s.start now name =
      ⟨[name], Timer.upsert name (Timer.mapWatch (·.start now)) s.timers⟩ := by
    simp [Timers.start, h.active, Timer.updateAt?]
  rw [hstart]
  refine ⟨rfl, ⟨_, Timer.lookup_upsert .., ?_⟩, h.apart.upsert _ _⟩
  rw [hlookup, Option.getD_some]
  exact ht.start now

theorem Runs.stop (h : Runs name before s) (now : τ) : Rests name before (s.stop now) := by
  obtain ⟨t, hlookup, ht⟩ := h.measures
  have hstop : s.stop now =
      ⟨[], Timer.upsert name (Timer.mapWatch (·.stop now)) s.timers⟩ := by
    simp [Timers.stop, h.active, Timer.updateAt?, hlookup]
  rw [hstop]
  refine ⟨rfl, ⟨_, Timer.lookup_upsert .., ?_⟩, h.apart.upsert _ _⟩
  rw [hlookup, Option.getD_some]
  exact ht.stop now

theorem Runs.part (h : Runs name before s) (part : String) (now later : τ) :
    Runs name before ((s.start now part).stop later) := by
  obtain ⟨t, hlookup, ht⟩ := h.measures
  have hstart : s.start now part = ⟨[name, part], Timer.upsert name (fun t =>
      .node t.watch (Timer.upsert part (Timer.mapWatch (·.start now)) t.children)) s.timers⟩ := by
    simp [Timers.start, h.active, Timer.updateAt?, hlookup]
  have hstop : (s.start now part).stop later = ⟨[name], Timer.upsert name (fun t' =>
      .node t'.watch (Timer.upsert part
        (Timer.mapWatch (·.stop later) ∘ Timer.mapWatch (·.start now)) t.children)) s.timers⟩ := by
    rw [hstart]
    simp [Timers.stop, Timer.updateAt?, Timer.lookup_upsert, Timer.upsert_upsert, hlookup,
      Function.comp_def]
  rw [hstop]
  refine ⟨rfl, ⟨_, Timer.lookup_upsert .., ?_⟩, h.apart.upsert _ _⟩
  rw [hlookup, Option.getD_some]
  exact ⟨ht.started, ht.suspended, Timer.idle_upsert ht.below _ _⟩

end Parts

end Timers

end NonlinearOpt
