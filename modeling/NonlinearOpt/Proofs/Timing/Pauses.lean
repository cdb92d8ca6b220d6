import NonlinearOpt.Proofs.Timing.Stack

/-!
Pauses. A pause goes down the stack of active timers as long as they run, and ends at the first that
is suspended already. Suspended timers are outside the running ones on the stack: what is started
during a pause runs below it. So a second pause finds the outermost timer suspended and goes no
further, while the end of a pause reaches all that are suspended.
-/

namespace NonlinearOpt

variable {τ : Type}

namespace Timer

/-- No timer on the stack is suspended below one that runs. -/
structure PausedOutside (stack : List (String × Stopwatch τ)) : Prop where
  started : ∀ e ∈ stack, e.2.started.isSome
  outside : stack.Pairwise fun outer inner => inner.2.suspended → outer.2.suspended

section Stack

variable {kind : Stopwatch τ → Bool} {f : Stopwatch τ → Stopwatch τ}
  {stack : List (String × Stopwatch τ)}

theorem sweep_eq_map (h : ∀ e ∈ stack, kind e.2) :
    sweep kind f stack = stack.map fun e => (e.1, f e.2) := by
  induction stack with
  | nil => rfl
  | cons e stack ih =>
    rw [sweep, if_pos (h e List.mem_cons_self), ih fun e' he' => h e' (List.mem_cons_of_mem _ he')]
    rfl

theorem sweep_eq_self (h : ∀ e ∈ stack.head?, kind e.2 = false) : sweep kind f stack = stack := by
  cases stack with
  | nil => rfl
  | cons e stack => rw [sweep, if_neg (by simp [h e rfl])]

theorem isRunning_iff {w : Stopwatch τ} (h : w.started.isSome) :
    w.isRunning = !w.suspended := by
  obtain ⟨started, banked, _ | _⟩ := w
  · exact h
  · rfl

theorem PausedOutside.running (h : PausedOutside stack)
    (hfirst : ∀ e ∈ stack.head?, e.2.suspended = false) : ∀ e ∈ stack, e.2.suspended = false := by
  cases stack with
  | nil => simp
  | cons e stack =>
    have hhead : e.2.suspended = false := hfirst e rfl
    intro e' he'
    rcases List.mem_cons.mp he' with rfl | hmem
    · exact hhead
    · have houter := (List.pairwise_cons.mp h.outside).1 e' hmem
      rw [hhead] at houter
      simpa using houter

theorem PausedOutside.of_all (paused : Bool) (hstarted : ∀ e ∈ stack, e.2.started.isSome)
    (h : ∀ e ∈ stack, e.2.suspended = paused) : PausedOutside stack := by
  refine ⟨hstarted, List.pairwise_of_forall_mem_list fun e he e' he' => ?_⟩
  rw [h e he, h e' he']
  exact id

/-- A pause suspends all timers of the stack, or finds the outermost one suspended. -/
theorem PausedOutside.suspend [Add τ] [Sub τ] (h : PausedOutside stack) (now : τ) :
    (∃ e ∈ stack.head?, e.2.suspended) ∧
        sweep (·.isRunning) (·.suspend now) stack = stack ∨
      (∀ e ∈ stack.head?, e.2.suspended = false) ∧
        sweep (·.isRunning) (·.suspend now) stack =
          stack.map fun e => (e.1, e.2.suspend now) := by
  by_cases hfirst : ∃ e ∈ stack.head?, e.2.suspended
  · refine .inl ⟨hfirst, sweep_eq_self fun e he => ?_⟩
    obtain ⟨e', he', hsuspended⟩ := hfirst
    obtain rfl : e' = e := Option.some.inj (he'.symm.trans he)
    rw [isRunning_iff (h.started _ (List.mem_of_mem_head? he)), hsuspended]
    rfl
  · have hnone : ∀ e ∈ stack.head?, e.2.suspended = false := by simpa using hfirst
    refine .inr ⟨hnone, sweep_eq_map fun e he => ?_⟩
    rw [isRunning_iff (h.started e he), h.running hnone e he]
    rfl

theorem PausedOutside.resume (h : PausedOutside stack) (now : τ) :
    ∀ e ∈ sweep (·.isPaused) (·.resume now) stack, e.2.started.isSome ∧ e.2.suspended = false := by
  induction stack with
  | nil => simp [sweep]
  | cons e stack ih =>
    obtain ⟨name, w⟩ := e
    have hstarted : w.started.isSome := h.started _ List.mem_cons_self
    have hrest : PausedOutside stack :=
      ⟨fun e he => h.started e (List.mem_cons_of_mem _ he), (List.pairwise_cons.mp h.outside).2⟩
    rw [sweep]
    split
    · intro e he
      rcases List.mem_cons.mp he with rfl | hmem
      · exact ⟨rfl, rfl⟩
      · exact ih hrest e hmem
    · rename_i hkind
      have hsuspended : w.suspended = false := by simpa [Stopwatch.isPaused, hstarted] using hkind
      have hall := h.running fun e he => by
        obtain rfl : (name, w) = e := Option.some.inj he
        exact hsuspended
      exact fun e he => ⟨h.started e he, hall e he⟩

end Stack

end Timer

namespace Timers

section Steps

variable [Zero τ] [Add τ] [Sub τ] {a : Action τ} {stack stack' : List (String × Stopwatch τ)}

omit [Zero τ] in
theorem Action.Moves.pausedOutside (h : a.Moves stack stack') (hstack : Timer.PausedOutside stack) :
    Timer.PausedOutside stack' := by
  cases h with
  | start now name w =>
    refine ⟨fun e he => ?_, ?_⟩
    · rcases List.mem_append.mp he with hold | hnew
      · exact hstack.started e hold
      · obtain rfl := List.mem_singleton.mp hnew
        rfl
    · refine List.pairwise_append.mpr ⟨hstack.outside, List.pairwise_singleton _ _, ?_⟩
      intro e _ e' he' hsuspended
      obtain rfl := List.mem_singleton.mp he'
      cases hsuspended
  | stop now =>
    exact ⟨fun e he => hstack.started e (List.dropLast_subset _ he),
      hstack.outside.sublist (List.dropLast_sublist _)⟩
  | suspend now =>
    rcases hstack.suspend now with ⟨-, hsame⟩ | ⟨-, hall⟩
    · rw [hsame]
      exact hstack
    · rw [hall]
      refine .of_all true (fun e he => ?_) fun e he => ?_
      · obtain ⟨old, hold, rfl⟩ := List.mem_map.mp he
        exact hstack.started old hold
      · obtain ⟨old, -, rfl⟩ := List.mem_map.mp he
        rfl
  | resume now =>
    exact .of_all false (fun e he => (hstack.resume now e he).1)
      fun e he => (hstack.resume now e he).2
  | reset name => exact hstack

end Steps

/-- The outermost active timer is suspended. -/
def Held (s : Timers τ) : Prop :=
  ∃ name t, s.active.head? = some name ∧ s.timers.lookup name = some t ∧ t.watch.suspended = true

section Runs

variable {stack : List (String × Stopwatch τ)} {s : Timers τ}

theorem Stacked.held_iff (h : Stacked stack s) :
    Held s ↔ ∃ e ∈ stack.head?, e.2.suspended = true := by
  obtain ⟨hactive, -, halong⟩ := h
  cases stack with
  | nil => simp [Held, hactive]
  | cons e stack =>
    obtain ⟨-, ⟨below, hlookup, -⟩, -⟩ := halong
    simp [Held, hactive, hlookup]

theorem Stacked.isRunning {path : List String} {t : Timer τ} (h : Stacked stack s)
    (hkept : Timer.Kept t path s.timers) (hruns : t.watch.isRunning = true) :
    path <+: s.active ∧ ∃ e ∈ stack, e.2.isRunning = true := by
  have hfind := (Timer.kept_iff_find? h.distinct).mp hkept
  have hstarted : t.watch.started.isSome := by
    obtain ⟨⟨started, banked, _ | _⟩, ts⟩ := t
    · exact hruns
    · cases hruns
  have hpath := (h.along.started_iff hfind).mp hstarted
  have hne : path ≠ [] := by
    rintro rfl
    cases hfind
  refine ⟨h.active ▸ hpath, ?_⟩
  obtain ⟨front, name, w, back, rfl, rfl⟩ := Timer.exists_of_prefix hne hpath
  have hwatch := h.along.watch?.1
  rw [Timer.watch?, hfind] at hwatch
  exact ⟨(name, w), by simp, Option.some.inj hwatch ▸ hruns⟩

variable [Zero τ] [Add τ] [Sub τ]

omit [Zero τ] in
theorem Stacked.suspend_of_held (h : Stacked stack s) (hheld : Held s) (now : τ) :
    s.suspend now = s := by
  obtain ⟨e, he, hsuspended⟩ := h.held_iff.mp hheld
  obtain ⟨-, ⟨hnames, -⟩, halong⟩ := h
  cases stack with
  | nil => cases he
  | cons first stack =>
    obtain rfl : first = e := Option.some.inj he
    obtain ⟨name, w⟩ := first
    obtain ⟨-, ⟨below, hlookup, -⟩, hbeside⟩ := halong
    have hsame : ∀ e ∈ s.timers, (e.1, e.2.suspend now) = id e := by
      rintro ⟨other, t⟩ hmem
      by_cases hname : other = name
      · subst hname
        obtain rfl : Timer.node w below = t :=
          Option.some.inj (hlookup.symm.trans (Timer.lookup_of_mem hnames hmem))
        rw [Timer.suspend, if_neg]
        · rfl
        · have hpaused : w.suspended = true := hsuspended
          simp [Stopwatch.isRunning, Stopwatch.runningSince, hpaused]
      · rw [(hbeside _ hmem hname).suspend]
        rfl
    rw [suspend, Timer.suspendAll_eq, List.map_congr_left hsame, List.map_id]

/-- A pause leaves no timer running, at any depth, unless the outermost active one is suspended
already; then it does nothing. The end of the pause lets every active timer run. -/
theorem pause_run {actions : List (Action τ)} (h : Admissible [] actions) (now later : τ) :
    (¬ Held (new.run actions) → ∀ (path : List String) (t : Timer τ),
        Timer.Kept t path ((new.run actions).suspend now).timers → t.watch.isRunning = false) ∧
      (Held (new.run actions) → (new.run actions).suspend now = new.run actions) ∧
      ∀ path : List String, path ≠ [] → path <+: (new.run actions).active →
        ∃ t, Timer.Kept t path (((new.run actions).suspend now).resume later).timers ∧
          t.watch.isRunning = true := by
  obtain ⟨stack, hpaused, -, hstacked⟩ := stacked_new.run (P := Timer.PausedOutside)
    (fun _ _ _ => Action.Moves.pausedOutside) ⟨by simp, .nil⟩ h
  obtain ⟨stack₁, hmoves₁, hstacked₁⟩ := hstacked.act (a := .suspend now) trivial
  obtain ⟨stack₂, hmoves₂, hstacked₂⟩ := hstacked₁.act (a := .resume later) trivial
  have hpaused₁ := hmoves₁.pausedOutside hpaused
  refine ⟨fun hfree path t hkept => ?_, fun hheld => hstacked.suspend_of_held hheld now,
    fun path hne hpath => ?_⟩
  · cases hmoves₁
    rcases hpaused.suspend now with ⟨hheld, -⟩ | ⟨-, hall⟩
    · exact absurd (hstacked.held_iff.mpr hheld) hfree
    · by_contra hruns
      obtain ⟨-, e, he, hrunning⟩ := hstacked₁.isRunning hkept (by simpa using hruns)
      rw [hall] at he
      obtain ⟨old, -, rfl⟩ := List.mem_map.mp he
      cases hrunning
  · cases hmoves₂
    have hactive : (new.run actions).active = _ := hstacked₂.active
    obtain ⟨front, name, w, back, hsplit, rfl⟩ := Timer.exists_of_prefix hne (hactive ▸ hpath)
    have hwatch := (hsplit ▸ hstacked₂.along).watch?.1
    obtain ⟨t, hfind, ht⟩ := Option.map_eq_some_iff.mp hwatch
    refine ⟨t, (Timer.kept_iff_find? hstacked₂.distinct).mpr hfind, ?_⟩
    obtain ⟨hstarted, hsuspended⟩ := hpaused₁.resume later (name, w) (hsplit ▸ by simp)
    rw [ht, Timer.isRunning_iff hstarted, hsuspended]
    rfl

theorem pause_run_measuring :
    Admissible [] measuring ∧ ¬ Held (new.run measuring) ∧
      ∀ (path : List String) (t : Timer Nat),
        Timer.Kept t path ((new.run measuring).suspend 8).timers → t.watch.isRunning = false := by
  have hall : Admissible [] measuring := by
    simp [measuring, Admissible, Action.Allowed]
  have hfree : ¬ Held (new.run measuring) := by
    rintro ⟨name, t, hname, hlookup, hsuspended⟩
    obtain rfl : "solve" = name := Option.some.inj hname
    obtain rfl := Option.some.inj hlookup
    cases hsuspended
  exact ⟨hall, hfree, (pause_run hall 8 9).1 hfree⟩

/-- What is started during a pause goes on running in a second one. -/
theorem not_forall_paused :
    ¬ ∀ (actions : List (Action Nat)) (now : Nat) (path : List String) (t : Timer Nat),
      (∀ name, .reset name ∉ actions) → Timer.Kept t path ((new.run actions).suspend now).timers →
        t.watch.isRunning = false := by
  intro h
  have hinner := h [.start 0 "outer", .suspend 1, .start 2 "inner"] 3 ["outer", "inner"]
    (.node ⟨some 2, 0, false⟩ []) (by simp)
    (.deeper List.mem_cons_self (.here List.mem_cons_self))
  cases hinner

end Runs

end Timers

end NonlinearOpt
