import Mathlib
import NonlinearOpt.Proofs.Timing.Paths

/-!
The stack of active timers. The active timers lie on one path of the tree, and everything beside and
below that path is idle. So the tree is told by the stopwatches along the path, and each operation
by what it does to them: a start pushes, a stop pops, a pause goes down the stack as far as it
changes something.
-/

namespace NonlinearOpt

variable {τ : Type}

namespace Timer

/-- The active timers, from the outermost inwards, are those of the stack. All others are idle. -/
def Along : List (String × Stopwatch τ) → List (String × Timer τ) → Prop
  | [], ts => ∀ e ∈ ts, e.2.Idle
  | (name, w) :: stack, ts =>
    w.started.isSome ∧ (∃ below, ts.lookup name = some (node w below) ∧ Along stack below) ∧
      ∀ e ∈ ts, e.1 ≠ name → e.2.Idle

section Reading

variable {name : String} {path : List String} {w : Stopwatch τ} {t : Timer τ}
  {front back stack : List (String × Stopwatch τ)} {ts : List (String × Timer τ)}

theorem Along.watch? (h : Along (front ++ (name, w) :: back) ts) :
    watch? (front.map Prod.fst ++ [name]) ts = some w ∧ w.started.isSome := by
  induction front generalizing ts with
  | nil =>
    obtain ⟨hstarted, ⟨below, hlookup, -⟩, -⟩ := h
    exact ⟨by simp [watch?_cons, hlookup], hstarted⟩
  | cons e front ih =>
    obtain ⟨-, ⟨below, hlookup, hbelow⟩, -⟩ := h
    obtain ⟨hwatch, hstarted⟩ := ih hbelow
    refine ⟨?_, hstarted⟩
    rw [List.map_cons, List.cons_append, watch?_cons, hlookup]
    simpa using hwatch

theorem Along.idle (h : Along stack ts) (hfind : find? path ts = some t)
    (hpath : ¬ path <+: stack.map Prod.fst) : t.Idle := by
  induction path generalizing stack ts with
  | nil => cases hfind
  | cons name path ih =>
    obtain ⟨u, hlookup, hu⟩ := Option.bind_eq_some_iff.mp hfind
    have hmem := mem_of_lookup hlookup
    -- a timer below an idle one is beside the empty stack
    have hdeeper : ∀ stack, Along stack u.children → ¬ path <+: stack.map Prod.fst →
        path.isEmpty = false → t.Idle := fun stack hbelow hnot hne =>
      ih hbelow (by simpa [hne] using hu) hnot
    have hidle : u.Idle → t.Idle := by
      intro hu'
      cases hpath' : path.isEmpty with
      | true =>
        obtain rfl : u = t := by simpa [hpath'] using hu
        exact hu'
      | false =>
        refine hdeeper [] hu'.of_mem (fun hstarts => ?_) hpath'
        rw [List.map_nil, List.prefix_nil] at hstarts
        simp [hstarts] at hpath'
    cases stack with
    | nil => exact hidle (h _ hmem)
    | cons e stack =>
      obtain ⟨first, w⟩ := e
      obtain ⟨-, ⟨below, hfirst, hbelow⟩, hbeside⟩ := h
      by_cases hname : name = first
      · subst hname
        obtain rfl : node w below = u := Option.some.inj (hfirst.symm.trans hlookup)
        have hnot : ¬ path <+: stack.map Prod.fst := fun hstarts =>
          hpath (List.cons_prefix_cons.mpr ⟨rfl, hstarts⟩)
        refine hdeeper stack hbelow hnot ?_
        cases path with
        | nil => exact absurd (List.nil_prefix) hnot
        | cons _ _ => rfl
      · exact hidle (hbeside _ hmem hname)

theorem exists_of_prefix (hne : path ≠ []) (h : path <+: stack.map Prod.fst) :
    ∃ front name w back, stack = front ++ (name, w) :: back ∧
      path = front.map Prod.fst ++ [name] := by
  obtain ⟨rest, hrest⟩ := h
  obtain ⟨kept, back, rfl, rfl, -⟩ := List.append_eq_map_iff.mp hrest
  obtain hnil | ⟨front, e, rfl⟩ := List.eq_nil_or_concat kept
  · simp [hnil] at hne
  · exact ⟨front, e.1, e.2, back, by simp, by simp⟩

theorem find?_isSome (ts : List (String × Timer τ)) (path : List String) :
    (find? path ts).isSome = (Timer.watch? path ts).isSome := by
  rw [Timer.watch?, Option.isSome_map]

theorem Along.started_iff (h : Along stack ts) (hfind : find? path ts = some t) :
    t.watch.started.isSome ↔ path <+: stack.map Prod.fst := by
  constructor
  · intro hstarted
    by_contra hpath
    obtain ⟨hnone, -, -⟩ := h.idle hfind hpath
    rw [watch_node, hnone] at hstarted
    cases hstarted
  · intro hpath
    have hne : path ≠ [] := by
      rintro rfl
      cases hfind
    obtain ⟨front, name, w, back, rfl, rfl⟩ := exists_of_prefix hne hpath
    obtain ⟨hwatch, hstarted⟩ := h.watch?
    rw [Timer.watch?, hfind] at hwatch
    rwa [Option.some.inj hwatch]

theorem Along.resolves (h : Along stack ts) (hne : path ≠ [])
    (hpath : path <+: stack.map Prod.fst) :
    (find? path ts).isSome := by
  obtain ⟨front, name, w, back, rfl, rfl⟩ := exists_of_prefix hne hpath
  rw [find?_isSome, h.watch?.1]
  rfl

end Reading

section Changing

variable [Zero τ] {name : String} {w : Stopwatch τ} {f : Timer τ → Timer τ}
  {front back stack : List (String × Stopwatch τ)} {ts : List (String × Timer τ)}

theorem beside_upsert (h : ∀ e ∈ ts, e.1 ≠ name → e.2.Idle) :
    ∀ e ∈ upsert name f ts, e.1 ≠ name → e.2.Idle := by
  intro e he hne
  rcases mem_upsert he with hmem | rfl
  · exact h e hmem hne
  · exact absurd rfl hne

theorem Along.updateAt? {P : List (String × Stopwatch τ) → Prop}
    (h : Along (front ++ (name, w) :: back) ts) (hnames : Distinct ts)
    (hend : ∀ ts, Distinct ts → Along ((name, w) :: back) ts →
      ∃ rest, P rest ∧ Along rest (upsert name f ts)) :
    ∃ rest ts', P rest ∧ updateAt? f (front.map Prod.fst ++ [name]) ts = some ts' ∧
      Along (front ++ rest) ts' := by
  induction front generalizing ts with
  | nil =>
    obtain ⟨rest, hrest, hchanged⟩ := hend ts hnames h
    obtain ⟨-, ⟨below, hlookup, -⟩, -⟩ := h
    exact ⟨rest, _, hrest, by simp [Timer.updateAt?, hlookup], hchanged⟩
  | cons e front ih =>
    obtain ⟨first, v⟩ := e
    obtain ⟨hstarted, ⟨below, hlookup, hbelow⟩, hbeside⟩ := h
    obtain ⟨-, hdeep⟩ := hnames
    obtain ⟨rest, below', hrest, hupdate, halong⟩ := ih hbelow (hdeep _ (mem_of_lookup hlookup))
    refine ⟨rest, upsert first (fun t => node t.watch below') ts, hrest, ?_, hstarted,
      ⟨below', ?_, halong⟩, beside_upsert hbeside⟩
    · simp [Timer.updateAt?, hlookup, hupdate]
    · rw [lookup_upsert, hlookup]
      rfl

theorem Along.start (h : Along [] ts) (now : τ) (name : String) :
    ∃ w : Stopwatch τ, Along [(name, w.start now)] (upsert name (mapWatch (·.start now)) ts) := by
  have hidle : ((ts.lookup name).getD new).Idle := by
    cases hlookup : ts.lookup name with
    | none => exact idle_new
    | some t => exact h _ (mem_of_lookup hlookup)
  refine ⟨((ts.lookup name).getD new).watch, rfl, ⟨_, ?_, hidle.of_mem⟩,
    beside_upsert fun e he _ => h e he⟩
  rw [lookup_upsert]
  cases (ts.lookup name).getD new
  rfl

theorem Along.stop [Add τ] [Sub τ] (h : Along [(name, w)] ts) (hnames : Distinct ts) (now : τ) :
    Along [] (upsert name (mapWatch (·.stop now)) ts) := by
  obtain ⟨-, ⟨below, hlookup, hbelow⟩, hbeside⟩ := h
  obtain ⟨hnodup, -⟩ := hnames
  intro e he
  by_cases hname : e.1 = name
  · have hfound : (upsert name (mapWatch (·.stop now)) ts).lookup name = some e.2 :=
      lookup_of_mem (nodup_upsert hnodup) (hname ▸ he)
    rw [lookup_upsert, hlookup, Option.getD_some] at hfound
    rw [← Option.some.inj hfound]
    exact .node rfl rfl hbelow
  · exact beside_upsert hbeside e he hname

theorem Along.forget (h : Along stack ts) (hname : (stack.map Prod.fst).head? ≠ some name) :
    Along stack (upsert name (fun _ => new) ts) := by
  cases stack with
  | nil =>
    intro e he
    rcases mem_upsert he with hmem | rfl
    · exact h e hmem
    · exact idle_new
  | cons e stack =>
    obtain ⟨first, w⟩ := e
    obtain ⟨hstarted, ⟨below, hlookup, hbelow⟩, hbeside⟩ := h
    have hne : first ≠ name := by simpa using hname
    refine ⟨hstarted, ⟨below, (lookup_upsert_of_ne hne).trans hlookup, hbelow⟩,
      fun e he hother => ?_⟩
    rcases mem_upsert he with hmem | rfl
    · exact hbeside e hmem hother
    · exact idle_new

end Changing

section Pausing

/-- Changes the stopwatches of a stack from the outermost inwards, up to the first that is not of
the given kind. -/
def sweep (kind : Stopwatch τ → Bool) (f : Stopwatch τ → Stopwatch τ) :
    List (String × Stopwatch τ) → List (String × Stopwatch τ)
  | [] => []
  | (name, w) :: stack =>
    if kind w then (name, f w) :: sweep kind f stack else (name, w) :: stack

theorem map_fst_sweep (kind : Stopwatch τ → Bool) (f : Stopwatch τ → Stopwatch τ)
    (stack : List (String × Stopwatch τ)) :
    (sweep kind f stack).map Prod.fst = stack.map Prod.fst := by
  induction stack with
  | nil => rfl
  | cons e stack ih =>
    rw [sweep]
    split <;> simp [ih]

variable {stack : List (String × Stopwatch τ)} {ts : List (String × Timer τ)}

/-- An operation that goes down the tree through the timers it changes, and leaves those that are
not started, goes down the stack. -/
theorem Along.sweep {kind : Stopwatch τ → Bool} {f : Stopwatch τ → Stopwatch τ}
    {op : Timer τ → Timer τ} {all : List (String × Timer τ) → List (String × Timer τ)}
    (hop : ∀ w ts, op (node w ts) = if kind w then node (f w) (all ts) else node w ts)
    (hall : ∀ ts, all ts = ts.map fun e => (e.1, op e.2))
    (hstarted : ∀ w, kind w → (f w).started.isSome)
    (hidle : ∀ t : Timer τ, t.Idle → op t = t) (h : Along stack ts) :
    Along (Timer.sweep kind f stack) (all ts) := by
  -- what is idle stays idle, as it is not changed
  have hkeeps : ∀ t : Timer τ, t.Idle → (op t).Idle := fun t ht => (hidle t ht).symm ▸ ht
  induction stack generalizing ts with
  | nil =>
    intro e he
    rw [hall] at he
    obtain ⟨old, hold, rfl⟩ := List.mem_map.mp he
    exact hkeeps _ (h old hold)
  | cons e stack ih =>
    obtain ⟨name, w⟩ := e
    obtain ⟨hw, ⟨below, hlookup, hbelow⟩, hbeside⟩ := h
    have hlookup' : (all ts).lookup name = some (op (node w below)) := by
      rw [hall, lookup_map, hlookup]
      rfl
    have hbeside' : ∀ e ∈ all ts, e.1 ≠ name → e.2.Idle := by
      intro e he hne
      rw [hall] at he
      obtain ⟨old, hold, rfl⟩ := List.mem_map.mp he
      exact hkeeps _ (hbeside old hold hne)
    rw [Timer.sweep]
    cases hkind : kind w with
    | true =>
      rw [hop, if_pos hkind] at hlookup'
      exact ⟨hstarted w hkind, ⟨all below, hlookup', ih hbelow⟩, hbeside'⟩
    | false =>
      rw [hop, if_neg (by simp [hkind])] at hlookup'
      exact ⟨hw, ⟨below, hlookup', hbelow⟩, hbeside'⟩

theorem Along.suspendAll [Add τ] [Sub τ] (h : Along stack ts) (now : τ) :
    Along (Timer.sweep (·.isRunning) (·.suspend now) stack) (suspendAll now ts) := by
  refine h.sweep (fun w ts => ?_) (suspendAll_eq now) (fun w hw => ?_) fun t ht => ht.suspend now
  · rw [Timer.suspend]
  · obtain ⟨started, banked, _ | _⟩ := w
    · exact hw
    · cases hw

theorem Along.resumeAll (h : Along stack ts) (now : τ) :
    Along (Timer.sweep (·.isPaused) (·.resume now) stack) (resumeAll now ts) :=
  h.sweep (fun w ts => by rw [Timer.resume]) (resumeAll_eq now) (fun _ _ => rfl)
    fun _ ht => ht.resume now

end Pausing

end Timer

namespace Timers

inductive Action (τ : Type) where
  | start (now : τ) (name : String)
  | stop (now : τ)
  | suspend (now : τ)
  | resume (now : τ)
  | reset (name : String)

namespace Action

def track (path : List String) : Action τ → List String
  | start _ name => path ++ [name]
  | stop _ => path.dropLast
  | suspend _ | resume _ | reset _ => path

def Allowed (path : List String) : Action τ → Prop
  | reset name => path.head? ≠ some name
  | start .. | stop _ | suspend _ | resume _ => True

end Action

def unfinished (actions : List (Action τ)) : List String := actions.foldl Action.track []

def Admissible : List String → List (Action τ) → Prop
  | _, [] => True
  | path, a :: actions => a.Allowed path ∧ Admissible (a.track path) actions

/-- Properly nested starts and stops, with any pauses and resets between them. -/
inductive Nested : List (Action τ) → Prop
  | nil : Nested []
  | block {now later : τ} {name : String} {inner rest : List (Action τ)} (hinner : Nested inner)
      (hrest : Nested rest) : Nested (.start now name :: inner ++ .stop later :: rest)
  | suspend {now : τ} {rest : List (Action τ)} (hrest : Nested rest) : Nested (.suspend now :: rest)
  | resume {now : τ} {rest : List (Action τ)} (hrest : Nested rest) : Nested (.resume now :: rest)
  | reset {name : String} {rest : List (Action τ)} (hrest : Nested rest) :
      Nested (.reset name :: rest)

section Histories

variable {a : Action τ} {path : List String} {actions block rest : List (Action τ)}

theorem unfinished_concat (actions : List (Action τ)) (a : Action τ) :
    unfinished (actions ++ [a]) = a.track (unfinished actions) := by
  rw [unfinished, List.foldl_concat, unfinished]

theorem Nested.append (h : Nested block) (hrest : Nested rest) : Nested (block ++ rest) := by
  induction h with
  | nil => exact hrest
  | @block now later name inner rest' hinner _ _ ih => simpa using Nested.block hinner ih
  | suspend _ ih => exact .suspend ih
  | resume _ ih => exact .resume ih
  | reset _ ih => exact .reset ih

theorem Nested.track (h : Nested block) (path : List String) :
    block.foldl Action.track path = path := by
  induction h generalizing path with
  | nil => rfl
  | block _ _ ihinner ihrest =>
    rw [List.cons_append, List.foldl_cons, List.foldl_append, ihinner, List.foldl_cons,
      Action.track, Action.track, List.dropLast_concat, ihrest]
  | suspend _ ih => exact ih path
  | resume _ ih => exact ih path
  | reset _ ih => exact ih path

theorem exists_last_start (h : unfinished actions ≠ []) :
    ∃ earlier now name block, actions = earlier ++ .start now name :: block ∧ Nested block ∧
      unfinished actions = unfinished earlier ++ [name] := by
  induction hn : actions.length using Nat.strongRecOn generalizing actions with
  | ind n ih =>
    obtain rfl | ⟨actions, a, rfl⟩ := List.eq_nil_or_concat actions
    · exact absurd rfl h
    have hshorter : actions.length < n := by simp [← hn]
    rw [List.concat_eq_append, unfinished_concat] at h ⊢
    -- an action that keeps what is unfinished goes into the block
    have hkeep : ∀ b : Action τ, Nested [b] → unfinished actions ≠ [] →
        ∃ earlier now name block, actions ++ [b] = earlier ++ .start now name :: block ∧
          Nested block ∧ unfinished actions = unfinished earlier ++ [name] := by
      intro b hb hne
      obtain ⟨earlier, now, name, block, rfl, hblock, hlast⟩ := ih _ hshorter hne rfl
      exact ⟨earlier, now, name, block ++ [b], by simp, hblock.append hb, hlast⟩
    cases a with
    | start now name => exact ⟨actions, now, name, [], rfl, .nil, rfl⟩
    | suspend now => exact hkeep _ (.suspend .nil) h
    | resume now => exact hkeep _ (.resume .nil) h
    | reset name => exact hkeep _ (.reset .nil) h
    | stop later =>
      have hne : unfinished actions ≠ [] := by
        intro hnil
        rw [hnil] at h
        exact h rfl
      obtain ⟨earlier, now, name, block, rfl, hblock, hlast⟩ := ih _ hshorter hne rfl
      have hpopped : Action.track (unfinished (earlier ++ .start now name :: block)) (.stop later) =
          unfinished earlier := by
        rw [hlast, Action.track, List.dropLast_concat]
      rw [hpopped] at h ⊢
      have hearlier : earlier.length < n := by
        refine Nat.lt_of_le_of_lt ?_ hshorter
        simp
      obtain ⟨first, before, outer, within, rfl, hwithin, houter⟩ := ih _ hearlier h rfl
      refine ⟨first, before, outer, within ++ (.start now name :: block ++ [.stop later]), by simp,
        hwithin.append (.block hblock .nil), houter⟩

end Histories

section Runs

variable [Zero τ] [Add τ] [Sub τ]

def act (s : Timers τ) : Action τ → Timers τ
  | .start now name => s.start now name
  | .stop now => s.stop now
  | .suspend now => s.suspend now
  | .resume now => s.resume now
  | .reset name => s.reset name

def run (s : Timers τ) (actions : List (Action τ)) : Timers τ := actions.foldl act s

/-- What an action does to the stack. The stopwatch that is pushed may have been used before. -/
inductive Action.Moves :
    Action τ → List (String × Stopwatch τ) → List (String × Stopwatch τ) → Prop
  | start (now : τ) (name : String) (w : Stopwatch τ) (stack : List (String × Stopwatch τ)) :
      Moves (.start now name) stack (stack ++ [(name, w.start now)])
  | stop (now : τ) (stack : List (String × Stopwatch τ)) : Moves (.stop now) stack stack.dropLast
  | suspend (now : τ) (stack : List (String × Stopwatch τ)) :
      Moves (.suspend now) stack (Timer.sweep (·.isRunning) (·.suspend now) stack)
  | resume (now : τ) (stack : List (String × Stopwatch τ)) :
      Moves (.resume now) stack (Timer.sweep (·.isPaused) (·.resume now) stack)
  | reset (name : String) (stack : List (String × Stopwatch τ)) : Moves (.reset name) stack stack

structure Stacked (stack : List (String × Stopwatch τ)) (s : Timers τ) : Prop where
  active : s.active = stack.map Prod.fst
  distinct : Timer.Distinct s.timers
  along : Timer.Along stack s.timers

variable {stack stack' : List (String × Stopwatch τ)} {s : Timers τ}

omit [Zero τ] [Add τ] [Sub τ] in
theorem stacked_new : Stacked [] (new : Timers τ) :=
  ⟨rfl, ⟨List.nodup_nil, by simp [new]⟩, by simp [Timer.Along, new]⟩

omit [Add τ] [Sub τ] in
theorem Stacked.start (h : Stacked stack s) (now : τ) (name : String) :
    ∃ w : Stopwatch τ, Stacked (stack ++ [(name, w.start now)]) (s.start now name) := by
  obtain ⟨hactive, hdistinct, halong⟩ := h
  have hgo : ∀ ts, Timer.Distinct ts →
      Timer.Distinct (Timer.upsert name (Timer.mapWatch (·.start now)) ts) :=
    fun ts hts => hts.upsert fun t ht => by cases t; exact ht
  obtain rfl | ⟨front, ⟨last, v⟩, rfl⟩ := List.eq_nil_or_concat stack
  · obtain ⟨w, hw⟩ := halong.start now name
    have hstart : s.start now name =
        ⟨[name], Timer.upsert name (Timer.mapWatch (·.start now)) s.timers⟩ := by
      simp [Timers.start, hactive, Timer.updateAt?]
    rw [hstart]
    exact ⟨w, rfl, hgo _ hdistinct, hw⟩
  · rw [List.concat_eq_append] at hactive halong ⊢
    have hpath : s.active = front.map Prod.fst ++ [last] := by simp [hactive]
    -- at the end of the stack the new timer is started below the last one
    have hend : ∀ ts, Timer.Distinct ts → Timer.Along [(last, v)] ts →
        ∃ rest, (∃ w : Stopwatch τ, rest = [(last, v), (name, w.start now)]) ∧
          Timer.Along rest (Timer.upsert last (fun t => .node t.watch
            (Timer.upsert name (Timer.mapWatch (·.start now)) t.children)) ts) := by
      intro ts _ hlast
      obtain ⟨hstarted, ⟨below, hlookup, hbelow⟩, hbeside⟩ := hlast
      obtain ⟨w, hw⟩ := hbelow.start now name
      refine ⟨_, ⟨w, rfl⟩, hstarted, ⟨_, ?_, hw⟩, Timer.beside_upsert hbeside⟩
      rw [Timer.lookup_upsert, hlookup]
      rfl
    obtain ⟨rest, ts', ⟨w, rfl⟩, hupdate, halong'⟩ := halong.updateAt? hdistinct hend
    have hstart : s.start now name = ⟨s.active ++ [name], ts'⟩ := by
      rw [Timers.start, hpath, hupdate]
    rw [hstart]
    refine ⟨w, by simp [hpath], hdistinct.updateAt? (fun t ht => ?_) hupdate,
      by simpa using halong'⟩
    exact hgo _ ht

theorem Stacked.stop (h : Stacked stack s) (now : τ) : Stacked stack.dropLast (s.stop now) := by
  obtain ⟨hactive, hdistinct, halong⟩ := h
  obtain rfl | ⟨front, ⟨last, v⟩, rfl⟩ := List.eq_nil_or_concat stack
  · have hstop : s.stop now = s := by simp [Timers.stop, hactive, Timer.updateAt?]
    rw [hstop]
    exact ⟨hactive, hdistinct, halong⟩
  · rw [List.concat_eq_append] at hactive halong ⊢
    have hpath : s.active = front.map Prod.fst ++ [last] := by simp [hactive]
    obtain ⟨rest, ts', rfl, hupdate, halong'⟩ := halong.updateAt? (P := (· = [])) hdistinct
      fun ts hts hlast => ⟨[], rfl, hlast.stop hts now⟩
    have hstop : s.stop now = ⟨s.active.dropLast, ts'⟩ := by
      rw [Timers.stop, hpath, hupdate]
    rw [hstop, List.dropLast_concat]
    refine ⟨by simp [hpath], hdistinct.updateAt? (fun t ht => ?_) hupdate, by simpa using halong'⟩
    cases t
    exact ht

theorem Stacked.act {a : Action τ} (h : Stacked stack s) (hallowed : a.Allowed s.active) :
    ∃ stack', a.Moves stack stack' ∧ Stacked stack' (s.act a) := by
  cases a with
  | start now name =>
    obtain ⟨w, hw⟩ := h.start now name
    exact ⟨_, .start now name w stack, hw⟩
  | stop now => exact ⟨_, .stop now stack, h.stop now⟩
  | suspend now =>
    refine ⟨_, .suspend now stack, ?_, h.distinct.suspendAll now, h.along.suspendAll now⟩
    rw [Timer.map_fst_sweep]
    exact h.active
  | resume now =>
    refine ⟨_, .resume now stack, ?_, h.distinct.resumeAll now, h.along.resumeAll now⟩
    rw [Timer.map_fst_sweep]
    exact h.active
  | reset name =>
    have hname : (stack.map Prod.fst).head? ≠ some name := h.active ▸ hallowed
    refine ⟨_, .reset name stack, h.active, ?_, h.along.forget hname⟩
    exact h.distinct.upsert fun _ _ => ⟨List.nodup_nil, by simp [Timer.new]⟩

omit [Zero τ] in
theorem Action.Moves.names {a : Action τ} (h : a.Moves stack stack') :
    stack'.map Prod.fst = a.track (stack.map Prod.fst) := by
  cases h with
  | start => simp [Action.track]
  | stop => simp [Action.track, List.map_dropLast]
  | suspend => exact Timer.map_fst_sweep ..
  | resume => exact Timer.map_fst_sweep ..
  | reset => rfl

theorem Stacked.run {P : List (String × Stopwatch τ) → Prop}
    (hstep : ∀ (a : Action τ) (stack stack' : List (String × Stopwatch τ)),
      a.Moves stack stack' → P stack → P stack')
    {actions : List (Action τ)} (h : Stacked stack s) (hP : P stack)
    (hallowed : Admissible s.active actions) :
    ∃ stack', P stack' ∧ stack'.map Prod.fst = actions.foldl Action.track s.active ∧
      Stacked stack' (s.run actions) := by
  induction actions generalizing stack s with
  | nil => exact ⟨stack, hP, h.active.symm, h⟩
  | cons a actions ih =>
    obtain ⟨hfirst, hrest⟩ := hallowed
    obtain ⟨stack', hmoves, h'⟩ := h.act hfirst
    have hactive : (s.act a).active = a.track s.active := by
      rw [h'.active, hmoves.names, h.active]
    obtain ⟨last, hlast, hnames, hstacked⟩ := ih h' (hstep a stack stack' hmoves hP)
      (hactive ▸ hrest)
    exact ⟨last, hlast, by rw [hnames, hactive, List.foldl_cons], hstacked⟩

end Runs

section Discipline

/-- The active timers are those on a path of the tree, and no others are started. -/
structure Disciplined (path : List String) (s : Timers τ) : Prop where
  active : s.active = path
  distinct : ∀ (other : List String) (t : Timer τ),
    Timer.Kept t other s.timers ↔ Timer.find? other s.timers = some t
  resolves : ∀ other : List String, other ≠ [] → other <+: path →
    (Timer.find? other s.timers).isSome
  started : ∀ (other : List String) (t : Timer τ), Timer.Kept t other s.timers →
    (t.watch.started.isSome ↔ other <+: path)

structure Pops [Add τ] [Sub τ] (now : τ) (path : List String) (s s' : Timers τ) : Prop where
  active : s'.active = path.dropLast
  watch : ∀ other : List String, Timer.watch? other s'.timers =
    if other = path then (Timer.watch? other s.timers).map (·.stop now)
    else Timer.watch? other s.timers

variable {stack : List (String × Stopwatch τ)} {s : Timers τ}

theorem Stacked.disciplined (h : Stacked stack s) : Disciplined (stack.map Prod.fst) s where
  active := h.active
  distinct _ _ := Timer.kept_iff_find? h.distinct
  resolves _ hne hpath := h.along.resolves hne hpath
  started _ _ hkept := h.along.started_iff ((Timer.kept_iff_find? h.distinct).mp hkept)

variable [Zero τ] [Add τ] [Sub τ]

theorem Disciplined.pops {path : List String} (h : Disciplined path s) (hne : path ≠ []) (now : τ) :
    Pops now path s (s.stop now) := by
  obtain ⟨t, hfind⟩ := Option.isSome_iff_exists.mp
    (h.resolves path hne (List.prefix_refl path))
  obtain ⟨ts, hupdate, hwatch⟩ := Timer.updateAt?_mapWatch (·.stop now) hfind
  have hstop : s.stop now = ⟨path.dropLast, ts⟩ := by
    rw [Timers.stop, h.active, hupdate]
  rw [hstop]
  refine ⟨rfl, fun other => ?_⟩
  rw [hwatch]
  split
  · rename_i hsame
    rw [hsame, Timer.watch?, hfind]
    rfl
  · rfl

theorem stop_of_inactive (h : s.active = []) (now : τ) : s.stop now = s := by
  rw [Timers.stop, h]
  rfl

/-- After every history the active timers are the starts that are not finished, each below the one
before it, and no other timer is started. A stop ends the innermost one, which is the last start
that only nested starts and stops have followed; without an active timer it does nothing. So what is
nested leaves the active timers as they were. -/
theorem run_disciplined {actions : List (Action τ)} (h : Admissible [] actions) :
    Disciplined (unfinished actions) (new.run actions) ∧
      (unfinished actions ≠ [] →
        (∀ now : τ, Pops now (unfinished actions) (new.run actions) ((new.run actions).stop now)) ∧
        ∃ earlier now name block, actions = earlier ++ .start now name :: block ∧ Nested block ∧
          unfinished actions = unfinished earlier ++ [name]) ∧
      (unfinished actions = [] → ∀ now : τ, (new.run actions).stop now = new.run actions) ∧
      ∀ block : List (Action τ), Nested block → Admissible (unfinished actions) block →
        ((new.run actions).run block).active = unfinished actions := by
  obtain ⟨stack, -, hnames, hstacked⟩ := stacked_new.run (P := fun _ => True)
    (fun _ _ _ _ _ => trivial) trivial h
  have hunfinished : stack.map Prod.fst = unfinished actions := hnames
  have hdisciplined : Disciplined (unfinished actions) (new.run actions) :=
    hunfinished ▸ hstacked.disciplined
  refine ⟨hdisciplined, fun hne => ⟨hdisciplined.pops hne, exists_last_start hne⟩,
    fun hnil now => stop_of_inactive (hdisciplined.active.trans hnil) now,
    fun block hblock hall => ?_⟩
  obtain ⟨stack', -, hnames', hstacked'⟩ := hstacked.run (P := fun _ => True)
    (fun _ _ _ _ _ => trivial) trivial (hdisciplined.active.symm ▸ hall)
  rw [hstacked'.active, hnames', hblock.track, hdisciplined.active]

/-- A part of what is measured is finished and a pause is over. -/
def measuring : List (Action Nat) :=
  [.reset "solve", .start 0 "solve", .start 1 "factor", .stop 3, .suspend 4, .resume 6,
    .start 7 "factor"]

theorem run_disciplined_measuring :
    Admissible [] measuring ∧ unfinished measuring = ["solve", "factor"] ∧
      Disciplined ["solve", "factor"] (new.run measuring) ∧
      ((new.run measuring).run [.start 8 "solve", .stop 9]).active = ["solve", "factor"] := by
  have hall : Admissible [] measuring := by
    simp [measuring, Admissible, Action.Allowed]
  obtain ⟨hdisciplined, -, -, hnested⟩ := run_disciplined hall
  exact ⟨hall, rfl, hdisciplined, hnested _ (.block .nil .nil)
    (by simp [Admissible, Action.Allowed])⟩

end Discipline

end Timers

end NonlinearOpt
