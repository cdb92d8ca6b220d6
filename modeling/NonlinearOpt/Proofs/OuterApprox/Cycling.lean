import NonlinearOpt.Proofs.OuterApprox.Checks
import NonlinearOpt.Proofs.OuterApprox.Agreement
import NonlinearOpt.Proofs.OuterApprox.Trail

namespace NonlinearOpt.OuterApprox

variable {π α ρ : Type}

namespace Run

section Courses

variable [Scalar α] [MinlpProblem π α] [Rounding α]

/-- What becomes of a search after its last check: a bound or a limit has ended it, or an assignment
that came back, or an error breaks off what follows. -/
inductive Last (look : π → List (List Int)) (t : State π α) :
    Except Error Bool × State π α → Prop
  | decided {u : State π α} (decided : ¬ t.Undecided) (quits : Quits look t u) :
      Last look t (.ok false, u)
  | repeated {u : State π α} (repeats : Repeats look t u) : Last look t (.ok false, u)
  | broken {u : State π α} {e : Error} (passes : Passes look t u) : Last look t (.error e, u)

inductive Course (look : π → List (List Int)) :
    State π α → List (State π α) → Except Error Bool × State π α → Prop
  | ended {s u : State π α} {r : Except Error Bool} (quits : Quits look s u) :
      Course look s [] (r, u)
  | last {s t : State π α} {x : Except Error Bool × State π α} (reaches : Reaches look s t)
      (last : Last look t x) : Course look s [t] x
  | next {s t u : State π α} {ts : List (State π α)} {x : Except Error Bool × State π α}
      (reaches : Reaches look s t) (passes : Passes look t u) (rest : Course look u ts x) :
      Course look s (t :: ts) x

def checks (callbacks : Callbacks π α) (s : State π α) : List (State π α) :=
  if s.config.strategy.isImplemented then
    checksFrom callbacks (s.config.iterationLimit - s.progress.masterIter) s
  else []

variable {look : π → List (List Int)} {callbacks : Callbacks π α} {s : State π α}

theorem course_iterate (h : ShowsTried look callbacks) (fuel : Nat) (s : State π α)
    (hcycling : s.config.cyclingCheck = true) :
    Course look s (checksFrom callbacks fuel s) ((iterate callbacks fuel).run.run s) := by
  induction fuel generalizing s with
  | zero =>
    let t : State π α := { s with events := s.events ++ [.iteration s.progress.masterIter] }
    show Course look s [] ((shouldTerminate false >>= fun _ => pure true : Run π α _).run.run t)
    rw [run_bind]
    by_cases hundecided : t.Undecided
    · obtain ⟨u, hrun, hu⟩ :=
        shouldTerminate_of_unmet look hundecided (Bool.and_false _)
      rw [hrun]
      exact .ended ⟨hu.previous, hu.look, fun hfeasible => hu.condition ▸ hfeasible⟩
    · obtain ⟨u, hrun, hu⟩ := shouldTerminate_of_decided look false hundecided
      rw [hrun]
      exact .ended ⟨hu.previous, hu.look, hu.condition⟩
  | succ fuel ih =>
    rw [iterate_succ_eq, run_bind, checksFrom]
    have happroached := approach_run h.toOverlooks s
    generalize (approach callbacks).run.run s = x at happroached ⊢
    obtain ⟨_ | _ | settled, t⟩ := x
    · cases happroached with
      | ended _ quits => exact .ended quits
    · cases happroached with
      | ended stops => exact absurd rfl stops
      | checked reaches =>
        have hcycling' : t.config.cyclingCheck = true := reaches.config ▸ hcycling
        have hmasters : 1 ≤ t.progress.masterIter := by
          have hcount : t.progress.masterIter = s.progress.masterIter + 1 :=
            congrArg (·.1) reaches.memory
          omega
        have hfinished := finish_run h hcycling' hmasters
        show Course look s (t :: _) ((finish callbacks >>= _ : Run π α Bool).run.run t)
        rw [run_bind]
        generalize (finish callbacks).run.run t = x at hfinished ⊢
        obtain ⟨_ | _ | settled, u⟩ := x
        · cases hfinished with
          | passed _ passes => exact .last reaches (.broken passes)
        · cases hfinished with
          | passed _ passes =>
            exact .next reaches passes (ih u (passes.config ▸ hcycling'))
        · cases hfinished with
          | ended decided quits => exact .last reaches (.decided decided quits)
          | repeated repeats => exact .last reaches (.repeated repeats)
          | passed through => exact absurd rfl (through _)
    · cases happroached with
      | ended _ quits => exact .ended quits

def goesOn (t : State π α) : Bool :=
  match ((shouldTerminate true : Run π α Bool).run.run t).1 with
  | .ok stops => !stops
  | .error _ => false

def remembered (before : Option (List Int)) (ts : List (State π α)) : Option (List Int) :=
  ts.foldl (fun last t => if goesOn t then some t.rounded else last) before

/-- A check finds the assignment of the check before it, and no other criterion is met. -/
def Returns : Option (List Int) → List (State π α) → Prop
  | _, [] => False
  | before, t :: ts => t.Undecided ∧ before = some t.rounded ∨ Returns (some t.rounded) ts

theorem returns_iff (before : Option (List Int)) (ts : List (State π α)) :
    Returns before ts ↔ (∃ u ∈ ts.head?, u.Undecided ∧ before = some u.rounded) ∨
      ∃ t u, [t, u] <:+: ts ∧ u.Undecided ∧ u.rounded = t.rounded := by
  induction ts generalizing before with
  | nil => simp [Returns]
  | cons v ts ih =>
    have hpair (t u : State π α) : [t, u] <:+: v :: ts ↔
        t = v ∧ ts.head? = some u ∨ [t, u] <:+: ts := by
      rw [List.infix_cons_iff, List.cons_prefix_cons]
      cases ts with
      | nil => simp
      | cons w ts =>
        simp only [List.cons_prefix_cons, List.nil_prefix, and_true, List.head?_cons,
          Option.some.injEq]
        rw [eq_comm (a := w)]
    rw [Returns, ih]
    simp only [List.head?_cons, Option.mem_some_iff, exists_eq_left', hpair]
    constructor
    · rintro (hfirst | ⟨u, hu, hundecided, hsame⟩ | ⟨t, u, hinfix, hu⟩)
      · exact .inl hfirst
      · exact .inr ⟨v, u, .inl ⟨rfl, hu⟩, hundecided, (Option.some.inj hsame).symm⟩
      · exact .inr ⟨t, u, .inr hinfix, hu⟩
    · rintro (hfirst | ⟨t, u, ⟨rfl, hu⟩ | hinfix, hundecided, hsame⟩)
      · exact .inl hfirst
      · exact .inr (.inl ⟨u, hu, hundecided, by rw [hsame]⟩)
      · exact .inr (.inr ⟨t, u, hinfix, hundecided, hsame⟩)

section Properties

variable {ts : List (State π α)} {x : Except Error Bool × State π α} {t u : State π α}

omit [Scalar α] [MinlpProblem π α] [Rounding α] in
theorem Reaches.masterIter {look : π → ρ} (h : Reaches look s t) :
    t.progress.masterIter = s.progress.masterIter + 1 :=
  congrArg (·.1) h.memory

omit [Scalar α] [MinlpProblem π α] [Rounding α] in
theorem Reaches.previous {look : π → ρ} (h : Reaches look s t) :
    t.progress.previousAssignment = s.progress.previousAssignment :=
  congrArg (·.2.1) h.memory

omit [Scalar α] [MinlpProblem π α] [Rounding α] in
theorem Reaches.condition {look : π → ρ} (h : Reaches look s t) :
    t.progress.results.condition = s.progress.results.condition :=
  congrArg (·.2.2.2) h.memory

theorem Passes.masterIter (h : Passes look t u) :
    u.progress.masterIter = t.progress.masterIter :=
  congrArg (·.1) h.memory

theorem Passes.previous (h : Passes look t u) :
    u.progress.previousAssignment = some t.rounded :=
  congrArg (·.2.1) h.memory

theorem Passes.condition (h : Passes look t u) :
    u.progress.results.condition = t.progress.results.condition :=
  congrArg (·.2.2.2) h.memory

theorem Course.masterIter (h : Course look s ts x) {k : Nat} (ht : ts[k]? = some t) :
    t.progress.masterIter = s.progress.masterIter + k + 1 := by
  induction h generalizing k with
  | ended => cases ht
  | last reaches =>
    obtain ⟨hk, rfl⟩ := List.getElem?_eq_some_iff.mp ht
    obtain rfl : k = 0 := by simpa using hk
    exact reaches.masterIter
  | next reaches passes _ ih =>
    cases k with
    | zero =>
      obtain rfl := Option.some.inj ht
      exact reaches.masterIter
    | succ k =>
      rw [ih ht, passes.masterIter, reaches.masterIter]
      omega

theorem Course.feasible_iff (h : Course look s ts x)
    (hcondition : s.progress.results.condition ≠ .feasible) :
    (x.2.progress.results.condition = .feasible ↔ Returns s.progress.previousAssignment ts) ∧
      (x.2.progress.results.condition = .feasible → x.1 = .ok false) := by
  induction h with
  | ended quits =>
    have hnot := mt quits.condition hcondition
    exact ⟨iff_of_false hnot id, fun hfeasible => absurd hfeasible hnot⟩
  | @last s t x reaches last =>
    rw [← reaches.condition] at hcondition
    rw [← reaches.previous]
    cases last with
    | decided decided quits =>
      have hnot := mt quits.condition hcondition
      refine ⟨iff_of_false hnot ?_, fun hfeasible => absurd hfeasible hnot⟩
      rintro (⟨hundecided, -⟩ | hnone)
      · exact decided hundecided
      · exact hnone
    | repeated repeats =>
      exact ⟨iff_of_true repeats.condition (.inl ⟨repeats.undecided, repeats.same⟩), fun _ => rfl⟩
    | broken passes =>
      have hnot := passes.condition ▸ hcondition
      refine ⟨iff_of_false hnot ?_, fun hfeasible => absurd hfeasible hnot⟩
      rintro (⟨-, hsame⟩ | hnone)
      · exact passes.new hsame
      · exact hnone
  | next reaches passes _ ih =>
    rw [← reaches.condition, ← passes.condition] at hcondition
    obtain ⟨hiff, hended⟩ := ih hcondition
    rw [passes.previous] at hiff
    refine ⟨hiff.trans ⟨.inr, ?_⟩, hended⟩
    rintro (⟨-, hsame⟩ | hreturns)
    · exact absurd (reaches.previous.trans hsame) passes.new
    · exact hreturns

/-- Subproblems were solved at different assignments in a row, of which the last is remembered. -/
structure Tried (look : π → List (List Int)) (s : State π α) : Prop where
  chain : (look s.problem).IsChain (· ≠ ·)
  last : s.config.singleTree = false →
    ∀ a ∈ (look s.problem).getLast?, s.progress.previousAssignment = some a

theorem Passes.tried (h : Passes look t u) (ht : Tried look t) : Tried look u := by
  obtain ⟨hchain, hlast⟩ := ht
  have hlook := h.look
  rw [← h.config] at hlook hlast
  cases hsingle : u.config.singleTree with
  | true =>
    rw [hsingle, if_pos rfl] at hlook
    exact ⟨hlook ▸ hchain, fun hfalse => absurd hsingle (by simp [hfalse])⟩
  | false =>
    rw [hsingle, if_neg (by decide)] at hlook
    refine ⟨?_, fun _ a ha => ?_⟩
    · rw [hlook, List.isChain_append]
      refine ⟨hchain, List.isChain_singleton _, fun a ha b hb hsame => ?_⟩
      obtain rfl : t.rounded = b := Option.some.inj hb
      exact h.new (hsame ▸ hlast hsingle a ha)
    · rw [hlook, List.getLast?_concat] at ha
      rw [h.previous]
      exact ha

omit [Scalar α] [MinlpProblem π α] [Rounding α] in
theorem Reaches.tried (h : Reaches look s t) (hs : Tried look s) : Tried look t :=
  ⟨h.look ▸ hs.chain, fun hsingle a ha => h.previous.trans
    (hs.last (h.config ▸ hsingle) a (h.look ▸ ha))⟩

/-- No two subproblems in a row are solved at the same assignment. -/
theorem Course.chain (h : Course look s ts x) (hs : Tried look s) :
    (look x.2.problem).IsChain (· ≠ ·) := by
  induction h with
  | ended quits => exact quits.look ▸ hs.chain
  | last reaches last =>
    have ht := reaches.tried hs
    cases last with
    | decided decided quits => exact quits.look ▸ ht.chain
    | repeated repeats => exact repeats.look ▸ ht.chain
    | broken passes => exact (passes.tried ht).chain
  | next reaches passes _ ih => exact ih (passes.tried (reaches.tried hs))

omit [Scalar α] [MinlpProblem π α] [Rounding α] in
theorem Reaches.looksForCycling {look : π → ρ} (h : Reaches look s t)
    (hcycling : s.config.cyclingCheck = true) :
    (t.config.cyclingCheck && decide (1 ≤ t.progress.masterIter) && true) = true := by
  simp [h.config, hcycling, h.masterIter]

theorem goesOn_of_run {stops : Bool}
    (h : (shouldTerminate true : Run π α Bool).run.run t = (.ok stops, u)) :
    goesOn t = !stops := by
  rw [goesOn, h]

theorem Course.previous (h : Course look s ts x) (hlook : Overlooks look callbacks)
    (hcycling : s.config.cyclingCheck = true) :
    (∀ front t back, ts = front ++ t :: back →
      t.progress.previousAssignment = remembered s.progress.previousAssignment front) ∧
      x.2.progress.previousAssignment = remembered s.progress.previousAssignment ts := by
  induction h with
  | ended quits => exact ⟨fun front t back hsplit => by simp at hsplit, quits.previous⟩
  | @last s t x reaches last =>
    have hmet := reaches.looksForCycling hcycling
    refine ⟨fun front u back hsplit => ?_, ?_⟩
    · obtain ⟨rfl, rfl, -⟩ : front = [] ∧ t = u ∧ back = [] := by
        cases front <;> simp_all
      exact reaches.previous
    show _ = if goesOn t then some t.rounded else s.progress.previousAssignment
    rw [← reaches.previous]
    cases last with
    | decided decided quits =>
      obtain ⟨_, hrun, -⟩ := shouldTerminate_of_decided look true decided
      rw [goesOn_of_run hrun]
      exact quits.previous
    | repeated repeats =>
      obtain ⟨_, hrun, -⟩ :=
        shouldTerminate_of_repeated hlook repeats.undecided hmet repeats.same
      rw [goesOn_of_run hrun]
      exact repeats.previous
    | broken passes =>
      obtain ⟨_, hrun, -⟩ := shouldTerminate_of_new hlook passes.undecided hmet passes.new
      rw [goesOn_of_run hrun]
      exact passes.previous
  | @next s t u ts x reaches passes _ ih =>
    obtain ⟨_, hrun, -⟩ := shouldTerminate_of_new hlook passes.undecided
      (reaches.looksForCycling hcycling) passes.new
    have hcycling' : u.config.cyclingCheck = true := by rw [passes.config, reaches.config, hcycling]
    obtain ⟨hchecks, hend⟩ := ih hcycling'
    have hcons (front : List (State π α)) :
        remembered s.progress.previousAssignment (t :: front) =
          remembered u.progress.previousAssignment front := by
      rw [passes.previous, remembered, List.foldl_cons, goesOn_of_run hrun]
      rfl
    refine ⟨fun front v back hsplit => ?_, hend.trans (hcons ts).symm⟩
    cases front with
    | nil =>
      obtain ⟨rfl, -⟩ := List.cons.inj hsplit
      exact reaches.previous
    | cons w front =>
      obtain ⟨rfl, hrest⟩ := List.cons.inj hsplit
      rw [hcons]
      exact hchecks front v back hrest

end Properties

theorem condition_iterate_of_off (h : ShowsTried look callbacks) (fuel : Nat) (s : State π α)
    (hcycling : s.config.cyclingCheck = false)
    (hcondition : s.progress.results.condition ≠ .feasible) :
    ((iterate callbacks fuel).run.run s).2.progress.results.condition ≠ .feasible := by
  induction fuel generalizing s with
  | zero =>
    let t : State π α := { s with events := s.events ++ [.iteration s.progress.masterIter] }
    show ((shouldTerminate false >>= fun _ => pure true :
      Run π α _).run.run t).2.progress.results.condition ≠ .feasible
    rw [run_bind]
    by_cases hundecided : t.Undecided
    · obtain ⟨u, hrun, hu⟩ := shouldTerminate_of_unmet look hundecided (Bool.and_false _)
      rw [hrun]
      exact hu.condition ▸ hcondition
    · obtain ⟨u, hrun, hu⟩ := shouldTerminate_of_decided look false hundecided
      rw [hrun]
      exact mt hu.condition hcondition
  | succ fuel ih =>
    rw [iterate_succ_eq, run_bind]
    have happroached := approach_run h.toOverlooks s
    generalize (approach callbacks).run.run s = x at happroached ⊢
    cases happroached with
    | @ended r t stops quits =>
      have hnot := mt quits.condition hcondition
      obtain _ | _ | settled := r
      · exact hnot
      · exact absurd rfl stops
      · exact hnot
    | @checked t reaches =>
      obtain ⟨r, u, hrun, hconfig, hu⟩ :=
        finish_run_of_off h (reaches.config ▸ hcycling : t.config.cyclingCheck = false)
      have hnot : u.progress.results.condition ≠ .feasible :=
        fun hfeasible => hcondition (reaches.condition ▸ hu hfeasible)
      show ((finish callbacks >>= _ : Run π α Bool).run.run t).2.progress.results.condition ≠ _
      rw [run_bind, hrun]
      obtain _ | _ | settled := r
      · exact hnot
      · refine ih u ?_ hnot
        rw [hconfig rfl, reaches.config, hcycling]
      · exact hnot

end Courses

section Searches

variable [Scalar α] [MinlpProblem π α] [Rounding α] {look : π → List (List Int)}
  {callbacks : Callbacks π α}

theorem course_search (h : ShowsTried look callbacks) (s : State π α)
    (hcycling : s.config.cyclingCheck = true) :
    Course look s (checks callbacks s) ((search callbacks).run.run s) := by
  unfold checks
  cases himplemented : s.config.strategy.isImplemented with
  | true =>
    rw [if_pos rfl, search_run callbacks s himplemented]
    exact course_iterate h _ s hcycling
  | false =>
    rw [if_neg (by decide), search_run_of_not_implemented callbacks s himplemented]
    exact .ended ⟨rfl, rfl, id⟩

theorem condition_search_of_off (h : ShowsTried look callbacks) (s : State π α)
    (hcycling : s.config.cyclingCheck = false)
    (hcondition : s.progress.results.condition ≠ .feasible) :
    ((search callbacks).run.run s).2.progress.results.condition ≠ .feasible := by
  cases himplemented : s.config.strategy.isImplemented with
  | true =>
    rw [search_run callbacks s himplemented]
    exact condition_iterate_of_off h _ s hcycling hcondition
  | false =>
    rw [search_run_of_not_implemented callbacks s himplemented]
    exact hcondition

end Searches

section Corrections

variable [Scalar α] [MinlpProblem π α] {β γ : Type}

def Settled (s t : State π α) : Prop :=
  t.progress.results.condition = s.progress.results.condition ∨
    t.progress.results.condition = .optimal

omit [Scalar α] [MinlpProblem π α] in
theorem fixes_unseen (f : Progress α → π → Except Error β × π) :
    Fixes (fun _ : π => ()) (ask f) :=
  fixes_ask fun _ _ => rfl

omit [Scalar α] in
theorem overlooks_nothing : Overlooks (fun _ : π => ()) (Callbacks.none : Callbacks π α) := by
  constructor <;> intros <;> rfl

omit [Scalar α] [MinlpProblem π α] in
theorem settled_bind {m : Run π α γ} {f : γ → Run π α β} (hm : Fixes (fun _ : π => ()) m)
    (hf : ∀ c s, Settled s ((f c).run.run s).2) (s : State π α) :
    Settled s ((m >>= f).run.run s).2 := by
  rw [run_bind]
  rcases hm.run s with ⟨c, t, hrun, ht⟩ | ⟨e, t, hrun, ht⟩
  · rw [hrun, Settled, ← ht.condition]
    exact hf c t
  · rw [hrun]
    exact .inl ht.condition

omit [MinlpProblem π α] in
theorem settled_takeCorrection (c : Config α) (master : SubproblemResult α) (s : State π α) :
    Settled s ((takeCorrection c master : Run π α Unit).run.run s).2 := by
  have hcorrected : (s.progress.correctBound master).results.condition =
      s.progress.results.condition := by
    unfold Progress.correctBound
    cases s.progress.sense <;> rfl
  show Settled s ((if (s.progress.correctBound master).boundsConverged c.boundTolerance then _
    else _ : Run π α Unit).run.run _).2
  split
  · exact .inr rfl
  · exact .inl hcorrected

theorem settled_resolve (c : Config α) (s : State π α) :
    Settled s ((resolve c : Run π α Unit).run.run s).2 := by
  have hmaster := settled_bind (fixes_unseen (π := π) (MinlpProblem.solveMaster ·
    (correctionOptions c))) (settled_takeCorrection c)
  have hdrop : Fixes (fun _ : π => ()) (dropLast : Run π α Bool) :=
    fixes_bind (fixes_unseen _) fun _ _ => .refl _
  refine settled_bind hdrop (fun persistent => ?_) s
  split
  · exact settled_bind (fixes_unseen _) fun _ => hmaster
  · exact hmaster

theorem settled_amend (settled : Bool) (c : Config α) (s : State π α) :
    Settled s ((amend settled c : Run π α Unit).run.run s).2 := by
  unfold amend
  split
  · have hnlp : Fixes (fun _ : π => ()) (do
        onNlp (← ask (MinlpProblem.solveNlp · c)) : Run π α Unit) :=
      fixes_bind (fixes_unseen _) fun nlp => fixes_onNlp overlooks_nothing nlp
    simpa only [bind_assoc] using settled_bind hnlp (fun _ => settled_resolve c) s
  · exact settled_resolve c s

theorem settled_correctIfExcluded (c : Config α) (settled : Bool) (s : State π α) :
    Settled s ((correctIfExcluded c settled : Run π α Unit).run.run s).2 := by
  show Settled s ((if c.addNoGoodCuts && decide (0 < s.progress.masterIter) then
    correctBound settled else pure () : Run π α Unit).run.run s).2
  split
  · rw [correctBound_run]
    exact settled_amend settled _ { s with config := { s.config with zeroTolerance := 1e-4 } }
  · exact .inl rfl

theorem settled_loop [Rounding α] (callbacks : Callbacks π α) (s : State π α) :
    Settled ((search callbacks).run.run s).2 ((loop callbacks).run.run s).2 := by
  rw [loop_run_eq_search, run_bind]
  obtain ⟨_ | settled, t⟩ := (search callbacks).run.run s
  · exact .inl rfl
  · exact settled_correctIfExcluded s.config settled t

end Corrections

end Run

namespace Watched

def tried (r : Watched π α) : List (List Int) :=
  (r.views.filter View.isNlp).map (·.progress.assignment)

theorem tried_see {β ε : Type} (r : Watched π α) (p : Progress α) (entry : Except ε β → Call α)
    (x : Except ε β × π) :
    (r.see p entry x).2.tried = r.tried ++ if (entry x.1).isNlp then [p.assignment] else [] := by
  unfold tried see
  rw [List.filter_append, List.map_append]
  cases h : (entry x.1).isNlp <;> simp [View.isNlp, h]

end Watched

theorem showsTried_watched [MinlpProblem π α] (callbacks : Callbacks π α) :
    ShowsTried Watched.tried callbacks.watched where
  solveMaster _ _ r := (r.tried_see ..).trans (List.append_nil _)
  solveNlp _ _ r := r.tried_see ..
  integers _ := rfl
  addCuts _ _ r := (r.tried_see ..).trans (List.append_nil _)
  addFeasibilityCut _ _ r := (r.tried_see ..).trans (List.append_nil _)
  addNoGoodCut _ r := (r.tried_see ..).trans (List.append_nil _)
  dropLastNoGoodCut _ := rfl
  reload _ := rfl
  afterMaster := by
    intro f hf p r
    obtain ⟨g, -, rfl⟩ := Option.map_eq_some_iff.mp hf
    exact (r.tried_see ..).trans (List.append_nil _)
  afterNlp := by
    intro f hf p r
    obtain ⟨g, -, rfl⟩ := Option.map_eq_some_iff.mp hf
    exact (r.tried_see ..).trans (List.append_nil _)

namespace Run

variable [Scalar α] [MinlpProblem π α] [Rounding α]

/-- How a search with a cycling check goes from the start, by the states at its checks. It is told
that it repeats itself just if a check finds the assignment of the check before it and no other
criterion is met. It remembers the assignment of the last check that it has passed, and solves no
two subproblems in a row at the same assignment. -/
structure DetectsCycling (checks : List (State (Watched π α) α))
    (x : Except Error Bool × State (Watched π α) α) : Prop where
  masterIter : ∀ (k : Nat) (t : State (Watched π α) α), checks[k]? = some t →
    t.progress.masterIter = k + 1
  feasible_iff : x.2.progress.results.condition = .feasible ↔
    ∃ t u : State (Watched π α) α, [t, u] <:+: checks ∧ u.Undecided ∧ u.rounded = t.rounded
  ended : x.2.progress.results.condition = .feasible → x.1 = .ok false
  tried : x.2.problem.tried.IsChain (· ≠ ·)
  remembers : ∀ (front back : List (State (Watched π α) α)) (t : State (Watched π α) α),
    checks = front ++ t :: back → t.progress.previousAssignment = remembered none front
  previous : x.2.progress.previousAssignment = remembered none checks

theorem Course.detectsCycling (callbacks : Callbacks π α) {s : State (Watched π α) α}
    {ts : List (State (Watched π α) α)} {x : Except Error Bool × State (Watched π α) α}
    (h : Course Watched.tried s ts x) (hcycling : s.config.cyclingCheck = true)
    (hmasters : s.progress.masterIter = 0) (hcondition : s.progress.results.condition = .unknown)
    (hprevious : s.progress.previousAssignment = none) (htried : s.problem.tried = []) :
    DetectsCycling ts x := by
  obtain ⟨hfeasible, hended⟩ := h.feasible_iff (by rw [hcondition]; decide)
  obtain ⟨hremembers, hend⟩ := h.previous (showsTried_watched callbacks).toOverlooks hcycling
  rw [hprevious] at hfeasible hremembers hend
  refine ⟨fun k t ht => ?_, ?_, hended, h.chain ⟨?_, fun _ a ha => ?_⟩,
    fun front back t hsplit => hremembers front t back hsplit, hend⟩
  · rw [h.masterIter ht, hmasters, Nat.zero_add]
  · rw [hfeasible, returns_iff]
    simp
  · rw [htried]
    exact List.isChain_nil
  · rw [htried] at ha
    cases ha

/-- Cycling is detected along every run of the loop from the start, and reported if it is looked
for and not otherwise; only a correction may go back on the report. -/
theorem loop_detects_cycling (callbacks : Callbacks π α) (sense : Sense) (problem : π)
    (c : Config α) (timers : Timers α) (clock : Clock α) :
    let s := State.fresh sense problem c timers clock
    let run := (loop callbacks.watched).run.run s.watched
    let searched := (search callbacks.watched).run.run s.watched
    run.map id (State.mapProblem Watched.problem) = (loop callbacks).run.run s ∧
      searched.map id (State.mapProblem Watched.problem) = (search callbacks).run.run s ∧
      run = (search callbacks.watched >>= correctIfExcluded c).run.run s.watched ∧
      Settled searched.2 run.2 ∧
      (c.cyclingCheck = true → DetectsCycling (checks callbacks.watched s.watched) searched) ∧
      (c.cyclingCheck = false → searched.2.progress.results.condition ≠ .feasible ∧
        run.2.progress.results.condition ≠ .feasible) := by
  intro s run searched
  have hsettled : Settled searched.2 run.2 := settled_loop callbacks.watched s.watched
  refine ⟨(mirrors_loop Watched.simulates callbacks.simulates_watched s.watched).symm,
    (mirrors_search Watched.simulates callbacks.simulates_watched s.watched).symm,
    loop_run_eq_search callbacks.watched s.watched, hsettled, fun hcycling => ?_,
    fun hcycling => ?_⟩
  · exact (course_search (showsTried_watched callbacks) s.watched hcycling).detectsCycling
      callbacks hcycling rfl rfl rfl rfl
  · have hsearched : searched.2.progress.results.condition ≠ .feasible :=
      condition_search_of_off (showsTried_watched callbacks) s.watched hcycling nofun
    refine ⟨hsearched, fun hfeasible => ?_⟩
    rcases hsettled with hsame | hoptimal
    · exact hsearched (hsame ▸ hfeasible)
    · rw [hoptimal] at hfeasible
      cases hfeasible

end Run

namespace Playback

/-- The third assignment of the master problem is the second one when it is rounded. -/
def stuck : Playback (Extended ℚ) where
  masters := [⟨.optimal, 0, 0, 0, #[1, 3.0]⟩, ⟨.optimal, 0, 0, 0, #[0, 2.0]⟩,
    ⟨.optimal, 1, 1, 1, #[0.25, 1.75]⟩]
  nlps := [⟨.optimal, 3.0, 3.0, 3.0, #[]⟩, ⟨.optimal, 2.0, 2.0, 2.0, #[]⟩]

def stuckStart : State (Playback (Extended ℚ)) (Extended ℚ) :=
  .fresh .minimize stuck Config.default .new Menu.clock

theorem loop_detects_cycling_stuck :
    let callbacks : Callbacks (Watched (Playback (Extended ℚ)) (Extended ℚ)) (Extended ℚ) :=
      Callbacks.watched .none
    let searched := (Run.search callbacks).run.run stuckStart.watched
    searched.2.progress.results.condition = .feasible ∧
      searched.2.problem.tried = [[1, 3], [0, 2]] ∧
      ∃ t u : State (Watched (Playback (Extended ℚ)) (Extended ℚ)) (Extended ℚ),
        [t, u] <:+: Run.checks callbacks stuckStart.watched ∧ u.Undecided ∧
          u.rounded = t.rounded := by
  intro callbacks searched
  have hfeasible : searched.2.progress.results.condition = .feasible := by decide +kernel
  have hdetects : Run.DetectsCycling (Run.checks callbacks stuckStart.watched) searched :=
    (Run.loop_detects_cycling (π := Playback (Extended ℚ)) .none .minimize stuck Config.default
      .new Menu.clock).2.2.2.2.1 rfl
  exact ⟨hfeasible, by decide +kernel, hdetects.feasible_iff.mp hfeasible⟩

end Playback

end NonlinearOpt.OuterApprox
