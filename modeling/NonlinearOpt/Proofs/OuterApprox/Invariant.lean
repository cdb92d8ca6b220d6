import NonlinearOpt.Proofs.OuterApprox.Bounds

/-!
What the bounds of a run say about the optimal objective, and why no update spoils it. A master
problem that is solved after assignments were excluded gives a bound for the others only. What
survives is that of every assignment one of the two bounds is at least as good.
-/

namespace NonlinearOpt.OuterApprox

variable {A α : Type} [LinearOrder α] [Scalar α]

/-- A number that no assignment beats, unless a point is known that is as good as the assignment. -/
def Passes (s : Sense) (val : A → α) (p : Progress α) (x : α) : Prop :=
  ∀ a, s.Le x (val a) ∨ s.Le p.pointBound (val a)

/-- What holds at all times, for objectives `val` with best value `v` and the assignments that are
excluded from the master problem. -/
structure Sound (s : Sense) (val : A → α) (t v : α) (excluded : List A) (p : Progress α) :
    Prop where
  sense : p.sense = s
  point : p.pointBound = s.worst ∨ ∃ a, val a = p.pointBound
  best : p.bestObjective = if p.pointBound = s.worst then none else some p.pointBound
  excluded : ∀ a ∈ excluded, s.Le p.pointBound (val a)
  master : Passes s val p p.masterBound
  optimal : p.results.condition = .optimal →
    p.pointBound ≠ s.worst ∧ s.Near t p.pointBound v
  infeasible : p.results.condition = .infeasible → ∀ a, val a = s.worst

/-- What holds of the recorded bounds until the last one is corrected. -/
structure Kept (s : Sense) (val : A → α) (p : Progress α) : Prop where
  passes : ∀ x ∈ p.masterHistory, Passes s val p x
  ne_worst : ∀ x ∈ p.masterHistory.dropLast, x ≠ s.worst

structure Open (s : Sense) (p : Progress α) : Prop where
  master : p.masterBound ≠ s.worst
  history : ∀ x ∈ p.masterHistory, x ≠ s.worst

variable {s : Sense} {val : A → α} {t v : α} {excluded : List A} {p p' : Progress α}

omit [Scalar α] in
theorem Sense.IsBest.le_or_le {x y : α} (hv : s.IsBest val v)
    (h : ∀ a, s.Le x (val a) ∨ s.Le y (val a)) : s.Le x v ∨ s.Le y v := by
  rcases Sense.Le.total s x y with hxy | hyx
  · refine .inl (hv.le_of_forall fun a => ?_)
    rcases h a with ha | ha
    · exact ha
    · exact hxy.trans ha
  · refine .inr (hv.le_of_forall fun a => ?_)
    rcases h a with ha | ha
    · exact hyx.trans ha
    · exact ha

omit [Scalar α] in
theorem Passes.of_le {x : α} (h : Passes s val p x) (hle : s.Le p'.pointBound p.pointBound) :
    Passes s val p' x := by
  intro a
  rcases h a with ha | ha
  · exact .inl ha
  · exact .inr (hle.trans ha)

namespace Progress

variable [ExtendedScalar α]

theorem boundsConverged_iff :
    p.boundsConverged t = true ↔ p.sense.Near t p.pointBound p.masterBound := by
  unfold boundsConverged
  rw [OrderedScalar.le_iff]
  cases hsense : p.sense with
  | minimize => simp [Sense.Near, pointBound, masterBound, hsense]
  | maximize => simp [Sense.Near, pointBound, masterBound, hsense]

end Progress

variable [ExtendedScalar α]

theorem sound_new (s : Sense) (val : A → α) (t v : α) :
    Sound s val t v [] (Progress.new s) := by
  refine ⟨rfl, .inl (Progress.pointBound_new s), ?_, by simp, ?_, nofun, nofun⟩
  · rw [Progress.pointBound_new, if_pos rfl]
    rfl
  · intro a
    rw [Progress.masterBound_new]
    exact .inl (Sense.unbounded_le s _)

theorem kept_new (s : Sense) (val : A → α) : Kept s val (Progress.new s) := by
  constructor
  · intro x hx a
    rw [Progress.masterHistory_new, List.mem_singleton] at hx
    rw [hx]
    exact .inl (Sense.unbounded_le s _)
  · rw [Progress.masterHistory_new]
    simp

theorem open_new (s : Sense) (ht : t < Scalar.infinity) : Open s (Progress.new s : Progress α) := by
  constructor
  · rw [Progress.masterBound_new]
    exact Sense.unbounded_ne_worst ht
  · rw [Progress.masterHistory_new]
    simpa using Sense.unbounded_ne_worst ht

section Master

omit [ExtendedScalar α]

theorem Sound.movesMaster {b r : α} (h : Sound s val t v excluded p)
    (hmoves : p.MovesMaster b r p') (hb : Passes s val p b) : Sound s val t v excluded p' := by
  obtain ⟨hsense, hmaster, hpoint, -, -, hbest, hresults⟩ := hmoves
  refine ⟨hsense.trans h.sense, ?_, ?_, ?_, ?_, ?_, ?_⟩
  · rw [hpoint]
    exact h.point
  · rw [hpoint, hbest]
    exact h.best
  · rw [hpoint]
    exact h.excluded
  · rw [hmaster, Passes, hpoint]
    exact hb
  · rw [hresults, hpoint]
    exact h.optimal
  · rw [hresults]
    exact h.infeasible

theorem Kept.movesMaster {b r : α} (h : Kept s val p) (hopen : Open s p)
    (hmoves : p.MovesMaster b r p') (hr : Passes s val p r) : Kept s val p' := by
  obtain ⟨x, hhistory, hx⟩ := hmoves.exists_history
  constructor
  · intro y hy
    rw [Passes, hmoves.pointBound]
    rw [hhistory, List.mem_append, List.mem_singleton] at hy
    rcases hy with hy | rfl
    · exact h.passes y hy
    · rcases hx with rfl | hx
      · exact hr
      · exact h.passes y hx
  · rw [hhistory, List.dropLast_concat]
    exact hopen.history

omit [LinearOrder α] in
theorem Open.movesMaster {b : α} (h : Open s p) (hmoves : p.MovesMaster b b p')
    (hb : b ≠ s.worst) : Open s p' := by
  obtain ⟨x, hhistory, hx⟩ := hmoves.exists_history
  constructor
  · rw [hmoves.masterBound]
    exact hb
  · intro y hy
    rw [hhistory, List.mem_append, List.mem_singleton] at hy
    rcases hy with hy | rfl
    · exact h.history y hy
    · rcases hx with rfl | hx
      · exact hb
      · exact h.history y hx

theorem Sound.passes {x : α} (h : Sound s val t v excluded p)
    (hx : ∀ a ∉ excluded, s.Le x (val a)) : Passes s val p x := by
  intro a
  by_cases ha : a ∈ excluded
  · exact .inr (h.excluded a ha)
  · exact .inl (hx a ha)

theorem Sound.conclude (h : Sound s val t v excluded p) (condition : Termination)
    (hoptimal : condition = .optimal → p.pointBound ≠ s.worst ∧ s.Near t p.pointBound v)
    (hinfeasible : condition = .infeasible → ∀ a, val a = s.worst) :
    Sound s val t v excluded (p.conclude condition) :=
  ⟨h.sense, h.point, h.best, h.excluded, h.master, hoptimal, hinfeasible⟩

end Master

theorem Passes.tighten {x y : α} (hx : Passes s val p x) (hy : Passes s val p y) :
    Passes s val p (s.tighten x y) := by
  rcases s.tighten_eq x y with heq | heq
  · rwa [heq]
  · rwa [heq]

theorem Passes.foldl_tighten {xs : List α} {x : α} (hx : Passes s val p x)
    (hxs : ∀ y ∈ xs, Passes s val p y) : Passes s val p (xs.foldl s.tighten x) := by
  induction xs generalizing x with
  | nil => exact hx
  | cons y ys ih =>
    rw [List.forall_mem_cons] at hxs
    exact ih (hx.tighten hxs.1) hxs.2

theorem Sense.tighten_ne_worst {x y : α} (hx : x ≠ s.worst) (hy : y ≠ s.worst) :
    s.tighten x y ≠ s.worst := by
  rcases s.tighten_eq x y with heq | heq
  · rwa [heq]
  · rwa [heq]

theorem Sense.foldl_tighten_ne_worst {xs : List α} {x : α} (hx : x ≠ s.worst)
    (hxs : ∀ y ∈ xs, y ≠ s.worst) : xs.foldl s.tighten x ≠ s.worst := by
  induction xs generalizing x with
  | nil => exact hx
  | cons y ys ih =>
    rw [List.forall_mem_cons] at hxs
    exact ih (tighten_ne_worst hx hxs.1) hxs.2

/-- What holds between two calls to the outside, with `o` before a master problem was infeasible. -/
structure InRun (o : Prop) (s : Sense) (val : A → α) (t v : α) (excluded : List A)
    (p : Progress α) : Prop where
  sound : Sound s val t v excluded p
  kept : Kept s val p
  opened : o → Open s p

variable {o : Prop} {a : A}

theorem inRun_new (s : Sense) (val : A → α) (v : α) (ht : t < Scalar.infinity) :
    InRun o s val t v [] (Progress.new s) :=
  ⟨sound_new s val t v, kept_new s val, fun _ => open_new s ht⟩

theorem InRun.afterMasterOptimal (h : InRun True s val t v excluded p)
    (master : SubproblemResult α) (hne : master.bound s ≠ s.worst)
    (hbound : ∀ a ∉ excluded, s.Le (master.bound s) (val a)) :
    InRun True s val t v excluded (p.afterMasterOptimal master) := by
  obtain ⟨hsound, hkept, hopen⟩ := h
  replace hopen := hopen trivial
  have hmoves := p.movesMaster_afterMasterOptimal master
  rw [hsound.sense] at hmoves
  have hpasses := hsound.master.tighten (hsound.passes hbound)
  exact ⟨hsound.movesMaster hmoves hpasses, hkept.movesMaster hopen hmoves hpasses,
    fun _ => hopen.movesMaster hmoves (Sense.tighten_ne_worst hopen.master hne)⟩

theorem InRun.afterMasterOther (h : InRun True s val t v excluded p)
    (master : SubproblemResult α) (hne : master.bound s ≠ s.worst)
    (hbound : ∀ a ∉ excluded, s.Le (master.bound s) (val a)) :
    InRun True s val t v excluded (p.afterMasterOther master) := by
  rcases p.afterMasterOther_eq master with heq | heq
  · rwa [heq]
  · rw [heq]
    exact h.afterMasterOptimal master hne hbound

/-- Once nothing is left that is not excluded, the best point is optimal. -/
theorem InRun.afterMasterInfeasible (ht : 0 ≤ t) (hv : s.IsBest val v)
    (h : InRun True s val t v excluded p) (hleft : ∀ a ∉ excluded, val a = s.worst) :
    InRun False s val t v excluded p.afterMasterInfeasible := by
  obtain ⟨hsound, hkept, hopen⟩ := h
  have hmoves := p.movesMaster_exhaust
  rw [hsound.sense] at hmoves
  have hpoint (a : A) : s.Le p.pointBound (val a) := by
    by_cases ha : a ∈ excluded
    · exact hsound.excluded a ha
    · rw [hleft a ha]
      exact Sense.le_worst s _
  have hexhaust : Sound s val t v excluded p.exhaust :=
    hsound.movesMaster hmoves fun a => .inr (hpoint a)
  have hkept' : Kept s val p.exhaust :=
    hkept.movesMaster (hopen trivial) hmoves fun a => .inl (hpoint a)
  rw [p.afterMasterInfeasible_eq]
  refine ⟨hexhaust.conclude _ (fun hoptimal => ?_) fun hinfeasible a => ?_,
    ⟨hkept'.passes, hkept'.ne_worst⟩, nofun⟩
  · rw [hmoves.pointBound]
    refine ⟨fun hworst => ?_, Sense.Near.of_le ht (hv.le_of_forall hpoint)⟩
    rw [hsound.best, if_pos hworst] at hoptimal
    simp at hoptimal
  · have hworst : p.pointBound = s.worst := by
      by_contra hne
      rw [hsound.best, if_neg hne] at hinfeasible
      simp at hinfeasible
    refine Sense.eq_worst ?_
    rw [← hworst]
    exact hpoint a

omit [ExtendedScalar α] in
theorem InRun.count (h : InRun o s val t v excluded p) (masterIter subIter : Nat)
    (previousAssignment : Option (List Int)) (assignment : List Int) :
    InRun o s val t v excluded
      { p with masterIter, subIter, previousAssignment, assignment } := by
  obtain ⟨⟨hsense, hpoint, hbest, hexcluded, hmaster, hoptimal, hinfeasible⟩, hkept, hopen⟩ := h
  exact ⟨⟨hsense, hpoint, hbest, hexcluded, hmaster, hoptimal, hinfeasible⟩,
    ⟨hkept.passes, hkept.ne_worst⟩, fun ho => ⟨(hopen ho).master, (hopen ho).history⟩⟩

omit [ExtendedScalar α] in
theorem InRun.conclude (h : InRun o s val t v excluded p) {condition : Termination}
    (hoptimal : condition ≠ .optimal) (hinfeasible : condition ≠ .infeasible) :
    InRun o s val t v excluded (p.conclude condition) :=
  ⟨h.sound.conclude _ (absurd · hoptimal) (absurd · hinfeasible),
    ⟨h.kept.passes, h.kept.ne_worst⟩, fun ho => ⟨(h.opened ho).master, (h.opened ho).history⟩⟩

theorem InRun.movesPoint {b : α} (h : InRun o s val t v excluded p) (hsense : p'.sense = p.sense)
    (hmaster : p'.masterBound = p.masterBound) (hhistory : p'.masterHistory = p.masterHistory)
    (hresults : p'.results = p.results) (hpoint : p'.pointBound = b)
    (hbest : p'.bestObjective = if b = s.worst then none else some b)
    (hle : s.Le b p.pointBound) (hval : b = s.worst ∨ ∃ a, val a = b) :
    InRun o s val t v excluded p' := by
  subst hpoint
  obtain ⟨hsound, hkept, hopen⟩ := h
  refine ⟨⟨hsense.trans hsound.sense, hval, hbest, ?_, ?_, ?_, ?_⟩, ⟨?_, ?_⟩, fun ho => ⟨?_, ?_⟩⟩
  · exact fun a ha => hle.trans (hsound.excluded a ha)
  · rw [hmaster]
    exact hsound.master.of_le hle
  · rw [hresults]
    intro hoptimal
    obtain ⟨hne, hnear⟩ := hsound.optimal hoptimal
    refine ⟨fun hworst => hne ?_, hnear.of_le_left hle⟩
    rw [hworst] at hle
    exact Sense.eq_worst hle
  · rw [hresults]
    exact hsound.infeasible
  · rw [hhistory]
    exact fun x hx => (hkept.passes x hx).of_le hle
  · rw [hhistory]
    exact hkept.ne_worst
  · rw [hmaster]
    exact (hopen ho).master
  · rw [hhistory]
    exact (hopen ho).history

theorem Progress.improvesBound_iff {objective : α} :
    p.improvesBound objective = true ↔ ¬ p.sense.Le p.pointBound objective := by
  unfold improvesBound
  cases hsense : p.sense with
  | minimize => simp [Sense.Le, pointBound, hsense, OrderedScalar.lt_iff]
  | maximize => simp [Sense.Le, pointBound, hsense, OrderedScalar.lt_iff]

theorem Progress.improves_of_not_le {objective : α}
    (h : ∀ x, p.bestObjective = some x → ¬ p.sense.Le x objective) :
    p.improves objective = true := by
  unfold improves
  cases hbest : p.bestObjective with
  | none => rfl
  | some x =>
    have hnot := h x hbest
    cases hsense : p.sense with
    | minimize => simpa [Sense.Le, hsense, OrderedScalar.lt_iff] using hnot
    | maximize => simpa [Sense.Le, hsense, OrderedScalar.lt_iff] using hnot

theorem InRun.afterFeasible (h : InRun o s val t v excluded p) {objective : α}
    (hnot : p.improvesBound objective = false) :
    InRun o s val t v excluded (p.afterFeasible objective) ∧
      s.Le (p.afterFeasible objective).pointBound objective := by
  have hle : s.Le p.pointBound objective := by
    by_contra hle
    rw [← h.sound.sense] at hle
    rw [Progress.improvesBound_iff.mpr hle] at hnot
    cases hnot
  obtain ⟨hsense, hmaster, hpoint, hhistory, -, hbest, hresults⟩ :=
    p.movesPoint_afterFeasible objective
  rw [h.sound.sense, Sense.better_eq_left hle] at hpoint
  refine ⟨h.movesPoint hsense hmaster hhistory hresults hpoint ?_ (Sense.Le.refl s _)
    h.sound.point, ?_⟩
  · rw [hbest]
    exact h.sound.best
  · rw [hpoint]
    exact hle

theorem InRun.offer (h : InRun o s val t v excluded p) {objective : α} (solution : Array α)
    (hval : val a = objective) (himproves : p.improvesBound objective = true) :
    InRun o s val t v excluded ((p.afterFeasible objective).offer objective solution).2 ∧
      s.Le ((p.afterFeasible objective).offer objective solution).2.pointBound objective := by
  have hnot : ¬ s.Le p.pointBound objective := by
    rw [← h.sound.sense]
    exact Progress.improvesBound_iff.mp himproves
  have hle : s.Le objective p.pointBound := (Sense.Le.total s _ _).resolve_left hnot
  have hne : objective ≠ s.worst := by
    rintro rfl
    exact hnot (Sense.le_worst s _)
  obtain ⟨hsense, hmaster, hpoint, hhistory, -, hbest, hresults⟩ :=
    p.movesPoint_afterFeasible objective
  rw [h.sound.sense, Sense.better_eq_right hle] at hpoint
  have hoffer : (p.afterFeasible objective).improves objective = true := by
    refine Progress.improves_of_not_le fun x hx => ?_
    rw [hbest, h.sound.best] at hx
    split at hx
    · cases hx
    · cases hx
      rw [hsense, h.sound.sense]
      exact hnot
  unfold Progress.offer
  rw [if_pos hoffer]
  refine ⟨h.movesPoint hsense hmaster hhistory hresults hpoint ?_ hle (.inr ⟨a, hval⟩), ?_⟩
  · rw [if_neg hne]
  · show s.Le (p.afterFeasible objective).pointBound objective
    rw [hpoint]
    exact Sense.Le.refl s _

omit [ExtendedScalar α] in
/-- An assignment may be excluded once a point is known that is as good. -/
theorem InRun.exclude (h : InRun o s val t v excluded p) {more : List A}
    (hmore : ∀ a ∈ more, s.Le p.pointBound (val a)) :
    InRun o s val t v (excluded ++ more) p := by
  obtain ⟨⟨hsense, hpoint, hbest, hexcluded, hmaster, hoptimal, hinfeasible⟩, hkept, hopen⟩ := h
  refine ⟨⟨hsense, hpoint, hbest, fun a ha => ?_, hmaster, hoptimal, hinfeasible⟩, hkept, hopen⟩
  rcases List.mem_append.mp ha with ha | ha
  · exact hexcluded a ha
  · exact hmore a ha

omit [ExtendedScalar α] in
theorem InRun.readmit (h : InRun o s val t v excluded p) :
    InRun o s val t v excluded.dropLast p := by
  obtain ⟨⟨hsense, hpoint, hbest, hexcluded, hmaster, hoptimal, hinfeasible⟩, hkept, hopen⟩ := h
  refine ⟨⟨hsense, hpoint, hbest, fun a ha => ?_, hmaster, hoptimal, hinfeasible⟩, hkept, hopen⟩
  exact hexcluded a (List.dropLast_subset _ ha)

/-- A correction starts from all recorded bounds but the last, none of which is the worst. -/
theorem InRun.correctBound (h : InRun o s val t v excluded p) (master : SubproblemResult α)
    (hne : master.bound s ≠ s.worst)
    (hbound : ∀ a ∉ excluded, s.Le (master.bound s) (val a)) :
    Sound s val t v excluded (p.correctBound master) ∧
      (p.correctBound master).masterBound ≠ s.worst := by
  obtain ⟨hsound, hkept, -⟩ := h
  have hmoves := p.movesMaster_correctBound master
  rw [hsound.sense] at hmoves
  have hpasses : Passes s val p (p.masterHistory.dropLast.foldl s.tighten (master.bound s)) :=
    (hsound.passes hbound).foldl_tighten fun x hx => hkept.passes x (List.dropLast_subset _ hx)
  refine ⟨hsound.movesMaster hmoves hpasses, ?_⟩
  rw [hmoves.masterBound]
  exact Sense.foldl_tighten_ne_worst hne hkept.ne_worst

theorem Sound.conclude_optimal (ht : 0 ≤ t) (ht' : t < Scalar.infinity) (hv : s.IsBest val v)
    (h : Sound s val t v excluded p) (hne : p.masterBound ≠ s.worst)
    (hconverged : p.boundsConverged t = true) :
    Sound s val t v excluded (p.conclude .optimal) := by
  rw [Progress.boundsConverged_iff, h.sense] at hconverged
  refine h.conclude _ (fun _ => ⟨hconverged.ne_worst ht' hne, ?_⟩) nofun
  rcases hv.le_or_le h.master with hle | hle
  · exact hconverged.of_le_right hle
  · exact Sense.Near.of_le ht hle

end NonlinearOpt.OuterApprox
