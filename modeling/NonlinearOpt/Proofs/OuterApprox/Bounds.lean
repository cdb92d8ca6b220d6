import NonlinearOpt.OuterApprox.Progress
import NonlinearOpt.Proofs.Arithmetic.Extended
import Mathlib.Order.Bounds.Basic

/-!
The two bounds of an outer approximation, named by where they come from instead of by their side:
one from master problems, one from feasible points. In terms of these both directions of
optimization are one.
-/

namespace NonlinearOpt.OuterApprox

namespace Sense

def opposite : Sense → Sense
  | minimize => maximize
  | maximize => minimize

section Values

variable {α : Type} [Scalar α]

def worst : Sense → α
  | minimize => Scalar.infinity
  | maximize => -Scalar.infinity

def unbounded : Sense → α
  | minimize => -Scalar.infinity
  | maximize => Scalar.infinity

def tighten : Sense → α → α → α
  | minimize => Scalar.max
  | maximize => Scalar.min

def better : Sense → α → α → α
  | minimize => Scalar.min
  | maximize => Scalar.max

def closer : Sense → α → α → Bool
  | minimize => Scalar.le
  | maximize => fun x y => Scalar.le y x

end Values

variable {α : Type} [LinearOrder α]

/-- `x` is at least as good as `y`. -/
def Le : Sense → α → α → Prop
  | minimize, x, y => x ≤ y
  | maximize, x, y => y ≤ x

instance (s : Sense) (x y : α) : Decidable (s.Le x y) :=
  match s with
  | minimize => inferInstanceAs (Decidable (x ≤ y))
  | maximize => inferInstanceAs (Decidable (y ≤ x))

/-- `v` bounds all values of `val`, and is the closest such bound. -/
def IsBest {A : Type} (val : A → α) (v : α) : Sense → Prop
  | minimize => IsGLB (Set.range val) v
  | maximize => IsLUB (Set.range val) v

theorem Le.refl (s : Sense) (x : α) : s.Le x x := by
  cases s <;> exact le_rfl

theorem Le.trans {s : Sense} {x y z : α} (hxy : s.Le x y) (hyz : s.Le y z) : s.Le x z := by
  cases s with
  | minimize => exact le_trans hxy hyz
  | maximize => exact le_trans hyz hxy

theorem Le.total (s : Sense) (x y : α) : s.Le x y ∨ s.Le y x := by
  cases s with
  | minimize => exact LinearOrder.le_total x y
  | maximize => exact LinearOrder.le_total y x

theorem IsBest.le {A : Type} {s : Sense} {val : A → α} {v : α} (hv : s.IsBest val v) (a : A) :
    s.Le v (val a) := by
  cases s with
  | minimize => exact hv.1 (Set.mem_range_self a)
  | maximize => exact hv.1 (Set.mem_range_self a)

theorem IsBest.le_of_forall {A : Type} {s : Sense} {val : A → α} {v x : α} (hv : s.IsBest val v)
    (hx : ∀ a, s.Le x (val a)) : s.Le x v := by
  cases s with
  | minimize => exact hv.2 (Set.forall_mem_range.mpr hx)
  | maximize => exact hv.2 (Set.forall_mem_range.mpr hx)

variable [Scalar α]

/-- `x` is at most `t` worse than `y`. -/
def Near (t : α) : Sense → α → α → Prop
  | minimize, x, y => x ≤ y + t
  | maximize, x, y => y ≤ x + t

variable [ExtendedScalar α] {s : Sense} {x y z t : α}

theorem le_worst (s : Sense) (x : α) : s.Le x s.worst := by
  cases s with
  | minimize => exact ExtendedScalar.le_infinity x
  | maximize => exact ExtendedScalar.negInfinity_le x

theorem unbounded_le (s : Sense) (x : α) : s.Le s.unbounded x := by
  cases s with
  | minimize => exact ExtendedScalar.negInfinity_le x
  | maximize => exact ExtendedScalar.le_infinity x

theorem eq_worst (h : s.Le s.worst x) : x = s.worst := by
  cases s with
  | minimize => exact le_antisymm (ExtendedScalar.le_infinity x) h
  | maximize => exact le_antisymm h (ExtendedScalar.negInfinity_le x)

theorem tighten_eq (s : Sense) (x y : α) : s.tighten x y = x ∨ s.tighten x y = y := by
  cases s with
  | minimize => simpa only [tighten, OrderedScalar.max_eq] using max_choice x y
  | maximize => simpa only [tighten, OrderedScalar.min_eq] using min_choice x y

theorem better_eq_right (h : s.Le y x) : s.better x y = y := by
  cases s with
  | minimize => exact (OrderedScalar.min_eq x y).trans (min_eq_right h)
  | maximize => exact (OrderedScalar.max_eq x y).trans (max_eq_right h)

theorem better_eq_left (h : s.Le x y) : s.better x y = x := by
  cases s with
  | minimize => exact (OrderedScalar.min_eq x y).trans (min_eq_left h)
  | maximize => exact (OrderedScalar.max_eq x y).trans (max_eq_left h)

theorem Near.of_le (ht : 0 ≤ t) (h : s.Le x y) : s.Near t x y := by
  cases s with
  | minimize => exact le_trans h (ExtendedScalar.le_add y ht)
  | maximize => exact le_trans h (ExtendedScalar.le_add x ht)

theorem Near.of_le_left (hxy : s.Le x y) (h : s.Near t y z) : s.Near t x z := by
  cases s with
  | minimize => exact le_trans hxy h
  | maximize => exact le_trans h (ExtendedScalar.add_le_add t hxy)

theorem Near.of_le_right (h : s.Near t x y) (hyz : s.Le y z) : s.Near t x z := by
  cases s with
  | minimize => exact le_trans h (ExtendedScalar.add_le_add t hyz)
  | maximize => exact le_trans hyz h

theorem Near.ne_worst (ht : t < Scalar.infinity) (h : s.Near t x y) (hy : y ≠ s.worst) :
    x ≠ s.worst := by
  rintro rfl
  cases s with
  | minimize =>
    have hlt : y < Scalar.infinity := lt_of_le_of_ne (ExtendedScalar.le_infinity y) hy
    exact absurd h (not_le.mpr (ExtendedScalar.add_lt_infinity hlt ht))
  | maximize =>
    have hle : y ≤ -Scalar.infinity := by
      rw [← ExtendedScalar.negInfinity_add ht]
      exact h
    exact hy (le_antisymm hle (ExtendedScalar.negInfinity_le y))

theorem unbounded_ne_worst (ht : t < Scalar.infinity) :
    (s.unbounded : α) ≠ s.worst := by
  have hlt : (-Scalar.infinity : α) < Scalar.infinity :=
    lt_of_le_of_lt (ExtendedScalar.negInfinity_le t) ht
  cases s with
  | minimize => exact hlt.ne
  | maximize => exact hlt.ne'

end Sense

def SubproblemResult.bound {α : Type} (s : Sense) (r : SubproblemResult α) : α :=
  match s with
  | .minimize => r.lower
  | .maximize => r.upper

namespace Progress

variable {α : Type}

def masterBound (p : Progress α) : α :=
  match p.sense with
  | .minimize => p.lower
  | .maximize => p.upper

def pointBound (p : Progress α) : α :=
  match p.sense with
  | .minimize => p.upper
  | .maximize => p.lower

def masterHistory (p : Progress α) : List α :=
  match p.sense with
  | .minimize => p.lowerHistory
  | .maximize => p.upperHistory

def pointHistory (p : Progress α) : List α :=
  match p.sense with
  | .minimize => p.upperHistory
  | .maximize => p.lowerHistory

theorem record_eq (better : α → α → Bool) (history : List α) (bound : α) :
    record better history bound = bound ∨ record better history bound ∈ history := by
  unfold record
  split
  · next last hlast =>
    split
    · exact .inl rfl
    · exact .inr (List.mem_of_getLast? hlast)
  · exact .inl rfl

theorem record_eq_self {better : α → α → Bool} {history : List α} {last bound : α}
    (hlast : history.getLast? = some last) (h : better last bound = true) :
    record better history bound = bound := by
  unfold record
  rw [hlast]
  exact if_pos h

variable [Scalar α]

/-- An update of `p` that replaces the bound from master problems, and records a bound unless the
one before it is better. -/
structure MovesMaster (p : Progress α) (bound recorded : α) (p' : Progress α) : Prop where
  sense : p'.sense = p.sense
  masterBound : p'.masterBound = bound
  pointBound : p'.pointBound = p.pointBound
  history : p'.masterHistory =
    p.masterHistory ++ [record p.sense.closer p.masterHistory recorded]
  pointHistory : p'.pointHistory = p.pointHistory
  best : p'.bestObjective = p.bestObjective
  results : p'.results = p.results

structure MovesPoint (p : Progress α) (bound : α) (p' : Progress α) : Prop where
  sense : p'.sense = p.sense
  masterBound : p'.masterBound = p.masterBound
  pointBound : p'.pointBound = bound
  history : p'.masterHistory = p.masterHistory
  pointHistory : p'.pointHistory =
    p.pointHistory ++ [record p.sense.opposite.closer p.pointHistory bound]
  best : p'.bestObjective = p.bestObjective
  results : p'.results = p.results

theorem MovesMaster.exists_history {p p' : Progress α} {bound recorded : α}
    (h : p.MovesMaster bound recorded p') :
    ∃ x, p'.masterHistory = p.masterHistory ++ [x] ∧ (x = recorded ∨ x ∈ p.masterHistory) :=
  ⟨_, h.history, record_eq _ _ _⟩

theorem masterBound_new (s : Sense) : (Progress.new s : Progress α).masterBound = s.unbounded := by
  cases s <;> rfl

theorem pointBound_new (s : Sense) : (Progress.new s : Progress α).pointBound = s.worst := by
  cases s <;> rfl

theorem masterHistory_new (s : Sense) :
    (Progress.new s : Progress α).masterHistory = [s.unbounded] := by
  cases s <;> rfl

theorem pointHistory_new (s : Sense) :
    (Progress.new s : Progress α).pointHistory = [s.worst] := by
  cases s <;> rfl

theorem movesMaster_setLower {p : Progress α} (hsense : p.sense = .minimize) (bound : α) :
    MovesMaster p bound bound (p.setLower bound) := by
  constructor
  all_goals simp [masterBound, pointBound, masterHistory, pointHistory, setLower, pushLower, hsense,
    Sense.closer]

theorem movesMaster_setUpper {p : Progress α} (hsense : p.sense = .maximize) (bound : α) :
    MovesMaster p bound bound (p.setUpper bound) := by
  constructor
  all_goals simp [masterBound, pointBound, masterHistory, pointHistory, setUpper, pushUpper, hsense,
    Sense.closer]

theorem movesPoint_setUpper {p : Progress α} (hsense : p.sense = .minimize) (bound : α) :
    MovesPoint p bound (p.setUpper bound) := by
  constructor
  all_goals simp [masterBound, pointBound, masterHistory, pointHistory, setUpper, pushUpper, hsense,
    Sense.closer, Sense.opposite]

theorem movesPoint_setLower {p : Progress α} (hsense : p.sense = .maximize) (bound : α) :
    MovesPoint p bound (p.setLower bound) := by
  constructor
  all_goals simp [masterBound, pointBound, masterHistory, pointHistory, setLower, pushLower, hsense,
    Sense.closer, Sense.opposite]

theorem movesMaster_afterMasterOptimal (master : SubproblemResult α) (p : Progress α) :
    MovesMaster p (p.sense.tighten p.masterBound (master.bound p.sense))
      (p.sense.tighten p.masterBound (master.bound p.sense)) (p.afterMasterOptimal master) := by
  cases hsense : p.sense with
  | minimize =>
    simpa [afterMasterOptimal, raiseLower, hsense, masterBound, SubproblemResult.bound,
      Sense.tighten] using movesMaster_setLower hsense (Scalar.max p.lower master.lower)
  | maximize =>
    simpa [afterMasterOptimal, cutUpper, hsense, masterBound, SubproblemResult.bound,
      Sense.tighten] using movesMaster_setUpper hsense (Scalar.min p.upper master.upper)

theorem afterMasterOther_eq (master : SubproblemResult α) (p : Progress α) :
    p.afterMasterOther master = p ∨ p.afterMasterOther master = p.afterMasterOptimal master := by
  unfold afterMasterOther afterMasterOptimal
  cases master.condition <;> cases p.sense <;> simp only [true_or]
  all_goals
    split
    · exact .inr rfl
    · exact .inl rfl

def exhaust (p : Progress α) : Progress α :=
  match p.sense with
  | .minimize => (pushLower p.upper { p with lower := Scalar.infinity }).2
  | .maximize => (pushUpper p.lower { p with upper := -Scalar.infinity }).2

theorem afterMasterInfeasible_eq (p : Progress α) :
    p.afterMasterInfeasible =
      p.exhaust.conclude (if p.bestObjective.isSome then .optimal else .infeasible) := by
  unfold afterMasterInfeasible exhaust
  cases p.sense <;> rfl

theorem movesMaster_exhaust (p : Progress α) :
    MovesMaster p p.sense.worst p.pointBound p.exhaust := by
  unfold exhaust
  split
  · next hsense =>
    constructor
    all_goals simp [masterBound, pointBound, masterHistory, pointHistory, pushLower, hsense,
      Sense.closer, Sense.worst]
  · next hsense =>
    constructor
    all_goals simp [masterBound, pointBound, masterHistory, pointHistory, pushUpper, hsense,
      Sense.closer, Sense.worst]

theorem movesPoint_afterFeasible (objective : α) (p : Progress α) :
    MovesPoint p (p.sense.better p.pointBound objective) (p.afterFeasible objective) := by
  cases hsense : p.sense with
  | minimize =>
    simpa [afterFeasible, cutUpper, hsense, pointBound, Sense.better] using
      movesPoint_setUpper hsense (Scalar.min p.upper objective)
  | maximize =>
    simpa [afterFeasible, raiseLower, hsense, pointBound, Sense.better] using
      movesPoint_setLower hsense (Scalar.max p.lower objective)

theorem movesMaster_correctBound (master : SubproblemResult α) (p : Progress α) :
    MovesMaster p (p.masterHistory.dropLast.foldl p.sense.tighten (master.bound p.sense))
      (p.masterHistory.dropLast.foldl p.sense.tighten (master.bound p.sense))
      (p.correctBound master) := by
  cases hsense : p.sense with
  | minimize =>
    simpa [correctBound, hsense, masterHistory, SubproblemResult.bound, Sense.tighten] using
      movesMaster_setLower hsense (p.lowerHistory.dropLast.foldl Scalar.max master.lower)
  | maximize =>
    simpa [correctBound, hsense, masterHistory, SubproblemResult.bound, Sense.tighten] using
      movesMaster_setUpper hsense (p.upperHistory.dropLast.foldl Scalar.min master.upper)

end Progress

end NonlinearOpt.OuterApprox
