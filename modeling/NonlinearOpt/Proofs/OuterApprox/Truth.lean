import NonlinearOpt.Proofs.OuterApprox.Bounds
import NonlinearOpt.Proofs.OuterApprox.Recorded
import Mathlib.Data.Fintype.Basic

/-!
True answers. The record of a run tells which assignments are excluded from the master problem at
any time, and so what its answers claim. A property of a run that rests on the answers being true is
carried through the run like any other.
-/

namespace NonlinearOpt.OuterApprox

structure Ledger (A : Type) where
  current : Option A
  excluded : List A

variable {π A α β : Type}

namespace Ledger

def empty : Ledger A := ⟨none, []⟩

def next (l : Ledger A) : Exchange A α → Ledger A
  | .master _ a => { l with current := some a }
  | .nlp _ => l
  | .excluded => { l with excluded := l.excluded ++ l.current.toList }
  | .readmitted => { l with excluded := l.excluded.dropLast }

theorem forall_current {l : Ledger A} {a : A} {P : A → Prop} (ha : l.current = some a)
    (h : P a) : ∀ b ∈ l.current, P b := by
  intro b hb
  cases Option.some.inj (ha.symm.trans hb)
  exact h

end Ledger

section Truth

variable [LinearOrder α] [Scalar α]

/-- The answer of a master problem is a bound on what is not excluded, and infeasible only if all of
that is. -/
def SubproblemResult.TrueMaster (s : Sense) (val : A → α) (excluded : List A)
    (r : SubproblemResult α) : Prop :=
  r.bound s ≠ s.worst ∧ (∀ a ∉ excluded, s.Le (r.bound s) (val a)) ∧
    (r.condition = .infeasible → ∀ a ∉ excluded, val a = s.worst)

def SubproblemResult.TrueNlp (s : Sense) (val : A → α) (a : A) (r : SubproblemResult α) : Prop :=
  r.condition = .optimal ∧ r.objective = val a ∨ r.condition = .infeasible ∧ val a = s.worst

def Exchange.Truthful (s : Sense) (val : A → α) (l : Ledger A) : Exchange A α → Prop
  | .master r _ => r.TrueMaster s val l.excluded
  | .nlp r => ∃ a, l.current = some a ∧ r.TrueNlp s val a
  | .excluded => True
  | .readmitted => True

instance [DecidableEq A] [Fintype A] (s : Sense) (val : A → α) (l : Ledger A)
    (e : Exchange A α) : Decidable (e.Truthful s val l) :=
  match e with
  | .master r _ => inferInstanceAs (Decidable (r.bound s ≠ s.worst ∧
      (∀ a ∉ l.excluded, s.Le (r.bound s) (val a)) ∧
        (r.condition = .infeasible → ∀ a ∉ l.excluded, val a = s.worst)))
  | .nlp r => inferInstanceAs (Decidable (∃ a, l.current = some a ∧
      (r.condition = .optimal ∧ r.objective = val a ∨
        r.condition = .infeasible ∧ val a = s.worst)))
  | .excluded | .readmitted => isTrue trivial

inductive Truthful (s : Sense) (val : A → α) : Ledger A → List (Exchange A α) → Prop where
  | nil (l : Ledger A) : Truthful s val l []
  | cons {l : Ledger A} {e : Exchange A α} {log : List (Exchange A α)} :
      e.Truthful s val l → Truthful s val (l.next e) log → Truthful s val l (e :: log)

theorem truthful_cons {s : Sense} {val : A → α} {l : Ledger A} {e : Exchange A α}
    {log : List (Exchange A α)} :
    Truthful s val l (e :: log) ↔ e.Truthful s val l ∧ Truthful s val (l.next e) log := by
  constructor
  · rintro ⟨⟩
    exact ⟨‹_›, ‹_›⟩
  · exact fun h => .cons h.1 h.2

instance decidableTruthful [DecidableEq A] [Fintype A] (s : Sense) (val : A → α) :
    (l : Ledger A) → (log : List (Exchange A α)) → Decidable (Truthful s val l log)
  | l, [] => isTrue (.nil l)
  | l, e :: log =>
    have := decidableTruthful s val (l.next e) log
    decidable_of_iff (e.Truthful s val l ∧ Truthful s val (l.next e) log) truthful_cons.symm

theorem truthful_append {s : Sense} {val : A → α} {l : Ledger A}
    {log log' : List (Exchange A α)} :
    Truthful s val l (log ++ log') ↔
      Truthful s val l log ∧ Truthful s val (log.foldl Ledger.next l) log' := by
  induction log generalizing l with
  | nil => simp [Truthful.nil]
  | cons e log ih => simp [truthful_cons, ih, and_assoc]

end Truth

namespace Run

variable [LinearOrder α] [Scalar α] {s : Sense} {val : A → α} {t v : α}

/-- A property of the ledger and of the progress of a run with tolerance `t`, provided that all
answers so far were true. -/
def Holds (s : Sense) (val : A → α) (t : α) (P : Ledger A → Progress α → Prop)
    (st : State (Recorded π A α) α) : Prop :=
  st.config.boundTolerance = t ∧
    (Truthful s val .empty st.problem.log →
      P (st.problem.log.foldl Ledger.next .empty) st.progress)

variable {P P' : Ledger A → Progress α → Prop} {Q : β → Ledger A → Progress α → Prop}

theorem Holds.mono {st : State (Recorded π A α) α} (h : Holds s val t P st)
    (himp : ∀ l p, P l p → P' l p) : Holds s val t P' st :=
  ⟨h.1, fun htruth => himp _ _ (h.2 htruth)⟩

theorem holds_note (e : Event α) :
    Ensures (Holds s val t P) (note e : Run (Recorded π A α) α Unit) fun _ => Holds s val t P :=
  ensures_modify fun _ h => h

theorem holds_updateTimers (f : Timers α → Timers α) :
    Ensures (Holds s val t P) (updateTimers f : Run (Recorded π A α) α Unit)
      fun _ => Holds s val t P :=
  ensures_modify fun _ h => h

theorem holds_now :
    Ensures (Holds s val t P) (now : Run (Recorded π A α) α α) fun _ => Holds s val t P :=
  ensures_now fun _ h => h

theorem holds_elapsed :
    Ensures (Holds s val t P) (elapsed : Run (Recorded π A α) α α) fun _ => Holds s val t P :=
  ensures_elapsed fun _ h => h

theorem holds_update {f : Progress α → Progress α} (h : ∀ l p, P l p → P' l (f p)) :
    Ensures (Holds s val t P) (update f : Run (Recorded π A α) α Unit)
      fun _ => Holds s val t P' :=
  ensures_update fun _ hs => ⟨hs.1, fun htruth => h _ _ (hs.2 htruth)⟩

theorem holds_progress_bind {f : Progress α → Run (Recorded π A α) α β}
    {R : β → State (Recorded π A α) α → Prop}
    (h : ∀ p, Ensures (Holds s val t fun l q => P l q ∧ q = p) (f p) R) :
    Ensures (Holds s val t P) (progress >>= f) R := by
  refine ensures_progress_bind fun p => (h p).pre ?_
  rintro st ⟨hs, rfl⟩
  exact ⟨hs.1, fun htruth => ⟨hs.2 htruth, rfl⟩⟩

theorem holds_config_bind {f : Config α → Run (Recorded π A α) α β}
    {R : β → State (Recorded π A α) α → Prop}
    (h : ∀ c : Config α, c.boundTolerance = t → Ensures (Holds s val t P) (f c) R) :
    Ensures (Holds s val t P) (config >>= f) R := by
  refine ensures_config_bind fun c st hs => ?_
  obtain ⟨hs, rfl⟩ := hs
  exact h st.config hs.1 st hs

theorem holds_ask {f : Progress α → Recorded π A α → Except Error β × π}
    {entry : Recorded π A α → β → π → List (Exchange A α)}
    (h : ∀ r b problem l p, P l p → Truthful s val l (entry r b problem) →
      Q b ((entry r b problem).foldl Ledger.next l) p) :
    Ensures (Holds s val t P) (ask fun p r => r.record (entry r) (f p r))
      fun b => Holds s val t (Q b) := by
  refine ensures_ask fun st hs b problem hask => ⟨hs.1, fun htruth => ?_⟩
  obtain ⟨hlog, -⟩ := Recorded.record_eq_ok hask
  rw [hlog, truthful_append] at htruth
  show Q b (List.foldl Ledger.next .empty problem.log) st.progress
  rw [hlog, List.foldl_append]
  exact h st.problem b _ _ _ (hs.2 htruth.1) htruth.2

theorem holds_ask_unrecorded {f : Progress α → Recorded π A α → Except Error β × π} :
    Ensures (Holds s val t P) (ask fun p r => r.record (fun _ _ => []) (f p r))
      fun _ => Holds s val t P :=
  holds_ask (Q := fun _ => P) fun _ _ _ _ _ hp _ => hp

theorem holds_call (f : Option (Callback π α)) :
    Ensures (Holds s val t P) (call (f.map Recorded.callback) : Run (Recorded π A α) α Unit)
      fun _ => Holds s val t P := by
  cases f with
  | none => exact ensures_pure fun _ h => h
  | some f =>
    rw [Option.map_some, call_callback]
    exact holds_ask_unrecorded

end Run

end NonlinearOpt.OuterApprox
