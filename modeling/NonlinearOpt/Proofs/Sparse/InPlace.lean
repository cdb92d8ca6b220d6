import Mathlib
import NonlinearOpt.Proofs.Attempt
import NonlinearOpt.Proofs.Partial
import NonlinearOpt.Sparse.Product

namespace NonlinearOpt

section Folds

variable {β γ δ : Type}

theorem bind_mapM_foldlM (g : β → Option γ) (f : δ → γ → Option δ) (xs : List β) (d : δ) :
    (xs.mapM g).bind (fun ys => ys.foldlM f d) = xs.foldlM (fun d x => (g x).bind (f d)) d := by
  induction xs generalizing d with
  | nil => rfl
  | cons x xs ih =>
    rw [List.mapM_cons, List.foldlM_cons]
    cases g x with
    | none => rfl
    | some y =>
      simp only [Option.bind_eq_bind, Option.bind_some, Option.pure_def, Option.bind_assoc,
        List.foldlM_cons]
      cases hstep : f d y with
      | none =>
        -- Whether the lookups that are left succeed does not matter.
        simp only [Option.bind_none]
        cases xs.mapM g <;> rfl
      | some e => simpa only [Option.bind_some] using ih e

end Folds

namespace Csc

variable {α : Type} [Scalar α]

section Programs

def addAt (i : Nat) (d : α) : Attempt (Array α) Unit :=
  Attempt.change fun y => Vec.modify? y i (· + d)

def rescaled (fits : Nat → Prop) [DecidablePred fits] (b : α) (rest : Attempt (Array α) Unit) :
    Attempt (Array α) Unit := do
  if fits (← get).size then
    modify (rescale b)
    rest
  else Attempt.ofOption none

def forEntries (m : Csc α) (j : Nat) (f : Nat → α → Attempt (Array α) Unit) :
    Attempt (Array α) Unit := do
  let (first, last) ← Attempt.ofOption (m.span? j)
  (List.range' first (last - first)).forM fun k => do
    f (← Attempt.ofOption m.rowIndex[k]?) (← Attempt.ofOption m.values[k]?)

def mulAddInPlace (m : Csc α) (x : Array α) (a b : α) : Attempt (Array α) Unit :=
  rescaled (fun n => x.size = m.cols ∧ n = m.rows) b <|
    if Scalar.eq a 0 then pure ()
    else x.toList.zipIdx.forM fun (xj, j) => m.forEntries j fun i v => addAt i (a * v * xj)

def adjointMulAddInPlace (m : Csc α) (x : Array α) (a b : α) : Attempt (Array α) Unit :=
  rescaled (fun n => x.size = m.rows ∧ n = m.cols) b <|
    if Scalar.eq a 0 then pure ()
    else do
      (List.range (← get).size).forM fun j =>
        m.forEntries j fun i v => do addAt j (a * v * (← Attempt.ofOption x[i]?))

/-- Adds what an entry in column `j` contributes in its row, and what its mirror image contributes in
row `j`. -/
def addMirrored (x : Array α) (a xj : α) (j i : Nat) (v : α) : Attempt (Array α) Unit := do
  addAt i (a * v * xj)
  if i = j then pure ()
  else addAt j (a * v * (← Attempt.ofOption x[i]?))

def symMulAddInPlace (m : Csc α) (x : Array α) (a b : α) : Attempt (Array α) Unit := do
  if ← Attempt.ofOption m.isUpper? then
    rescaled (fun n => x.size = m.cols ∧ n = m.cols ∧ m.cols = m.rows) b <|
      x.toList.zipIdx.forM fun (xj, j) => do
        (← Attempt.ofOption (m.column? j)).forM fun (i, v) => addMirrored x a xj j i v
  else Attempt.ofOption none

end Programs

section Outcomes

variable {m : Csc α} {x y : Array α} {a b : α}

theorem outcome_addAt (i : Nat) (d : α) (y : Array α) :
    (addAt i d).outcome y = Vec.modify? y i (· + d) :=
  Attempt.outcome_change _ y

theorem run_rescaled_of_not_fits (fits : Nat → Prop) [DecidablePred fits]
    {rest : Attempt (Array α) Unit} (h : ¬ fits y.size) :
    (rescaled fits b rest).run y = (none, y) := by
  unfold rescaled
  rw [Attempt.run_get_bind, if_neg h]
  rfl

theorem outcome_rescaled {fits : Nat → Prop} [DecidablePred fits]
    {rest : Attempt (Array α) Unit} :
    (rescaled fits b rest).outcome y =
      if fits y.size then rest.outcome (rescale b y) else none := by
  by_cases h : fits y.size
  · rw [if_pos h]
    unfold Attempt.outcome rescaled
    rw [Attempt.run_get_bind, if_pos h]
    rfl
  · rw [if_neg h, Attempt.outcome, run_rescaled_of_not_fits fits h]
    rfl

theorem size_rescale (b : α) (y : Array α) : (rescale b y).size = y.size := by
  unfold rescale
  split_ifs
  · exact Array.size_replicate
  · rfl
  · exact Array.size_map

theorem rescale_congr {y' : Array α} (hb : Scalar.eq b 0 = true) (hsize : y.size = y'.size) :
    rescale b y = rescale b y' := by
  rw [rescale, rescale, if_pos hb, if_pos hb, hsize]

theorem outcome_rescaled_congr (fits : Nat → Prop) [DecidablePred fits]
    {rest : Attempt (Array α) Unit} {y' : Array α} (hb : Scalar.eq b 0 = true)
    (hsize : y.size = y'.size) :
    (rescaled fits b rest).outcome y = (rescaled fits b rest).outcome y' := by
  rw [outcome_rescaled, outcome_rescaled, hsize, rescale_congr hb hsize]

omit [Scalar α] in
theorem outcome_forEntries (j : Nat) (f : Nat → α → Attempt (Array α) Unit) :
    (m.forEntries j f).outcome y =
      (m.entries? j).bind fun column => column.foldlM (fun y e => (f e.1 e.2).outcome y) y := by
  unfold forEntries entries?
  rw [Attempt.outcome_ofOption_bind]
  cases m.span? j with
  | none => rfl
  | some span =>
    simp only [Option.bind_eq_bind, Option.bind_some, Attempt.outcome_forM,
      Attempt.outcome_ofOption_bind, bind_mapM_foldlM, Option.pure_def, Option.bind_assoc]

theorem outcome_mulAddInPlace : (m.mulAddInPlace x a b).outcome y = m.mulAdd? y x a b := by
  unfold mulAddInPlace mulAdd?
  rw [outcome_rescaled]
  by_cases hfits : x.size = m.cols ∧ y.size = m.rows
  case neg => rw [if_neg hfits, if_pos (by rwa [← not_and_or])]
  have hsizes : ¬ (x.size ≠ m.cols ∨ y.size ≠ m.rows) := by rwa [← not_and_or, not_not]
  rw [if_pos hfits, if_neg hsizes]
  by_cases ha : Scalar.eq a 0 = true
  · rw [if_pos ha, if_pos ha]
    rfl
  · rw [if_neg ha, if_neg ha, Attempt.outcome_forM]
    simp only [outcome_forEntries, outcome_addAt]
    rfl

theorem foldlM_modify? {β γ : Type} (g : β → Option γ) (d : β → γ → α) (es : List β) {j : Nat}
    {s : α} (hj : y[j]? = some s) :
    es.foldlM (fun y e => (g e).bind fun c => Vec.modify? y j (· + d e c)) y =
      (es.foldlM (fun s e => (g e).bind fun c => some (s + d e c)) s).bind (replace? y j) := by
  induction es generalizing y s with
  | nil =>
    have hlt : j < y.size := (Array.getElem?_eq_some_iff.mp hj).1
    exact (replace?_eq_some.mpr ⟨hlt, setIfInBounds_eq_self hj⟩).symm
  | cons e es ih =>
    rw [List.foldlM_cons, List.foldlM_cons]
    cases g e with
    | none => rfl
    | some c =>
      have hlt : j < y.size := (Array.getElem?_eq_some_iff.mp hj).1
      obtain ⟨z, hz, -⟩ := exists_replace? y (s + d e c) hlt
      have hzj : z[j]? = some (s + d e c) := by rw [getElem?_of_replace? hz, if_pos rfl]
      have hmodify : Vec.modify? y j (· + d e c) = some z := modify?_eq_some.mpr ⟨s, hj, hz⟩
      have hagain : replace? z j = replace? y j := by
        funext t
        obtain ⟨-, rfl⟩ := replace?_eq_some.mp hz
        simp [replace?, Array.setIfInBounds, hlt]
      simp only [Option.bind_some, Option.bind_eq_bind, hmodify, ih hzj, hagain]

omit [Scalar α] in
theorem foldlM_replace {step : Array α → Nat → Option (Array α)} {f : Nat → α → Option α}
    (hstep : ∀ y j s, y[j]? = some s → step y j = (f j s).bind (replace? y j))
    (front back : List α) :
    (List.range' front.length back.length).foldlM step (front ++ back).toArray =
      ((back.zipIdx front.length).mapM fun e => f e.2 e.1).map
        fun out => (front ++ out).toArray := by
  -- The front is done: its length is the position that comes next.
  induction back generalizing front with
  | nil => simp
  | cons s back ih =>
    have hget : (front ++ s :: back).toArray[front.length]? = some s := by simp
    rw [List.length_cons, List.range'_succ, List.foldlM_cons, List.zipIdx_cons, List.mapM_cons,
      hstep _ _ _ hget]
    cases f front.length s with
    | none => rfl
    | some t =>
      have hreplace : replace? (front ++ s :: back).toArray front.length t =
          some ((front ++ [t]) ++ back).toArray :=
        replace?_eq_some.mpr (by simp)
      have hrest := ih (front ++ [t])
      rw [List.length_append, List.length_singleton] at hrest
      simp only [Option.bind_eq_bind, Option.bind_some, hreplace, hrest]
      cases (back.zipIdx (front.length + 1)).mapM fun e => f e.2 e.1 <;> simp

theorem outcome_adjointMulAddInPlace :
    (m.adjointMulAddInPlace x a b).outcome y = m.adjointMulAdd? y x a b := by
  unfold adjointMulAddInPlace adjointMulAdd?
  rw [outcome_rescaled]
  by_cases hfits : x.size = m.rows ∧ y.size = m.cols
  case neg => rw [if_neg hfits, if_pos (by rwa [← not_and_or])]
  have hsizes : ¬ (x.size ≠ m.rows ∨ y.size ≠ m.cols) := by rwa [← not_and_or, not_not]
  rw [if_pos hfits, if_neg hsizes]
  by_cases ha : Scalar.eq a 0 = true
  · rw [if_pos ha, if_pos ha]
    rfl
  · rw [if_neg ha, if_neg ha, Attempt.outcome_get_bind, Attempt.outcome_forM]
    simp only [outcome_forEntries, Attempt.outcome_ofOption_bind, outcome_addAt]
    -- The product reads an entry of `y` once, the loop in place for each stored value.
    have hentry : ∀ (y : Array α) (j : Nat) (s : α), y[j]? = some s →
        ((m.entries? j).bind fun column => column.foldlM
            (fun y e => x[e.1]?.bind fun xi => Vec.modify? y j (· + a * e.2 * xi)) y) =
          ((m.entries? j).bind fun column => column.foldlM
            (fun s e => x[e.1]?.bind fun xi => some (s + a * e.2 * xi)) s).bind (replace? y j) := by
      intro y j s hj
      cases m.entries? j with
      | none => rfl
      | some column => exact foldlM_modify? (fun e => x[e.1]?) (fun e xi => a * e.2 * xi) column hj
    have hgather := foldlM_replace hentry [] (rescale b y).toList
    rw [List.range_eq_range']
    refine hgather.trans ?_
    exact Option.map_eq_bind

theorem outcome_addMirrored (xj : α) (j i : Nat) (v : α) (y : Array α) :
    (addMirrored x a xj j i v).outcome y =
      (Vec.modify? y i (· + a * v * xj)).bind fun y =>
        if i = j then some y else x[i]?.bind fun xi => Vec.modify? y j (· + a * v * xi) := by
  unfold addMirrored
  rw [Attempt.outcome_bind, outcome_addAt]
  by_cases hdiag : i = j
  · simp only [if_pos hdiag]
    rfl
  · simp only [if_neg hdiag]
    congr 1
    funext z
    rw [Attempt.outcome_ofOption_bind]
    simp only [outcome_addAt]

theorem outcome_symMulAddInPlace : (m.symMulAddInPlace x a b).outcome y = m.symMulAdd? y x a b := by
  unfold symMulAddInPlace symMulAdd?
  rw [Attempt.outcome_ofOption_bind]
  cases m.isUpper? with
  | none => rfl
  | some upper =>
    cases upper with
    | false => rfl
    | true =>
      simp only [Option.bind_eq_bind, Option.bind_some, ↓reduceIte, Bool.not_true,
        Bool.false_eq_true, outcome_rescaled]
      by_cases hfits : x.size = m.cols ∧ y.size = m.cols ∧ m.cols = m.rows
      case neg => rw [if_neg hfits, if_pos (by rwa [← not_and_or, ← not_and_or])]
      rw [if_pos hfits, if_neg (by rwa [← not_and_or, ← not_and_or, not_not])]
      simp only [Attempt.outcome_forM, Attempt.outcome_ofOption_bind, outcome_addMirrored]
      rfl

end Outcomes

/-- What an update of `y` by a product keeps to, the lengths of `x` and `y` that fit being given. It
leaves behind what the product says. Where the lengths do not fit, it breaks off with `y` as it was.
With `b` zero, all vectors of one length become the same. -/
structure Updates (fits : Nat → Nat → Prop) (product? : Array α → Array α → α → α → Option (Array α))
    (inPlace : Array α → α → α → Attempt (Array α) Unit) : Prop where
  agrees : ∀ x a b y, (inPlace x a b).outcome y = product? y x a b
  rejects : ∀ x a b y, ¬ fits x.size y.size → (inPlace x a b).run y = (none, y)
  overwrites : ∀ x a b y y', Scalar.eq b 0 = true → y.size = y'.size →
    (inPlace x a b).outcome y = (inPlace x a b).outcome y'

theorem updates_mulAdd (m : Csc α) :
    Updates (fun nx ny => nx = m.cols ∧ ny = m.rows) m.mulAdd? m.mulAddInPlace where
  agrees _ _ _ _ := outcome_mulAddInPlace
  rejects x _ _ _ := run_rescaled_of_not_fits fun n => x.size = m.cols ∧ n = m.rows
  overwrites x _ _ _ _ := outcome_rescaled_congr fun n => x.size = m.cols ∧ n = m.rows

theorem updates_adjointMulAdd (m : Csc α) :
    Updates (fun nx ny => nx = m.rows ∧ ny = m.cols) m.adjointMulAdd? m.adjointMulAddInPlace where
  agrees _ _ _ _ := outcome_adjointMulAddInPlace
  rejects x _ _ _ := run_rescaled_of_not_fits fun n => x.size = m.rows ∧ n = m.cols
  overwrites x _ _ _ _ := outcome_rescaled_congr fun n => x.size = m.rows ∧ n = m.cols

theorem updates_symMulAdd (m : Csc α) :
    Updates (fun nx ny => nx = m.cols ∧ ny = m.cols ∧ m.cols = m.rows) m.symMulAdd?
      m.symMulAddInPlace where
  agrees _ _ _ _ := outcome_symMulAddInPlace
  rejects x a b y hfits := by
    unfold symMulAddInPlace
    rw [Attempt.run_bind]
    cases m.isUpper? with
    | none => rfl
    | some upper =>
      cases upper with
      | false => rfl
      | true =>
        exact run_rescaled_of_not_fits (fun n => x.size = m.cols ∧ n = m.cols ∧ m.cols = m.rows) hfits
  overwrites x a b y y' hb hsize := by
    unfold symMulAddInPlace
    rw [Attempt.outcome_ofOption_bind, Attempt.outcome_ofOption_bind]
    congr 1
    funext upper
    cases upper with
    | false => rfl
    | true =>
      exact outcome_rescaled_congr (fun n => x.size = m.cols ∧ n = m.cols ∧ m.cols = m.rows) hb hsize

end Csc

end NonlinearOpt
