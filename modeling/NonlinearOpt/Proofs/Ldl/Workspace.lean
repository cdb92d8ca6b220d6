import Mathlib
import NonlinearOpt.Proofs.Ldl.Placement
import NonlinearOpt.Proofs.Ldl.Refresh

/-!
The numeric phase in place. The rows share one set of working arrays, which each of them leaves as it
found them, and the entries of the factor are written to its storage behind running cursors. A row
that is computed in this way leaves in the storage what `row?` appends to the columns.
-/

namespace NonlinearOpt

section Prefixes

variable {β : Type} {xs ys : Array β} {l : List β} {x : β}

theorem prefix_of_replace? (h : l <+: xs.toList) (hreplace : replace? xs l.length x = some ys) :
    l ++ [x] <+: ys.toList := by
  rw [List.prefix_iff_getElem?] at h ⊢
  intro i hi
  rw [List.length_append, List.length_singleton] at hi
  rw [Array.getElem?_toList, getElem?_of_replace? hreplace]
  by_cases heq : l.length = i
  · subst heq
    simp
  · have hlt : i < l.length := by omega
    rw [if_neg heq, List.getElem_append_left hlt, ← Array.getElem?_toList]
    exact h i hlt

theorem getElem?_of_prefix_concat (h : l ++ [x] <+: xs.toList) : xs[l.length]? = some x := by
  have hget := List.prefix_iff_getElem?.mp h l.length (by simp)
  simpa using hget

end Prefixes

namespace Ldl

structure Workspace (α : Type) where
  /-- Whether the current row meets a column. -/
  marks : Array Bool
  /-- The right hand side of the current row. -/
  rest : Array α
  /-- The columns that the current row meets. -/
  met : Array Nat
  /-- A way up the tree. -/
  way : Array Nat
  /-- The next free place of each column. -/
  next : Array Nat
  rowIndex : Array Nat
  values : Array α
  diag : Array α
  invDiag : Array α
  positive : Nat

namespace Workspace

section Definitions

variable {α : Type}

/-- Marks the nodes from `i` upwards that lie below `k` and are not marked, and notes them behind the
first `len` nodes of the way. -/
def climb? (parent : Array (Option Nat)) (k : Nat) :
    Nat → Nat → Nat → Array Nat → Array Bool → Option (Nat × Array Nat × Array Bool)
  | 0, _, _, _, _ => none
  | fuel + 1, i, len, way, marks => do
    let marks ← replace? marks i true
    let way ← replace? way len i
    match ← parent[i]? with
    | none => return (len + 1, way, marks)
    | some up =>
      if k ≤ up then return (len + 1, way, marks)
      if ← marks[up]? then return (len + 1, way, marks)
      climb? parent k fuel up (len + 1) way marks

def unload? (way : Array Nat) : Nat → Nat → Array Nat → Option (Nat × Array Nat)
  | 0, m, met => some (m, met)
  | len + 1, m, met => do unload? way len (m + 1) (← replace? met m (← way[len]?))

def scan? (parent : Array (Option Nat)) (k : Nat) (s : Nat × Workspace α) (e : Nat × α) :
    Option (Nat × Workspace α) := do
  let (m, w) := s
  if e.1 = k then return (m, { w with diag := ← replace? w.diag k e.2 })
  let rest ← replace? w.rest e.1 e.2
  if ← w.marks[e.1]? then return (m, { w with rest })
  let (len, way, marks) ← climb? parent k (parent.size + 1) e.1 0 w.way w.marks
  let (m, met) ← unload? way len m w.met
  return (m, { w with marks, rest, met, way })

variable [Scalar α]

def subtractStored? (rowIndex : Array Nat) (values : Array α) (first free : Nat) (y : α)
    (v : Array α) : Option (Array α) :=
  (List.range' first (free - first)).foldlM (fun v j => do
    Vec.modify? v (← rowIndex[j]?) (· - (← values[j]?) * y)) v

/-- Eliminates column `c` from row `k` and stores the entry in the next free place of the column.
Nothing of the row is left at `c`. -/
def clear? (start : Array Nat) (k : Nat) (w : Workspace α) (c : Nat) : Option (Workspace α) := do
  let free ← w.next[c]?
  let y ← w.rest[c]?
  let first ← start[c]?
  let rest ← subtractStored? w.rowIndex w.values first free y w.rest
  let l := y * (← w.invDiag[c]?)
  return { w with
    values := ← replace? w.values free l
    diag := ← Vec.modify? w.diag k (· - y * l)
    rowIndex := ← replace? w.rowIndex free k
    next := ← replace? w.next c (free + 1)
    rest := ← replace? rest c 0
    marks := ← replace? w.marks c false }

def drain? (start : Array Nat) (k : Nat) : Nat → Workspace α → Option (Workspace α)
  | 0, w => some w
  | m + 1, w => do drain? start k m (← w.clear? start k (← w.met[m]?))

def settle? (k : Nat) (d : α) (w : Workspace α) : Option PivotError → Option (Workspace α)
  | some _ => some w
  | none => do
    return { w with
      invDiag := ← replace? w.invDiag k (1 / d)
      positive := if Scalar.lt 0 d then w.positive + 1 else w.positive }

def row? (parent : Array (Option Nat)) (start : Array Nat) (tolerance : α) (k : Nat)
    (column : List (Nat × α)) (w : Workspace α) : Option (Workspace α × Option PivotError) := do
  let (m, w) ← column.foldlM (scan? parent k) (0, w)
  let w ← drain? start k m w
  let d ← w.diag[k]?
  let failure := checkPivot tolerance k d
  return (← w.settle? k d failure, failure)

def rows? (parent : Array (Option Nat)) (start : Array Nat) (tolerance : α) :
    List (List (Nat × α) × Nat) → Workspace α → Option (Workspace α × Option PivotError)
  | [], w => some (w, none)
  | (column, k) :: rest, w => do
    match ← row? parent start tolerance k column w with
    | (w, none) => rows? parent start tolerance rest w
    | (w, some e) => return (w, some e)

def prepare? (start : Array Nat) (w : Workspace α) : Option (Workspace α) := do
  return { w with
    marks := w.marks.map fun _ => false
    rest := Vec.fill 0 w.rest
    next := ← Vec.copy? start.pop w.next
    diag := Vec.fill 0 w.diag
    positive := 0 }

end Definitions

section Scan

variable {α : Type} {parent : Array (Option Nat)} {k : Nat}

theorem climb?_of_path {fuel i : Nat} {marks marks' : Array Bool} {p : List Nat}
    (h : path parent k fuel i marks = some (p, marks')) {way : Array Nat} {l : List Nat}
    (hway : l <+: way.toList) (hroom : l.length + p.length ≤ way.size) :
    ∃ way', climb? parent k fuel i l.length way marks = some (l.length + p.length, way', marks') ∧
      way'.size = way.size ∧ l ++ p <+: way'.toList := by
  induction fuel generalizing i marks p way l with
  | zero => cases h
  | succ fuel ih =>
    have hpos : 0 < p.length := List.length_pos_of_mem (mem_of_path h)
    rw [path] at h
    obtain ⟨marked, hmarked, h⟩ := Option.bind_eq_some_iff.mp h
    obtain ⟨up, hup, h⟩ := Option.bind_eq_some_iff.mp h
    obtain ⟨noted, hnoted, hsize⟩ := exists_replace? way (i := l.length) i (by omega)
    have hprefix := prefix_of_replace? hway hnoted
    rw [climb?]
    simp only [hmarked, hnoted, hup, Option.bind_eq_bind, Option.bind_some]
    cases up with
    | none =>
      cases h
      exact ⟨noted, rfl, hsize, hprefix⟩
    | some up =>
      simp only at h ⊢
      split at h
      · next hk =>
        cases h
        exact ⟨noted, by rw [if_pos hk]; rfl, hsize, hprefix⟩
      · next hk =>
        obtain ⟨mark, hmark, h⟩ := Option.bind_eq_some_iff.mp h
        rw [if_neg hk, hmark, Option.bind_some]
        cases mark with
        | true =>
          cases h
          exact ⟨noted, rfl, hsize, hprefix⟩
        | false =>
          obtain ⟨⟨rest, marks''⟩, hrest, h⟩ := Option.bind_eq_some_iff.mp h
          cases h
          simp only [List.length_cons] at hroom
          have hlength : (l ++ [i]).length = l.length + 1 := by simp
          obtain ⟨way', hclimb, hsize', hprefix'⟩ := ih hrest hprefix (by omega)
          rw [hlength] at hclimb
          refine ⟨way', ?_, hsize'.trans hsize, ?_⟩
          · simp only [List.length_cons, Nat.add_comm rest.length 1, ← Nat.add_assoc]
            exact hclimb
          · rwa [List.append_assoc] at hprefix'

theorem unload?_of_prefix {way : Array Nat} {p : List Nat} (hp : p <+: way.toList)
    {met : Array Nat} {q : List Nat} (hq : q <+: met.toList)
    (hroom : q.length + p.length ≤ met.size) :
    ∃ met', unload? way p.length q.length met = some (q.length + p.length, met') ∧
      met'.size = met.size ∧ q ++ p.reverse <+: met'.toList := by
  induction p using List.reverseRecOn generalizing met q with
  | nil => exact ⟨met, rfl, rfl, by simpa using hq⟩
  | append_singleton p x ih =>
    rw [List.length_append, List.length_singleton] at hroom
    obtain ⟨noted, hnoted, hsize⟩ := exists_replace? met (i := q.length) x (by omega)
    have hlength : (q ++ [x]).length = q.length + 1 := by simp
    obtain ⟨met', hunload, hsize', hprefix⟩ := ih ((List.prefix_append p [x]).trans hp)
      (prefix_of_replace? hq hnoted) (by omega)
    rw [hlength] at hunload
    refine ⟨met', ?_, hsize'.trans hsize, by simpa using hprefix⟩
    rw [List.length_append, List.length_singleton, unload?, getElem?_of_prefix_concat hp]
    simp only [hnoted, Option.bind_eq_bind, Option.bind_some, hunload, Option.some.injEq,
      Prod.mk.injEq, and_true]
    omega

/-- What the working arrays hold while column `k` of the matrix is read: the marks and the order of
the columns that were met, the right hand side, and the diagonal entry. -/
structure Scans (k : Nat) (w₀ : Workspace α) (order : List Nat) (marks : Array Bool) (y : Array α)
    (d : α) (w : Workspace α) : Prop where
  fields : w = { w₀ with
    marks := marks, rest := y, met := w.met, way := w.way, diag := w₀.diag.setIfInBounds k d }
  met : order.reverse <+: w.met.toList
  metSize : w.met.size = w₀.met.size
  waySize : w.way.size = w₀.way.size

variable {w₀ w : Workspace α} {order order' : List Nat} {marks marks' : Array Bool} {y y' : Array α}
  {d d' : α}

theorem length_le_of_foldlM {rows : List Nat}
    (h : rows.foldlM (followRow? parent k) (order, marks) = some (order', marks')) :
    order.length ≤ order'.length := by
  refine foldlM_invariant (P := fun s : List Nat × Array Bool => order.length ≤ s.1.length)
    (Nat.le_refl _) ?_ h
  intro i _ s s' hs hstep
  rcases followRow?_cases hstep with ⟨rfl, -⟩ | ⟨-, -, p, marks, -, rfl⟩
  · exact hs
  · rw [List.length_append]
    omega

theorem Scans.step (h : Scans k w₀ order marks y d w) {e : Nat × α}
    (hfollow : followRow? parent k (order, marks) e.1 = some (order', marks'))
    (hload : loadAt? k (y, d) e = some (y', d'))
    (hdiag : k < w₀.diag.size) (hmet : order'.length ≤ w₀.met.size)
    (hway : order'.length ≤ w₀.way.size) :
    ∃ w', scan? parent k (order.length, w) e = some (order'.length, w') ∧
      Scans k w₀ order' marks' y' d' w' := by
  have hfields := h.fields
  have hwdiag : w.diag = w₀.diag.setIfInBounds k d := by rw [hfields]
  have hwrest : w.rest = y := by rw [hfields]
  have hwmarks : w.marks = marks := by rw [hfields]
  unfold scan?
  unfold loadAt? at hload
  by_cases hek : e.1 = k
  · rw [if_pos hek] at hload
    cases hload
    obtain ⟨diag, hreplace, -⟩ := exists_replace? w.diag (i := k) e.2 (by simpa [hwdiag] using hdiag)
    have hkept : (order', marks') = (order, marks) := by
      rw [followRow?, if_pos hek] at hfollow
      exact (Option.some.inj hfollow).symm
    cases hkept
    refine ⟨{ w with diag }, ?_, ?_, h.met, h.metSize, h.waySize⟩
    · simp only [if_pos hek, hreplace, Option.bind_eq_bind, Option.bind_some, Option.pure_def]
    · obtain ⟨-, hset⟩ := replace?_eq_some.mp hreplace
      rw [hwdiag, Array.setIfInBounds_setIfInBounds] at hset
      subst hset
      conv_lhs => rw [hfields]
  · rw [if_neg hek] at hload
    obtain ⟨rest, hrest, hload⟩ := Option.map_eq_some_iff.mp hload
    cases hload
    simp only [if_neg hek, hwrest, hrest, hwmarks, Option.bind_eq_bind, Option.bind_some]
    rcases followRow?_cases hfollow with ⟨hkept, hmarked⟩ | ⟨-, hmark, p, marks'', hpath, hnext⟩
    · cases hkept
      refine ⟨{ w with marks, rest := y' }, ?_, ?_, h.met, h.metSize, h.waySize⟩
      · simp only [hmarked.resolve_left hek, Option.bind_some, if_true, Option.pure_def]
      · conv_lhs => rw [hfields]
    · cases hnext
      simp only [List.length_append] at hmet hway
      obtain ⟨way, hclimb, hwaySize, hwayPrefix⟩ := climb?_of_path hpath (l := [])
        (List.nil_prefix (l := w.way.toList)) (by rw [h.waySize]; simpa using by omega)
      have hq : order.reverse.length = order.length := List.length_reverse
      obtain ⟨met, hunload, hmetSize, hmetPrefix⟩ := unload?_of_prefix (p := p) hwayPrefix h.met
        (by rw [h.metSize]; omega)
      rw [hq] at hunload
      refine ⟨{ w with marks := marks', rest := y', met, way }, ?_, ?_, ?_, hmetSize.trans h.metSize,
        hwaySize.trans h.waySize⟩
      · have hclimb' : climb? parent k (parent.size + 1) e.1 0 w.way marks =
            some (p.length, way, marks') := by simpa using hclimb
        simp only [hmark, hclimb', hunload, Option.bind_some, if_neg, Bool.false_eq_true,
          not_false_eq_true, Option.pure_def, List.length_append, Nat.add_comm p.length]
      · conv_lhs => rw [hfields]
      · rw [List.reverse_append]
        exact hmetPrefix

theorem Scans.run {column : List (Nat × α)} (h : Scans k w₀ order marks y d w)
    (hfollow : (column.map Prod.fst).foldlM (followRow? parent k) (order, marks) =
      some (order', marks'))
    (hload : column.foldlM (loadAt? k) (y, d) = some (y', d')) (hdiag : k < w₀.diag.size)
    (hmet : order'.length ≤ w₀.met.size) (hway : order'.length ≤ w₀.way.size) :
    ∃ w', column.foldlM (scan? parent k) (order.length, w) = some (order'.length, w') ∧
      Scans k w₀ order' marks' y' d' w' := by
  induction column generalizing order marks y d w with
  | nil =>
    cases hfollow
    cases hload
    exact ⟨w, rfl, h⟩
  | cons e column ih =>
    rw [List.map_cons] at hfollow
    obtain ⟨⟨order₁, marks₁⟩, hfirst, hfollow⟩ := foldlM_cons_eq_some.mp hfollow
    obtain ⟨⟨y₁, d₁⟩, hentry, hload⟩ := foldlM_cons_eq_some.mp hload
    have hlength := length_le_of_foldlM hfollow
    obtain ⟨w₁, hscan, hw₁⟩ := h.step hfirst hentry hdiag (hlength.trans hmet) (hlength.trans hway)
    obtain ⟨w', hrest, hw'⟩ := ih hw₁ hfollow hload
    exact ⟨w', foldlM_cons_eq_some.mpr ⟨_, hscan, hrest⟩, hw'⟩

end Scan

end Workspace

end Ldl

end NonlinearOpt
