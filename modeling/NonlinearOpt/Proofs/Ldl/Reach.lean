import NonlinearOpt.Proofs.Partial
import NonlinearOpt.Ldl.Numeric
import Mathlib

namespace NonlinearOpt

namespace Ldl

section Ancestors

/-- The parent of a node. -/
def IsParent (parent : Array (Option Nat)) (c u : Nat) : Prop := parent[c]? = some (some u)

def Ancestor (parent : Array (Option Nat)) : Nat → Nat → Prop :=
  Relation.ReflTransGen (IsParent parent)

def Rising (parent : Array (Option Nat)) : Prop := ∀ c u, IsParent parent c u → c < u

variable {parent : Array (Option Nat)}

theorem le_of_ancestor (hrising : Rising parent) {c u : Nat} (h : Ancestor parent c u) :
    c ≤ u := by
  induction h with
  | refl => exact Nat.le_refl _
  | tail _ hstep ih =>
    have := hrising _ _ hstep
    omega

theorem ancestor_of_le (hrising : Rising parent) {i a b : Nat} (ha : Ancestor parent i a)
    (hb : Ancestor parent i b) (hab : a ≤ b) : Ancestor parent a b := by
  induction ha using Relation.ReflTransGen.head_induction_on with
  | refl => exact hb
  | head hstep hrest ih =>
    rcases Relation.ReflTransGen.cases_head hb with rfl | ⟨u, hu, hub⟩
    · have := hrising _ _ hstep
      have := le_of_ancestor hrising hrest
      omega
    · unfold IsParent at hu hstep
      rw [hstep] at hu
      cases hu
      exact ih hub

end Ancestors

section Paths

variable {parent : Array (Option Nat)} {k : Nat}

theorem path_cases {fuel i : Nat} {marks marks' : Array Bool} {p : List Nat}
    (h : path parent k (fuel + 1) i marks = some (p, marks')) :
    ∃ marked, replace? marks i true = some marked ∧
      ((p = [i] ∧ marks' = marked ∧
          ∀ u, IsParent parent i u → u < k → marked[u]? = some true) ∨
        ∃ u rest, IsParent parent i u ∧ u < k ∧ marked[u]? = some false ∧ p = i :: rest ∧
          path parent k fuel u marked = some (rest, marks')) := by
  rw [path] at h
  obtain ⟨marked, hmarked, h⟩ := Option.bind_eq_some_iff.mp h
  refine ⟨marked, hmarked, ?_⟩
  obtain ⟨up, hup, h⟩ := Option.bind_eq_some_iff.mp h
  cases up with
  | none =>
    cases h
    refine .inl ⟨rfl, rfl, ?_⟩
    intro u hu
    unfold IsParent at hu
    rw [hup] at hu
    cases hu
  | some up =>
    simp only at h
    split at h
    · next hk =>
      cases h
      refine .inl ⟨rfl, rfl, ?_⟩
      intro u hu hlt
      unfold IsParent at hu
      rw [hup] at hu
      cases hu
      omega
    · next hk =>
      obtain ⟨mark, hmark, h⟩ := Option.bind_eq_some_iff.mp h
      cases mark with
      | true =>
        cases h
        refine .inl ⟨rfl, rfl, ?_⟩
        intro u hu _
        unfold IsParent at hu
        rw [hup] at hu
        cases hu
        exact hmark
      | false =>
        obtain ⟨⟨rest, marks''⟩, hrest, h⟩ := Option.bind_eq_some_iff.mp h
        cases h
        exact .inr ⟨up, rest, hup, by omega, hmark, rfl, hrest⟩

theorem path_lt {fuel i : Nat} {marks marks' : Array Bool} {p : List Nat}
    (h : path parent k fuel i marks = some (p, marks')) (hi : i < k) : ∀ c ∈ p, c < k := by
  induction fuel generalizing i marks p with
  | zero => cases h
  | succ fuel ih =>
    obtain ⟨marked, -, h⟩ := path_cases h
    rcases h with ⟨rfl, -, -⟩ | ⟨u, rest, -, hu, -, rfl, hrest⟩
    · simpa using hi
    · intro c hc
      rcases List.mem_cons.mp hc with rfl | hc
      · exact hi
      · exact ih hrest hu c hc

theorem mem_of_path {fuel i : Nat} {marks marks' : Array Bool} {p : List Nat}
    (h : path parent k fuel i marks = some (p, marks')) : i ∈ p := by
  cases fuel with
  | zero => cases h
  | succ fuel =>
    obtain ⟨_, -, ⟨rfl, -⟩ | ⟨_, _, -, -, -, rfl, -⟩⟩ := path_cases h
    · exact List.mem_cons_self
    · exact List.mem_cons_self

theorem size_of_path {fuel i : Nat} {marks marks' : Array Bool} {p : List Nat}
    (h : path parent k fuel i marks = some (p, marks')) : marks'.size = marks.size := by
  induction fuel generalizing i marks p with
  | zero => cases h
  | succ fuel ih =>
    obtain ⟨marked, hmarked, h⟩ := path_cases h
    have hsize := size_of_replace? hmarked
    rcases h with ⟨-, rfl, -⟩ | ⟨u, rest, -, -, -, -, hrest⟩
    · exact hsize
    · exact (ih hrest).trans hsize

/-- The parents of listed nodes are listed further on, if they lie below `k`. -/
def Closed (parent : Array (Option Nat)) (k : Nat) : List Nat → Prop
  | [] => True
  | c :: rest => (∀ u, IsParent parent c u → u < k → u ∈ rest) ∧ Closed parent k rest

structure Climbs (parent : Array (Option Nat)) (i : Nat) (marks marks' : Array Bool)
    (p : List Nat) : Prop where
  start : i ∈ p
  nodup : p.Nodup
  above : ∀ c ∈ p, Ancestor parent i c
  fresh : ∀ c ∈ p, marks[c]? ≠ some true
  marks : ∀ c : Nat, marks'[c]? = some true ↔ marks[c]? = some true ∨ c ∈ p

theorem path_climbs (hrising : Rising parent) {fuel i : Nat} {marks marks' : Array Bool}
    {p : List Nat} (h : path parent k fuel i marks = some (p, marks'))
    (hfresh : marks[i]? ≠ some true) : Climbs parent i marks marks' p := by
  induction fuel generalizing i marks p with
  | zero => cases h
  | succ fuel ih =>
    obtain ⟨marked, hmarked, h⟩ := path_cases h
    have hget := getElem?_of_replace? hmarked
    rcases h with ⟨rfl, rfl, -⟩ | ⟨u, rest, hparent, -, hunmarked, rfl, hrest⟩
    · constructor
      · simp
      · simp
      · intro c hc
        rw [List.mem_singleton.mp hc]
        exact .refl
      · intro c hc
        rwa [List.mem_singleton.mp hc]
      · intro c
        rw [hget]
        by_cases hc : i = c
        · simp [hc]
        · simp [hc, Ne.symm hc]
    · have hclimbs := ih hrest (by simp [hunmarked])
      -- the numbers rise on the way up, so it does not come back to `i`
      have hlt : ∀ c ∈ rest, i < c := by
        intro c hc
        have := hrising _ _ hparent
        have := le_of_ancestor hrising (hclimbs.above c hc)
        omega
      constructor
      · simp
      · rw [List.nodup_cons]
        refine ⟨?_, hclimbs.nodup⟩
        intro hi
        exact Nat.lt_irrefl i (hlt i hi)
      · intro c hc
        rcases List.mem_cons.mp hc with rfl | hc
        · exact .refl
        · exact .head hparent (hclimbs.above c hc)
      · intro c hc
        rcases List.mem_cons.mp hc with rfl | hc
        · exact hfresh
        · have := hclimbs.fresh c hc
          rwa [hget, if_neg (Nat.ne_of_lt (hlt c hc))] at this
      · intro c
        rw [hclimbs.marks, hget]
        by_cases hc : i = c
        · simp [hc]
        · simp [hc, Ne.symm hc]

theorem path_closed (hrising : Rising parent) {fuel i : Nat} {marks marks' : Array Bool}
    {p order : List Nat} (h : path parent k fuel i marks = some (p, marks'))
    (horder : ∀ c, i ≤ c → marks[c]? = some true → c ∈ order)
    (hclosed : Closed parent k order) : Closed parent k (p ++ order) := by
  induction fuel generalizing i marks p with
  | zero => cases h
  | succ fuel ih =>
    obtain ⟨marked, hmarked, h⟩ := path_cases h
    have hget := getElem?_of_replace? hmarked
    have hmem : ∀ u, i < u → marked[u]? = some true → u ∈ order := by
      intro u hu hmark
      rw [hget, if_neg (Nat.ne_of_lt hu)] at hmark
      exact horder u (by omega) hmark
    rcases h with ⟨rfl, rfl, hstop⟩ | ⟨u, rest, hparent, -, hunmarked, rfl, hrest⟩
    · refine ⟨?_, hclosed⟩
      intro u hu hk
      exact hmem u (hrising _ _ hu) (hstop u hu hk)
    · have hi := hrising _ _ hparent
      refine ⟨?_, ih hrest fun c hc => hmem c (by omega)⟩
      intro u' hu' _
      unfold IsParent at hu' hparent
      rw [hparent] at hu'
      cases hu'
      cases fuel with
      | zero => cases hrest
      | succ fuel =>
        obtain ⟨_, -, h⟩ := path_cases hrest
        rcases h with ⟨rfl, -, -⟩ | ⟨_, _, -, -, -, rfl, -⟩ <;> simp

end Paths

section Reach

variable {parent : Array (Option Nat)} {k : Nat}

def followRow? (parent : Array (Option Nat)) (k : Nat) (s : List Nat × Array Bool) (i : Nat) :
    Option (List Nat × Array Bool) := do
  if i = k then return s
  if ← s.2[i]? then return s
  let (p, marks) ← path parent k (parent.size + 1) i s.2
  return (p ++ s.1, marks)

theorem reach?_eq (rows : List Nat) :
    reach? parent k rows =
      (rows.foldlM (followRow? parent k) ([], Array.replicate parent.size false)).map (·.1) := by
  rw [Option.map_eq_bind]
  rfl

theorem followRow?_cases {s s' : List Nat × Array Bool} {i : Nat}
    (h : followRow? parent k s i = some s') :
    s' = s ∧ (i = k ∨ s.2[i]? = some true) ∨
      i ≠ k ∧ s.2[i]? = some false ∧
        ∃ p marks, path parent k (parent.size + 1) i s.2 = some (p, marks) ∧
          s' = (p ++ s.1, marks) := by
  unfold followRow? at h
  split at h
  · next hik =>
    cases h
    exact .inl ⟨rfl, .inl hik⟩
  · next hik =>
    obtain ⟨mark, hmark, h⟩ := Option.bind_eq_some_iff.mp h
    cases mark with
    | true =>
      cases h
      exact .inl ⟨rfl, .inr hmark⟩
    | false =>
      obtain ⟨⟨p, marks⟩, hpath, h⟩ := Option.bind_eq_some_iff.mp h
      cases h
      exact .inr ⟨hik, hmark, p, marks, hpath, rfl⟩

theorem reach?_lt {rows order : List Nat} (h : reach? parent k rows = some order)
    (hrows : ∀ i ∈ rows, i ≤ k) : ∀ c ∈ order, c < k := by
  rw [reach?_eq, Option.map_eq_some_iff] at h
  obtain ⟨s, hfold, rfl⟩ := h
  apply foldlM_invariant (P := fun s => ∀ c ∈ s.1, c < k) (by simp) _ hfold
  intro i hi s s' hs hstep
  rcases followRow?_cases hstep with ⟨rfl, -⟩ | ⟨hik, -, p, marks, hpath, rfl⟩
  · exact hs
  · intro c hc
    have := hrows i hi
    rcases List.mem_append.mp hc with hc | hc
    · exact path_lt hpath (by omega) c hc
    · exact hs c hc

structure Reached (parent : Array (Option Nat)) (k : Nat) (seen : List Nat)
    (s : List Nat × Array Bool) : Prop where
  nodup : s.1.Nodup
  closed : Closed parent k s.1
  marks : ∀ c : Nat, s.2[c]? = some true ↔ c ∈ s.1
  start : ∀ i ∈ seen, i ≠ k → i ∈ s.1
  above : ∀ c ∈ s.1, ∃ i ∈ seen, Ancestor parent i c

theorem Reached.step (hrising : Rising parent) {seen : List Nat} {s s' : List Nat × Array Bool}
    {i : Nat} (hs : Reached parent k seen s) (h : followRow? parent k s i = some s') :
    Reached parent k (seen ++ [i]) s' := by
  rcases followRow?_cases h with ⟨rfl, hseen⟩ | ⟨hik, hunmarked, p, marks, hpath, rfl⟩
  · refine { hs with start := ?_, above := ?_ }
    · intro j hj hjk
      rcases List.mem_append.mp hj with hj | hj
      · exact hs.start j hj hjk
      · rw [List.mem_singleton.mp hj] at hjk ⊢
        exact (hs.marks i).mp (hseen.resolve_left hjk)
    · intro c hc
      obtain ⟨j, hj, hjc⟩ := hs.above c hc
      exact ⟨j, by simp [hj], hjc⟩
  · have hclimbs := path_climbs hrising hpath (by simp [hunmarked])
    constructor
    · rw [List.nodup_append']
      refine ⟨hclimbs.nodup, hs.nodup, ?_⟩
      intro c hc hmem
      exact hclimbs.fresh c hc ((hs.marks c).mpr hmem)
    · exact path_closed hrising hpath (fun c _ hc => (hs.marks c).mp hc) hs.closed
    · intro c
      rw [hclimbs.marks, hs.marks, List.mem_append, Or.comm]
    · intro j hj hjk
      rcases List.mem_append.mp hj with hj | hj
      · exact List.mem_append_right _ (hs.start j hj hjk)
      · rw [List.mem_singleton.mp hj]
        exact List.mem_append_left _ hclimbs.start
    · intro c hc
      rcases List.mem_append.mp hc with hc | hc
      · exact ⟨i, by simp, hclimbs.above c hc⟩
      · obtain ⟨j, hj, hjc⟩ := hs.above c hc
        exact ⟨j, by simp [hj], hjc⟩

theorem reached_of_foldlM (hrising : Rising parent) {rows : List Nat} {s : List Nat × Array Bool}
    (h : rows.foldlM (followRow? parent k) ([], Array.replicate parent.size false) = some s) :
    Reached parent k rows s := by
  have hinit : Reached parent k [] ([], Array.replicate parent.size false) := by
    constructor
    · exact List.nodup_nil
    · trivial
    · intro c
      simp [Array.getElem?_replicate]
    · simp
    · simp
  refine foldlM_invariant_taken (P := Reached parent k) hinit ?_ h
  exact fun seen i _ _ s s' hs hstep => hs.step hrising hstep

/-- The columns met by row `k`: each once, before its parent, and all on the ways up from the rows
of the column. -/
theorem reached_of_reach? (hrising : Rising parent) {rows order : List Nat}
    (h : reach? parent k rows = some order) :
    ∃ marks, Reached parent k rows (order, marks) := by
  rw [reach?_eq, Option.map_eq_some_iff] at h
  obtain ⟨⟨order, marks⟩, hfold, rfl⟩ := h
  exact ⟨marks, reached_of_foldlM hrising hfold⟩

theorem size_of_followRows {rows : List Nat} {s s' : List Nat × Array Bool}
    (h : rows.foldlM (followRow? parent k) s = some s') : s'.2.size = s.2.size := by
  refine foldlM_invariant (P := fun t : List Nat × Array Bool => t.2.size = s.2.size) rfl ?_ h
  intro i _ t t' ht hstep
  rcases followRow?_cases hstep with ⟨rfl, -⟩ | ⟨-, -, p, marks, hpath, rfl⟩
  · exact ht
  · exact (size_of_path hpath).trans ht

theorem closed_of_append {order order' : List Nat} (h : Closed parent k (order ++ order')) :
    Closed parent k order' := by
  induction order with
  | nil => exact h
  | cons c order ih => exact ih h.2

theorem mem_of_closed (hrising : Rising parent) {order : List Nat}
    (hclosed : Closed parent k order) {c u : Nat} (hc : c ∈ order) (hcu : Ancestor parent c u)
    (hu : u < k) : u ∈ order := by
  have hstep : ∀ {list : List Nat}, Closed parent k list → ∀ c ∈ list, ∀ u, IsParent parent c u →
      u < k → u ∈ list := by
    intro list
    induction list with
    | nil => simp
    | cons d list ih =>
      intro hlist c hc u hcu hu
      rcases List.mem_cons.mp hc with rfl | hc
      · exact List.mem_cons_of_mem _ (hlist.1 u hcu hu)
      · exact List.mem_cons_of_mem _ (ih hlist.2 c hc u hcu hu)
  induction hcu with
  | refl => exact hc
  | tail _ hparent ih =>
    have := hrising _ _ hparent
    exact hstep hclosed _ (ih (by omega)) _ hparent hu

end Reach

end Ldl

end NonlinearOpt
