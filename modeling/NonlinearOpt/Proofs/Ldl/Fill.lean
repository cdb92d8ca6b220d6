import Mathlib
import NonlinearOpt.Proofs.Ldl.Defined

/-!
The analysis of a pattern is exact. Elimination of a variable joins its neighbours, so the factor
has an entry in row `k` and column `i` when `k` and `i` are joined by a path through variables that
come before both. Along the tree these are the rows that reach `i` on their way up.
-/

namespace NonlinearOpt

namespace Symbolic

open Ldl

def patternGraph (columns : List (List Nat)) : SimpleGraph Nat where
  Adj a b := a ≠ b ∧ (a ∈ columns.getD b [] ∨ b ∈ columns.getD a [])
  symm := ⟨fun _ _ h => ⟨h.1.symm, h.2.symm⟩⟩
  loopless := ⟨fun _ h => h.1 rfl⟩

theorem patternGraph_adj {columns : List (List Nat)} {a b : Nat} :
    (patternGraph columns).Adj a b ↔ a ≠ b ∧ (a ∈ columns.getD b [] ∨ b ∈ columns.getD a []) :=
  Iff.rfl

/-- The factor has an entry in row `k` and column `i`: they are joined by a path whose interior comes
before `i`. -/
def Filled (columns : List (List Nat)) (k i : Nat) : Prop :=
  i < k ∧ ∃ p : (patternGraph columns).Walk k i,
    p.IsPath ∧ ∀ v ∈ p.support, v ≠ k → v ≠ i → v < i

structure Exact (columns : List (List Nat)) (s : Symbolic) : Prop where
  parentSize : s.parent.size = columns.length
  countSize : s.count.size = columns.length
  parent : ∀ i k, s.parent[i]? = some (some k) ↔ IsLeast {k | Filled columns k i} k
  root : ∀ i, i < columns.length → (s.parent[i]? = some none ↔ ∀ k, ¬ Filled columns k i)
  count : ∀ i, i < columns.length → {k | Filled columns k i}.Finite ∧
    s.count[i]? = some {k | Filled columns k i}.ncard

variable {columns : List (List Nat)} {s : Symbolic}

theorem lt_length_of_mem {k i : Nat} (h : i ∈ columns.getD k []) : k < columns.length := by
  by_contra hk
  rw [List.getD_eq_default _ _ (Nat.le_of_not_lt hk)] at h
  exact List.not_mem_nil h

theorem Describes.ancestor_row (h : s.Describes columns) {k i : Nat}
    (hi : i ∈ columns.getD k []) : Ancestor s.parent i k := by
  have hk := lt_length_of_mem hi
  rw [List.getD_eq_getElem _ _ hk] at hi
  exact h.ancestor k _ (List.getElem?_eq_getElem hk) i hi

theorem Describes.ancestor_of_walk (h : s.Describes columns) {r i : Nat}
    (p : (patternGraph columns).Walk r i) (hp : ∀ v ∈ p.support, v ≤ i) :
    Ancestor s.parent r i := by
  induction p with
  | nil => exact .refl
  | @cons r q i hadj p ih =>
    have hq : Ancestor s.parent q i := ih fun v hv => hp v (by simp [hv])
    rcases (patternGraph_adj.mp hadj).2 with hrow | hrow
    · exact (h.ancestor_row hrow).trans hq
    · -- both `r` and `i` are above `q`, and `r` is the lower one
      exact ancestor_of_le h.rising (h.ancestor_row hrow) hq (hp r (by simp))

theorem Describes.exists_walk (h : s.Describes columns) {r i : Nat}
    (hri : Ancestor s.parent r i) :
    ∃ p : (patternGraph columns).Walk r i, ∀ v ∈ p.support, v ≤ i := by
  induction i using Nat.strong_induction_on generalizing r with
  | _ i ih =>
    rcases Relation.ReflTransGen.cases_tail hri with rfl | ⟨c, hrc, hci⟩
    · exact ⟨.nil, by simp⟩
    · have hlt := h.rising c i hci
      -- `i` became the parent of `c` because a row of column `i` leads up to `c`
      obtain ⟨-, q, hq, hqc⟩ := h.linked c i hci
      obtain ⟨up, hup⟩ := ih c hlt hrc
      obtain ⟨down, hdown⟩ := ih c hlt hqc
      have hqlt : q < i := (le_of_ancestor h.rising hqc).trans_lt hlt
      have hadj : (patternGraph columns).Adj q i := patternGraph_adj.mpr ⟨hqlt.ne, .inl hq⟩
      refine ⟨up.append (down.reverse.concat hadj), ?_⟩
      intro v hv
      rw [SimpleGraph.Walk.mem_support_append_iff, SimpleGraph.Walk.support_concat,
        List.mem_append, SimpleGraph.Walk.support_reverse,
        List.mem_reverse, List.mem_singleton] at hv
      rcases hv with hv | hv | rfl
      · exact (hup v hv).trans hlt.le
      · exact (hdown v hv).trans hlt.le
      · exact Nat.le_refl _

theorem Describes.filled_of_fills (h : s.Describes columns) {k i : Nat}
    (hk : Fills s.parent (columns.getD k []) k i) : Filled columns k i := by
  obtain ⟨hik, r, hr, hri⟩ := hk
  obtain ⟨p, hp⟩ := h.exists_walk hri
  have hrk : r < k := (le_of_ancestor h.rising hri).trans_lt hik
  have hadj : (patternGraph columns).Adj k r := patternGraph_adj.mpr ⟨hrk.ne', .inr hr⟩
  refine ⟨hik, (SimpleGraph.Walk.cons hadj p).bypass, SimpleGraph.Walk.bypass_isPath _, ?_⟩
  intro v hv hvk hvi
  have hmem := SimpleGraph.Walk.support_bypass_subset_support _ hv
  rw [SimpleGraph.Walk.support_cons, List.mem_cons] at hmem
  exact Nat.lt_of_le_of_ne (hp v (hmem.resolve_left hvk)) hvi

theorem Describes.fills_of_filled (h : s.Describes columns) (hupper : Upper columns) {k i : Nat}
    (hk : Filled columns k i) : Fills s.parent (columns.getD k []) k i := by
  obtain ⟨hik, p, hpath, hp⟩ := hk
  cases p with
  | nil => exact absurd hik (Nat.lt_irrefl _)
  | @cons _ r _ hadj p =>
    obtain ⟨-, hfresh⟩ := SimpleGraph.Walk.cons_isPath_iff hadj p |>.mp hpath
    have hbelow : ∀ v ∈ p.support, v ≤ i := by
      intro v hv
      by_cases hvi : v = i
      · exact hvi.le
      · have hvk : v ≠ k := fun heq => hfresh (heq ▸ hv)
        exact (hp v (by simp [hv]) hvk hvi).le
    have hrk : r < k := (hbelow r p.start_mem_support).trans_lt hik
    refine ⟨hik, r, ?_, h.ancestor_of_walk p hbelow⟩
    -- the upper triangle stores the edge in the later of its two columns
    refine (patternGraph_adj.mp hadj).2.resolve_left fun hstored => ?_
    have hlt := lt_length_of_mem hstored
    rw [List.getD_eq_getElem _ _ hlt] at hstored
    have := hupper r _ (List.getElem?_eq_getElem hlt) k hstored
    omega

/-- The fill along the tree is the fill along paths. -/
theorem Describes.fills_iff (h : s.Describes columns) (hupper : Upper columns) {k i : Nat} :
    Fills s.parent (columns.getD k []) k i ↔ Filled columns k i :=
  ⟨h.filled_of_fills, h.fills_of_filled hupper⟩

theorem Describes.ancestor_of_fills (h : s.Describes columns) {k i : Nat}
    (hk : Fills s.parent (columns.getD k []) k i) : Ancestor s.parent i k :=
  hk.ancestor h.rising fun _ hr => h.ancestor_row hr

theorem Describes.isLeast_parent (h : s.Describes columns) (hupper : Upper columns) {i u : Nat}
    (hiu : IsParent s.parent i u) : IsLeast {k | Filled columns k i} u := by
  refine ⟨h.filled_of_fills (h.linked i u hiu), ?_⟩
  intro k hk
  have habove := h.ancestor_of_fills (h.fills_of_filled hupper hk)
  rcases Relation.ReflTransGen.cases_head habove with rfl | ⟨u', hiu', hk'⟩
  · exact absurd hk.1 (Nat.lt_irrefl _)
  · unfold IsParent at hiu hiu'
    rw [hiu] at hiu'
    cases hiu'
    exact le_of_ancestor h.rising hk'

theorem Describes.exists_parent (h : s.Describes columns) (hupper : Upper columns) {k i : Nat}
    (hk : Filled columns k i) : ∃ u, IsParent s.parent i u := by
  have habove := h.ancestor_of_fills (h.fills_of_filled hupper hk)
  rcases Relation.ReflTransGen.cases_head habove with rfl | ⟨u, hiu, -⟩
  · exact absurd hk.1 (Nat.lt_irrefl _)
  · exact ⟨u, hiu⟩

theorem Describes.coe_fillRows (h : s.Describes columns) (hupper : Upper columns) (i : Nat) :
    {k | Filled columns k i} = (fillRows s.parent columns i columns.length).toFinset := by
  ext k
  rw [Set.mem_ofPred_eq, Finset.mem_coe, List.mem_toFinset, mem_fillRows, h.fills_iff hupper]
  refine ⟨fun hk => ⟨?_, hk⟩, And.right⟩
  obtain ⟨-, r, hr, -⟩ := h.fills_of_filled hupper hk
  exact lt_length_of_mem hr

theorem Describes.exact (h : s.Describes columns) (hupper : Upper columns) :
    s.Exact columns := by
  have hparent : ∀ i k, s.parent[i]? = some (some k) ↔ IsLeast {k | Filled columns k i} k := by
    intro i k
    refine ⟨h.isLeast_parent hupper, fun hk => ?_⟩
    obtain ⟨u, hiu⟩ := h.exists_parent hupper hk.1
    rw [hk.unique (h.isLeast_parent hupper hiu)]
    exact hiu
  refine ⟨h.size, h.countSize, hparent, ?_, ?_⟩
  · intro i hi
    have hbound : i < s.parent.size := h.size.symm ▸ hi
    have hget : s.parent[i]? = some s.parent[i] := Array.getElem?_eq_getElem hbound
    constructor
    · intro hroot k hk
      obtain ⟨u, hiu⟩ := h.exists_parent hupper hk
      rw [IsParent, hroot] at hiu
      cases hiu
    · intro hnone
      cases hup : s.parent[i] with
      | none => rw [hget, hup]
      | some u => exact absurd ((hparent i u).mp (hup ▸ hget)).1 (hnone u)
  · intro i hi
    have hnodup : (fillRows s.parent columns i columns.length).Nodup :=
      List.nodup_range.filter _
    rw [h.coe_fillRows hupper, Set.ncard_coe_finset, List.toFinset_card_of_nodup hnodup]
    exact ⟨Finset.finite_toSet _, h.count i hi⟩

end Symbolic

namespace Csc

variable {α : Type} {a : Csc α}

theorem exists_mapM_rowsOf? (hpointers : a.colStart.size = a.cols + 1)
    (hrising : a.colStart.toList.IsChain (· ≤ ·))
    (htotal : ∀ last ∈ a.colStart, last ≤ a.rowIndex.size) :
    ∃ columns, (List.range a.cols).mapM a.rowsOf? = some columns := by
  apply exists_mapM
  intro j hj
  have hj := List.mem_range.mp hj
  have hle : a.colStart[j] ≤ a.colStart[j + 1] :=
    List.isChain_iff_getElem.mp hrising j (by simp; omega)
  have hlast : a.colStart[j + 1] ≤ a.rowIndex.size := htotal _ (Array.getElem_mem _)
  have hspan : a.span? j = some (a.colStart[j], a.colStart[j + 1]) := by
    simp [Csc.span?, hpointers, show j < a.cols + 1 by omega, show j + 1 < a.cols + 1 by omega]
  exact ⟨(a.rowIndex.extract a.colStart[j] a.colStart[j + 1]).toList, by
    simp [Csc.rowsOf?, hspan, slice?, hle, hlast]⟩

/-- The pattern of every upper triangle is analyzed, and the analysis is exact. Rows of a column may
be stored in any order and more than once. -/
theorem exists_exact_symbolic (hpointers : a.colStart.size = a.cols + 1)
    (hrising : a.colStart.toList.IsChain (· ≤ ·))
    (htotal : ∀ last ∈ a.colStart, last ≤ a.rowIndex.size)
    (hupper : ∀ j rows, a.rowsOf? j = some rows → ∀ i ∈ rows, i ≤ j) :
    ∃ columns s, (List.range a.cols).mapM a.rowsOf? = some columns ∧
      columns.length = a.cols ∧ Symbolic.ofColumns? columns = some s ∧ s.Exact columns := by
  obtain ⟨columns, hcolumns⟩ := exists_mapM_rowsOf? hpointers hrising htotal
  have hlength := length_of_mapM hcolumns
  rw [List.length_range] at hlength
  have hrows : ∀ (k : Nat) rows, columns[k]? = some rows → ∀ i ∈ rows, i ≤ k := by
    intro k rows hk
    have hlt : k < a.cols := hlength ▸ (List.getElem?_eq_some_iff.mp hk).1
    rw [getElem?_of_mapM hcolumns, List.getElem?_range hlt, Option.bind_some] at hk
    exact hupper k rows hk
  obtain ⟨s, hs⟩ := Symbolic.exists_ofColumns? hrows
  exact ⟨columns, s, hcolumns, hlength, hs, (Symbolic.ofColumns?_describes hs hrows).exact hrows⟩

/-- An upper triangle with unordered columns and a position stored twice. Rows 1 and 3 are joined by
a path through 0. -/
def unordered : Csc Nat :=
  ⟨4, 4, #[0, 1, 4, 5, 8], #[0, 1, 0, 0, 2, 3, 0, 2], #[5, 5, 1, 1, 5, 5, 1, 1]⟩

theorem exists_exact_symbolic_unordered :
    ∃ columns s, (List.range unordered.cols).mapM unordered.rowsOf? = some columns ∧
      columns.length = unordered.cols ∧ Symbolic.ofColumns? columns = some s ∧
      s.Exact columns := by
  refine exists_exact_symbolic (by decide) (by decide) (by decide) ?_
  intro j rows hj
  have hlt : j < 4 := by
    obtain ⟨span, hspan, -⟩ := Option.bind_eq_some_iff.mp hj
    obtain ⟨first, -, hspan⟩ := Option.bind_eq_some_iff.mp hspan
    obtain ⟨last, hlast, -⟩ := Option.bind_eq_some_iff.mp hspan
    exact Nat.lt_of_succ_lt_succ (Array.getElem?_eq_some_iff.mp hlast).1
  have hupper : ∀ j < 4, ∀ rows ∈ unordered.rowsOf? j, ∀ i ∈ rows, i ≤ j := by decide
  exact hupper j hlt rows hj

example : ((List.range unordered.cols).mapM unordered.rowsOf?).bind Symbolic.ofColumns? =
    some { parent := #[some 1, some 3, some 3, none], count := #[2, 1, 1, 0] } := by
  decide

end Csc

end NonlinearOpt
