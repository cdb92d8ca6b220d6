import Mathlib
import NonlinearOpt.Ldl.EliminationTree
import NonlinearOpt.Proofs.Ldl.Reach

namespace NonlinearOpt

namespace Ldl

/-- Row `k` of the factor has an entry in column `c`, if column `k` of the matrix has the given
rows. -/
def Fills (parent : Array (Option Nat)) (rows : List Nat) (k c : Nat) : Prop :=
  c < k ∧ ∃ i ∈ rows, Ancestor parent i c

open Classical in
noncomputable def fillRows (parent : Array (Option Nat)) (columns : List (List Nat))
    (c m : Nat) : List Nat :=
  (List.range m).filter fun k => Fills parent (columns.getD k []) k c

variable {parent parent' : Array (Option Nat)}

theorem Ancestor.mono (h : ∀ c u, IsParent parent c u → IsParent parent' c u) {c u : Nat}
    (hcu : Ancestor parent c u) : Ancestor parent' c u :=
  Relation.ReflTransGen.mono h _ _ hcu

theorem isParent_replace?_iff {i p : Nat} (h : replace? parent i (some p) = some parent')
    {c u : Nat} : IsParent parent' c u ↔ if i = c then p = u else IsParent parent c u := by
  unfold IsParent
  rw [getElem?_of_replace? h]
  split <;> simp

theorem IsParent.kept {i k : Nat} {p : Option Nat} (hp : parent[i]? = some p)
    (h : replace? parent i (some (p.getD k)) = some parent') {c u : Nat}
    (hcu : IsParent parent c u) : IsParent parent' c u := by
  rw [isParent_replace?_iff h]
  split
  · next hic =>
    subst hic
    unfold IsParent at hcu
    rw [hp, Option.some.injEq] at hcu
    rw [hcu, Option.getD_some]
  · exact hcu

theorem Fills.ancestor (hrising : Rising parent) {rows : List Nat} {k c : Nat}
    (h : Fills parent rows k c) (hrows : ∀ i ∈ rows, Ancestor parent i k) :
    Ancestor parent c k := by
  obtain ⟨hck, i, hi, hic⟩ := h
  exact ancestor_of_le hrising hic (hrows i hi) (Nat.le_of_lt hck)

theorem Fills.up {rows : List Nat} {k c u : Nat} (h : Fills parent rows k c)
    (hcu : Ancestor parent c u) (hu : u < k) : Fills parent rows k u := by
  obtain ⟨-, i, hi, hic⟩ := h
  exact ⟨hu, i, hi, hic.trans hcu⟩

theorem mem_fillRows {columns : List (List Nat)} {c m k : Nat} :
    k ∈ fillRows parent columns c m ↔ k < m ∧ Fills parent (columns.getD k []) k c := by
  simp [fillRows]

open Classical in
theorem fillRows_succ (columns : List (List Nat)) (c m : Nat) :
    fillRows parent columns c (m + 1) = fillRows parent columns c m ++
      if Fills parent (columns.getD m []) m c then [m] else [] := by
  unfold fillRows
  rw [List.range_succ, List.filter_append, List.filter_singleton]
  simp

theorem mem_reach?_iff (hrising : Rising parent) {k : Nat} {rows order : List Nat}
    (h : reach? parent k rows = some order) (hrows : ∀ i ∈ rows, i ≤ k) {c : Nat} :
    c ∈ order ↔ Fills parent rows k c := by
  obtain ⟨marks, hreached⟩ := reached_of_reach? hrising h
  constructor
  · intro hc
    exact ⟨reach?_lt h hrows c hc, hreached.above c hc⟩
  · rintro ⟨hck, i, hi, hic⟩
    have hle := le_of_ancestor hrising hic
    exact mem_of_closed hrising hreached.closed (hreached.start i hi (by omega)) hic hck

end Ldl

namespace Symbolic

open Ldl

def Upper (columns : List (List Nat)) : Prop :=
  ∀ (k : Nat) rows, columns[k]? = some rows → ∀ i ∈ rows, i ≤ k

theorem Upper.init {columns : List (List Nat)} {rows : List Nat} (h : Upper (columns ++ [rows])) :
    Upper columns := by
  intro k rows' hk
  have hlt := (List.getElem?_eq_some_iff.mp hk).1
  exact h k rows' (by rw [List.getElem?_append_left hlt, hk])

theorem upper_map_fst {α : Type} {columns : List (List (Nat × α))}
    (h : ∀ (k : Nat) column, columns[k]? = some column → ∀ e ∈ column, e.1 ≤ k) :
    Upper (columns.map (List.map Prod.fst)) := by
  intro k rows hk i hi
  rw [List.getElem?_map, Option.map_eq_some_iff] at hk
  obtain ⟨column, hcolumn, rfl⟩ := hk
  obtain ⟨e, he, rfl⟩ := List.mem_map.mp hi
  exact h k column hcolumn e he

section Climb

theorem climb_cases {j fuel i : Nat} {s s' : Progress} (h : climb j (fuel + 1) i s = some s') :
    s.reached[i]? = some j ∧ s' = s ∨
      ∃ r p m parent count reached, s.reached[i]? = some r ∧ r ≠ j ∧ s.parent[i]? = some p ∧
        s.count[i]? = some m ∧ replace? s.parent i (some (p.getD j)) = some parent ∧
        replace? s.count i (m + 1) = some count ∧ replace? s.reached i j = some reached ∧
        climb j fuel (p.getD j) { parent, count, reached } = some s' := by
  rw [climb] at h
  obtain ⟨r, hr, h⟩ := Option.bind_eq_some_iff.mp h
  by_cases hrj : r = j
  · rw [if_pos hrj] at h
    cases h
    exact .inl ⟨hrj ▸ hr, rfl⟩
  · rw [if_neg hrj] at h
    obtain ⟨p, hp, h⟩ := Option.bind_eq_some_iff.mp h
    obtain ⟨parent, hparent, h⟩ := Option.bind_eq_some_iff.mp h
    obtain ⟨m, hm, h⟩ := Option.bind_eq_some_iff.mp h
    obtain ⟨count, hcount, h⟩ := Option.bind_eq_some_iff.mp h
    obtain ⟨reached, hreached, h⟩ := Option.bind_eq_some_iff.mp h
    exact .inr ⟨r, p, m, parent, count, reached, hr, hrj, hp, hm, hparent, hcount, hreached, h⟩

structure Before (j : Nat) (s : Progress) : Prop where
  parent : ∀ c u, IsParent s.parent c u → c < u ∧ u < j
  reached : ∀ c r : Nat, s.reached[c]? = some r → r = c ∨ c < r ∧ r < j

/-- The analysis while rows of column `j` are followed up the tree. All parents of visited nodes are
visited, except for the next one. -/
structure Climbing (start : Progress) (j : Nat) (seen : List Nat) (visited : Finset Nat)
    (next : Nat) (s : Progress) : Prop where
  size : s.parent.size = start.parent.size
  countSize : s.count.size = start.count.size
  kept : ∀ c u, IsParent start.parent c u → IsParent s.parent c u
  added : ∀ c u, IsParent s.parent c u → IsParent start.parent c u ∨ c ∈ visited ∧ u = j
  up : ∀ c ∈ visited, ∃ u, IsParent s.parent c u ∧ u ≤ j ∧ (u = j ∨ u = next ∨ u ∈ visited)
  above : ∀ c ∈ visited, c < j ∧ ∃ i ∈ seen, Ancestor s.parent i c
  count : ∀ c : Nat, s.count[c]? = start.count[c]?.map (· + if c ∈ visited then 1 else 0)
  reached : ∀ c : Nat, s.reached[c]? =
    if c ∈ visited then start.reached[c]?.map fun _ => j else start.reached[c]?

theorem climbing_refl (start : Progress) (j : Nat) : Climbing start j [] ∅ j start := by
  constructor <;> simp

variable {start s s' : Progress} {j i : Nat} {seen : List Nat} {visited : Finset Nat}

theorem Climbing.fresh (hstart : Before j start) (h : Climbing start j seen visited i s) {r : Nat}
    (hr : s.reached[i]? = some r) (hrj : r ≠ j) (hi : i ≤ j) : i ∉ visited ∧ i < j := by
  have hold := h.reached i
  have hfresh : i ∉ visited := by
    intro hmem
    rw [if_pos hmem, hr, eq_comm, Option.map_eq_some_iff] at hold
    obtain ⟨_, -, hj⟩ := hold
    exact hrj hj.symm
  rw [if_neg hfresh, hr] at hold
  have := hstart.reached i r hold.symm
  exact ⟨hfresh, by omega⟩

theorem Climbing.next_le (hstart : Before j start) (h : Climbing start j seen visited i s)
    (hfresh : i ∉ visited) (hlt : i < j) {p : Option Nat} (hp : s.parent[i]? = some p) :
    i < p.getD j ∧ p.getD j ≤ j := by
  cases p with
  | none => exact ⟨hlt, Nat.le_refl _⟩
  | some u =>
    have hu := (h.added i u hp).resolve_right fun hadded => hfresh hadded.1
    have := hstart.parent i u hu
    exact ⟨this.1, Nat.le_of_lt this.2⟩

theorem Climbing.up_visit (h : Climbing start j seen visited i s) {parent : Array (Option Nat)}
    {next : Nat} (hle : next ≤ j) (hkept : ∀ c u, IsParent s.parent c u → IsParent parent c u)
    (hnew : IsParent parent i next) : ∀ c ∈ insert i visited,
      ∃ u, IsParent parent c u ∧ u ≤ j ∧ (u = j ∨ u = next ∨ u ∈ insert i visited) := by
  intro c hc
  rcases Finset.mem_insert.mp hc with rfl | hc
  · exact ⟨_, hnew, hle, .inr (.inl rfl)⟩
  · obtain ⟨u, hcu, hu, hnext⟩ := h.up c hc
    refine ⟨u, hkept c u hcu, hu, ?_⟩
    rcases hnext with hj | rfl | hmem
    · exact .inl hj
    · exact .inr (.inr (Finset.mem_insert_self _ _))
    · exact .inr (.inr (Finset.mem_insert_of_mem hmem))

theorem Climbing.count_visit (h : Climbing start j seen visited i s) (hfresh : i ∉ visited)
    {m : Nat} {count : Array Nat} (hm : s.count[i]? = some m)
    (hcount : replace? s.count i (m + 1) = some count) (c : Nat) :
    count[c]? = start.count[c]?.map (· + if c ∈ insert i visited then 1 else 0) := by
  rw [getElem?_of_replace? hcount]
  by_cases hic : i = c
  · subst hic
    have hbefore := h.count i
    rw [if_neg hfresh, hm, eq_comm, Option.map_eq_some_iff] at hbefore
    obtain ⟨m', hm', rfl⟩ := hbefore
    simp [hm']
  · rw [if_neg hic, h.count c]
    simp [Ne.symm hic]

theorem Climbing.reached_visit (h : Climbing start j seen visited i s) (hfresh : i ∉ visited)
    {r : Nat} {reached : Array Nat} (hr : s.reached[i]? = some r)
    (hreached : replace? s.reached i j = some reached) (c : Nat) :
    reached[c]? = if c ∈ insert i visited then start.reached[c]?.map fun _ => j
      else start.reached[c]? := by
  rw [getElem?_of_replace? hreached]
  by_cases hic : i = c
  · subst hic
    have hbefore := h.reached i
    rw [if_neg hfresh, hr] at hbefore
    simp [← hbefore]
  · rw [if_neg hic, h.reached c]
    simp [Ne.symm hic]

theorem Climbing.visit (hstart : Before j start) (h : Climbing start j seen visited i s)
    (hi : i ≤ j) (habove : ∃ i₀ ∈ seen, Ancestor s.parent i₀ i) {r m : Nat} {p : Option Nat}
    {parent : Array (Option Nat)} {count reached : Array Nat} (hr : s.reached[i]? = some r)
    (hrj : r ≠ j) (hp : s.parent[i]? = some p) (hm : s.count[i]? = some m)
    (hparent : replace? s.parent i (some (p.getD j)) = some parent)
    (hcount : replace? s.count i (m + 1) = some count)
    (hreached : replace? s.reached i j = some reached) :
    i < p.getD j ∧ p.getD j ≤ j ∧
      (∃ i₀ ∈ seen, Ancestor parent i₀ (p.getD j)) ∧
      Climbing start j seen (insert i visited) (p.getD j) { parent, count, reached } := by
  obtain ⟨hfresh, hlt⟩ := h.fresh hstart hr hrj hi
  obtain ⟨hup, hle⟩ := h.next_le hstart hfresh hlt hp
  have hkept : ∀ c u, IsParent s.parent c u → IsParent parent c u :=
    fun c u => IsParent.kept hp hparent
  have hnew : IsParent parent i (p.getD j) := (isParent_replace?_iff hparent).mpr (by simp)
  obtain ⟨i₀, hi₀, hi₀i⟩ := habove
  refine ⟨hup, hle, ⟨i₀, hi₀, (hi₀i.mono hkept).tail hnew⟩, ?_⟩
  constructor
  · exact (size_of_replace? hparent).trans h.size
  · exact (size_of_replace? hcount).trans h.countSize
  · intro c u hcu
    exact hkept c u (h.kept c u hcu)
  · intro c u hcu
    rw [isParent_replace?_iff hparent] at hcu
    split at hcu
    · next hic =>
      subst hic hcu
      cases p with
      | none => exact .inr ⟨Finset.mem_insert_self _ _, rfl⟩
      | some u => exact .inl ((h.added i u hp).resolve_right fun hadded => hfresh hadded.1)
    · exact (h.added c u hcu).imp_right fun hadded =>
        ⟨Finset.mem_insert_of_mem hadded.1, hadded.2⟩
  · exact h.up_visit hle hkept hnew
  · intro c hc
    rcases Finset.mem_insert.mp hc with rfl | hc
    · exact ⟨hlt, i₀, hi₀, hi₀i.mono hkept⟩
    · obtain ⟨hcj, i', hi', hi'c⟩ := h.above c hc
      exact ⟨hcj, i', hi', hi'c.mono hkept⟩
  · exact h.count_visit hfresh hm hcount
  · exact h.reached_visit hfresh hr hreached

/-- The nodes on the way up from a node are visited, up to the first one that was visited before. -/
theorem climb_climbing (hstart : Before j start) {fuel : Nat}
    (h : Climbing start j seen visited i s) (hi : i ≤ j)
    (habove : ∃ i₀ ∈ seen, Ancestor s.parent i₀ i) (hclimb : climb j fuel i s = some s') :
    ∃ visited', visited ⊆ visited' ∧ (i = j ∨ i ∈ visited') ∧
      Climbing start j seen visited' j s' := by
  induction fuel generalizing i s visited with
  | zero => cases hclimb
  | succ fuel ih =>
    rcases climb_cases hclimb with ⟨hr, rfl⟩ | ⟨r, p, m, parent, count, reached, hr, hrj, hp, hm,
      hparent, hcount, hreached, hclimb⟩
    · have hvisited : i = j ∨ i ∈ visited := by
        by_cases hmem : i ∈ visited
        · exact .inr hmem
        · have hold := h.reached i
          rw [if_neg hmem, hr] at hold
          have := hstart.reached i j hold.symm
          omega
      refine ⟨visited, Finset.Subset.refl _, hvisited, { h with up := ?_ }⟩
      intro c hc
      obtain ⟨u, hcu, hu, hnext⟩ := h.up c hc
      refine ⟨u, hcu, hu, ?_⟩
      rcases hnext with hj | rfl | hmem
      · exact .inl hj
      · exact hvisited.imp_right .inr
      · exact .inr (.inr hmem)
    · obtain ⟨-, hle, hnext, hvisit⟩ :=
        h.visit hstart hi habove hr hrj hp hm hparent hcount hreached
      obtain ⟨visited', hsubset, -, hdone⟩ := ih hvisit hle hnext hclimb
      exact ⟨visited', (Finset.subset_insert _ _).trans hsubset,
        .inr (hsubset (Finset.mem_insert_self _ _)), hdone⟩

theorem Climbing.turn (h : Climbing start j seen visited j s) (i : Nat) :
    Climbing start j (seen ++ [i]) visited i s := by
  refine { h with up := ?_, above := ?_ }
  · intro c hc
    obtain ⟨u, hcu, hu, hnext⟩ := h.up c hc
    exact ⟨u, hcu, hu, hnext.elim .inl fun h => h.elim .inl fun h => .inr (.inr h)⟩
  · intro c hc
    obtain ⟨hcj, i', hi', hi'c⟩ := h.above c hc
    exact ⟨hcj, i', by simp [hi'], hi'c⟩

theorem rows_climbing (hstart : Before j start) {fuel : Nat} {rows : List Nat}
    (h : Climbing start j seen visited j s) (hseen : ∀ i ∈ seen, i = j ∨ i ∈ visited)
    (hrows : ∀ i ∈ rows, i ≤ j) (hfold : rows.foldlM (fun s i => climb j fuel i s) s = some s') :
    ∃ visited', (∀ i ∈ seen ++ rows, i = j ∨ i ∈ visited') ∧
      Climbing start j (seen ++ rows) visited' j s' := by
  induction rows generalizing s seen visited with
  | nil =>
    cases hfold
    rw [List.append_nil]
    exact ⟨visited, hseen, h⟩
  | cons i rows ih =>
    obtain ⟨mid, hclimb, hrest⟩ := foldlM_cons_eq_some.mp hfold
    obtain ⟨visited', hsubset, hi, hmid⟩ :=
      climb_climbing hstart (h.turn i) (hrows i (by simp)) ⟨i, by simp, .refl⟩ hclimb
    have hseen' : ∀ i' ∈ seen ++ [i], i' = j ∨ i' ∈ visited' := by
      intro i' hi'
      rcases List.mem_append.mp hi' with hi' | hi'
      · exact (hseen i' hi').imp_right fun hmem => hsubset hmem
      · rwa [List.mem_singleton.mp hi']
    have hdone := ih hmid hseen' (fun i' hi' => hrows i' (by simp [hi'])) hrest
    rwa [List.append_assoc] at hdone

theorem Climbing.before (hstart : Before j start) (h : Climbing start j seen visited i s) :
    Before (j + 1) s := by
  constructor
  · intro c u hcu
    rcases h.added c u hcu with hold | ⟨hmem, rfl⟩
    · have := hstart.parent c u hold
      omega
    · have := (h.above c hmem).1
      omega
  · intro c r hr
    rw [h.reached c] at hr
    split at hr
    · next hmem =>
      obtain ⟨_, -, rfl⟩ := Option.map_eq_some_iff.mp hr
      have := (h.above c hmem).1
      omega
    · have := hstart.reached c r hr
      omega

end Climb

section Columns

structure Visits (parent : Array (Option Nat)) (rows : List Nat) (k : Nat)
    (visited : Finset Nat) : Prop where
  start : ∀ i ∈ rows, i = k ∨ i ∈ visited
  up : ∀ c ∈ visited, ∃ u, IsParent parent c u ∧ u ≤ k ∧ (u = k ∨ u ∈ visited)
  above : ∀ c ∈ visited, c < k ∧ ∃ i ∈ rows, Ancestor parent i c

variable {parent : Array (Option Nat)} {rows : List Nat} {k : Nat} {visited : Finset Nat}

theorem Visits.mono {parent' : Array (Option Nat)}
    (hparent : ∀ c u, IsParent parent c u → IsParent parent' c u)
    (h : Visits parent rows k visited) : Visits parent' rows k visited := by
  refine { h with up := ?_, above := ?_ }
  · intro c hc
    obtain ⟨u, hcu, hu⟩ := h.up c hc
    exact ⟨u, hparent c u hcu, hu⟩
  · intro c hc
    obtain ⟨hck, i, hi, hic⟩ := h.above c hc
    exact ⟨hck, i, hi, hic.mono hparent⟩

theorem Visits.mem_iff (hrising : Rising parent) (h : Visits parent rows k visited) {c : Nat} :
    c ∈ visited ↔ Fills parent rows k c := by
  constructor
  · exact h.above c
  · rintro ⟨hck, i, hi, hic⟩
    -- along the way up from a row, every node below `k` is visited
    induction hic with
    | refl => exact (h.start _ hi).resolve_left (Nat.ne_of_lt hck)
    | @tail d c _ hdc ih =>
      have hlt := hrising d c hdc
      obtain ⟨u, hdu, -, hnext⟩ := h.up d (ih (by omega))
      unfold IsParent at hdc hdu
      rw [hdc] at hdu
      cases hdu
      exact hnext.resolve_left (Nat.ne_of_lt hck)

theorem Visits.ancestor (hrising : Rising parent) (h : Visits parent rows k visited) :
    ∀ i ∈ rows, Ancestor parent i k := by
  have hvisited : ∀ m c, k - c ≤ m → c ∈ visited → Ancestor parent c k := by
    intro m
    induction m with
    | zero =>
      intro c hm hc
      have := (h.above c hc).1
      omega
    | succ m ih =>
      intro c hm hc
      obtain ⟨u, hcu, -, hnext⟩ := h.up c hc
      have := hrising c u hcu
      rcases hnext with rfl | hu
      · exact .single hcu
      · exact .head hcu (ih u (by omega) hu)
  intro i hi
  rcases h.start i hi with rfl | hmem
  · exact .refl
  · exact hvisited _ i (Nat.le_refl _) hmem

theorem Climbing.visits {start s : Progress} (h : Climbing start k rows visited k s)
    (hrows : ∀ i ∈ rows, i = k ∨ i ∈ visited) : Visits s.parent rows k visited := by
  refine ⟨hrows, ?_, h.above⟩
  intro c hc
  obtain ⟨u, hcu, hu, hnext⟩ := h.up c hc
  exact ⟨u, hcu, hu, hnext.elim .inl id⟩

structure Analyzed (n : Nat) (columns : List (List Nat)) (visited : Nat → Finset Nat)
    (s : Progress) : Prop extends Before columns.length s where
  size : s.parent.size = n
  countSize : s.count.size = n
  visits : ∀ (k : Nat) rows, columns[k]? = some rows → Visits s.parent rows k (visited k)
  linked : ∀ c u, IsParent s.parent c u → c ∈ visited u
  count : ∀ c, c < n →
    s.count[c]? = some ((List.range columns.length).filter fun k => c ∈ visited k).length

theorem Analyzed.step {n : Nat} {columns : List (List Nat)} {visited : Nat → Finset Nat}
    {s s' : Progress} (h : Analyzed n columns visited s) {rows : List Nat}
    (hrows : ∀ i ∈ rows, i ≤ columns.length) {fuel : Nat}
    (hfold : rows.foldlM (fun s i => climb columns.length fuel i s) s = some s') :
    ∃ visited', Analyzed n (columns ++ [rows]) visited' s' := by
  obtain ⟨last, hstart, hlast⟩ := rows_climbing h.toBefore
    (climbing_refl s columns.length) (by simp) hrows hfold
  rw [List.nil_append] at hstart hlast
  have hlength : (columns ++ [rows]).length = columns.length + 1 := by simp
  refine ⟨fun k => if k = columns.length then last else visited k, ?_, ?_, ?_, ?_, ?_, ?_⟩
  · rw [hlength]
    exact hlast.before h.toBefore
  · exact hlast.size.trans h.size
  · exact hlast.countSize.trans h.countSize
  · intro k rows' hk
    by_cases hkn : k = columns.length
    · subst hkn
      rw [List.getElem?_concat_length] at hk
      cases hk
      rw [if_pos rfl]
      exact hlast.visits hstart
    · have hlt : k < columns.length := by
        have := (List.getElem?_eq_some_iff.mp hk).1
        omega
      rw [List.getElem?_append_left hlt] at hk
      rw [if_neg hkn]
      exact (h.visits k rows' hk).mono hlast.kept
  · intro c u hcu
    rcases hlast.added c u hcu with hold | ⟨hmem, rfl⟩
    · rw [if_neg (Nat.ne_of_lt (h.parent c u hold).2)]
      exact h.linked c u hold
    · rwa [if_pos rfl]
  · intro c hc
    have hold : ∀ k ∈ List.range columns.length,
        decide (c ∈ if k = columns.length then last else visited k) =
          decide (c ∈ visited k) := by
      intro k hk
      rw [if_neg (Nat.ne_of_lt (List.mem_range.mp hk))]
    rw [hlast.count c, h.count c hc, hlength, List.range_succ, List.filter_append,
      List.filter_congr hold, List.length_append, Option.map_some]
    by_cases hmem : c ∈ last <;> simp [hmem]

end Columns

section Result

structure Describes (symbolic : Symbolic) (columns : List (List Nat)) : Prop where
  size : symbolic.parent.size = columns.length
  rising : Rising symbolic.parent
  ancestor : ∀ (k : Nat) rows, columns[k]? = some rows → ∀ i ∈ rows, Ancestor symbolic.parent i k
  linked : ∀ c u, IsParent symbolic.parent c u →
    Fills symbolic.parent (columns.getD u []) u c
  countSize : symbolic.count.size = columns.length
  count : ∀ c, c < columns.length → symbolic.count[c]? =
    some (fillRows symbolic.parent columns c columns.length).length

theorem Analyzed.describes {n : Nat} {columns : List (List Nat)} {visited : Nat → Finset Nat}
    {s : Progress} (h : Analyzed n columns visited s) (hn : n = columns.length) :
    Describes s.toSymbolic columns := by
  have hrising : Rising s.parent := fun c u hcu => (h.parent c u hcu).1
  refine ⟨h.size.trans hn, hrising, ?_, ?_, h.countSize.trans hn, ?_⟩
  · intro k rows hk
    exact (h.visits k rows hk).ancestor hrising
  · intro c u hcu
    have hlt := (h.parent c u hcu).2
    rw [List.getD_eq_getElem _ _ hlt]
    exact ((h.visits u columns[u] (List.getElem?_eq_getElem hlt)).mem_iff hrising).mp
      (h.linked c u hcu)
  · intro c hc
    rw [h.count c (hn ▸ hc), fillRows]
    congr 2
    apply List.filter_congr
    intro k hk
    have hlt := List.mem_range.mp hk
    rw [decide_eq_decide, (h.visits k columns[k] (List.getElem?_eq_getElem hlt)).mem_iff hrising,
      List.getD_eq_getElem _ _ hlt]

theorem analyzed_of_foldlM {n : Nat} {columns : List (List Nat)} {s : Progress}
    (hupper : Upper columns)
    (hfold : columns.zipIdx.foldlM
      (fun s w => w.1.foldlM (fun s i => climb w.2 (n + 1) i s) s)
      { parent := Array.replicate n none, count := Array.replicate n 0,
        reached := Array.range n } = some s) :
    ∃ visited, Analyzed n columns visited s := by
  induction columns using List.reverseRecOn generalizing s with
  | nil =>
    cases hfold
    refine ⟨fun _ => ∅, ⟨?_, ?_⟩, by simp, by simp, by simp, ?_, fun c hc => by simp [hc]⟩
    · intro c u hcu
      simp [IsParent, Array.getElem?_replicate] at hcu
    · intro c r hr
      obtain ⟨_, hr⟩ := Array.getElem?_eq_some_iff.mp hr
      rw [Array.getElem_range] at hr
      exact .inl hr.symm
    · intro c u hcu
      simp [IsParent, Array.getElem?_replicate] at hcu
  | append_singleton columns rows ih =>
    rw [List.zipIdx_append, List.foldlM_append] at hfold
    obtain ⟨mid, hinit, hlast⟩ := Option.bind_eq_some_iff.mp hfold
    obtain ⟨visited, hanalyzed⟩ := ih hupper.init hinit
    obtain ⟨s', hlast, hdone⟩ := foldlM_cons_eq_some.mp hlast
    cases hdone
    rw [Nat.zero_add] at hlast
    exact hanalyzed.step (hupper _ rows (by simp)) hlast

theorem ofColumns?_describes {columns : List (List Nat)} {symbolic : Symbolic}
    (h : ofColumns? columns = some symbolic)
    (hupper : Upper columns) :
    symbolic.Describes columns := by
  unfold ofColumns? at h
  obtain ⟨s, hfold, h⟩ := Option.bind_eq_some_iff.mp h
  cases h
  obtain ⟨visited, hanalyzed⟩ := analyzed_of_foldlM hupper hfold
  exact hanalyzed.describes rfl

end Result

end Symbolic

end NonlinearOpt
