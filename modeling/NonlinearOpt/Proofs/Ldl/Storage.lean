import Mathlib
import NonlinearOpt.Proofs.Ldl.Refresh
import NonlinearOpt.Proofs.Sparse.Blocks

namespace NonlinearOpt

namespace Ldl

variable {α β : Type} {start : Array Nat} {columns grown : Array (Array (Nat × α))}

/-- No column reaches into the part of another one or past the end. -/
structure Room (start : Array Nat) (total : Nat) (columns : Array (Array (Nat × α))) : Prop where
  apart : ∀ c c', c < c' → c' < columns.size → ∀ column, columns[c]? = some column →
    start.getD c 0 + column.size ≤ start.getD c' 0
  inside : ∀ (c : Nat) column, columns[c]? = some column → start.getD c 0 + column.size ≤ total

theorem Room.unique {total : Nat} (h : Room start total columns) {c c' m m' : Nat}
    {column column' : Array (Nat × α)} (hc : columns[c]? = some column)
    (hc' : columns[c']? = some column') (hm : m < column.size) (hm' : m' < column'.size)
    (hplace : start.getD c 0 + m = start.getD c' 0 + m') : c = c' ∧ m = m' := by
  have hbound := (Array.getElem?_eq_some_iff.mp hc).1
  have hbound' := (Array.getElem?_eq_some_iff.mp hc').1
  rcases Nat.lt_trichotomy c c' with hlt | rfl | hlt
  · have := h.apart c c' hlt hbound' column hc
    omega
  · exact ⟨rfl, by omega⟩
  · have := h.apart c' c hlt hbound column' hc'
    omega

theorem room_cumulative {count : Array Nat} (hsize : columns.size = count.size)
    (hcount : ∀ (c : Nat) column, columns[c]? = some column →
      ∃ m, count[c]? = some m ∧ column.size ≤ m) :
    Room (cumulative count) count.toList.sum columns := by
  have hnext : ∀ (c : Nat) column, columns[c]? = some column →
      c < count.size ∧
        (cumulative count).getD c 0 + column.size ≤ (count.toList.take (c + 1)).sum := by
    intro c column hc
    obtain ⟨m, hm, hle⟩ := hcount c column hc
    obtain ⟨hbound, rfl⟩ := Array.getElem?_eq_some_iff.mp hm
    refine ⟨hbound, ?_⟩
    rw [getD_cumulative count hbound.le, List.take_add_one, List.sum_append]
    simpa [hbound] using hle
  have hmono : ∀ c c', c ≤ c' → (count.toList.take c).sum ≤ (count.toList.take c').sum :=
    fun c c' h => (List.take_sublist_take_left h).sum_le_sum fun _ _ => Nat.zero_le _
  constructor
  · intro c c' hlt hc' column hc
    rw [getD_cumulative (k := c') count (hsize ▸ hc'.le)]
    exact (hnext c column hc).2.trans (hmono _ _ hlt)
  · intro c column hc
    exact (hnext c column hc).2.trans ((List.take_sublist _ _).sum_le_sum fun _ _ => Nat.zero_le _)

/-- An array with one component of the entries of some columns. Elsewhere it is as it was before. -/
structure Stocked (start : Array Nat) (columns : Array (Array (Nat × α))) (part : Nat × α → β)
    (old xs : Array β) : Prop where
  size : xs.size = old.size
  stored : ∀ (c : Nat) column, columns[c]? = some column → ∀ (m : Nat) e, column[m]? = some e →
    xs[start.getD c 0 + m]? = some (part e)
  kept : ∀ p, ¬ Occupied start columns p → xs[p]? = old[p]?

section Stocked

variable {part : Nat × α → β} {old xs ys : Array β}

theorem Stocked.ext (hx : Stocked start columns part old xs)
    (hy : Stocked start columns part old ys) : xs = ys := by
  apply Array.ext_getElem?
  intro p
  by_cases hp : Occupied start columns p
  · obtain ⟨c, column, hc, hle, hlt⟩ := hp
    have hget : column[p - start.getD c 0]? = some column[p - start.getD c 0] :=
      Array.getElem?_eq_getElem (by omega)
    have hplace : start.getD c 0 + (p - start.getD c 0) = p := by omega
    rw [← hplace, hx.stored c column hc _ _ hget, hy.stored c column hc _ _ hget]
  · rw [hx.kept p hp, hy.kept p hp]

theorem stocked_of_empty (h : ∀ (c : Nat) column, columns[c]? = some column → column = #[]) :
    Stocked start columns part old old := by
  refine ⟨rfl, ?_, fun _ _ => rfl⟩
  intro c column hc m e he
  rw [h c column hc] at he
  simp at he

theorem Stocked.push (h : Stocked start columns part old xs) (hroom : Room start old.size grown)
    {c : Nat} {column : Array (Nat × α)} {e : Nat × α} (hc : columns[c]? = some column)
    (hgrown : replace? columns c (column.push e) = some grown) :
    ∃ ys, replace? xs (start.getD c 0 + column.size) (part e) = some ys ∧
      Stocked start grown part old ys := by
  have hget := getElem?_of_replace? hgrown
  have hnew : grown[c]? = some (column.push e) := by rw [hget, if_pos rfl]
  have hplace : start.getD c 0 + column.size < xs.size := by
    have := hroom.inside c _ hnew
    rw [Array.size_push] at this
    rw [h.size]
    omega
  obtain ⟨ys, hys, hsize⟩ := exists_replace? xs (part e) hplace
  have hwrite := getElem?_of_replace? hys
  refine ⟨ys, hys, hsize.trans h.size, ?_, ?_⟩
  · intro c' column' hc' m e' he'
    have hm := (Array.getElem?_eq_some_iff.mp he').1
    rw [hwrite]
    -- a place belongs to one column, so the new entry stands alone where it is written
    by_cases hlast : start.getD c 0 + column.size = start.getD c' 0 + m
    · obtain ⟨rfl, rfl⟩ := hroom.unique hnew hc' (by simp) hm hlast
      rw [hnew, Option.some.injEq] at hc'
      subst hc'
      rw [Array.getElem?_push_size, Option.some.injEq] at he'
      rw [if_pos rfl, he']
    · rw [if_neg hlast]
      rw [hget] at hc'
      split at hc'
      · next heq =>
        subst heq
        cases hc'
        rw [Array.size_push] at hm
        rw [Array.getElem?_push, if_neg (by omega)] at he'
        exact h.stored c column hc m e' he'
      · exact h.stored c' column' hc' m e' he'
  · intro p hp
    have hfree : start.getD c 0 + column.size ≠ p := by
      rintro rfl
      exact hp ⟨c, _, hnew, by omega, by simp⟩
    rw [hwrite, if_neg hfree]
    apply h.kept
    rintro ⟨c', column', hc', hle, hlt⟩
    apply hp
    by_cases heq : c = c'
    · subst heq
      rw [hc, Option.some.injEq] at hc'
      subst hc'
      exact ⟨c, _, hnew, hle, by rw [Array.size_push]; omega⟩
    · exact ⟨c', column', by rw [hget, if_neg heq, hc'], hle, hlt⟩

theorem stocked_placements (hroom : Room start old.size columns) (part : Nat × α → β) :
    Stocked start columns part old
      ((placements start columns).foldl (fun xs w => xs.setIfInBounds w.2 (part w.1)) old) := by
  refine ⟨size_foldl_set Prod.snd (fun w => part w.1) _ _, ?_, ?_⟩
  · intro c column hc m e he
    have hm := (Array.getElem?_eq_some_iff.mp he).1
    have hbound := hroom.inside c column hc
    have hmem : (e, start.getD c 0 + m) ∈ placements start columns :=
      mem_placements.mpr ⟨c, column, m, hc, he, rfl⟩
    refine getElem?_foldl_set_of_agree Prod.snd (fun w => part w.1) hmem ?_
      (show start.getD c 0 + m < old.size by omega)
    rintro ⟨e', p⟩ hw (rfl : p = _)
    obtain ⟨c', column', m', hc', he', hplace⟩ := mem_placements.mp hw
    obtain ⟨rfl, rfl⟩ := hroom.unique hc hc' hm (Array.getElem?_eq_some_iff.mp he').1 hplace.symm
    rw [hc, Option.some.injEq] at hc'
    subst hc'
    rw [he, Option.some.injEq] at he'
    subst he'
    rfl
  · intro p hp
    apply getElem?_foldl_set_of_ne Prod.snd (fun w => part w.1)
    exact fun w hw hwp => hp (occupied_iff.mpr ⟨w, hw, hwp⟩)

end Stocked

theorem overlay_eq_of_stocked {lower : Csc α} {rowIndex : Array Nat} {values : Array α}
    (hrowsRoom : Room lower.colStart lower.rowIndex.size columns)
    (hvaluesRoom : Room lower.colStart lower.values.size columns)
    (hrows : Stocked lower.colStart columns Prod.fst lower.rowIndex rowIndex)
    (hvalues : Stocked lower.colStart columns Prod.snd lower.values values) :
    overlay lower columns = { lower with rowIndex, values } := by
  rw [overlay_eq, (stocked_placements hrowsRoom Prod.fst).ext hrows,
    (stocked_placements hvaluesRoom Prod.snd).ext hvalues]

end Ldl

end NonlinearOpt
