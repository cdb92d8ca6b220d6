import Mathlib
import NonlinearOpt.Proofs.Sparse.Format

namespace NonlinearOpt.Csc

variable {α : Type} {a : Csc α}

section Search

open entryIndex?

variable {rows : Array Nat} {row : Nat}

theorem getD_lt_of_pairwise (hsorted : rows.toList.Pairwise (· < ·)) {p q : Nat} (hpq : p < q)
    (hq : q < rows.size) : rows.getD p 0 < rows.getD q 0 := by
  have hp : p < rows.size := by omega
  simp only [Array.getD_eq_getD_getElem?, Array.getElem?_eq_getElem hp,
    Array.getElem?_eq_getElem hq, Option.getD_some]
  exact List.pairwise_iff_getElem.mp hsorted p q hp hq hpq

theorem narrow_eq (hsorted : rows.toList.Pairwise (· < ·)) {p base size : Nat}
    (hp : rows[p]? = some row) (hbase : base ≤ p) (hlt : p < base + size)
    (hsize : base + size ≤ rows.size) : narrow rows row base size = p := by
  have hrow : rows.getD p 0 = row := by simp [Array.getD_eq_getD_getElem?, hp]
  fun_induction narrow rows row base size with
  | case1 base size hone => omega
  | case2 base size hmany half next ih =>
    have hhalf : half = size / 2 := rfl
    by_cases habove : row < rows.getD (base + half) 0
    · have hnext : next = base := if_pos habove
      have hleft : p < base + half := by
        by_contra hright
        rcases Nat.lt_or_eq_of_le (Nat.not_lt.mp hright) with hpast | heq
        · have := getD_lt_of_pairwise hsorted hpast (by omega)
          omega
        · rw [heq] at habove
          omega
      exact ih (by omega) (by omega) (by omega)
    · have hnext : next = base + half := if_neg habove
      have hright : base + half ≤ p := by
        by_contra hleft
        have := getD_lt_of_pairwise hsorted (Nat.not_le.mp hleft) (by omega)
        omega
      exact ih (by omega) (by omega) (by omega)

theorem search_eq_some_iff (hsorted : rows.toList.Pairwise (· < ·)) {p : Nat} :
    search rows row = some p ↔ rows[p]? = some row := by
  unfold search
  simp only
  constructor
  · intro h
    split at h
    · next hfound =>
      cases h
      exact hfound
    · cases h
  · intro hp
    have hlt : p < rows.size := (Array.getElem?_eq_some_iff.mp hp).1
    have hplace : narrow rows row 0 rows.size = p :=
      narrow_eq hsorted hp (Nat.zero_le p) (by omega) (by omega)
    rw [hplace, if_pos hp]

end Search

theorem exists_storedAt_iff {i j : Nat} {v : α} {column : List (Nat × α)}
    (h : a.entries? j = some column) : (∃ k, a.StoredAt k i j v) ↔ (i, v) ∈ column := by
  obtain ⟨⟨first, last⟩, hspan, h⟩ := Option.bind_eq_some_iff.mp h
  rw [mem_of_mapM h]
  constructor
  · rintro ⟨k, ⟨first', last', hspan', hfirst, hlast⟩, hrow, hvalue⟩
    rw [hspan] at hspan'
    cases hspan'
    exact ⟨k, List.mem_range'_1.mpr (by omega), by simp [hrow, hvalue]⟩
  · rintro ⟨k, hk, hentry⟩
    obtain ⟨row, hrow, hentry⟩ := Option.bind_eq_some_iff.mp hentry
    obtain ⟨value, hvalue, hentry⟩ := Option.bind_eq_some_iff.mp hentry
    cases hentry
    have hk := List.mem_range'_1.mp hk
    exact ⟨k, ⟨first, last, hspan, by omega, by omega⟩, hrow, hvalue⟩

theorem Formatted.entryIndex?_eq (h : a.Formatted) {i j : Nat} (hi : i < a.rows) (hj : j < a.cols) :
    ∃ found, a.entryIndex? i j = some found ∧
      ∀ k, found = some k ↔ ∃ v, a.StoredAt k i j v := by
  obtain ⟨rows, hrows⟩ := h.divided.exists_rowsOf? hj
  obtain ⟨first, last, -, hspan, -⟩ := h.divided.span? hj
  refine ⟨(entryIndex?.search rows.toArray i).map (first + ·), ?_, ?_⟩
  · unfold entryIndex?
    rw [if_pos ⟨hi, hj⟩, hspan, hrows]
    rfl
  · intro k
    have hsearch : ∀ p, entryIndex?.search rows.toArray i = some p ↔ rows.toArray[p]? = some i :=
      fun p => search_eq_some_iff (by simpa using h.ascending j rows hrows)
    rw [Option.map_eq_some_iff]
    constructor
    · rintro ⟨p, hp, rfl⟩
      exact storedAt_of_rowsOf? h.paired hspan hrows (by simpa using (hsearch p).mp hp)
    · rintro ⟨v, hstored⟩
      obtain ⟨first', last', hspan', hle, hget⟩ := hstored.getElem?_rows hrows
      rw [hspan] at hspan'
      cases hspan'
      exact ⟨k - first, (hsearch _).mpr (by simpa using hget), by omega⟩

/-- A lookup finds the value that is stored at the position, if there is one. -/
theorem Formatted.exists_found (h : a.Formatted) {i j : Nat} (hi : i < a.rows)
    (hj : j < a.cols) :
    ∃ found, a.entry? i j = some found ∧ ∀ v, found = some v ↔ ∃ k, a.StoredAt k i j v := by
  obtain ⟨index, hindex, hfound⟩ := h.entryIndex?_eq hi hj
  unfold entry?
  rw [hindex]
  cases index with
  | none =>
    refine ⟨none, rfl, fun v => ⟨nofun, ?_⟩⟩
    rintro ⟨k, hstored⟩
    cases (hfound k).mpr ⟨v, hstored⟩
  | some k =>
    obtain ⟨v, hstored⟩ := (hfound k).mp rfl
    refine ⟨some v, ?_, ?_⟩
    · simp only [Option.bind_eq_bind, Option.bind_some, hstored.value, Option.pure_def]
    · intro w
      constructor
      · rintro ⟨⟩
        exact ⟨k, hstored⟩
      · rintro ⟨l, hstored'⟩
        have hplace := (hfound l).mpr ⟨w, hstored'⟩
        cases hplace
        rw [← hstored.value, hstored'.value]

end NonlinearOpt.Csc
