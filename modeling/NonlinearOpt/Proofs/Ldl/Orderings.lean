import Mathlib
import NonlinearOpt.Proofs.Ldl.Reserved
import NonlinearOpt.Proofs.Ldl.Solvable

namespace NonlinearOpt

namespace Permutation

theorem perm_take_iff {n : Nat} {p q : Array Nat} (h : inverse? p = some q) :
    (p.toList.take n).Perm (List.range n) ↔ ∀ j, j < n → ∃ c, q[j]? = some c ∧ c < n := by
  constructor
  · intro hperm j hj
    obtain ⟨k, hk⟩ := List.getElem?_of_mem (hperm.mem_iff.mpr (List.mem_range.mpr hj))
    rw [List.getElem?_take] at hk
    split at hk
    · next hkn =>
      rw [Array.getElem?_toList] at hk
      exact ⟨k, (getElem?_inverse? h).2 k j hk, hkn⟩
    · cases hk
  · intro hq
    obtain ⟨hle, hlt⟩ := lt_of_inverse? h hq
    have hnodup : (p.toList.take n).Nodup :=
      ((perm_of_inverse? h).nodup_iff.mpr List.nodup_range).sublist (List.take_sublist n p.toList)
    have hsubset : p.toList.take n ⊆ List.range n := fun i hi => List.mem_range.mpr (hlt i hi)
    exact (List.subperm_of_subset hnodup hsubset).perm_of_length_le (by simp [hle])

end Permutation

namespace Ldl

namespace Factorization

variable {α : Type} [Scalar α] {a : Csc α} {options : Options α} {p q : Array Nat}

theorem new?_of_not_inverse? (hcheck : checkStructure? a = some (.ok ()))
    (hp : options.order = some p) (hq : Permutation.inverse? p = none) :
    new? a options = some (.error .permutation) := by
  have horder : orderOf a options = .error .permutation := by simp only [orderOf, hp, hq]
  have hanalyze : analyze? a options = some (.error .permutation) := by
    unfold analyze?
    simp only [hcheck, horder, Option.bind_eq_bind, Option.bind_some, Option.pure_def]
  rw [new?_eq, hanalyze]
  rfl

theorem exists_new?_of_permuted (hcheck : checkStructure? a = some (.ok ()))
    (horder : orderOf a options = .ok (p, q)) {permuted : Permuted α}
    (hpermuted : a.permuteSymmetric? q = some permuted) :
    ∃ result, new? a options = some result ∧ result ≠ .error .permutation := by
  obtain ⟨blank, hanalyze⟩ := exists_analysis_of_permuted hcheck horder hpermuted
  obtain ⟨patterns, -, hreserves⟩ := reserves_of_analyze? hanalyze
  obtain ⟨result, g, hg, -⟩ := hreserves.exists_refactor?
  refine ⟨completed (result, g), ?_, ?_⟩
  · rw [new?_eq, hanalyze, Option.bind_some, complete?, hg, Option.map_some]
  · obtain ⟨columns, rows, failure, -, -, houtcome⟩ := refactor?_eq_some.mp hg
    intro herror
    cases failure <;> cases houtcome <;> cases herror

theorem new?_of_not_permuted (hcheck : checkStructure? a = some (.ok ()))
    (horder : orderOf a options = .ok (p, q)) (hpermuted : a.permuteSymmetric? q = none) :
    new? a options = none := by
  have hanalyze : analyze? a options = none := by
    unfold analyze?
    simp only [hcheck, horder, hpermuted, Option.bind_eq_bind, Option.bind_some, Option.bind_none]
  rw [new?_eq, hanalyze, Option.bind_none]

omit [Scalar α] in
theorem permuteSymmetric?_eq_none_iff (hformat : a.checkFormat = .ok ())
    (hcheck : checkStructure? a = some (.ok ())) (hq : Permutation.inverse? p = some q) :
    a.permuteSymmetric? q = none ↔ ¬ (p.toList.take a.rows).Perm (List.range a.rows) := by
  rw [Permutation.perm_take_iff hq]
  constructor
  · intro hnone hinverse
    obtain ⟨permuted, hpermuted⟩ :=
      ((Csc.divided_of_checkFormat hformat).upperTriangle hcheck).exists_permuteSymmetric? hinverse
    rw [hnone] at hpermuted
    cases hpermuted
  · intro hinverse
    cases hpermuted : a.permuteSymmetric? q with
    | none => rfl
    | some permuted =>
      exact absurd (fun j hj => Csc.lt_of_permuteSymmetric?
        (increasing_of_checkStructure? hcheck) hpermuted hj) hinverse

/-- What becomes of an order that is asked for. It is rejected if it is not a permutation of as many
numbers as it has itself. If it is one, but its first entries do not permute the rows of the matrix,
the computation breaks off; all other orders are accepted. Orders of the right length are rejected
exactly if they do not permute the rows, and never break off. -/
theorem new?_of_order (hformat : a.checkFormat = .ok ())
    (hcheck : checkStructure? a = some (.ok ())) (hp : options.order = some p) :
    (new? a options = some (.error .permutation) ↔ ¬ p.toList.Perm (List.range p.size)) ∧
      (new? a options = none ↔ p.toList.Perm (List.range p.size) ∧
        ¬ (p.toList.take a.rows).Perm (List.range a.rows)) ∧
      (p.size = a.rows → (∃ result, new? a options = some result) ∧
        (new? a options = some (.error .permutation) ↔ ¬ p.toList.Perm (List.range a.rows))) := by
  have hmain : (new? a options = some (.error .permutation) ↔
      ¬ p.toList.Perm (List.range p.size)) ∧
      (new? a options = none ↔ p.toList.Perm (List.range p.size) ∧
        ¬ (p.toList.take a.rows).Perm (List.range a.rows)) := by
    cases hq : Permutation.inverse? p with
    | none =>
      have hperm : ¬ p.toList.Perm (List.range p.size) := by
        intro hperm
        obtain ⟨q, hq'⟩ := Permutation.exists_inverse? hperm
        rw [hq] at hq'
        cases hq'
      rw [new?_of_not_inverse? hcheck hp hq]
      simp [hperm]
    | some q =>
      have hperm := Permutation.perm_of_inverse? hq
      have horder : orderOf a options = .ok (p, q) := orderOf_ordered hp hq
      have hiff := permuteSymmetric?_eq_none_iff hformat hcheck hq
      cases hpermuted : a.permuteSymmetric? q with
      | none =>
        rw [new?_of_not_permuted hcheck horder hpermuted]
        simp [hperm, hiff.mp hpermuted]
      | some permuted =>
        obtain ⟨result, hresult, hne⟩ := exists_new?_of_permuted hcheck horder hpermuted
        have htake : (p.toList.take a.rows).Perm (List.range a.rows) := by
          by_contra htake
          rw [hiff.mpr htake] at hpermuted
          cases hpermuted
        rw [hresult]
        simp [hperm, htake, hne]
  refine ⟨hmain.1, hmain.2, ?_⟩
  intro hsize
  have htake : p.toList.take a.rows = p.toList := List.take_of_length_le (by simp [hsize])
  rw [htake, ← hsize] at hmain
  refine ⟨?_, hsize ▸ hmain.1⟩
  rw [← Option.ne_none_iff_exists', ne_eq, hmain.2]
  exact fun h => h.2 h.1

section Tilted

theorem checked_tilted :
    tiltedMatrix.checkFormat = .ok () ∧ checkStructure? tiltedMatrix = some (.ok ()) :=
  ⟨by decide +kernel, rfl⟩

theorem new?_repeated_tilted :
    tiltedMatrix.checkFormat = .ok () ∧ checkStructure? tiltedMatrix = some (.ok ()) ∧
      new? tiltedMatrix ⟨1.0, some #[1, 1], 0⟩ = some (.error .permutation) :=
  ⟨checked_tilted.1, checked_tilted.2,
    (new?_of_order checked_tilted.1 checked_tilted.2 rfl).1.mpr (by decide)⟩

/-- Orders of another length than the matrix has rows. Neither permutes the rows, and neither is
rejected: with the shorter one the computation breaks off, and with the longer one it does not. -/
theorem new?_unequal_tilted :
    tiltedMatrix.checkFormat = .ok () ∧ checkStructure? tiltedMatrix = some (.ok ()) ∧
      (¬ [0].Perm (List.range tiltedMatrix.rows) ∧
        new? tiltedMatrix ⟨1.0, some #[0], 0⟩ = none) ∧
      ¬ [0, 1, 2].Perm (List.range tiltedMatrix.rows) ∧
        ∃ result, new? tiltedMatrix ⟨1.0, some #[0, 1, 2], 0⟩ = some result ∧
          result ≠ .error .permutation := by
  obtain ⟨hformat, hcheck⟩ := checked_tilted
  refine ⟨hformat, hcheck, ⟨by decide, ?_⟩, by decide, ?_⟩
  · have hq : Permutation.inverse? #[0] = some #[0] := by decide +kernel
    exact new?_of_not_permuted hcheck (orderOf_ordered rfl hq)
      ((permuteSymmetric?_eq_none_iff hformat hcheck hq).mpr (by decide))
  · have hq : Permutation.inverse? #[0, 1, 2] = some #[0, 1, 2] := by decide +kernel
    cases hpermuted : tiltedMatrix.permuteSymmetric? #[0, 1, 2] with
    | none =>
      exact absurd hpermuted ((permuteSymmetric?_eq_none_iff hformat hcheck hq).not.mpr (by decide))
    | some permuted =>
      exact exists_new?_of_permuted hcheck (orderOf_ordered rfl hq) hpermuted

end Tilted

end Factorization

end Ldl

end NonlinearOpt
