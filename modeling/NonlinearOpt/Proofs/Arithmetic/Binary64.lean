import NonlinearOpt.Proofs.Arithmetic.Comparison
import Mathlib

namespace NonlinearOpt.Binary64

open Float.Model Float.Model.UnpackedFloat

/-- Where a float stands among the numbers: its class, then its exponent, then its mantissa. -/
def rank : UnpackedFloat → Option (Int ×ₗ Int ×ₗ Int)
  | .notANumber => none
  | .infinity .positive => some (toLex (2, toLex (0, 0)))
  | .infinity .negative => some (toLex (-2, toLex (0, 0)))
  | .zero _ => some (toLex (0, toLex (0, 0)))
  | .finite .positive m e _ => some (toLex (1, toLex (e, m)))
  | .finite .negative m e _ => some (toLex (-1, toLex (-e, -m)))

theorem rank_eq_none_iff {a : UnpackedFloat} : rank a = none ↔ a.isNaN = true := by
  rcases a with (_ | _) | _ | _ | ⟨_ | _, m, e, hm⟩ <;> simp [rank, UnpackedFloat.isNaN]

theorem isLE_then_iff {e f : Int} {m n : Nat} :
    ((compare e f).then (compare m n)).isLE = true ↔ e < f ∨ e = f ∧ m ≤ n := by
  rcases lt_trichotomy e f with h | h | h
  · simp [compare_lt_iff_lt.mpr h, h]
  · simp [h, Nat.isLE_compare]
  · simp [compare_gt_iff_gt.mpr h, h.not_gt, h.ne']

theorem isGE_then_iff {e f : Int} {m n : Nat} :
    ((compare e f).then (compare m n)).isGE = true ↔ f < e ∨ e = f ∧ n ≤ m := by
  rcases lt_trichotomy e f with h | h | h
  · simp [compare_lt_iff_lt.mpr h, h.not_gt, h.ne]
  · simp [h, Nat.isGE_compare]
  · simp [compare_gt_iff_gt.mpr h, h]

theorem then_eq_lt_iff {e f : Int} {m n : Nat} :
    (compare e f).then (compare m n) = .lt ↔ e < f ∨ e = f ∧ m < n := by
  simp [Ordering.then_eq_lt, compare_lt_iff_lt]

theorem then_eq_gt_iff {e f : Int} {m n : Nat} :
    (compare e f).then (compare m n) = .gt ↔ f < e ∨ e = f ∧ n < m := by
  simp [Ordering.then_eq_gt, compare_gt_iff_gt]

theorem le_iff_rank {a b : UnpackedFloat} :
    UnpackedFloat.le a b = true ↔ ∃ k ∈ rank a, ∃ l ∈ rank b, k ≤ l := by
  rcases a with (_ | _) | _ | _ | ⟨_ | _, m, e, hm⟩ <;>
    rcases b with (_ | _) | _ | _ | ⟨_ | _, n, f, hn⟩ <;>
    simp [rank, UnpackedFloat.le, UnpackedFloat.compare, Prod.Lex.le_iff, isLE_then_iff,
      isGE_then_iff]
  all_goals decide

theorem lt_iff_rank {a b : UnpackedFloat} :
    UnpackedFloat.lt a b = true ↔ ∃ k ∈ rank a, ∃ l ∈ rank b, k < l := by
  rcases a with (_ | _) | _ | _ | ⟨_ | _, m, e, hm⟩ <;>
    rcases b with (_ | _) | _ | _ | ⟨_ | _, n, f, hn⟩ <;>
    simp [rank, UnpackedFloat.lt, UnpackedFloat.compare, Prod.Lex.lt_iff, then_eq_lt_iff,
      then_eq_gt_iff]
  all_goals decide

theorem sign_toBitVec_ofBitVec (v : BitVec 1) : (Sign.ofBitVec v).toBitVec = v := by
  revert v
  decide

theorem packComponents_unpack (b : BitVec Format.binary64.numBits) :
    packComponents .binary64 (Sign.ofBitVec (unpackSign b)) (unpackExponent b)
      (unpackMantissa b) = b := by
  apply BitVec.eq_of_getLsbD_eq
  intro i hi
  have hi64 : i < 64 := hi
  simp only [packComponents, sign_toBitVec_ofBitVec, unpackSign, unpackExponent, unpackMantissa,
    BitVec.getLsbD_append, BitVec.getLsbD_cast, BitVec.getLsbD_extractLsb]
  rcases Nat.lt_or_ge i 52 with h | h
  · simp [h]
  · rcases Nat.lt_or_ge i 63 with h' | h'
    · have hlt : i - 52 < 11 := by omega
      have hadd : 52 + (i - 52) = i := by omega
      simp [h.not_gt, hlt, hadd]
    · obtain rfl : i = 63 := by omega
      simp

theorem toNat_one_append (v : BitVec 52) : (1#1 ++ v).toNat = 2 ^ 52 + v.toNat := by
  rw [BitVec.toNat_append, Nat.shiftLeft_eq, Nat.mul_comm, ← Nat.two_pow_add_eq_or_of_lt v.isLt]
  simp

theorem pack_subnormal (s : Sign) (v : BitVec 52) (hv : 0 < v.toNat) :
    UnpackedFloat.pack .binary64 (.finite s v.toNat (-1074) hv) =
      packComponents .binary64 s 0#11 v := by
  have hlog : v.toNat.log2 < 52 := (Nat.log2_lt hv.ne').mpr v.isLt
  simp only [UnpackedFloat.pack]
  rw [if_neg (by decide), if_neg (by simp only [Format.mantissaBits]; omega), BitVec.ofNat_toNat,
    BitVec.setWidth_eq]

theorem pack_normal (s : Sign) (e : BitVec 11) (v : BitVec 52) (he : e ≠ -1#11)
    (hv : 0 < (1#1 ++ v).toNat) :
    UnpackedFloat.pack .binary64 (.finite s (1#1 ++ v).toNat (e.toNat - 1075) hv) =
      packComponents .binary64 s e v := by
  have hlog : (1#1 ++ v).toNat.log2 = 52 := by
    rw [Nat.log2_eq_iff hv.ne', toNat_one_append]
    have := v.isLt
    omega
  have hexp : ¬ 2 ^ 11 ≤ e.toNat + 1 := by
    have hne : e.toNat ≠ (-1#11).toNat := fun h => he (BitVec.eq_of_toNat_eq h)
    have hmax : (-1#11).toNat = 2047 := by decide
    have := e.isLt
    omega
  have hbias : ((e.toNat : Int) - 1075 + Format.binary64.exponentBias + 52).toNat = e.toNat := by
    have : (Format.binary64.exponentBias : Int) = 1023 := by decide
    omega
  have hbits : ((Format.binary64.mantissaBitsWithoutImplicit : Nat) : Int) = 52 := rfl
  simp only [UnpackedFloat.pack]
  rw [hbits, hbias, if_neg hexp, if_pos (by rw [hlog]; rfl), BitVec.ofNat_toNat,
    BitVec.setWidth_eq]
  -- the implicit bit is cut off again
  congr 1
  apply BitVec.eq_of_toNat_eq
  rw [BitVec.toNat_ofNat, toNat_one_append]
  have := v.isLt
  omega

theorem pack_unpack (b : BitVec Format.binary64.numBits) (hb : Format.binary64.Valid b) :
    UnpackedFloat.pack .binary64 (UnpackedFloat.unpack .binary64 b) = b := by
  have hparts := packComponents_unpack b
  unfold UnpackedFloat.unpack
  by_cases hexp : unpackExponent b = -1#11
  · by_cases hmant : unpackMantissa b = 0#52
    · simp only [hexp, hmant, if_true]
      rwa [hexp, hmant] at hparts
    · simp only [hexp, hmant, if_true, if_false]
      exact (hb.eq_packedNaN hexp hmant).symm
  · by_cases hzero : unpackExponent b = 0#11
    · have hne : ¬ (0#11 = -1#11) := by decide
      rw [hzero] at hparts
      by_cases hmant : unpackMantissa b = 0#52
      · rw [hmant] at hparts
        simp only [hzero, hne, hmant, if_true, if_false, dite_true]
        exact hparts
      · simp only [hzero, hne, hmant, if_true, if_false, dite_false]
        exact (pack_subnormal _ _ _).trans hparts
    · simp only [hexp, hzero, if_false]
      exact (pack_normal _ _ _ hexp _).trans hparts

theorem isNaN_packedInfinity (s : Sign) :
    (UnpackedFloat.unpack .binary64 (packedInfinity .binary64 s)).isNaN = false := by
  cases s <;> decide

theorem isNaN_packComponents {s : Sign} {e : BitVec 11} {v : BitVec 52} (he : e ≠ -1#11) :
    (UnpackedFloat.unpack .binary64 (packComponents .binary64 s e v)).isNaN = false := by
  unfold UnpackedFloat.unpack
  simp only [unpackExponent_packComponents, unpackMantissa_packComponents]
  rw [if_neg he]
  split
  · split <;> rfl
  · rfl

theorem isNaN_unpack_pack (a : UnpackedFloat) :
    (UnpackedFloat.unpack .binary64 (UnpackedFloat.pack .binary64 a)).isNaN = a.isNaN := by
  rcases a with s | _ | s | ⟨s, m, e, hm⟩
  · exact isNaN_packedInfinity s
  · decide
  · cases s <;> decide
  · have hnum : (UnpackedFloat.finite s m e hm).isNaN = false := rfl
    rw [hnum]
    simp only [UnpackedFloat.pack]
    split
    · exact isNaN_packedInfinity s
    · split
      · rename_i hfits _
        apply isNaN_packComponents
        intro h
        have hnat := congrArg BitVec.toNat h
        have hmax : (-1#11).toNat = 2047 := by decide
        rw [hmax, BitVec.toNat_ofNat] at hnat
        simp only [not_le] at hfits
        rw [Nat.mod_eq_of_lt (by omega)] at hnat
        omega
      · exact isNaN_packComponents (by decide)

theorem isNaN_iff {x : Float} : x.isNaN = true ↔ rank x.toModel.unpack = none :=
  rank_eq_none_iff.symm

theorem isNaN_eq_false {x : Float} {k : Int ×ₗ Int ×ₗ Int} (h : k ∈ rank x.toModel.unpack) :
    x.isNaN = false := by
  rw [← Bool.not_eq_true, isNaN_iff, h]
  exact Option.some_ne_none k

theorem float_le_iff {x y : Float} :
    Scalar.le x y = true ↔ ∃ k ∈ rank x.toModel.unpack, ∃ l ∈ rank y.toModel.unpack, k ≤ l := by
  rw [← le_iff_rank]
  show decide (decide (x.toModel.le y.toModel = true) = true) = true ↔ _
  rw [decide_eq_true_iff, decide_eq_true_iff]
  rfl

theorem float_lt_iff {x y : Float} :
    Scalar.lt x y = true ↔ ∃ k ∈ rank x.toModel.unpack, ∃ l ∈ rank y.toModel.unpack, k < l := by
  rw [← lt_iff_rank]
  show decide (decide (x.toModel.lt y.toModel = true) = true) = true ↔ _
  rw [decide_eq_true_iff, decide_eq_true_iff]
  rfl

theorem pack_toModel (x : Float) : Float.ofModel (Float.Model.pack x.toModel.unpack) = x := by
  have hbits := pack_unpack x.toModel.toBits.toBitVec x.toModel.valid
  have hmodel : Float.Model.pack x.toModel.unpack = x.toModel := by
    unfold Float.Model.pack Float.Model.unpack
    simp only [hbits]
  rw [hmodel]

theorem sub_zero (x : Float) : x - 0 = x := by
  have hzero : (0 : Float).toModel.unpack = .zero .positive := rfl
  have hsub : UnpackedFloat.sub .binary64 x.toModel.unpack (.zero .positive) =
      x.toModel.unpack := by
    cases h : x.toModel.unpack with
    | zero s => cases s <;> rfl
    | _ => rfl
  show Float.ofModel (Float.Model.pack (UnpackedFloat.sub .binary64 x.toModel.unpack _)) = x
  rw [hzero, hsub, pack_toModel]

end Binary64

open Binary64 Float.Model

instance : LawfulComparison Float where
  isNaN_nan := by decide
  isNaN_zero := by decide
  isNaN_abs x := by
    show (UnpackedFloat.unpack _ (UnpackedFloat.pack .binary64 x.toModel.unpack.abs)).isNaN = _
    rw [Binary64.isNaN_unpack_pack]
    show _ = x.toModel.unpack.isNaN
    cases x.toModel.unpack <;> rfl
  sub_zero := Binary64.sub_zero
  number_of_le h := by
    obtain ⟨k, hk, l, hl, -⟩ := float_le_iff.mp h
    exact ⟨isNaN_eq_false hk, isNaN_eq_false hl⟩
  le_trans hxy hyz := by
    obtain ⟨k, hk, l, hl, hkl⟩ := float_le_iff.mp hxy
    obtain ⟨l', hl', m, hm, hlm⟩ := float_le_iff.mp hyz
    obtain rfl : l = l' := Option.mem_unique hl hl'
    exact float_le_iff.mpr ⟨k, hk, m, hm, hkl.trans hlm⟩
  le_total {x y} hx hy := by
    rw [← Bool.not_eq_true] at hx hy
    obtain ⟨k, hk⟩ := Option.ne_none_iff_exists'.mp (fun h => hx (isNaN_iff.mpr h))
    obtain ⟨l, hl⟩ := Option.ne_none_iff_exists'.mp (fun h => hy (isNaN_iff.mpr h))
    rcases le_total k l with h | h
    · exact .inl (float_le_iff.mpr ⟨k, hk, l, hl, h⟩)
    · exact .inr (float_le_iff.mpr ⟨l, hl, k, hk, h⟩)
  lt_iff {x y} := by
    rw [float_lt_iff, float_le_iff, ← Bool.not_eq_true, float_le_iff]
    constructor
    · rintro ⟨k, hk, l, hl, hkl⟩
      refine ⟨⟨k, hk, l, hl, hkl.le⟩, ?_⟩
      rintro ⟨l', hl', k', hk', h⟩
      obtain rfl := Option.mem_unique hk hk'
      obtain rfl := Option.mem_unique hl hl'
      exact h.not_gt hkl
    · rintro ⟨⟨k, hk, l, hl, -⟩, hnot⟩
      refine ⟨k, hk, l, hl, lt_of_not_ge fun h => hnot ⟨l, hl, k, hk, h⟩⟩

theorem Binary64.exists_rank {x : Float} (hx : Scalar.isNaN x = false) :
    ∃ k, k ∈ rank x.toModel.unpack := by
  apply Option.ne_none_iff_exists'.mp
  intro h
  have hnan : Scalar.isNaN x = true := isNaN_iff.mpr h
  rw [hx] at hnan
  cases hnan

theorem Binary64.rank_between {a : UnpackedFloat} {k : Int ×ₗ Int ×ₗ Int} (h : k ∈ rank a) :
    toLex (-2, toLex (0, 0)) ≤ k ∧ k ≤ toLex (2, toLex (0, 0)) := by
  rcases a with (_ | _) | _ | _ | ⟨_ | _, m, e, hm⟩ <;> simp [rank] at h <;> subst h <;>
    simp [Prod.Lex.le_iff]

instance : BoundedComparison Float where
  le_infinity {x} hx := by
    obtain ⟨k, hk⟩ := exists_rank hx
    have hinf : rank (Scalar.infinity : Float).toModel.unpack =
        some (toLex (2, toLex (0, 0))) := by decide
    exact float_le_iff.mpr ⟨k, hk, _, hinf, (rank_between hk).2⟩
  negInfinity_le {x} hx := by
    obtain ⟨k, hk⟩ := exists_rank hx
    have hinf : rank (-Scalar.infinity : Float).toModel.unpack =
        some (toLex (-2, toLex (0, 0))) := by decide
    exact float_le_iff.mpr ⟨_, hinf, k, hk, (rank_between hk).1⟩

end NonlinearOpt
