import Mathlib
import NonlinearOpt.Proofs.Arithmetic.Rounding

namespace NonlinearOpt

open Float.Model Float.Model.UnpackedFloat

def Binary.Canonical.toFloat {b : Binary} (hb : b.Canonical) (s : Sign) : Float :=
  .ofModel (Float.Model.pack (.finite s b.mantissa b.exponent hb.pos))

namespace Binary64

theorem eq_of_unpack_eq {x y : Float} (h : x.toModel.unpack = y.toModel.unpack) : x = y := by
  rw [← pack_toModel x, h, pack_toModel]

theorem unpackSign_packComponents (s : Sign) (e : BitVec 11) (v : BitVec 52) :
    unpackSign (packComponents .binary64 s e v) = s.toBitVec := by
  apply BitVec.eq_of_getLsbD_eq
  intro i hi
  obtain rfl : i = 0 := by omega
  simp only [packComponents, unpackSign, BitVec.getLsbD_append, BitVec.getLsbD_cast,
    BitVec.getLsbD_extractLsb]
  simp

theorem ofBitVec_toBitVec (s : Sign) : Sign.ofBitVec s.toBitVec = s := by
  cases s <;> rfl

theorem finite_congr (s : Sign) {m m' : ℕ} {e e' : ℤ} (hm : m = m') (he : e = e') (h : 0 < m)
    (h' : 0 < m') : UnpackedFloat.finite s m e h = .finite s m' e' h' := by
  subst hm he
  rfl

theorem unpack_subnormal (s : Sign) (v : BitVec 52) (hv : 0 < v.toNat) :
    UnpackedFloat.unpack .binary64 (packComponents .binary64 s 0#11 v) =
      .finite s v.toNat (-1074) hv := by
  have hne : v ≠ 0#52 := by
    rintro rfl
    exact absurd hv (by decide)
  unfold UnpackedFloat.unpack
  simp only [unpackExponent_packComponents, unpackMantissa_packComponents,
    unpackSign_packComponents, ofBitVec_toBitVec]
  rw [if_neg (by decide), if_true, dif_neg hne]
  rfl

theorem unpack_normal (s : Sign) (e : BitVec 11) (v : BitVec 52) (hzero : e ≠ 0#11)
    (hmax : e ≠ -1#11) (hv : 0 < (1#1 ++ v).toNat) :
    UnpackedFloat.unpack .binary64 (packComponents .binary64 s e v) =
      .finite s (1#1 ++ v).toNat (e.toNat - 1075) hv := by
  unfold UnpackedFloat.unpack
  simp only [unpackExponent_packComponents, unpackMantissa_packComponents,
    unpackSign_packComponents, ofBitVec_toBitVec]
  rw [if_neg hmax, if_neg hzero]
  rfl

theorem unpack_canonical {b : Binary} (hb : b.Canonical) (s : Sign) :
    (hb.toFloat s).toModel.unpack = .finite s b.mantissa b.exponent hb.pos := by
  show UnpackedFloat.unpack .binary64 (UnpackedFloat.pack .binary64 _) = _
  obtain ⟨hpos, hlt, hnormal, hlow, hhigh⟩ := hb
  rcases Nat.lt_or_ge b.mantissa (2 ^ 52) with hm | hm
  · have he : b.exponent = -1074 := by
      by_contra hne
      have := hnormal (by omega)
      omega
    have hv : (BitVec.ofNat 52 b.mantissa).toNat = b.mantissa := Nat.mod_eq_of_lt hm
    rw [finite_congr s hv.symm he hpos (hv.symm ▸ hpos), pack_subnormal, unpack_subnormal]
  · have hv : (1#1 ++ BitVec.ofNat 52 (b.mantissa - 2 ^ 52)).toNat = b.mantissa := by
      rw [toNat_one_append, BitVec.toNat_ofNat, Nat.mod_eq_of_lt (by omega)]
      omega
    have hfit : (b.exponent + 1075).toNat < 2 ^ 11 := by omega
    have he : ((BitVec.ofNat 11 (b.exponent + 1075).toNat).toNat : ℤ) - 1075 = b.exponent := by
      rw [BitVec.toNat_ofNat, Nat.mod_eq_of_lt hfit]
      omega
    have hne (v : BitVec 11) (h : v.toNat ≠ (b.exponent + 1075).toNat) :
        BitVec.ofNat 11 (b.exponent + 1075).toNat ≠ v := by
      rintro rfl
      exact h (Nat.mod_eq_of_lt hfit)
    have hzero := hne 0#11 (by show 0 ≠ _; omega)
    have hmax := hne (-1#11) (by show 2047 ≠ _; omega)
    rw [finite_congr s hv.symm he.symm hpos (hv.symm ▸ hpos), pack_normal _ _ _ hmax,
      unpack_normal _ _ _ hzero hmax]

end Binary64

namespace Binary

def sign (b : Binary) : Sign := if b.negative then .negative else .positive

theorem ofFloat_eq {x : Float} {b : BitVec Format.binary64.numBits}
    (hb : b = x.toModel.toBits.toBitVec) :
    ofFloat x =
      if unpackExponent b = 0#11 then ⟨unpackSign b == 1#1, (unpackMantissa b).toNat, -1074⟩
      else
        ⟨unpackSign b == 1#1, (1#1 ++ unpackMantissa b).toNat,
          (unpackExponent b).toNat - 1075⟩ := by
  have hbits : x.toBits.toNat = b.toNat := by
    rw [hb]
    rfl
  have hlt : b.toNat < 2 ^ 64 := b.isLt
  have hsign : (unpackSign b == 1#1) = (b.toNat / 0x8000000000000000 == 1) := by
    have hnat : (unpackSign b).toNat = b.toNat / 0x8000000000000000 := by
      simp [unpackSign, BitVec.extractLsb_toNat, Nat.shiftRight_eq_div_pow]
      omega
    rw [Bool.eq_iff_iff, beq_iff_eq, beq_iff_eq, ← BitVec.toNat_inj, hnat]
    rfl
  have hexponent : (unpackExponent b).toNat = b.toNat / leading % 0x800 := by
    simp [unpackExponent, BitVec.extractLsb_toNat, Nat.shiftRight_eq_div_pow]
    rfl
  have hmantissa : (unpackMantissa b).toNat = b.toNat % leading := by
    simp [unpackMantissa, BitVec.extractLsb_toNat]
    rfl
  have hzero : unpackExponent b = 0#11 ↔ b.toNat / leading % 0x800 = 0 := by
    rw [← hexponent, ← BitVec.toNat_inj]
    rfl
  unfold ofFloat
  simp only [hbits, hzero, Binary64.toNat_one_append, hexponent, hmantissa, hsign]
  split
  · rfl
  · rw [add_comm]
    rfl

theorem sign_of_bit {b : Binary} {v : BitVec 1} (h : b.negative = (v == 1#1)) :
    b.sign = Sign.ofBitVec v := by
  have hbit : ∀ v : BitVec 1, v = 0#1 ∨ v = 1#1 := by decide
  unfold sign
  rw [h]
  rcases hbit v with rfl | rfl <;> rfl

theorem canonical_normal {negative : Bool} {e : BitVec 11} (v : BitVec 52) (hzero : e ≠ 0#11)
    (hmax : e ≠ -1#11) : Canonical ⟨negative, (1#1 ++ v).toNat, e.toNat - 1075⟩ := by
  have hv := v.isLt
  have he := e.isLt
  have hpos : e.toNat ≠ 0 := fun h => hzero (BitVec.eq_of_toNat_eq h)
  have hlt : e.toNat ≠ 2047 := fun h => hmax (BitVec.eq_of_toNat_eq h)
  constructor <;> simp only [Binary64.toNat_one_append] <;> omega

theorem canonical_subnormal {negative : Bool} {v : BitVec 52} (hv : 0 < v.toNat) :
    Canonical ⟨negative, v.toNat, -1074⟩ := by
  have := v.isLt
  constructor <;> simp only <;> omega

theorem unpack_zero {x : Float} (h : (ofFloat x).mantissa = 0) :
    x.toModel.unpack = .zero (ofFloat x).sign := by
  obtain ⟨b, hb⟩ : ∃ b : BitVec Format.binary64.numBits, b = x.toModel.toBits.toBitVec := ⟨_, rfl⟩
  show UnpackedFloat.unpack .binary64 x.toModel.toBits.toBitVec = _
  rw [ofFloat_eq hb] at h ⊢
  rw [← hb]
  split at h
  next he =>
    have hv : unpackMantissa b = 0#52 := BitVec.eq_of_toNat_eq h
    have hmax : ¬ (0#11 : BitVec 11) = -1#11 := by decide
    rw [if_pos he, sign_of_bit rfl]
    unfold UnpackedFloat.unpack
    simp only [he, hv, if_neg hmax, if_true, dif_pos]
  next =>
    have hfull : (1#1 ++ unpackMantissa b : BitVec 53).toNat = 0 := h
    rw [Binary64.toNat_one_append] at hfull
    omega

theorem unpack_finite {x : Float} (hx : x.isFinite = true) (h : (ofFloat x).mantissa ≠ 0) :
    ∃ hb : (ofFloat x).Canonical, x.toModel.unpack =
      .finite (ofFloat x).sign (ofFloat x).mantissa (ofFloat x).exponent hb.pos := by
  obtain ⟨b, hb⟩ : ∃ b : BitVec Format.binary64.numBits, b = x.toModel.toBits.toBitVec := ⟨_, rfl⟩
  have hparts := Binary64.packComponents_unpack b
  have hunpack : x.toModel.unpack = UnpackedFloat.unpack .binary64 b := by
    rw [hb]
    rfl
  have hmax : unpackExponent b ≠ -1#11 := by
    intro hmax
    have hfinite : (UnpackedFloat.unpack .binary64 b).isFinite = true := by
      rw [← hunpack]
      exact hx
    unfold UnpackedFloat.unpack at hfinite
    simp only [hmax, if_true] at hfinite
    split at hfinite <;> cases hfinite
  rw [hunpack, ← hparts]
  rw [ofFloat_eq hb] at h ⊢
  by_cases he : unpackExponent b = 0#11
  · rw [if_pos he] at h ⊢
    refine ⟨canonical_subnormal (Nat.pos_of_ne_zero h), ?_⟩
    rw [he, sign_of_bit rfl]
    exact Binary64.unpack_subnormal _ _ _
  · rw [if_neg he] at h ⊢
    refine ⟨canonical_normal _ he hmax, ?_⟩
    rw [sign_of_bit rfl]
    exact Binary64.unpack_normal _ _ _ he hmax _

end Binary

end NonlinearOpt
