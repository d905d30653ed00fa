import Mathlib.Algebra.BigOperators.Group.List.Defs
import Mathlib.Algebra.Group.Nat.Defs
import Mathlib.Data.Nat.Log
import TensorGraph.Binary32.Basic
import TensorGraph.Binary32.Functions

/-! A number is given by its bits: writing out the bits of a number and reading them again gives
the number. Those that integers from zero on are read as, and products of such, have no sign and
no negative integer part. -/

namespace TensorGraph.Binary32

open Float.Model.UnpackedFloat (packComponents unpackSign unpackExponent unpackMantissa)

variable {f : Float.Model.Format}

theorem sign_toBitVec (s : BitVec 1) :
    (Float.Model.UnpackedFloat.Sign.ofBitVec s).toBitVec = s := by
  revert s
  decide

/-- The three parts of a bit pattern make up the pattern. -/
theorem packComponents_parts (b : BitVec f.numBits) :
    packComponents f (.ofBitVec (unpackSign b)) (unpackExponent b) (unpackMantissa b) = b := by
  rw [packComponents, sign_toBitVec]
  apply BitVec.eq_of_getElem_eq
  intro i hi
  have hm := f.hm
  have he := f.he
  unfold unpackSign unpackExponent unpackMantissa
  simp [BitVec.getElem_append]
  grind

theorem toNat_implicit (m : BitVec f.mantissaBitsWithoutImplicit) :
    (1#1 ++ m).toNat = 2 ^ f.mantissaBitsWithoutImplicit + m.toNat := by
  rw [BitVec.toNat_append, ← Nat.shiftLeft_add_eq_or_of_lt m.isLt]
  simp [Nat.shiftLeft_eq]

theorem log2_implicit {m n : Nat} (h : m < 2 ^ n) : (2 ^ n + m).log2 = n := by
  have hp : 0 < 2 ^ n := Nat.two_pow_pos n
  have hlt : (2 ^ n + m).log2 < n + 1 := (Nat.log2_lt (by omega)).mpr (by rw [Nat.pow_succ]; omega)
  have hle : n ≤ (2 ^ n + m).log2 := (Nat.le_log2 (by omega)).mpr (by omega)
  omega

theorem pack_finite (s : Float.Model.UnpackedFloat.Sign) {m : Nat} (e : Int) (hm : 0 < m) :
    Float.Model.UnpackedFloat.pack f (.finite s m e hm) =
      let exponent := (e + f.exponentBias + f.mantissaBitsWithoutImplicit).toNat
      if 2 ^ f.exponentBits ≤ exponent + 1 then Float.Model.UnpackedFloat.packedInfinity f s
      else if m.log2 + 1 = f.mantissaBits then packComponents f s (.ofNat _ exponent) (.ofNat _ m)
      else packComponents f s 0#_ (.ofNat _ m) := rfl

theorem pack_unpack {b : BitVec f.numBits} (hf : 2 ≤ f.exponentBits) (h : f.Valid b) :
    Float.Model.UnpackedFloat.pack f (Float.Model.UnpackedFloat.unpack f b) = b := by
  have hparts := packComponents_parts b
  have hm : (unpackMantissa b).toNat < 2 ^ f.mantissaBitsWithoutImplicit := (unpackMantissa b).isLt
  have he : (unpackExponent b).toNat < 2 ^ f.exponentBits := (unpackExponent b).isLt
  have hwide : 2 ^ 2 ≤ 2 ^ f.exponentBits := Nat.pow_le_pow_right (by decide) hf
  unfold Float.Model.UnpackedFloat.unpack
  by_cases hones : unpackExponent b = -1#_
  · by_cases hzero : unpackMantissa b = 0#_
    · rw [if_pos hones, if_pos hzero]
      rw [hones, hzero] at hparts
      exact hparts
    · rw [if_pos hones, if_neg hzero]
      exact (h.eq_packedNaN hones hzero).symm
  by_cases hnone : unpackExponent b = 0#_
  · by_cases hzero : unpackMantissa b = 0#_
    · rw [if_neg hones, if_pos hnone, dif_pos hzero]
      rw [hnone, hzero] at hparts
      exact hparts
    · have hpos : (unpackMantissa b).toNat ≠ 0 :=
        fun hc => hzero (BitVec.toNat_inj.mp (by simpa using hc))
      have hlog := (Nat.log2_lt hpos).mpr hm
      rw [if_neg hones, if_pos hnone, dif_neg hzero]
      rw [pack_finite, if_neg, if_neg]
      · rw [BitVec.ofNat_toNat, BitVec.setWidth_eq, ← hnone]
        exact hparts
      · unfold Float.Model.Format.mantissaBits
        omega
      · rw [hnone]
        simp
        omega
  · have hmax : (unpackExponent b).toNat ≠ 2 ^ f.exponentBits - 1 := by
      intro hc
      apply hones
      apply BitVec.toNat_inj.mp
      rw [hc, BitVec.neg_one_eq_allOnes, BitVec.toNat_allOnes]
    rw [if_neg hones, if_neg hnone]
    rw [pack_finite, if_neg, if_pos]
    · have hcut : BitVec.ofNat f.mantissaBitsWithoutImplicit (1#1 ++ unpackMantissa b).toNat =
          unpackMantissa b := by
        apply BitVec.eq_of_toNat_eq
        rw [BitVec.toNat_ofNat, toNat_implicit, Nat.add_mod_left, Nat.mod_eq_of_lt hm]
      have hsame : ((unpackExponent b).toNat - ((f.exponentBias : Int) +
          f.mantissaBitsWithoutImplicit) + f.exponentBias +
          f.mantissaBitsWithoutImplicit).toNat = (unpackExponent b).toNat := by omega
      rw [hcut, hsame, BitVec.ofNat_toNat, BitVec.setWidth_eq]
      exact hparts
    · rw [toNat_implicit, log2_implicit hm]
      unfold Float.Model.Format.mantissaBits
      omega
    · omega

theorem ofBits_toBits (x : Float32) : Float32.ofBits x.toBits = x := by
  obtain ⟨⟨bits, hv⟩⟩ := x
  have h := pack_unpack (by decide) hv
  apply toBits_injective
  exact congrArg UInt32.ofBitVec h

end TensorGraph.Binary32

namespace TensorGraph.Binary32

open Float.Model (UnpackedFloat)
open Float.Model.UnpackedFloat (Sign packComponents unpackSign)

def Unsigned : UnpackedFloat → Prop
  | .notANumber => True
  | .infinity s | .zero s | .finite s _ _ _ => s = .positive

variable {f : Float.Model.Format}

theorem unpackSign_packComponents (s : Sign) (e : BitVec f.exponentBits)
    (m : BitVec f.mantissaBitsWithoutImplicit) :
    unpackSign (packComponents f s e m) = s.toBitVec := by
  ext i hi
  obtain rfl : i = 0 := by omega
  unfold unpackSign
  simp [packComponents, BitVec.getLsbD_eq_getElem, BitVec.getLsbD_append, BitVec.getElem_append]

theorem Unsigned.pack {x : UnpackedFloat} (h : Unsigned x) : unpackSign (x.pack f) = 0#1 := by
  unfold UnpackedFloat.pack
  split
  · exact unpackSign_packComponents _ _ _
  · cases h
    exact unpackSign_packComponents _ _ _
  · cases h
    exact unpackSign_packComponents _ _ _
  · cases h
    dsimp only
    split_ifs <;> exact unpackSign_packComponents _ _ _

theorem unsigned_ite {c : Prop} [Decidable c] {x y : UnpackedFloat} (hx : Unsigned x)
    (hy : Unsigned y) : Unsigned (if c then x else y) := by
  split <;> assumption

theorem unsigned_dite {c : Prop} [Decidable c] {x : c → UnpackedFloat} {y : ¬c → UnpackedFloat}
    (hx : ∀ h, Unsigned (x h)) (hy : ∀ h, Unsigned (y h)) : Unsigned (dite c x y) := by
  by_cases h : c
  · rw [dif_pos h]
    exact hx h
  · rw [dif_neg h]
    exact hy h

theorem unsigned_unpack {b : BitVec f.numBits} (h : unpackSign b = 0#1) :
    Unsigned (UnpackedFloat.unpack f b) := by
  have hs : Sign.ofBitVec (unpackSign b) = .positive := by rw [h]; rfl
  unfold UnpackedFloat.unpack
  apply unsigned_ite
  · exact unsigned_ite hs trivial
  · exact unsigned_ite (unsigned_dite (fun _ => hs) fun _ => hs) hs

theorem Unsigned.mul {x y : UnpackedFloat} (hx : Unsigned x) (hy : Unsigned y) :
    Unsigned (x.mul f y) := by
  cases x <;> cases y <;> try trivial
  all_goals
    cases hx
    cases hy
    try rfl
  exact unsigned_dite (fun _ => rfl) fun _ => rfl

theorem isNegative_eq_false_iff {x : Float32} :
    isNegative x = false ↔ x.toBits.toNat < 2147483648 := by
  simp [isNegative, UInt32.le_iff_toNat_le]

theorem unpackSign_eq_zero_iff {b : BitVec Float.Model.Format.binary32.numBits} :
    unpackSign b = 0#1 ↔ b.toNat < 2147483648 := by
  have hb : b.toNat < 2 ^ 32 := b.isLt
  rw [← BitVec.toNat_inj]
  unfold unpackSign
  simp only [BitVec.toNat_cast, BitVec.extractLsb_toNat, Nat.shiftRight_eq_div_pow]
  simp
  omega

theorem isNegative_pack {u : UnpackedFloat} (h : Unsigned u) :
    isNegative (.ofModel (.pack u)) = false :=
  isNegative_eq_false_iff.mpr (unpackSign_eq_zero_iff.mp h.pack)

theorem unsigned_unpack_toModel {x : Float32} (h : isNegative x = false) :
    Unsigned x.toModel.unpack :=
  unsigned_unpack (unpackSign_eq_zero_iff.mpr (isNegative_eq_false_iff.mp h))

theorem isNegative_ofBits {b : UInt32} (h : b.toNat < 2147483648) :
    isNegative (.ofBits b) = false :=
  isNegative_pack (unsigned_unpack (unpackSign_eq_zero_iff.mpr h))

theorem isNegative_mul {x y : Float32} (hx : isNegative x = false) (hy : isNegative y = false) :
    isNegative (x * y) = false :=
  isNegative_pack ((unsigned_unpack_toModel hx).mul (unsigned_unpack_toModel hy))

theorem log2_lt_of_lt {k n : Nat} (hk : k ≠ 0) (h : k < twoTo n) : k.log2 < n :=
  (Nat.log2_lt hk).mpr h

theorem isNegative_ofSteps {n : Option Nat} (h : ∀ k ∈ n, k < single.limit) :
    isNegative (ofSteps false n) = false := by
  have hbits : ∀ m < 2147483648, isNegative (.ofBits (UInt32.ofNat m)) = false := by
    intro m hm
    refine isNegative_ofBits ?_
    rwa [UInt32.toNat_ofNat_of_lt' (Nat.lt_trans hm (by decide))]
  cases n with
  | none => exact hbits _ (by decide)
  | some k =>
    have htwo : twoTo 23 = 8388608 := rfl
    have hlimit := h k rfl
    rw [single] at hlimit
    dsimp only at hlimit
    refine hbits _ ?_
    simp only [Bool.false_eq_true, if_false, htwo]
    split_ifs with hsmall
    · omega
    · have hne : k ≠ 0 := by omega
      have hlog : k.log2 < 277 := log2_lt_of_lt hne hlimit
      have hle : 23 ≤ k.log2 := (Nat.le_log2 hne).mpr (by omega)
      have hlead : k / twoTo (k.log2 - 23) < 2 ^ 24 := by
        rw [twoTo, Nat.pow_eq, Nat.div_lt_iff_lt_mul (Nat.two_pow_pos _), ← Nat.pow_add,
          show 24 + (k.log2 - 23) = k.log2 + 1 by omega]
        exact Nat.lt_log2_self
      omega

theorem isNegative_ofInt {n : Int} (h : 0 ≤ n) : isNegative (ofInt n) = false := by
  rw [ofInt, ofRatio, decide_eq_false (by omega)]
  refine isNegative_ofSteps fun k hk => ?_
  rw [Option.mem_def] at hk
  unfold Format.round at hk
  dsimp only at hk
  split_ifs at hk with hlimit
  cases hk
  exact hlimit

theorem nonneg_ofIntClamp {n : Int} (h : 0 ≤ n) : 0 ≤ (Int64.ofIntClamp n).toInt := by
  have hlow : Int64.minValue.toInt ≤ n := le_trans (by decide) h
  by_cases hhigh : n ≤ Int64.maxValue.toInt
  · rwa [Int64.toInt_ofIntClamp hlow hhigh]
  · rw [Int64.ofIntClamp, dif_pos hlow, dif_neg hhigh]
    decide

/-- The integer part of a number that is not negative is not negative. -/
theorem nonneg_toInt {x : Float32} (h : isNegative x = false) : 0 ≤ (toInt x).toInt := by
  unfold toInt
  split_ifs
  · decide
  · simp_all
  · decide
  · have hpart : 0 ≤ (signedSteps x).tdiv unit := by
      rw [signedSteps, h, if_neg Bool.false_ne_true]
      exact Int.tdiv_nonneg (by omega) (Int.natCast_nonneg unit)
    exact nonneg_ofIntClamp hpart

end TensorGraph.Binary32
