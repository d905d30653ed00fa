import TensorGraph.Proofs.Bits

/-! The order of numbers and their steps. A number that is not above a finite one does not have a
larger integer part. -/

namespace TensorGraph.Binary32

open Float.Model (UnpackedFloat)
open Float.Model.UnpackedFloat (Sign unpackSign unpackExponent unpackMantissa)

def bitsOf (x : Float32) : BitVec Float.Model.Format.binary32.numBits := x.toModel.toBits.toBitVec

theorem toNat_unpackMantissa (x : Float32) :
    (unpackMantissa (bitsOf x)).toNat = x.toBits.toNat % 8388608 := by
  have hbits : x.toBits.toNat = (bitsOf x).toNat := rfl
  rw [hbits]
  simp only [unpackMantissa, BitVec.toNat_cast, BitVec.extractLsb_toNat, Nat.shiftRight_eq_div_pow]
  simp

theorem toNat_unpackExponent (x : Float32) :
    (unpackExponent (bitsOf x)).toNat = x.toBits.toNat / 8388608 % 256 := by
  have hbits : x.toBits.toNat = (bitsOf x).toNat := rfl
  rw [hbits]
  simp only [unpackExponent, BitVec.toNat_cast, BitVec.extractLsb_toNat, Nat.shiftRight_eq_div_pow]

theorem steps_eq (x : Float32) : steps x =
    if (unpackExponent (bitsOf x)).toNat = 0 then (unpackMantissa (bitsOf x)).toNat
    else (8388608 + (unpackMantissa (bitsOf x)).toNat) *
      2 ^ ((unpackExponent (bitsOf x)).toNat - 1) := by
  have hlt : x.toBits.toNat < 4294967296 := x.toBits.toNat_lt
  have htop : twoTo 31 = 2147483648 := rfl
  have hfrac : twoTo 23 = 8388608 := rfl
  have hexp : x.toBits.toNat % 2147483648 / 8388608 = x.toBits.toNat / 8388608 % 256 := by omega
  have hman : x.toBits.toNat % 2147483648 % 8388608 = x.toBits.toNat % 8388608 := by omega
  rw [toNat_unpackMantissa, toNat_unpackExponent, steps]
  rw [htop, hfrac, hexp, hman]
  rfl

/-- What a bit pattern stands for, from its exponent and its fraction. -/
theorem unpack_cases {f : Float.Model.Format} (b : BitVec f.numBits) :
    (unpackExponent b = -1#_ ∧ unpackMantissa b = 0#_ ∧
      UnpackedFloat.unpack f b = .infinity (.ofBitVec (unpackSign b))) ∨
    UnpackedFloat.unpack f b = .notANumber ∨
    (unpackExponent b = 0#_ ∧ unpackMantissa b = 0#_ ∧
      UnpackedFloat.unpack f b = .zero (.ofBitVec (unpackSign b))) ∨
    (unpackExponent b = 0#_ ∧ ∃ hpos, UnpackedFloat.unpack f b =
      .finite (.ofBitVec (unpackSign b)) (unpackMantissa b).toNat
        ((unpackExponent b).toNat - (f.exponentBias + f.mantissaBitsWithoutImplicit) + 1) hpos) ∨
    (unpackExponent b ≠ 0#_ ∧ unpackExponent b ≠ -1#_ ∧ ∃ hpos, UnpackedFloat.unpack f b =
      .finite (.ofBitVec (unpackSign b)) (1#1 ++ unpackMantissa b).toNat
        ((unpackExponent b).toNat - (f.exponentBias + f.mantissaBitsWithoutImplicit)) hpos) := by
  unfold UnpackedFloat.unpack
  by_cases hones : unpackExponent b = -1#_
  · rw [if_pos hones]
    by_cases hzero : unpackMantissa b = 0#_
    · rw [if_pos hzero]
      exact .inl ⟨hones, hzero, rfl⟩
    · rw [if_neg hzero]
      exact .inr (.inl rfl)
  rw [if_neg hones]
  by_cases hnone : unpackExponent b = 0#_
  · rw [if_pos hnone]
    by_cases hzero : unpackMantissa b = 0#_
    · rw [dif_pos hzero]
      exact .inr (.inr (.inl ⟨hnone, hzero, rfl⟩))
    · have hpos : 0 < (unpackMantissa b).toNat :=
        Nat.pos_of_ne_zero fun hc => hzero (BitVec.toNat_inj.mp (by simpa using hc))
      rw [dif_neg hzero]
      exact .inr (.inr (.inr (.inl ⟨hnone, hpos, rfl⟩)))
  · have hpos : 0 < (1#1 ++ unpackMantissa b).toNat := by
      rw [toNat_implicit]
      exact Nat.add_pos_left (Nat.two_pow_pos _) _
    rw [if_neg hnone]
    exact .inr (.inr (.inr (.inr ⟨hnone, hones, hpos, rfl⟩)))

theorem exponent_of_eq_zero {b : BitVec Float.Model.Format.binary32.numBits}
    (h : unpackExponent b = 0#_) :
    ((unpackExponent b).toNat : Int) - (Float.Model.Format.binary32.exponentBias +
      Float.Model.Format.binary32.mantissaBitsWithoutImplicit) + 1 = -149 := by
  rw [h]
  rfl

theorem exponent_eq (b : BitVec Float.Model.Format.binary32.numBits) :
    ((unpackExponent b).toNat : Int) - (Float.Model.Format.binary32.exponentBias +
      Float.Model.Format.binary32.mantissaBitsWithoutImplicit) = (unpackExponent b).toNat -
      150 := rfl

theorem unpack_finite {x : Float32} {s : Sign} {m : Nat} {e : Int} {hpos : 0 < m}
    (hx : UnpackedFloat.unpack .binary32 (bitsOf x) = .finite s m e hpos) :
    steps x = m * 2 ^ (e + 149).toNat ∧ m < 16777216 ∧ -149 ≤ e ∧ (-149 < e → 8388608 ≤ m) := by
  have hm : (unpackMantissa (bitsOf x)).toNat < 8388608 := (unpackMantissa (bitsOf x)).isLt
  rw [steps_eq]
  rcases unpack_cases (bitsOf x)
    with ⟨-, -, h⟩ | h | ⟨-, -, h⟩ | ⟨hnone, _, h⟩ | ⟨hsome, -, _, h⟩ <;>
    rw [h] at hx <;> cases hx
  · have hzero : (unpackExponent (bitsOf x)).toNat = 0 := by
      rw [hnone]
      rfl
    rw [if_pos hzero, exponent_of_eq_zero hnone]
    exact ⟨(Nat.mul_one _).symm, by omega, by omega, by omega⟩
  · have hpos : (unpackExponent (bitsOf x)).toNat ≠ 0 :=
      fun h => hsome (BitVec.toNat_inj.mp h)
    have himplicit : (1#1 ++ unpackMantissa (bitsOf x)).toNat =
        8388608 + (unpackMantissa (bitsOf x)).toNat := toNat_implicit _
    have hshift : ((unpackExponent (bitsOf x)).toNat - 150 + 149 : Int).toNat =
        (unpackExponent (bitsOf x)).toNat - 1 := by omega
    rw [if_neg hpos, exponent_eq, himplicit, hshift]
    exact ⟨rfl, by omega, by omega, fun _ => by omega⟩

theorem isNegative_of_unpack {x : Float32} {m : Nat} {e : Int} {hpos : 0 < m}
    (hx : UnpackedFloat.unpack .binary32 (bitsOf x) = .finite .positive m e hpos) :
    isNegative x = false := by
  have hsign : Sign.ofBitVec (unpackSign (bitsOf x)) = .positive := by
    rcases unpack_cases (bitsOf x) with ⟨-, -, h⟩ | h | ⟨-, -, h⟩ | ⟨-, _, h⟩ | ⟨-, -, _, h⟩ <;>
      rw [h] at hx <;> injection hx
  have hbit : unpackSign (bitsOf x) = 0#1 := by
    rw [← sign_toBitVec (unpackSign (bitsOf x)), hsign]
    rfl
  exact isNegative_eq_false_iff.mpr (unpackSign_eq_zero_iff.mp hbit)

theorem steps_of_unpack_zero {x : Float32} {s : Sign}
    (hx : UnpackedFloat.unpack .binary32 (bitsOf x) = .zero s) : steps x = 0 := by
  rw [steps_eq]
  rcases unpack_cases (bitsOf x) with ⟨-, -, h⟩ | h | ⟨hnone, hzero, -⟩ | ⟨-, _, h⟩ | ⟨-, -, _, h⟩
  · cases h.symm.trans hx
  · cases h.symm.trans hx
  · rw [hnone, hzero]
    rfl
  · cases h.symm.trans hx
  · cases h.symm.trans hx

theorem steps_le {m m' : Nat} {e e' : Int} (hm : m < 16777216) (he : -149 ≤ e)
    (hm' : -149 < e' → 8388608 ≤ m') (h : e < e' ∨ e = e' ∧ m ≤ m') :
    m * 2 ^ (e + 149).toNat ≤ m' * 2 ^ (e' + 149).toNat := by
  rcases h with hlt | ⟨rfl, hle⟩
  · have hwide := hm' (by omega)
    obtain ⟨k, hk⟩ : ∃ k, (e' + 149).toNat = (e + 149).toNat + 1 + k :=
      ⟨(e' + 149).toNat - ((e + 149).toNat + 1), by omega⟩
    calc m * 2 ^ (e + 149).toNat ≤ 16777216 * 2 ^ (e + 149).toNat := Nat.mul_le_mul_right _ hm.le
      _ = 8388608 * 2 ^ ((e + 149).toNat + 1) := by rw [Nat.pow_succ]; omega
      _ ≤ 8388608 * 2 ^ ((e + 149).toNat + 1 + k) :=
        Nat.mul_le_mul_left _ (Nat.pow_le_pow_right (by decide) (by omega))
      _ ≤ m' * 2 ^ (e' + 149).toNat := by rw [hk]; exact Nat.mul_le_mul_right _ hwide
  · exact Nat.mul_le_mul_right _ hle

theorem toSize_of_isNegative {x : Float32} (h : isNegative x = true) : toSize x = 0 := by
  unfold toSize
  split_ifs
  · rfl
  · rfl
  · have hpart : (signedSteps x).tdiv unit ≤ 0 := by
      rw [signedSteps, if_pos h, Int.neg_tdiv]
      have := Int.tdiv_nonneg (Int.natCast_nonneg (steps x)) (Int.natCast_nonneg unit)
      omega
    rw [Int.toNat_of_nonpos hpart]
    rfl

theorem lt_iff_compare {x y : Float32} : x < y ↔
    (UnpackedFloat.unpack .binary32 (bitsOf x)).compare
      (UnpackedFloat.unpack .binary32 (bitsOf y)) = some .lt := by
  change decide (x.toModel < y.toModel) = true ↔ _
  rw [decide_eq_true_iff]
  change x.toModel.unpack.lt y.toModel.unpack = true ↔ _
  rw [UnpackedFloat.lt, beq_iff_eq]
  rfl

theorem isFinite_eq (x : Float32) :
    x.isFinite = (UnpackedFloat.unpack .binary32 (bitsOf x)).isFinite := rfl

theorem isNaN_eq (x : Float32) :
    x.isNaN = (UnpackedFloat.unpack .binary32 (bitsOf x)).isNaN := rfl

theorem isInf_eq (x : Float32) :
    x.isInf = (UnpackedFloat.unpack .binary32 (bitsOf x)).isInf := rfl

/-- The integer part of a finite number without a sign, from its steps. -/
theorem toSize_of_isFinite {x : Float32} (hx : x.isFinite = true) (hsign : isNegative x = false) :
    toSize x = Nat.min (steps x / unit) (twoTo 64 - 1) := by
  have hkind : x.isNaN = false ∧ x.isInf = false := by
    rw [isFinite_eq] at hx
    rw [isNaN_eq, isInf_eq]
    cases hu : UnpackedFloat.unpack .binary32 (bitsOf x) with
    | notANumber | infinity _ =>
      rw [hu] at hx
      exact absurd hx Bool.false_ne_true
    | zero _ | finite _ _ _ _ => exact ⟨rfl, rfl⟩
  rw [toSize, if_neg (Bool.eq_false_iff.mp hkind.1), if_neg (Bool.eq_false_iff.mp hkind.2),
    signedSteps, if_neg (Bool.eq_false_iff.mp hsign), ← Int.ofNat_tdiv, Int.toNat_natCast]

theorem toSize_le_of_steps_le {x y : Float32} (hx : x.isFinite = true) (hy : y.isFinite = true)
    (hsx : isNegative x = false) (hsy : isNegative y = false) (h : steps x ≤ steps y) :
    toSize x ≤ toSize y := by
  rw [toSize_of_isFinite hx hsx, toSize_of_isFinite hy hsy]
  have hdiv : steps x / unit ≤ steps y / unit := Nat.div_le_div_right h
  exact Nat.le_min.mpr ⟨le_trans (Nat.min_le_left _ _) hdiv, Nat.min_le_right _ _⟩

theorem steps_le_of_not_lt {x y : Float32} {m m' : Nat} {e e' : Int} {hpos : 0 < m} {hpos' : 0 < m'}
    (hx : UnpackedFloat.unpack .binary32 (bitsOf x) = .finite .positive m e hpos)
    (hy : UnpackedFloat.unpack .binary32 (bitsOf y) = .finite .positive m' e' hpos') (h : ¬y < x) :
    steps x ≤ steps y := by
  obtain ⟨hsteps, hm, he, -⟩ := unpack_finite hx
  obtain ⟨hsteps', -, -, hm'⟩ := unpack_finite hy
  have horder : e < e' ∨ e = e' ∧ m ≤ m' := by
    have hcompare :
        UnpackedFloat.compare (.finite .positive m' e' hpos') (.finite .positive m e hpos) =
        some ((compare e' e).then (compare m' m)) := rfl
    rw [lt_iff_compare, hx, hy, hcompare, Option.some.injEq, Ordering.then_eq_lt, compare_lt_iff_lt,
      compare_lt_iff_lt, compare_eq_iff_eq] at h
    omega
  rw [hsteps, hsteps']
  exact steps_le hm he hm' horder

/-- A number that is not above a finite one does not have a larger integer part. -/
theorem toSize_le_of_not_lt {x y : Float32} (hy : y.isFinite = true) (h : ¬y < x) :
    toSize x ≤ toSize y := by
  by_cases hneg : isNegative x = true
  · rw [toSize_of_isNegative hneg]
    exact Nat.zero_le _
  rw [Bool.not_eq_true] at hneg
  have hsign : Unsigned (UnpackedFloat.unpack .binary32 (bitsOf x)) := unsigned_unpack_toModel hneg
  have hfinite := hy
  rw [isFinite_eq] at hfinite
  have hcompare := mt lt_iff_compare.mpr h
  cases hx : UnpackedFloat.unpack .binary32 (bitsOf x) with
  | notANumber =>
    have hnan : x.isNaN = true := by
      rw [isNaN_eq, hx]
      rfl
    rw [toSize, if_pos hnan]
    exact Nat.zero_le _
  | infinity s =>
    rw [hx] at hsign hcompare
    cases hsign
    cases hu : UnpackedFloat.unpack .binary32 (bitsOf y) with
    | notANumber | infinity _ =>
      rw [hu] at hfinite
      exact absurd hfinite Bool.false_ne_true
    | zero _ | finite _ _ _ _ => exact absurd (by rw [hu]; rfl) hcompare
  | zero s =>
    have hfin : x.isFinite = true := by
      rw [isFinite_eq, hx]
      rfl
    rw [toSize_of_isFinite hfin hneg, steps_of_unpack_zero hx, Nat.zero_div]
    exact Nat.zero_le _
  | finite s m e hpos =>
    have hfin : x.isFinite = true := by
      rw [isFinite_eq, hx]
      rfl
    rw [hx] at hsign hcompare
    cases hsign
    cases hu : UnpackedFloat.unpack .binary32 (bitsOf y) with
    | notANumber | infinity _ =>
      rw [hu] at hfinite
      exact absurd hfinite Bool.false_ne_true
    | zero _ => exact absurd (by rw [hu]; rfl) hcompare
    | finite s' m' e' hpos' =>
      cases s' with
      | negative => exact absurd (by rw [hu]; rfl) hcompare
      | positive =>
        exact toSize_le_of_steps_le hfin hy hneg (isNegative_of_unpack hu)
          (steps_le_of_not_lt hx hu h)

end TensorGraph.Binary32
