import TensorGraph.Proofs.Magnitudes

/-! The order of numbers as that of integers. The bits of a magnitude, with its sign, are the place
of a number among all of them, so that two numbers compare as their places do. -/

namespace TensorGraph.Binary32

open Float.Model (UnpackedFloat)
open Float.Model.UnpackedFloat (Sign unpackSign unpackExponent unpackMantissa)

/-- The place of a number in the order of all of them; both zeros stand at 0. -/
def place (x : Float32) : Int :=
  if isNegative x then -(x.toBits.toNat % 2147483648 : Nat) else (x.toBits.toNat % 2147483648 : Nat)

theorem place_eq (x : Float32) :
    place x = (Sign.ofBitVec (unpackSign (bitsOf x))).apply (x.toBits.toNat % 2147483648 :
      Nat) := by
  by_cases hneg : isNegative x = true
  · have hsign : unpackSign (bitsOf x) ≠ 0#1 := fun h =>
      absurd (isNegative_eq_false_iff.mpr (unpackSign_eq_zero_iff.mp h)) (by rw [hneg]; decide)
    rw [place, if_pos hneg, Sign.ofBitVec, if_neg hsign]
    rfl
  · have hsign : unpackSign (bitsOf x) = 0#1 :=
      unpackSign_eq_zero_iff.mpr (isNegative_eq_false_iff.mp (Bool.eq_false_iff.mpr hneg))
    rw [place, if_neg hneg, hsign]
    rfl

inductive StandsAt : UnpackedFloat → Int → Prop
  | notANumber (n : Int) : StandsAt .notANumber n
  | zero (s : Sign) : StandsAt (.zero s) 0
  | finite (s : Sign) (m : Nat) (e : Int) (hpos : 0 < m) (hm : m < 16777216) (hleast : -149 ≤ e)
      (hgreatest : e ≤ 104) (hwide : -149 < e → 8388608 ≤ m) :
      StandsAt (.finite s m e hpos) (s.apply ((e + 149) * 8388608 + m))
  | infinity (s : Sign) : StandsAt (.infinity s) (s.apply 2139095040)

theorem standsAt_place (x : Float32) :
    StandsAt (UnpackedFloat.unpack .binary32 (bitsOf x)) (place x) := by
  have hbits : x.toBits.toNat < 4294967296 := x.toBits.toNat_lt
  have hm := toNat_unpackMantissa x
  have he := toNat_unpackExponent x
  rw [place_eq]
  rcases unpack_cases (bitsOf x) with ⟨hones, hzero, h⟩ | h | ⟨hnone, hzero, h⟩ | ⟨hnone, _, h⟩ |
    ⟨hnone, hones, _, h⟩ <;> rw [h]
  · have hexponent : (unpackExponent (bitsOf x)).toNat = 255 := by rw [hones]; rfl
    have hmantissa : (unpackMantissa (bitsOf x)).toNat = 0 := by rw [hzero]; rfl
    have hplace : x.toBits.toNat % 2147483648 = 2139095040 := by omega
    rw [hplace]
    exact .infinity _
  · exact .notANumber _
  · have hexponent : (unpackExponent (bitsOf x)).toNat = 0 := by rw [hnone]; rfl
    have hmantissa : (unpackMantissa (bitsOf x)).toNat = 0 := by rw [hzero]; rfl
    have hplace : x.toBits.toNat % 2147483648 = 0 := by omega
    have hnothing : ∀ s : Sign, s.apply (0 : Nat) = 0 := fun s => by cases s <;> rfl
    rw [hplace, hnothing]
    exact .zero _
  · have hexponent : (unpackExponent (bitsOf x)).toNat = 0 := by rw [hnone]; rfl
    have hplace : ((x.toBits.toNat % 2147483648 : Nat) : Int) =
        (-149 + 149) * 8388608 + (unpackMantissa (bitsOf x)).toNat := by omega
    rw [exponent_of_eq_zero hnone, hplace]
    exact .finite _ _ _ _ (by omega) le_rfl (by omega) (by omega)
  · have hexponent : (unpackExponent (bitsOf x)).toNat ≠ 0 := fun h => hnone (BitVec.toNat_inj.mp h)
    have hfinite : (unpackExponent (bitsOf x)).toNat ≠ 255 := fun h => hones (BitVec.toNat_inj.mp h)
    have himplicit : (1#1 ++ unpackMantissa (bitsOf x)).toNat =
        8388608 + (unpackMantissa (bitsOf x)).toNat := toNat_implicit _
    have hplace : ((x.toBits.toNat % 2147483648 : Nat) : Int) =
        ((unpackExponent (bitsOf x)).toNat - 150 + 149) * 8388608 +
          ((1#1 ++ unpackMantissa (bitsOf x)).toNat : Int) := by
      rw [himplicit]
      omega
    rw [exponent_eq, hplace]
    exact .finite _ _ _ _ (by omega) (by omega) (by omega) (by omega)

/-- Exponents come before significands, as in the bits. -/
theorem compare_finite {m m' : Nat} {e e' : Int} (hm : m < 16777216) (hm' : m' < 16777216)
    (he : -149 ≤ e) (he' : -149 ≤ e') (hwide : -149 < e → 8388608 ≤ m)
    (hwide' : -149 < e' → 8388608 ≤ m') :
    (compare e e').then (compare m m') =
      compare ((e + 149) * 8388608 + (m : Int)) ((e' + 149) * 8388608 + (m' : Int)) := by
  rcases lt_trichotomy e e' with hlt | rfl | hgt
  · have hplace : (e + 149) * 8388608 + (m : Int) < (e' + 149) * 8388608 + m' := by omega
    rw [compare_lt_iff_lt.mpr hlt, compare_lt_iff_lt.mpr hplace]
    rfl
  · rw [compare_eq_iff_eq.mpr rfl, Ordering.eq_then]
    rcases lt_trichotomy m m' with hlt | rfl | hgt
    · have hplace : (e + 149) * 8388608 + (m : Int) < (e + 149) * 8388608 + m' := by omega
      rw [compare_lt_iff_lt.mpr hlt, compare_lt_iff_lt.mpr hplace]
    · rw [compare_eq_iff_eq.mpr rfl, compare_eq_iff_eq.mpr rfl]
    · have hplace : (e + 149) * 8388608 + (m' : Int) < (e + 149) * 8388608 + m := by omega
      rw [compare_gt_iff_gt.mpr hgt, compare_gt_iff_gt.mpr hplace]
  · have hplace : (e' + 149) * 8388608 + (m' : Int) < (e + 149) * 8388608 + m := by omega
    rw [compare_gt_iff_gt.mpr hgt, compare_gt_iff_gt.mpr hplace]
    rfl

theorem swap_compare (a b : Int) : (compare a b).swap = compare (-a) (-b) := by
  rcases lt_trichotomy a b with hlt | rfl | hgt
  · rw [compare_lt_iff_lt.mpr hlt, compare_gt_iff_gt.mpr (Int.neg_lt_neg hlt)]
    rfl
  · rw [compare_eq_iff_eq.mpr rfl, compare_eq_iff_eq.mpr rfl]
    rfl
  · rw [compare_gt_iff_gt.mpr hgt, compare_lt_iff_lt.mpr (Int.neg_lt_neg hgt)]
    rfl

theorem some_lt {a b : Int} (h : a < b) : some Ordering.lt = some (compare a b) :=
  congrArg some (compare_lt_iff_lt.mpr h).symm

theorem some_gt {a b : Int} (h : b < a) : some Ordering.gt = some (compare a b) :=
  congrArg some (compare_gt_iff_gt.mpr h).symm

theorem StandsAt.compare_eq {u v : UnpackedFloat} {a b : Int} (hu : StandsAt u a)
    (hv : StandsAt v b) (hu' : u.isNaN = false)
    (hv' : v.isNaN = false) : u.compare v = some (compare a b) := by
  cases hu with
  | notANumber => cases hu'
  | zero s =>
    cases hv with
    | notANumber => cases hv'
    | zero => rfl
    | infinity t =>
      cases t
      · exact some_gt (by decide)
      · exact some_lt (by decide)
    | finite t m e hpos hm hleast =>
      cases t
      · exact some_gt (by dsimp only [Sign.apply]; omega)
      · exact some_lt (by dsimp only [Sign.apply]; omega)
  | infinity s =>
    cases hv with
    | notANumber => cases hv'
    | zero =>
      cases s
      · exact some_lt (by decide)
      · exact some_gt (by decide)
    | infinity t => cases s <;> cases t <;> rfl
    | finite t m e hpos hm hleast hgreatest =>
      cases s
      · exact some_lt (by cases t <;> dsimp only [Sign.apply] <;> omega)
      · exact some_gt (by cases t <;> dsimp only [Sign.apply] <;> omega)
  | finite s m e hpos hm hleast hgreatest hwide =>
    cases hv with
    | notANumber => cases hv'
    | zero =>
      cases s
      · exact some_lt (by dsimp only [Sign.apply]; omega)
      · exact some_gt (by dsimp only [Sign.apply]; omega)
    | infinity t =>
      cases t
      · cases s <;> exact some_gt (by dsimp only [Sign.apply]; omega)
      · cases s <;> exact some_lt (by dsimp only [Sign.apply]; omega)
    | finite t m' e' hpos' hm' hleast' hgreatest' hwide' =>
      have hsame := compare_finite hm hm' hleast hleast' hwide hwide'
      cases s <;> cases t
      · exact congrArg some ((congrArg Ordering.swap hsame).trans (swap_compare _ _))
      · exact some_lt (by dsimp only [Sign.apply]; omega)
      · exact some_gt (by dsimp only [Sign.apply]; omega)
      · exact congrArg some hsame

/-- Numbers are in the order of their places. -/
theorem lt_iff_place {x y : Float32} (hx : x.isNaN = false) (hy : y.isNaN = false) :
    x < y ↔ place x < place y := by
  rw [lt_iff_compare, (standsAt_place x).compare_eq (standsAt_place y) hx hy, Option.some.injEq,
    compare_lt_iff_lt]

/-- Numbers are equal if they stand at the same place. -/
theorem beq_iff_place {x y : Float32} (hx : x.isNaN = false) (hy : y.isNaN = false) :
    (x == y) = true ↔ place x = place y := by
  have hcompare : (x == y) = ((UnpackedFloat.unpack .binary32 (bitsOf x)).compare
      (UnpackedFloat.unpack .binary32 (bitsOf y)) == some .eq) := rfl
  rw [hcompare, (standsAt_place x).compare_eq (standsAt_place y) hx hy, beq_iff_eq,
    Option.some.injEq, compare_eq_iff_eq]

theorem place_eq_zero_iff {x : Float32} : place x = 0 ↔ x.toBits = 0 ∨ x.toBits = 0x80000000 := by
  have hbits : x.toBits.toNat < 4294967296 := x.toBits.toNat_lt
  have hmagnitude : place x = 0 ↔ x.toBits.toNat % 2147483648 = 0 := by
    rw [place]
    split_ifs <;> omega
  rw [hmagnitude, ← UInt32.toNat_inj, ← UInt32.toNat_inj]
  simp only [UInt32.reduceToNat]
  omega

theorem beq_eq_false_of_isNaN {x : Float32} (h : x.isNaN = true) (y : Float32) :
    (x == y) = false := by
  have hcompare : (x == y) = ((UnpackedFloat.unpack .binary32 (bitsOf x)).compare
      (UnpackedFloat.unpack .binary32 (bitsOf y)) == some .eq) := rfl
  rw [isNaN_eq] at h
  rw [hcompare]
  cases hu : UnpackedFloat.unpack .binary32 (bitsOf x) with
  | notANumber => rfl
  | zero | infinity | finite =>
    rw [hu] at h
    cases h

theorem beq_zero_iff {x : Float32} : (x == 0) = true ↔ x.toBits = 0 ∨ x.toBits = 0x80000000 := by
  cases hnan : x.isNaN with
  | true =>
    have hbits : ∀ b : UInt32, x.toBits = b → (Float32.ofBits b).isNaN = true := by
      rintro b rfl
      rwa [ofBits_toBits]
    rw [beq_eq_false_of_isNaN hnan]
    refine iff_of_false Bool.false_ne_true ?_
    rintro (hb | hb)
    · exact absurd (hbits 0 hb) (by decide)
    · exact absurd (hbits 0x80000000 hb) (by decide)
  | false =>
    have hzero : place 0 = 0 := by decide
    rw [beq_iff_place hnan rfl, hzero, place_eq_zero_iff]

end TensorGraph.Binary32
