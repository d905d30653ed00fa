import TensorGraph.Binary32.Decimal
import TensorGraph.Json.Decode
import TensorGraph.Json.Text
import TensorGraph.Proofs.Magnitudes

/-! Decimals of finite numbers. A number is read back from its sign and its steps, rounding a
fraction does not depend on how the fraction is written, and a number with few significant digits
is not rounded at all, so the decimal with all digits is read as the number. A decimal that is
written out is read with zeros up to its last place, which makes it another decimal for the same
number. -/

namespace TensorGraph.Binary32

open Float.Model (UnpackedFloat)
open Float.Model.UnpackedFloat (unpackExponent unpackMantissa)

theorem twoTo_add (a b : Nat) : twoTo (a + b) = twoTo a * twoTo b := Nat.pow_add 2 a b

theorem twoTo_pos (n : Nat) : 0 < twoTo n := Nat.two_pow_pos n

theorem twoTo_le {a b : Nat} (h : a ≤ b) : twoTo a ≤ twoTo b := Nat.pow_le_pow_right (by decide) h

theorem mul_twoTo_lt {m e a b : Nat} (hm : m < twoTo a) (h : a + e ≤ b) : m * twoTo e < twoTo b :=
  calc m * twoTo e < twoTo a * twoTo e := Nat.mul_lt_mul_of_pos_right hm (twoTo_pos e)
    _ = twoTo (a + e) := (twoTo_add a e).symm
    _ ≤ twoTo b := twoTo_le h

theorem log2_mul_twoTo {m : Nat} (hm : m ≠ 0) (e : Nat) : (m * twoTo e).log2 = m.log2 + e := by
  induction e with
  | zero => simp
  | succ e ih =>
    have hpos : m * twoTo e ≠ 0 := Nat.mul_ne_zero hm (twoTo_pos e).ne'
    have hdouble : m * twoTo (e + 1) = 2 * (m * twoTo e) := by
      rw [twoTo_add, ← Nat.mul_assoc, Nat.mul_comm]
    rw [hdouble, Nat.log2_two_mul hpos, ih, Nat.add_assoc]

theorem exponent_lt {x : Float32} (hx : x.isFinite = true) :
    x.toBits.toNat / 8388608 % 256 < 255 := by
  by_contra hle
  have hones : unpackExponent (bitsOf x) = -1#8 := by
    apply BitVec.toNat_inj.mp
    rw [toNat_unpackExponent]
    have : (-1#8).toNat = 255 := rfl
    omega
  rw [isFinite_eq] at hx
  unfold UnpackedFloat.unpack at hx
  rw [if_pos hones] at hx
  by_cases hzero : unpackMantissa (bitsOf x) = 0#23
  · rw [if_pos hzero] at hx
    exact Bool.false_ne_true hx
  · rw [if_neg hzero] at hx
    exact Bool.false_ne_true hx

theorem exists_fields {x : Float32} (hx : x.isFinite = true) : ∃ e f, e < 255 ∧ f < 8388608 ∧
    x.toBits.toNat % 2147483648 = e * 8388608 + f ∧
    steps x = if e = 0 then f else (8388608 + f) * twoTo (e - 1) := by
  refine ⟨x.toBits.toNat / 8388608 % 256, x.toBits.toNat % 8388608, exponent_lt hx,
    Nat.mod_lt _ (by decide), by omega, ?_⟩
  rw [steps_eq, toNat_unpackExponent, toNat_unpackMantissa]
  rfl

theorem exists_significand {x : Float32} (hx : x.isFinite = true) :
    ∃ m e, m < twoTo 24 ∧ e < 254 ∧ steps x = m * twoTo e := by
  have htop : twoTo 24 = 16777216 := rfl
  obtain ⟨e, f, he, hf, -, hsteps⟩ := exists_fields hx
  by_cases hzero : e = 0
  · exact ⟨f, 0, by omega, by decide, by simp [hsteps, hzero]⟩
  · exact ⟨8388608 + f, e - 1, by omega, by omega, by simp [hsteps, hzero]⟩

theorem steps_lt {x : Float32} (hx : x.isFinite = true) : steps x < twoTo 277 := by
  obtain ⟨m, e, hm, he, hsteps⟩ := exists_significand hx
  rw [hsteps]
  exact mul_twoTo_lt hm (by omega)

theorem ofSteps_steps {x : Float32} (hx : x.isFinite = true) :
    ofSteps (isNegative x) (some (steps x)) = x := by
  obtain ⟨e, f, he, hf, hbits, hsteps⟩ := exists_fields hx
  have hlt : x.toBits.toNat < 4294967296 := x.toBits.toNat_lt
  have hfrac : twoTo 23 = 8388608 := rfl
  have hmagnitude : (if steps x < twoTo 23 then steps x
      else ((steps x).log2 - 23 + 1) * twoTo 23 +
        (steps x / twoTo ((steps x).log2 - 23) - twoTo 23)) = x.toBits.toNat % 2147483648 := by
    rw [hbits, hfrac, hsteps]
    by_cases hzero : e = 0
    · simp [hzero, hf]
    · have hpos : 0 < twoTo (e - 1) := twoTo_pos _
      have hwide : ¬(8388608 + f) * twoTo (e - 1) < 8388608 := by
        have := Nat.le_mul_of_pos_right (8388608 + f) hpos
        omega
      have hlog : ((8388608 + f) * twoTo (e - 1)).log2 = 23 + (e - 1) := by
        rw [log2_mul_twoTo (by omega), show 8388608 = 2 ^ 23 from rfl, log2_implicit hf]
      rw [if_neg hzero, if_neg hwide, hlog, Nat.add_sub_cancel_left, Nat.mul_div_cancel _ hpos]
      omega
  have hsign : x.toBits.toNat = if isNegative x then twoTo 31 + x.toBits.toNat % 2147483648
      else x.toBits.toNat % 2147483648 := by
    have htop : twoTo 31 = 2147483648 := rfl
    by_cases hneg : isNegative x = true
    · have : ¬x.toBits.toNat < 2147483648 := fun h => by
        simp [isNegative_eq_false_iff.mpr h] at hneg
      rw [if_pos hneg]
      omega
    · have := isNegative_eq_false_iff.mp (Bool.eq_false_iff.mpr hneg)
      rw [if_neg hneg]
      omega
  rw [ofSteps]
  dsimp only
  rw [hmagnitude, ← hsign, UInt32.ofNat_toNat, ofBits_toBits]

theorem double_limit : double.limit = twoTo 2098 := by simp only [double]

theorem single_limit : single.limit = twoTo 277 := by simp only [single]

theorem divNearest_mul_right (num den : Nat) {k : Nat} (hk : 0 < k) :
    divNearest (num * k) (den * k) = divNearest num den := by
  have hgt : 2 * (num % den * k) > den * k ↔ 2 * (num % den) > den := by
    rw [← Nat.mul_assoc]
    exact Nat.mul_lt_mul_right hk
  have heq : 2 * (num % den * k) = den * k ↔ 2 * (num % den) = den := by
    rw [← Nat.mul_assoc]
    exact Nat.mul_left_inj hk.ne'
  simp only [divNearest, Nat.mul_div_mul_right _ _ hk, Nat.mul_mod_mul_right, hgt, heq]

theorem divNearest_mul_self (q : Nat) {den : Nat} (hden : 0 < den) :
    divNearest (q * den) den = q := by
  simp [divNearest, Nat.mul_div_cancel _ hden, hden.ne]

theorem Format.round_mul_right (f : Format) (num den : Nat) {k : Nat} (hk : 0 < k) :
    f.round (num * k) (den * k) = f.round num den := by
  have hscaled : num * k * twoTo f.unitExponent = num * twoTo f.unitExponent * k :=
    Nat.mul_right_comm _ _ _
  have hden (shift : Nat) : den * k * twoTo shift = den * twoTo shift * k :=
    Nat.mul_right_comm _ _ _
  simp only [Format.round, hscaled, hden, Nat.mul_div_mul_right _ _ hk, divNearest_mul_right _ _ hk]

/-- A number of steps with few significant digits is rounded to itself. -/
theorem Format.round_exact (f : Format) {num den m e : Nat} (hden : 0 < den) (hpos : 0 < m)
    (hm : m < twoTo f.digits) (hscaled : num * twoTo f.unitExponent = m * twoTo e * den)
    (hlimit : m * twoTo e < f.limit) : f.round num den = some (m * twoTo e) := by
  have hlog : (m * twoTo e).log2 = m.log2 + e := log2_mul_twoTo hpos.ne' e
  have hshort : m.log2 < f.digits := log2_lt_of_lt hpos.ne' hm
  obtain ⟨k, hk⟩ : ∃ k, e = k + (m.log2 + e + 1 - f.digits) :=
    ⟨e - (m.log2 + e + 1 - f.digits), by omega⟩
  generalize hshift : m.log2 + e + 1 - f.digits = shift at hk
  have hwhole : m * twoTo k * twoTo shift = m * twoTo e := by
    rw [hk, twoTo_add, Nat.mul_assoc]
  have hsplit : m * twoTo e * den = m * twoTo k * (den * twoTo shift) := by
    rw [← hwhole, Nat.mul_right_comm, Nat.mul_assoc]
  rw [Format.round]
  simp only [hscaled, Nat.mul_div_cancel _ hden, hlog, hshift]
  rw [hsplit, divNearest_mul_self _ (Nat.mul_pos hden (twoTo_pos shift)), hwhole, if_pos hlimit]

theorem Format.round_finer (f : Format) {m e k u : Nat} (hunit : f.unitExponent = k + u)
    (hpos : 0 < m) (hm : m < twoTo f.digits) (hlimit : m * twoTo (e + k) < f.limit) :
    f.round (m * twoTo e) (twoTo u) = some (m * twoTo (e + k)) := by
  apply f.round_exact (twoTo_pos u) hpos hm _ hlimit
  rw [hunit, twoTo_add, twoTo_add, ← Nat.mul_assoc, ← Nat.mul_assoc]

theorem Format.round_wider (f : Format) {m e k u : Nat} (hunit : u = k + f.unitExponent)
    (hpos : 0 < m) (hm : m < twoTo f.digits) (hlimit : m * twoTo e < f.limit) :
    f.round (m * twoTo (e + k)) (twoTo u) = some (m * twoTo e) := by
  apply f.round_exact (twoTo_pos u) hpos hm _ hlimit
  rw [hunit, twoTo_add, twoTo_add, ← Nat.mul_assoc, ← Nat.mul_assoc]

theorem length_toString_pos (n : Nat) : 0 < (toString n).length := by
  rw [Nat.toString_eq_ofList_toDigits, String.length_ofList]
  exact Nat.length_toDigits_pos

theorem scaleTen_exact (x : Float32) :
    scaleTen (exact x).digits 1 (exact x).power =
      (steps x * Nat.pow 5 149, twoTo 149 * Nat.pow 5 149) := by
  have hten : tenTo 149 = twoTo 149 * Nat.pow 5 149 := Nat.mul_pow 2 5 149
  have hpower : ¬(-149 : Int) ≥ 0 := by decide
  simp only [exact, scaleTen, if_neg hpower, Nat.one_mul, ← hten]
  congr 2

theorem ofDecimal_exact {x : Float32} (hx : x.isFinite = true) :
    ofDecimal (isNegative x) (exact x) = x := by
  by_cases hzero : steps x = 0
  · have := ofSteps_steps hx
    simpa [ofDecimal, exact, hzero] using this
  obtain ⟨m, e, hm, he, hsteps⟩ := exists_significand hx
  have hpos : 0 < m := by
    by_contra h
    simp [hsteps, show m = 0 by omega] at hzero
  have hfive : 0 < Nat.pow 5 149 := Nat.pow_pos (by decide)
  have hdouble : double.round (steps x) (twoTo 149) = some (m * twoTo (e + 925)) := by
    rw [hsteps]
    apply double.round_finer rfl hpos (lt_of_lt_of_le hm (twoTo_le (by decide)))
    rw [double_limit]
    exact mul_twoTo_lt hm (by omega)
  have hsingle : single.round (m * twoTo (e + 925)) (twoTo double.unitExponent) =
      some (steps x) := by
    rw [hsteps]
    apply single.round_wider (k := 925) (u := double.unitExponent) rfl hpos hm
    rw [← hsteps, single_limit]
    exact steps_lt hx
  have hdigits : (exact x).digits ≠ 0 := Nat.mul_ne_zero hzero hfive.ne'
  have hpoint : -400 ≤ (exact x).power + (toString (exact x).digits).length := by
    have : (exact x).power = -149 := rfl
    omega
  have hround : double.round (scaleTen (exact x).digits 1 (exact x).power).1
      (scaleTen (exact x).digits 1 (exact x).power).2 = some (m * twoTo (e + 925)) := by
    rw [scaleTen_exact, double.round_mul_right _ _ hfive, hdouble]
  rw [ofDecimal_of_round hdigits hpoint hround, Option.elim_some, ofRatio, hsingle,
    ofSteps_steps hx]

end TensorGraph.Binary32

namespace TensorGraph

namespace Binary32

theorem tenTo_add (a b : Nat) : tenTo (a + b) = tenTo a * tenTo b := Nat.pow_add 10 a b

theorem tenTo_pos (n : Nat) : 0 < tenTo n := Nat.pow_pos (by decide)

theorem tenTo_mono {a b : Nat} (h : a ≤ b) : tenTo a ≤ tenTo b := Nat.pow_le_pow_right (by decide) h

theorem length_toString_le_iff {n k : Nat} (hk : 0 < k) :
    (toString n).length ≤ k ↔ n < tenTo k := by
  rw [Nat.toString_eq_ofList_toDigits, String.length_ofList]
  exact Nat.length_toDigits_le_iff (by decide) hk

theorem length_toString_mul_tenTo (n k : Nat) :
    (toString (n * tenTo k)).length ≤ (toString n).length + k := by
  have hlen := length_toString_pos n
  have hn : n < tenTo (toString n).length := (length_toString_le_iff hlen).mp (Nat.le_refl _)
  apply (length_toString_le_iff (by omega)).mpr
  calc n * tenTo k < tenTo (toString n).length * tenTo k :=
        Nat.mul_lt_mul_of_pos_right hn (tenTo_pos k)
    _ = tenTo ((toString n).length + k) := (tenTo_add _ k).symm

theorem tenTo_le {n : Nat} (hn : n ≠ 0) : tenTo ((toString n).length - 1) ≤ n := by
  by_cases hone : (toString n).length - 1 = 0
  · rw [hone]
    exact Nat.pos_of_ne_zero hn
  · by_contra hlt
    have := (length_toString_le_iff (Nat.pos_of_ne_zero hone)).mpr (Nat.lt_of_not_le hlt)
    omega

theorem scaleTen_of_nonneg {digits : Nat} {power : Int} (h : 0 ≤ power) :
    scaleTen digits 1 power = (digits * tenTo power.toNat, 1) := if_pos h

theorem scaleTen_of_neg {digits : Nat} {power : Int} (h : power < 0) :
    scaleTen digits 1 power = (digits, tenTo (-power).toNat) := by
  rw [scaleTen, if_neg (by omega), Nat.one_mul]

theorem scaleTen_pos (digits : Nat) (power : Int) : 0 < (scaleTen digits 1 power).2 := by
  rw [scaleTen]
  split_ifs
  · exact Nat.one_pos
  · exact Nat.mul_pos Nat.one_pos (tenTo_pos _)

theorem ofDecimal_reread (negative : Bool) (d : Decimal) :
    ofDecimal negative d.reread = ofDecimal negative d := by
  by_cases hzero : d.digits = 0
  · simp [Decimal.reread, ofDecimal, hzero]
  by_cases hwhole : 0 ≤ d.power ∧ d.power + (toString d.digits).length ≤ 16
  · have hreread : d.reread = ⟨d.digits * tenTo (d.power.toNat + 1), -1⟩ := by
      rw [Decimal.reread, if_neg hzero, if_pos hwhole]
    have hscale : scaleTen d.digits 1 d.power = (d.digits * tenTo d.power.toNat, 1) :=
      scaleTen_of_nonneg hwhole.1
    have hrescale : scaleTen d.reread.digits 1 d.reread.power =
        (d.digits * tenTo d.power.toNat * 10, 1 * 10) := by
      rw [hreread, scaleTen_of_neg (by decide : (-1 : Int) < 0), Nat.mul_assoc]
      rfl
    have hround : double.round (scaleTen d.digits 1 d.power).1 (scaleTen d.digits 1 d.power).2 =
        double.round (scaleTen d.reread.digits 1 d.reread.power).1
          (scaleTen d.reread.digits 1 d.reread.power).2 := by
      rw [hscale, hrescale, double.round_mul_right _ _ (by decide)]
    rw [ofDecimal_of_round hzero (by omega) hround, ofDecimal_of_round _ _ rfl]
    · rw [hreread]
      exact Nat.mul_ne_zero hzero (tenTo_pos _).ne'
    · rw [hreread]
      dsimp only
      omega
  · rw [Decimal.reread, if_neg hzero, if_neg hwhole]

theorem Format.round_eq_none (f : Format) {num den k : Nat} (hden : 0 < den)
    (hdigits : 0 < f.digits) (hlimit : f.limit ≤ twoTo k)
    (h : twoTo k * den ≤ num * twoTo f.unitExponent) :
    f.round num den = none := by
  have hquotient : twoTo k ≤ num * twoTo f.unitExponent / den := (Nat.le_div_iff_mul_le hden).mpr h
  rw [Format.round]
  generalize num * twoTo f.unitExponent = scaled at *
  have hpos : scaled / den ≠ 0 := (lt_of_lt_of_le (twoTo_pos k) hquotient).ne'
  have hlog : k ≤ (scaled / den).log2 := (Nat.le_log2 hpos).mpr hquotient
  obtain ⟨low, hlow⟩ : ∃ low, (scaled / den).log2 = low + ((scaled / den).log2 + 1 - f.digits) :=
    ⟨(scaled / den).log2 - ((scaled / den).log2 + 1 - f.digits), by omega⟩
  generalize (scaled / den).log2 + 1 - f.digits = shift at hlow ⊢
  have hfloor : twoTo low ≤ scaled / (den * twoTo shift) := by
    rw [← Nat.div_div_eq_div_mul, Nat.le_div_iff_mul_le (twoTo_pos shift), ← twoTo_add, ← hlow]
    exact Nat.log2_self_le hpos
  have hnearest : scaled / (den * twoTo shift) ≤ divNearest scaled (den * twoTo shift) := by
    rw [divNearest]
    split_ifs <;> omega
  apply if_neg
  apply Nat.not_lt.mpr
  calc f.limit ≤ twoTo k := hlimit
    _ ≤ twoTo (low + shift) := twoTo_le (hlow ▸ hlog)
    _ = twoTo low * twoTo shift := twoTo_add low shift
    _ ≤ divNearest scaled (den * twoTo shift) * twoTo shift :=
      Nat.mul_le_mul_right _ (hfloor.trans hnearest)

/-- A decimal with more than 309 digits before its point is out of range. -/
theorem round_eq_none {d : Decimal} (hd : d.digits ≠ 0)
    (hpoint : 309 < d.power + (toString d.digits).length) :
    double.round (scaleTen d.digits 1 d.power).1 (scaleTen d.digits 1 d.power).2 = none := by
  have hlead := tenTo_le hd
  have hwide : twoTo 1024 ≤ tenTo 309 := by decide +kernel
  have hratio : twoTo 1024 * (scaleTen d.digits 1 d.power).2 ≤ (scaleTen d.digits 1 d.power).1 := by
    by_cases hpower : 0 ≤ d.power
    · rw [scaleTen_of_nonneg hpower, Nat.mul_one]
      calc twoTo 1024 ≤ tenTo 309 := hwide
        _ ≤ tenTo ((toString d.digits).length - 1 + d.power.toNat) := tenTo_mono (by omega)
        _ = tenTo ((toString d.digits).length - 1) * tenTo d.power.toNat := tenTo_add _ _
        _ ≤ d.digits * tenTo d.power.toNat := Nat.mul_le_mul_right _ hlead
    · rw [scaleTen_of_neg (by omega)]
      calc twoTo 1024 * tenTo (-d.power).toNat ≤ tenTo 309 * tenTo (-d.power).toNat :=
            Nat.mul_le_mul_right _ hwide
        _ = tenTo (309 + (-d.power).toNat) := (tenTo_add _ _).symm
        _ ≤ tenTo ((toString d.digits).length - 1) := tenTo_mono (by omega)
        _ ≤ d.digits := hlead
  have hunit : double.unitExponent = 1074 := rfl
  have hlimit : double.limit ≤ twoTo (1024 + 1074) := double_limit.trans_le (twoTo_le (by decide))
  apply double.round_eq_none (scaleTen_pos _ _) (by decide) hlimit
  rw [hunit, twoTo_add, Nat.mul_right_comm]
  exact Nat.mul_le_mul_right _ hratio

theorem isFinite_ofSteps_none (negative : Bool) : (ofSteps negative none).isFinite = false := by
  cases negative <;> rfl

end Binary32

open Binary32 (Decimal ofDecimal)

namespace Json

theorem inRange_of_isFinite {negative : Bool} {d : Decimal}
    (h : (ofDecimal negative d).isFinite = true) : inRange d = true := by
  rw [inRange]
  by_cases hsmall : d.digits = 0 ∨ d.power + (toString d.digits).length ≤ 308
  · rw [if_pos hsmall]
  obtain ⟨hdigits, hpoint⟩ := not_or.mp hsmall
  have hsome : (Binary32.double.round (Binary32.scaleTen d.digits 1 d.power).1
      (Binary32.scaleTen d.digits 1 d.power).2).isSome = true := by
    by_contra hnone
    have hround := Option.not_isSome_iff_eq_none.mp hnone
    rw [Binary32.ofDecimal_of_round hdigits (by omega) hround, Option.elim_none,
      Binary32.isFinite_ofSteps_none] at h
    cases h
  by_cases hlarge : d.power + (toString d.digits).length > 309
  · simp [Binary32.round_eq_none hdigits hlarge] at hsome
  · rw [if_neg hsmall, if_neg hlarge]
    exact hsome

theorem inRange_reread {d : Decimal} (h : inRange d = true) : inRange d.reread = true := by
  by_cases hzero : d.digits = 0
  · simp [Decimal.reread, inRange, hzero]
  by_cases hwhole : 0 ≤ d.power ∧ d.power + (toString d.digits).length ≤ 16
  · have hlen := Binary32.length_toString_mul_tenTo d.digits (d.power.toNat + 1)
    rw [Decimal.reread, if_neg hzero, if_pos hwhole, inRange]
    apply if_pos
    right
    dsimp only
    omega
  · rwa [Decimal.reread, if_neg hzero, if_neg hwhole]

/-- Whether finite numbers are read from their digits. -/
def Lossless (digits : Float32 → Decimal) : Prop :=
  ∀ x, x.isFinite = true → ofDecimal (Binary32.isNegative x) (digits x) = x

theorem Lossless.inRange {digits : Float32 → Decimal} (h : Lossless digits) {x : Float32}
    (hx : x.isFinite = true) : inRange (digits x) = true := by
  have hread : (ofDecimal (Binary32.isNegative x) (digits x)).isFinite = true := by
    rwa [h x hx]
  exact inRange_of_isFinite hread

/-- The shortest decimal, or the exact one where reading by way of double precision takes the
shortest to a neighbour. -/
def losslessDigits (x : Float32) : Decimal :=
  let d := Binary32.shortest x
  if ofDecimal (Binary32.isNegative x) d = x then d else Binary32.exact x

theorem lossless_losslessDigits : Lossless losslessDigits := by
  intro x hx
  rw [losslessDigits]
  split_ifs with hshort
  · exact hshort
  · exact Binary32.ofDecimal_exact hx

end Json

end TensorGraph
