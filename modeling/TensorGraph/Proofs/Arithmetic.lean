import Mathlib.NumberTheory.Multiplicity
import TensorGraph.Elementwise.Binary
import TensorGraph.Proofs.Positions

/-! Powers, quotients and remainders of integers that wrap around. Repeated squaring gives the
power modulo `2 ^ 64`; an exponent that is held gives the same power just where the powers of the
base come round to it. Division goes toward zero, and the remainder has the sign of the dividend
or that of the divisor. By zero there is none, which refuses whole arrays. -/

namespace TensorGraph

open Outcome

section Odd

variable {a : Int} {m n : Nat}

/-- How near the powers of an odd number with an even exponent come to one. -/
theorem two_pow_dvd_pow_sub_one_iff (ha : ¬2 ∣ a) (hn : Even n) (k : Nat) :
    2 ^ k ∣ a ^ n - 1 ↔ 2 ^ (k + 1) ∣ (a ^ 2 - 1) * n := by
  have hone : 2 ∣ a - 1 := by omega
  have hlift := Int.two_pow_sub_pow hone ha hn
  have hparts : (a ^ 2 - 1) * n = (a + 1) * (a - 1) * n := by ring
  rw [one_pow] at hlift
  rw [hparts, pow_dvd_iff_le_emultiplicity, pow_dvd_iff_le_emultiplicity,
    emultiplicity_mul Int.prime_two, emultiplicity_mul Int.prime_two, ← hlift, Nat.cast_add,
    Nat.cast_one, ENat.add_le_add_iff_right ENat.one_ne_top]

/-- Powers with an odd exponent come no nearer to one than the number itself. -/
theorem two_pow_dvd_pow_sub_one_iff_of_odd (ha : ¬2 ∣ a) (hn : Odd n) (k : Nat) :
    2 ^ k ∣ a ^ n - 1 ↔ 2 ^ k ∣ a - 1 := by
  have hone : 2 ∣ a - 1 := by omega
  have hodd : ¬(2 : Int) ∣ n := by
    obtain ⟨m, rfl⟩ := hn
    omega
  have hlift := emultiplicity_pow_sub_pow_of_prime Int.prime_two hone ha hodd
  rw [one_pow] at hlift
  rw [pow_dvd_iff_le_emultiplicity, pow_dvd_iff_le_emultiplicity, hlift]

/-- Powers of an odd number agree just if the power that leads from one to the other is one. -/
theorem pow_modEq_pow_iff (ha : ¬2 ∣ a) (h : m ≤ n) (k : Nat) :
    a ^ m ≡ a ^ n [ZMOD 2 ^ k] ↔ 2 ^ k ∣ a ^ (n - m) - 1 := by
  have hodd : ¬2 ∣ a ^ m := fun hdvd => ha (Int.prime_two.dvd_of_dvd_pow hdvd)
  have hfactor : a ^ n - a ^ m = a ^ m * (a ^ (n - m) - 1) := by
    rw [mul_sub, ← pow_add, Nat.add_sub_cancel' h, mul_one]
  rw [Int.modEq_iff_dvd, hfactor]
  exact ⟨Int.prime_two.pow_dvd_of_dvd_mul_left k hodd, fun hdvd => hdvd.mul_left _⟩

end Odd

theorem eq_one_of_dvd {a : Int64} (h : 2 ^ 64 ∣ a.toInt - 1) : a = 1 := by
  have hbounds := fitsInt_toInt a
  have hone : (1 : Int64).toInt = 1 := rfl
  unfold FitsInt at hbounds
  exact Int64.toInt_inj.mp (by omega)

theorem toInt_mul_modEq (a b : Int64) : (a * b).toInt ≡ a.toInt * b.toInt [ZMOD 2 ^ 64] := by
  rw [Int64.toInt_mul]
  exact Int.bmod_emod

theorem toInt_mul_self_pow_modEq (a : Int64) (m : Nat) :
    (a * a).toInt ^ m ≡ a.toInt ^ (2 * m) [ZMOD 2 ^ 64] := by
  rw [pow_mul, pow_two]
  exact (toInt_mul_modEq a a).pow m

/-- Repeated squaring gives the power, wrapped around. -/
theorem wrappedPow_modEq (base : Int64) (n : Nat) :
    (wrappedPow base n).toInt ≡ base.toInt ^ n [ZMOD 2 ^ 64] := by
  induction base, n using wrappedPow.induct with
  | case1 base =>
    rw [wrappedPow, if_pos rfl, pow_zero]
    rfl
  | case2 base n hn hodd ih =>
    have hhalf : n = 2 * (n / 2) + 1 := by omega
    have hrest := ih.trans (toInt_mul_self_pow_modEq base (n / 2))
    rw [wrappedPow, if_neg hn]
    dsimp only
    rw [if_pos hodd]
    conv_rhs => rw [hhalf, pow_succ']
    exact (toInt_mul_modEq _ _).trans (hrest.mul_left _)
  | case3 base n hn heven ih =>
    have hhalf : n = 2 * (n / 2) := by omega
    have hrest := ih.trans (toInt_mul_self_pow_modEq base (n / 2))
    rw [wrappedPow, if_neg hn]
    dsimp only
    rw [if_neg heven]
    conv_rhs => rw [hhalf]
    exact hrest

namespace BinaryFn

/-- The power of an even number with a large exponent is a multiple of `2 ^ 64`. -/
theorem pow_modEq_zero {a : Int} {n : Nat} (ha : 2 ∣ a) (hn : 64 ≤ n) : a ^ n ≡ 0 [ZMOD 2 ^ 64] :=
  Int.modEq_zero_iff_dvd.mpr ((pow_dvd_pow_of_dvd ha 64).trans (pow_dvd_pow a hn))

/-- Whether holding an exponent keeps the power: the base is even, or its powers come round. -/
theorem pow_modEq_held_iff (a : Int64) {n : Nat} (hn : maxExponent < n) :
    a.toInt ^ maxExponent ≡ a.toInt ^ n [ZMOD 2 ^ 64] ↔
      2 ∣ a.toInt ∨ a = 1 ∨ Odd n ∧ 2 ^ 65 ∣ (a.toInt ^ 2 - 1) * (n - maxExponent : Nat) := by
  by_cases ha : 2 ∣ a.toInt
  · have hlarge : 64 ≤ maxExponent := by decide
    have hzero := pow_modEq_zero ha hlarge
    exact iff_of_true (hzero.trans (pow_modEq_zero ha (hlarge.trans hn.le)).symm) (.inl ha)
  rw [pow_modEq_pow_iff ha hn.le, or_iff_right ha]
  rcases Nat.even_or_odd n with heven | hodd
  · -- the greatest exponent is odd, and so is the difference
    have hdiff : Odd (n - maxExponent) := Nat.Even.sub_odd hn.le heven (by decide)
    rw [two_pow_dvd_pow_sub_one_iff_of_odd ha hdiff]
    constructor
    · exact fun h => .inl (eq_one_of_dvd h)
    · rintro (rfl | ⟨hodd, -⟩)
      · exact dvd_zero _
      · exact absurd heven (Nat.not_even_iff_odd.mpr hodd)
  · have hdiff : Even (n - maxExponent) := Nat.Odd.sub_odd hodd (by decide)
    rw [two_pow_dvd_pow_sub_one_iff ha hdiff]
    constructor
    · exact fun h => .inr ⟨hodd, h⟩
    · rintro (rfl | ⟨-, h⟩)
      · exact (dvd_zero _).mul_right _
      · exact h

/-- The reciprocal of a power, cut off toward zero. -/
theorem toInt_powInt_of_neg {a b : Int64} (ha : a ≠ 0) (hb : b < 0) :
    (powInt a b).toInt = (1 : Int).tdiv (a.toInt ^ b.toInt.natAbs) := by
  have hneg : b.toInt < 0 := by rwa [Int64.lt_iff_toInt_lt, Int64.toInt_zero] at hb
  rw [powInt, if_pos hb]
  by_cases hone : a = 1
  · subst hone
    rw [if_pos rfl]
    exact (congrArg (Int.tdiv 1) (one_pow _)).symm
  rw [if_neg hone]
  by_cases hminus : a = -1
  · subst hminus
    have hsign : (-1 : Int64).toInt = -1 := rfl
    have hrem : b % 2 = 0 ↔ Even b.toInt.natAbs := by
      rw [← Int64.toInt_inj, Int64.toInt_mod, Int.natAbs_even, even_iff_two_dvd]
      exact Int.dvd_iff_tmod_eq_zero.symm
    rw [if_pos rfl, hsign]
    split_ifs with hparity
    · rw [(hrem.mp hparity).neg_one_pow]
      rfl
    · rw [(Nat.not_even_iff_odd.mp (mt hrem.mpr hparity)).neg_one_pow]
      rfl
  · have htwo : 2 ≤ a.toInt.natAbs := by
      have hzero := mt Int64.toInt_inj.mp ha
      have hone := mt Int64.toInt_inj.mp hone
      have hminus := mt Int64.toInt_inj.mp hminus
      change ¬a.toInt = 0 at hzero
      change ¬a.toInt = 1 at hone
      change ¬a.toInt = -1 at hminus
      omega
    have hlarge : 1 < (a.toInt ^ b.toInt.natAbs).natAbs := by
      rw [Int.natAbs_pow]
      exact Nat.one_lt_pow (by omega) htwo
    rw [if_neg hminus, eq_comm, Int64.toInt_zero, ← Int.natAbs_eq_zero, Int.natAbs_tdiv]
    exact Nat.div_eq_of_lt hlarge

theorem powInt_of_nonneg {a b : Int64} (hb : 0 ≤ b) :
    powInt a b = wrappedPow a (Nat.min b.toInt.toNat maxExponent) := by
  rw [powInt, if_neg (Int64.not_lt.mpr hb)]

/-- The power of two integers is exact modulo `2 ^ 64` just if its exponent is not held, or if the
powers of the base come round to it. With a negative exponent it is the reciprocal, cut off toward
zero. -/
theorem exists_pow_modEq_iff (a b : Int64) : ∃ r, pow.onInt? a b = some r ∧
    (0 ≤ b → (r.toInt ≡ a.toInt ^ b.toInt.toNat [ZMOD 2 ^ 64] ↔
      b.toInt ≤ maxExponent ∨ 2 ∣ a.toInt ∨ a = 1 ∨
        Odd b.toInt ∧ 2 ^ 65 ∣ (a.toInt ^ 2 - 1) * (b.toInt - maxExponent))) ∧
    (b < 0 → a ≠ 0 → r.toInt = (1 : Int).tdiv (a.toInt ^ b.toInt.natAbs)) := by
  refine ⟨powInt a b, rfl, fun hb => ?_, fun hb ha => toInt_powInt_of_neg ha hb⟩
  have hnonneg : 0 ≤ b.toInt := by rwa [Int64.le_iff_toInt_le, Int64.toInt_zero] at hb
  lift b.toInt to Nat using hnonneg with n hn
  rw [powInt_of_nonneg hb, ← hn, Int.toNat_natCast]
  rcases Nat.lt_or_ge maxExponent n with hheld | hle
  · have hpow := wrappedPow_modEq a maxExponent
    have hmin : Nat.min n maxExponent = maxExponent := Nat.min_eq_right hheld.le
    have hcast : (n : Int) - maxExponent = (n - maxExponent : Nat) := by omega
    rw [hmin, or_iff_right (by omega), Int.odd_coe_nat, hcast, ← pow_modEq_held_iff a hheld]
    exact ⟨hpow.symm.trans, hpow.trans⟩
  · have hmin : Nat.min n maxExponent = n := Nat.min_eq_left hle
    rw [hmin]
    exact iff_of_true (wrappedPow_modEq a n) (.inl (by omega))

/-- The powers of three come round to an exponent that is held, and the reciprocal of three is cut
off. -/
theorem exists_pow_modEq_iff_three :
    (∃ r, pow.onInt? 3 4611686022722355199 = some r ∧
      r.toInt ≡ (3 : Int64).toInt ^ (4611686022722355199 : Int64).toInt.toNat [ZMOD 2 ^ 64]) ∧
    (pow.onInt? 3 (-1)).map Int64.toInt = some (Int.tdiv 1 (3 ^ 1)) := by
  obtain ⟨r, hr, hexact, -⟩ := exists_pow_modEq_iff 3 4611686022722355199
  obtain ⟨s, hs, -, hreciprocal⟩ := exists_pow_modEq_iff 3 (-1)
  refine ⟨⟨r, hr, (hexact (by decide)).mpr (.inr (.inr (.inr ⟨by decide, by decide⟩)))⟩, ?_⟩
  rw [hs, Option.map_some, hreciprocal (by decide) (by decide)]
  rfl

/-- With the exponent `2 ^ 32`, which is held at an odd one, the power of minus one is minus one. -/
theorem pow_held_minusOne : pow.onInt? (-1) 4294967296 = some (-1) ∧
    ¬(-1 : Int64).toInt ≡ (-1 : Int64).toInt ^ (4294967296 : Int64).toInt.toNat [ZMOD 2 ^ 64] := by
  have hsign : (-1 : Int64).toInt = -1 := rfl
  have hexponent : (4294967296 : Int64).toInt.toNat = 4294967296 := rfl
  have hodd : (-1 : Int) ^ maxExponent = -1 := Odd.neg_one_pow (by decide)
  have hpow := wrappedPow_modEq (-1) maxExponent
  have hheld := pow_modEq_held_iff (-1) (n := 4294967296) (by decide)
  rw [hsign, hodd] at hpow hheld
  constructor
  · have hmin : Nat.min 4294967296 maxExponent = maxExponent := Nat.min_eq_right (by decide)
    have hbounds := fitsInt_toInt (wrappedPow (-1) maxExponent)
    have hfar := hpow.dvd
    unfold FitsInt at hbounds
    rw [onInt?, powInt_of_nonneg (by decide), hexponent, hmin]
    exact congrArg some (Int64.toInt_inj.mp (by omega))
  · rw [hsign, hexponent, hheld]
    decide

end BinaryFn

section Division

variable {a b : Int64}

theorem toInt_add_of_fitsInt (h : FitsInt (a.toInt + b.toInt)) :
    (a + b).toInt = a.toInt + b.toInt := by
  rw [← toInt_ofInt h, Int64.ofInt_add, Int64.ofInt_toInt, Int64.ofInt_toInt]

/-- The quotient and the remainder give back the dividend, also where the quotient wraps around. -/
theorem div_mul_add_rem (a b : Int64) : a / b * b + a % b = a := by
  have hquotient : a / b = Int64.ofInt (a.toInt.tdiv b.toInt) := by
    rw [← Int64.toInt_inj, Int64.toInt_div, Int64.toInt_ofInt]
  have hremainder : a % b = Int64.ofInt (a.toInt.tmod b.toInt) := by
    rw [← Int64.toInt_mod, Int64.ofInt_toInt]
  have hdivisor : b = Int64.ofInt b.toInt := (Int64.ofInt_toInt b).symm
  calc a / b * b + a % b
      = Int64.ofInt (a.toInt.tdiv b.toInt) * Int64.ofInt b.toInt +
          Int64.ofInt (a.toInt.tmod b.toInt) := by rw [hquotient, hremainder, ← hdivisor]
    _ = Int64.ofInt (a.toInt.tdiv b.toInt * b.toInt + a.toInt.tmod b.toInt) := by
        rw [Int64.ofInt_add, Int64.ofInt_mul]
    _ = a := by rw [Int.mul_comm, Int.mul_tdiv_add_tmod, Int64.ofInt_toInt]

theorem natAbs_rem_lt (hb : b ≠ 0) : (a % b).toInt.natAbs < b.toInt.natAbs := by
  have hzero : b.toInt ≠ 0 := fun h => hb (Int64.toInt_inj.mp h)
  rw [Int64.toInt_mod, Int.natAbs_tmod]
  exact Nat.mod_lt _ (Int.natAbs_pos.mpr hzero)

theorem rem_eq_zero_or_sign (a b : Int64) : a % b = 0 ∨ (a % b).toInt.sign = a.toInt.sign := by
  rw [← Int64.toInt_inj, Int64.toInt_mod, Int.sign_tmod]
  by_cases hdvd : b.toInt ∣ a.toInt
  · exact .inl (Int.tmod_eq_zero_of_dvd hdvd)
  · exact .inr (if_neg hdvd)

theorem rem_modEq (a b : Int64) : (a % b).toInt ≡ a.toInt [ZMOD b.toInt] := by
  have hparts := Int.mul_tdiv_add_tmod a.toInt b.toInt
  rw [Int64.toInt_mod]
  exact Int.modEq_iff_dvd.mpr ⟨a.toInt.tdiv b.toInt, by omega⟩

theorem fitsInt_add_of_signs (h : a < 0 ↔ ¬b < 0) : FitsInt (a.toInt + b.toInt) := by
  have ha := fitsInt_toInt a
  have hb := fitsInt_toInt b
  simp only [Int64.lt_iff_toInt_lt, Int64.toInt_zero] at h
  unfold FitsInt at *
  omega

theorem sign_eq_sign {m n : Int} (hm : m ≠ 0) (hn : n ≠ 0) (h : m < 0 ↔ n < 0) :
    m.sign = n.sign := by
  by_cases hneg : m < 0
  · rw [Int.sign_eq_neg_one_of_neg hneg, Int.sign_eq_neg_one_of_neg (h.mp hneg)]
  · rw [Int.sign_eq_one_of_pos (by omega), Int.sign_eq_one_of_pos (by omega)]

namespace BinaryFn

theorem modInt_laws (a : Int64) (hb : b ≠ 0) : (modInt false a b).toInt ≡ a.toInt [ZMOD b.toInt] ∧
    (modInt false a b).toInt.natAbs < b.toInt.natAbs ∧
      (modInt false a b = 0 ∨ (modInt false a b).toInt.sign = b.toInt.sign) := by
  have hmod := rem_modEq a b
  have hlt := natAbs_rem_lt (a := a) hb
  have hzero : ∀ n : Int64, n = 0 ↔ n.toInt = 0 := fun n => Int64.toInt_inj.symm
  have hneg : ∀ n : Int64, n < 0 ↔ n.toInt < 0 := fun n => Int64.lt_iff_toInt_lt
  simp only [modInt, Bool.not_false, true_and]
  split_ifs with hcorrect
  · obtain ⟨hne, hsigns⟩ := hcorrect
    rw [toInt_add_of_fitsInt (fitsInt_add_of_signs hsigns)]
    simp only [ne_eq, hzero, hneg] at hne hsigns
    exact ⟨Int.add_modEq_right.trans
      hmod, by omega, .inr (sign_eq_sign (by omega) (by omega) (by omega))⟩
  · refine ⟨hmod, hlt, or_iff_not_imp_left.mpr fun hne => ?_⟩
    simp only [ne_eq, hne, not_false_eq_true, true_and, hneg] at hcorrect
    rw [hzero] at hne
    exact sign_eq_sign hne (by omega) (by omega)

def divisions : List BinaryFn := [div, mod true, mod false]

theorem onInt?_eq_none_iff {f : BinaryFn} (hf : f ∈ divisions) (a b : Int64) :
    f.onInt? a b = none ↔ b = 0 := by
  simp only [divisions, List.mem_cons, List.not_mem_nil, or_false] at hf
  rcases hf with rfl | rfl | rfl <;> simp [onInt?]

/-- An array of divisions is refused just if it reads a divisor that is zero. -/
theorem mapInts_eq_error_iff {f : BinaryFn} (hf : f ∈ divisions) {x y out : Tensor Int64}
    (hx : Layout.canBroadcast x.shape out.shape = true)
    (hy : Layout.canBroadcast y.shape out.shape = true) (hout : out.shape.extent < sizeLimit) :
    f.mapInts x y out = .error (.value .divisionByZero) ↔
      ∃ index ∈ Index.all out.shape, y.readAt? index = some 0 := by
  obtain ⟨xs, hxs, hreadx⟩ := Tensor.exists_broadcastElements (ε := OpError) hx hout
  obtain ⟨ys, hys, hready⟩ := Tensor.exists_broadcastElements (ε := OpError) hy hout
  have hpairs : (xs.zip ys).mapM (fun p => f.onInt? p.1 p.2) = none ↔ 0 ∈ ys := by
    have hlen := hreadx.length_eq.symm.trans hready.length_eq
    have hsnd : (xs.zip ys).map Prod.snd = ys := List.map_snd_zip hlen.ge
    conv_rhs => rw [← hsnd, List.mem_map]
    rw [Option.mapM_eq_none]
    exact exists_congr fun p => and_congr_right fun _ => onInt?_eq_none_iff hf p.1 p.2
  have hfilled : f.mapInts x y out = .error (.value .divisionByZero) ↔
      (xs.zip ys).mapM (fun p => f.onInt? p.1 p.2) = none := by
    rw [mapInts, hxs, ok_bind, hys, ok_bind]
    cases (xs.zip ys).mapM fun p => f.onInt? p.1 p.2 <;> simp
  rw [hfilled, hpairs]
  constructor
  · intro hzero
    exact Related.of_mem_right hready hzero
  · rintro ⟨index, hindex, hzero⟩
    obtain ⟨i, hi⟩ := List.getElem?_of_mem hindex
    obtain ⟨n, hn, hread⟩ := Related.get_left hready hi
    cases hzero.symm.trans hread
    exact List.mem_of_getElem? hn

/-- Quotients and remainders of integers obey the laws of division, and they are missing just by
zero: then an array of them is refused that reads such a pair. -/
theorem division_laws (a b : Int64) :
    (b ≠ 0 → ∃ q t m, div.onInt? a b = some q ∧ (mod true).onInt? a b = some t ∧
      (mod false).onInt? a b = some m ∧ q * b + t = a ∧
      t.toInt.natAbs < b.toInt.natAbs ∧ (t = 0 ∨ t.toInt.sign = a.toInt.sign) ∧
      m.toInt ≡ a.toInt [ZMOD b.toInt] ∧ m.toInt.natAbs < b.toInt.natAbs ∧
      (m = 0 ∨ m.toInt.sign = b.toInt.sign)) ∧
    ((a % b < 0 ↔ ¬b < 0) → FitsInt ((a % b).toInt + b.toInt)) ∧
    ∀ f ∈ divisions, (f.onInt? a b = none ↔ b = 0) ∧
      ∀ (x y out : Tensor Int64), Layout.canBroadcast x.shape out.shape = true →
        Layout.canBroadcast y.shape out.shape = true → out.count < sizeLimit →
        ∀ index ∈ Index.all out.shape, x.readAt? index = some a → y.readAt? index = some b →
          b = 0 → f.mapInts x y out = .error (.value .divisionByZero) := by
  refine ⟨fun hb => ?_, fitsInt_add_of_signs, fun f hf => ⟨onInt?_eq_none_iff hf a b, ?_⟩⟩
  · exact ⟨a / b, modInt true a b, modInt false a b, if_neg hb, if_neg hb, if_neg hb,
      div_mul_add_rem a b, natAbs_rem_lt hb, rem_eq_zero_or_sign a b, modInt_laws a hb⟩
  · rintro x y out hx hy hcount index hindex - hread rfl
    have hout : out.shape.extent < sizeLimit := by
      rw [Shape.extent_eq_volume (Layout.pos_of_lt (Index.lt_of_mem_all hindex)), ← out.length_data]
      exact hcount
    exact (mapInts_eq_error_iff hf hx hy hout).mpr ⟨index, hindex, hread⟩

/-- The least integer is divided by minus one, and a row with a zero is read together with a
column. -/
theorem division_laws_extremes :
    (∃ q t m, div.onInt? Int64.minValue (-1) = some q ∧ (mod true).onInt? Int64.minValue (-1) =
      some t ∧
      (mod false).onInt? Int64.minValue (-1) = some m ∧ q * -1 + t = Int64.minValue ∧
      t.toInt.natAbs < 1 ∧ m.toInt.natAbs < 1) ∧
    (mod false).mapInts ⟨[2, 1], [6, 7], rfl⟩ ⟨[2], [3, 0], rfl⟩ ⟨[2, 2], [0, 0, 0, 0], rfl⟩ =
      .error (.value .divisionByZero) := by
  obtain ⟨q, t, m, hq, ht, hm, hparts, htlt, -, -, hmlt, -⟩ :=
    (division_laws Int64.minValue (-1)).1 (by decide)
  refine ⟨⟨q, t, m, hq, ht, hm, hparts, htlt, hmlt⟩, ?_⟩
  have hmissing := (division_laws 7 0).2.2 (mod false) (by decide)
  exact hmissing.2 _ _ _ (by decide) (by decide) (by decide) [1, 1] (by decide) (by decide)
    (by decide) rfl

end BinaryFn

end Division

end TensorGraph
