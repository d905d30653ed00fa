import Mathlib.Data.Rat.Floor
import TensorGraph.Proofs.Covering.Element
import TensorGraph.Proofs.Faults.Counting

/-! What a description of a size tells of an integer: it is the size, it is the integer that the
name stands for, or nothing. Arithmetic on descriptions of two integers describes what the exact
arithmetic on them gives. -/

namespace TensorGraph

open Outcome

theorem floor_div (x y : Int) : ⌊(x / y : ℚ)⌋ = x.fdiv y := by
  rcases Int.le_total 0 y with hy | hy
  · lift y to Nat using hy
    rw [Int.fdiv_eq_ediv_of_nonneg _ (Int.natCast_nonneg y)]
    exact Rat.floor_intCast_div_natCast x y
  · obtain ⟨n, rfl⟩ : ∃ n : Nat, y = -n := ⟨y.natAbs, by omega⟩
    rw [← Int.neg_fdiv_neg, Int.neg_neg, Int.fdiv_eq_ediv_of_nonneg _ (Int.natCast_nonneg n),
      ← Rat.floor_intCast_div_natCast]
    push_cast
    rw [div_neg, neg_div]

theorem ceil_div (x y : Int) : ⌈(x / y : ℚ)⌉ = -(-x).fdiv y := by
  rw [← floor_div, ← Int.ceil_neg]
  push_cast
  rw [neg_div, neg_neg]

/-- Whether two sizes give a common size: they are the same, or one of them is one and gives way. -/
def Broadcasts (x y z : Int) : Prop := x = y ∧ z = x ∨ x = 1 ∧ z = y ∨ y = 1 ∧ z = x

namespace SymDim

variable {ε : Type} {names : String → Int} {a b d : SymDim} {x y z : Int}

/-- Whether an integer is one that a description leaves possible, under integers for names. -/
def Describes (names : String → Int) : SymDim → Int → Prop
  | unknown, _ => True
  | param p, x => x = names p
  | size n, x => x = n.toInt

@[simp] theorem describes_unknown (x : Int) : unknown.Describes names x := trivial

@[simp] theorem describes_param {p : String} : (param p).Describes names x ↔ x = names p := .rfl

@[simp] theorem describes_size {n : Int64} : (size n).Describes names x ↔ x = n.toInt := .rfl

theorem describes_zero : (size 0).Describes names 0 := rfl

theorem Describes.eq_one (h : (size 1).Describes names x) : x = 1 := h

theorem describes_ofOption {o : Option Int64} (h : ∀ k, o = some k → k.toInt = x) :
    (ofOption o).Describes names x := by
  cases o with
  | none => exact describes_unknown x
  | some k => exact (h k rfl).symm

theorem Describes.add (ha : a.Describes names x) (hb : b.Describes names y) :
    (a + b).Describes names (x + y) := by
  change (SymDim.add a b).Describes names (x + y)
  cases b with
  | size n =>
    by_cases hn : n = 0
    · subst hn
      rw [show y = 0 from hb, Int.add_zero]
      exact ha
    · cases a with
      | size m =>
        obtain rfl := describes_size.mp ha
        obtain rfl := describes_size.mp hb
        simp only [SymDim.add, hn, if_false]
        exact describes_ofOption fun k hk => toInt_of_addInt? hk
      | unknown | param _ => simp [SymDim.add, hn]
  | unknown | param _ =>
    cases a with
    | size m =>
      by_cases hm : m = 0
      · subst hm
        rw [show x = 0 from ha, Int.zero_add]
        exact hb
      · simp [SymDim.add, hm]
    | unknown | param _ => simp [SymDim.add]

theorem Describes.sub (ha : a.Describes names x) (hb : b.Describes names y) :
    (a - b).Describes names (x - y) := by
  change (SymDim.sub a b).Describes names (x - y)
  cases b with
  | size n =>
    by_cases hn : n = 0
    · subst hn
      rw [show y = 0 from hb, Int.sub_zero]
      exact ha
    · cases a with
      | size m =>
        obtain rfl := describes_size.mp ha
        obtain rfl := describes_size.mp hb
        simp only [SymDim.sub, hn, if_false]
        exact describes_ofOption fun k hk => toInt_of_subInt? hk
      | unknown | param _ => simp [SymDim.sub, hn]
  | unknown => cases a <;> simp [SymDim.sub]
  | param q =>
    cases a with
    | param p =>
      by_cases hpq : p = q
      · subst hpq
        obtain rfl := describes_param.mp ha
        obtain rfl := describes_param.mp hb
        simp [SymDim.sub]
      · simp [SymDim.sub, hpq]
    | unknown | size _ => simp [SymDim.sub]

theorem Describes.mul (ha : a.Describes names x) (hb : b.Describes names y) :
    (a * b).Describes names (x * y) := by
  change (SymDim.mul a b).Describes names (x * y)
  unfold SymDim.mul
  split_ifs with hone' hone hzero
  · subst hone'
    rw [hb.eq_one, Int.mul_one]
    exact ha
  · subst hone
    rw [ha.eq_one, Int.one_mul]
    exact hb
  · have hprod : x * y = 0 := by
      rcases hzero with rfl | rfl
      · rw [show x = 0 from ha, Int.zero_mul]
      · rw [show y = 0 from hb, Int.mul_zero]
    exact hprod ▸ describes_zero
  · cases a with
    | size m =>
      cases b with
      | size n =>
        obtain rfl := describes_size.mp ha
        obtain rfl := describes_size.mp hb
        exact describes_ofOption fun k hk => toInt_of_mulInt? hk
      | unknown | param _ => exact describes_unknown _
    | unknown | param _ => exact describes_unknown _

theorem Describes.floorDiv (ha : a.Describes names x) (hb : b.Describes names y)
    (h : (a.floorDiv b : Outcome ε SymDim) = .ok d) : d.Describes names (x.fdiv y) := by
  cases b with
  | size n =>
    obtain rfl := describes_size.mp hb
    by_cases hone : n = 1
    · subst hone
      obtain rfl : a = d := by simpa [SymDim.floorDiv] using h
      exact (Int.fdiv_one x).symm ▸ ha
    · replace h := (if_neg hone).symm.trans h
      cases a with
      | size m =>
        obtain rfl := describes_size.mp ha
        dsimp only at h
        split_ifs at h with hzero
        · cases h
          exact describes_unknown _
        · obtain ⟨q, hq, h⟩ := bind_eq_ok.mp h
          cases h
          exact (fdiv_of_floorDivInt hq).symm
      | unknown | param _ =>
        cases h
        exact describes_unknown _
  | unknown | param _ =>
    cases a <;> cases h <;> exact describes_unknown _

theorem Describes.ceilDiv (ha : a.Describes names x) (hb : b.Describes names y)
    (h : (a.ceilDiv b : Outcome ε SymDim) = .ok d) : d.Describes names (-(-x).fdiv y) := by
  cases b with
  | size n =>
    obtain rfl := describes_size.mp hb
    by_cases hone : n = 1
    · subst hone
      obtain rfl : a = d := by simpa [SymDim.ceilDiv] using h
      have hself : -(-x).fdiv 1 = x := by rw [Int.fdiv_one, Int.neg_neg]
      exact hself.symm ▸ ha
    · replace h := (if_neg hone).symm.trans h
      cases a with
      | size m =>
        obtain rfl := describes_size.mp ha
        dsimp only at h
        split_ifs at h with hzero
        · cases h
          exact describes_unknown _
        · obtain ⟨k, hk, h⟩ := bind_eq_ok.mp h
          obtain ⟨q, hq, h⟩ := bind_eq_ok.mp h
          obtain ⟨r, hr, h⟩ := bind_eq_ok.mp h
          cases h
          rw [describes_size, toInt_of_checkInt hr, fdiv_of_floorDivInt hq, toInt_of_checkInt hk]
      | unknown | param _ =>
        cases h
        exact describes_unknown _
  | unknown | param _ =>
    cases a <;> cases h <;> exact describes_unknown _

theorem Describes.max (ha : a.Describes names x) (hb : b.Describes names y) :
    (a.max b).Describes names (Max.max x y) := by
  cases a with
  | size m =>
    cases b with
    | size n =>
      obtain rfl := describes_size.mp ha
      obtain rfl := describes_size.mp hb
      by_cases hmn : m ≤ n
      · have hle := Int64.le_iff_toInt_le.mp hmn
        simp [SymDim.max, hmn, max_eq_right hle]
      · have hle := Int.le_of_not_le (mt Int64.le_iff_toInt_le.mpr hmn)
        simp [SymDim.max, hmn, max_eq_left hle]
    | unknown | param _ => exact describes_unknown _
  | param p =>
    cases b with
    | param q =>
      by_cases hpq : p = q
      · subst hpq
        obtain rfl := describes_param.mp ha
        obtain rfl := describes_param.mp hb
        simp [SymDim.max]
      · simp [SymDim.max, hpq]
    | unknown | size _ => exact describes_unknown _
  | unknown => cases b <;> exact describes_unknown _

/-- What two descriptions agree on is right for both integers. -/
theorem Describes.merge (ha : a.Describes names x) (hb : b.Describes names y) :
    (a.merge b).Describes names x ∧ (a.merge b).Describes names y := by
  by_cases hab : a = b
  · have hself : b.merge b = b := by cases b <;> simp [SymDim.merge]
    rw [hab, hself]
    exact ⟨hab ▸ ha, hb⟩
  · have hnone : a.merge b = unknown := by
      cases a <;> cases b <;> simp_all [SymDim.merge]
    rw [hnone]
    exact ⟨describes_unknown x, describes_unknown y⟩

theorem Describes.refine (ha : a.Describes names x) (hb : b.Describes names x) :
    ∃ d, a.refine b = .ok d ∧ d.Describes names x := by
  cases a with
  | size m =>
    cases b with
    | size n =>
      have hmn : m = n := Int64.toInt_inj.mp (ha.symm.trans hb)
      exact ⟨size m, if_pos hmn, ha⟩
    | unknown | param _ => exact ⟨size m, rfl, ha⟩
  | param p =>
    cases b with
    | size n => exact ⟨size n, rfl, hb⟩
    | unknown | param _ => exact ⟨param p, rfl, ha⟩
  | unknown => cases b <;> exact ⟨_, rfl, hb⟩

theorem Describes.broadcast (ha : a.Describes names x) (hb : b.Describes names y)
    (h : Broadcasts x y z) : ∃ d, a.broadcast b = .ok d ∧ d.Describes names z := by
  by_cases hone : a = size 1
  · subst hone
    obtain rfl := ha.eq_one
    have hz : z = y := by
      unfold Broadcasts at h
      omega
    exact ⟨b, if_pos rfl, hz ▸ hb⟩
  by_cases hone' : b = size 1
  · subst hone'
    obtain rfl := hb.eq_one
    have hz : z = x := by
      unfold Broadcasts at h
      omega
    exact ⟨a, (if_neg hone).trans (if_pos rfl), hz ▸ ha⟩
  unfold SymDim.broadcast
  rw [if_neg hone, if_neg hone']
  cases a with
  | size m =>
    cases b with
    | size n =>
      -- neither size is one, so that both are the common one
      have hm : x ≠ 1 := fun hx => hone (congrArg size (Int64.toInt_inj.mp (ha.symm.trans hx)))
      have hn : y ≠ 1 := fun hy => hone' (congrArg size (Int64.toInt_inj.mp (hb.symm.trans hy)))
      obtain ⟨rfl, rfl⟩ : x = y ∧ z = x := by
        unfold Broadcasts at h
        omega
      have hmn : m = n := Int64.toInt_inj.mp (ha.symm.trans hb)
      exact ⟨size m, if_pos hmn, ha⟩
    | unknown | param _ => exact ⟨unknown, rfl, describes_unknown z⟩
  | param p =>
    cases b with
    | param q =>
      by_cases hpq : p = q
      · subst hpq
        obtain rfl := describes_param.mp ha
        obtain rfl := describes_param.mp hb
        have hz : z = names p := by
          unfold Broadcasts at h
          omega
        exact ⟨param p, by simp, hz⟩
      · exact ⟨unknown, by simp [hpq], describes_unknown z⟩
    | unknown | size _ => exact ⟨unknown, rfl, describes_unknown z⟩
  | unknown => cases b <;> exact ⟨unknown, rfl, describes_unknown z⟩

/-- What the operations on descriptions of two integers describe. Quotients are described where
there is one, and a common size of the two is found. -/
structure Arithmetic (names : String → Int) (a b : SymDim) (x y : Int) : Prop where
  add : (a + b).Describes names (x + y)
  sub : (a - b).Describes names (x - y)
  mul : (a * b).Describes names (x * y)
  floorDiv : y ≠ 0 → ∀ (ε : Type) (d : SymDim), (a.floorDiv b : Outcome ε SymDim) = .ok d →
    d.Describes names ⌊(x / y : ℚ)⌋
  ceilDiv : y ≠ 0 → ∀ (ε : Type) (d : SymDim), (a.ceilDiv b : Outcome ε SymDim) = .ok d →
    d.Describes names ⌈(x / y : ℚ)⌉
  max : (a.max b).Describes names (Max.max x y)
  merge : (a.merge b).Describes names x ∧ (a.merge b).Describes names y
  refine : x = y → ∃ d, a.refine b = .ok d ∧ d.Describes names x
  broadcast : ∀ z, Broadcasts x y z → ∃ d, a.broadcast b = .ok d ∧ d.Describes names z

theorem arithmetic_of_describes (names : String → Int) (ha : a.Describes names x)
    (hb : b.Describes names y) : Arithmetic names a b x y where
  add := ha.add hb
  sub := ha.sub hb
  mul := ha.mul hb
  floorDiv _ _ _ h := floor_div x y ▸ ha.floorDiv hb h
  ceilDiv _ _ _ h := ceil_div x y ▸ ha.ceilDiv hb h
  max := ha.max hb
  merge := ha.merge hb
  refine h := ha.refine (h ▸ hb)
  broadcast _ h := ha.broadcast hb h

/-- The quotient of a negative size is rounded down, not toward zero. -/
theorem arithmetic_of_describes_negative :
    (size (-7)).Describes (fun _ => 2) (-7) ∧ (param "n").Describes (fun _ => 2) 2 ∧
      Arithmetic (fun _ => 2) (size (-7)) (param "n") (-7) 2 ∧
      ((size (-7)).floorDiv (size 2) : Outcome RuleError SymDim) = .ok (size (-4)) :=
  ⟨rfl, rfl, arithmetic_of_describes _ rfl rfl, rfl⟩

end SymDim

end TensorGraph
