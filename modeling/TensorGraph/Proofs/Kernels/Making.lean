import TensorGraph.Proofs.Kernels.Copies
import TensorGraph.Proofs.Rules.Generation
import TensorGraph.Rearrange.Measure

/-! Operators that make tensors from types, sizes and bounds give the elements that inference
lists. -/

namespace TensorGraph

open Outcome Kernel SymTensor

variable {ε α : Type} {names : Names} {sym : SymInputs} {inputs : ValueInputs}
  {outputs : List Value} {ts : List SymTensor}

namespace Cast

theorem onElement_float_covers {e : SymElement} {x : Float32} {c : SymElement} {wanted : DataType}
    (h : e.Covers names (.ofFloat x)) (hc : onElement wanted (.ofFloat x) = c) :
    (onElement wanted e).Covers names c := by
  subst hc
  rcases SymElement.covers_float_cases h with rfl | rfl
  · exact SymElement.covers_unknown _
  · cases wanted <;> rfl

theorem onElement_int_covers {e : SymElement} {n : Int64} {c : SymElement} {wanted : DataType}
    (h : e.Covers names (.int n)) (hc : onElement wanted (.int n) = c) :
    (onElement wanted e).Covers names c := by
  subst hc
  rcases SymElement.covers_int_cases h with rfl | rfl | ⟨p, rfl, hp⟩
  · exact SymElement.covers_unknown _
  · cases wanted <;> rfl
  · cases wanted with
    | float => exact SymElement.covers_unknown _
    | int => exact ⟨n, hp, rfl⟩

theorem lists_kernel {s : SymTensor} {x out : Value} {wanted : DataType} (hx : Sound names s x)
    (hexpects : Expects names (inferTo s wanted) out) :
    Kernel.Lists names [inferTo s wanted] (kernel x out) := by
  obtain rfl : wanted = out.dtype := hexpects.fits.dtype
  cases x <;> cases out
  case float.float x out =>
    refine lists_filled (x := .ok _) (always_ok ?_)
    rw [← List.map_id x.data]
    exact lists_mapElements hx.reads rfl fun e a he => onElement_float_covers he rfl
  case float.int x out =>
    refine lists_filled (x := .ok _) (always_ok ?_)
    refine lists_mapElements hx.reads rfl fun e a he => onElement_float_covers he ?_
    simp only [Value.dtype, onElement, SymElement.ofFloat, Binary32.ofBits_toBits]
    rfl
  case int.float x out =>
    refine lists_filled (x := .ok _) (always_ok ?_)
    exact lists_mapElements hx.reads rfl fun e a he => onElement_int_covers he rfl
  case int.int x out =>
    refine lists_filled (x := .ok _) (always_ok ?_)
    rw [← List.map_id x.data]
    exact lists_mapElements hx.reads rfl fun e a he => onElement_int_covers he rfl

theorem lists {wanted : DataType} (h : List.Forall₂ (Option.Rel (Sound names)) sym inputs)
    (hts : Cast.infer wanted sym = .ok ts) (ho : List.Forall₂ (Expects names) ts outputs) :
    PreparesLists names ts (Cast.prepare inputs outputs) := by
  obtain ⟨s, hs, hts⟩ := bind_eq_ok.mp hts
  cases hts
  refine always_bind fun x hx => lists_single ho fun out hout => always_ok ?_
  exact lists_kernel (Sound.demand h hs hx) hout

theorem lists_like (h : List.Forall₂ (Option.Rel (Sound names)) sym inputs)
    (hts : Cast.inferLike sym = .ok ts) (ho : List.Forall₂ (Expects names) ts outputs) :
    PreparesLists names ts (Cast.prepare inputs outputs) := by
  obtain ⟨s, hs, hts⟩ := bind_eq_ok.mp hts
  obtain ⟨_, _, hts⟩ := bind_eq_ok.mp hts
  cases hts
  refine always_bind fun x hx => lists_single ho fun out hout => always_ok ?_
  exact lists_kernel (Sound.demand h hs hx) hout

end Cast

theorem SymTensor.lists_constant {t : SymTensor} [SymElement.Known α] {out : Tensor α} {a : α}
    (h : ∀ i, t.get i = .unknown ∨ t.get i = SymElement.Known.known a ∧
      SymElement.Covers names (SymElement.Known.known a) (SymElement.Known.known a)) :
    t.Lists names (out.map fun _ => a).elements := by
  intro i c hc
  obtain ⟨b, hb, rfl⟩ := Tensor.getElem?_elements hc
  simp only [Tensor.map, List.map_const', List.getElem?_replicate] at hb
  split_ifs at hb
  cases hb
  rcases h i with hi | ⟨hi, hcovers⟩
  · rw [hi]
    exact SymElement.covers_unknown _
  · rw [hi]
    exact hcovers

theorem ConstantOfShape.lists (op : ConstantOfShape) (hts : op.infer sym = .ok ts)
    (ho : List.Forall₂ (Expects names) ts outputs) :
    PreparesLists names ts (op.prepare outputs) := by
  obtain ⟨_, _, hts⟩ := bind_eq_ok.mp hts
  obtain ⟨_, _, hts⟩ := bind_eq_ok.mp hts
  obtain ⟨shape, _, hts⟩ := bind_eq_ok.mp hts
  obtain ⟨_, _, hts⟩ := bind_eq_ok.mp hts
  cases hts
  refine lists_single ho fun out _ => always_ok ?_
  have hget := fun i => get_mapElements (.ofShape op.value.dtype shape) op.value.dtype
    (fun _ => op.value.toElement) i
  obtain ⟨value⟩ := op
  cases value <;> cases out
  case int.int n out =>
    refine lists_filled (x := .ok _) (always_ok (lists_constant fun i => ?_))
    exact (hget i).imp id fun hi => ⟨hi, rfl⟩
  case float.float x out =>
    refine lists_filled (x := .ok _) (always_ok (lists_constant fun i => ?_))
    exact (hget i).imp id fun hi => ⟨hi, rfl⟩
  all_goals exact lists_none

namespace Range

theorem getD_intElements {delta : Int64} {count : Nat} {start : Int64} {steps : List Int64}
    (h : (stepsFrom delta (count - 1) start : Outcome ε (List Int64)) = .ok steps) {i : Nat}
    {n : Int64} (hn : (start :: steps)[i]? = some n) :
    ((intElements delta count (some start)).getD i .unknown).Covers names (.int n) := by
  induction count generalizing start steps i with
  | zero => exact SymElement.covers_unknown _
  | succ count ih =>
    cases i with
    | zero =>
      cases Option.some.inj hn
      rfl
    | succ i =>
      cases count with
      | zero =>
        cases h
        simp at hn
      | succ count =>
        obtain ⟨next, hnext, h⟩ := bind_eq_ok.mp h
        obtain ⟨rest, hrest, h⟩ := bind_eq_ok.mp h
        cases h
        rw [intElements, List.getD_cons_succ, addInt?_of_checkInt hnext]
        exact ih hrest hn

theorem getD_floatElements {delta : Float32} {count : Nat} {start : Float32} {steps : List Float32}
    (h : (stepsFrom delta (count - 1) start : Outcome ε (List Float32)) = .ok steps) {i : Nat}
    {x : Float32} (hx : (start :: steps)[i]? = some x) :
    ((floatElements delta count start).getD i .unknown).Covers names (.ofFloat x) := by
  induction count generalizing start steps i with
  | zero => exact SymElement.covers_unknown _
  | succ count ih =>
    cases i with
    | zero =>
      cases Option.some.inj hx
      rfl
    | succ i =>
      cases count with
      | zero =>
        cases h
        simp at hx
      | succ count =>
        obtain ⟨next, hnext, h⟩ := bind_eq_ok.mp h
        obtain ⟨rest, hrest, h⟩ := bind_eq_ok.mp h
        cases hnext
        cases h
        rw [floatElements, List.getD_cons_succ]
        exact ih hrest hx

theorem element_of_single [Value.Stored α] [Value.Stored.Lawful α] {s : SymTensor} {v : Value}
    {e : SymElement} {o : Option α} {a : α} {cause : OpError} (hs : Sound names s v)
    (he : s.single? = some e) (ho : element? α (some v) = .ok o) (ha : orRefuse cause o = .ok a) :
    e.Covers names (SymElement.Known.known a) := by
  obtain ⟨x, hx, ho⟩ := bind_eq_ok.mp ho
  obtain ⟨b, hb, ho⟩ := bind_eq_ok.mp ho
  cases ho
  cases ha
  have hreads := hs.of_typed hx
  have hes : s.elements = some [e] := by
    unfold SymTensor.single? at he
    split at he
    · rename_i e' hes
      rw [hes, Option.some.inj he]
    · cases he
  have hget := get_of_elements hes 0
  have hitem : x.data[0]? = some a := by
    have hitem := orRefuse_eq_ok.mp hb
    unfold Tensor.item? at hitem
    split at hitem
    · rename_i b hdata
      rw [hdata, Option.some.inj hitem]
      rfl
    · cases hitem
  have hcover := hreads.lists 0 (SymElement.Known.known a) (by
    rw [Tensor.elements, List.getElem?_map, hitem]
    rfl)
  rwa [hget] at hcover

theorem length_stepsFrom [Element α] {delta start : α} {count : Nat} {steps : List α}
    (h : (stepsFrom delta count start : Outcome ε (List α)) = .ok steps) :
    steps.length = count := by
  induction count generalizing start steps with
  | zero =>
    cases h
    rfl
  | succ count ih =>
    obtain ⟨_, _, h⟩ := bind_eq_ok.mp h
    obtain ⟨rest, hrest, h⟩ := bind_eq_ok.mp h
    cases h
    rw [List.length_cons, ih hrest]

theorem lists_sequence [SymElement.Known α] {out : Tensor α} {v : Value} {dtype : DataType}
    {length : Nat} {elements : Nat → List SymElement} {values : List α}
    (hexpects : Expects names (sequence dtype length elements) v) (hshape : out.shape = v.shape)
    (hlen : ∀ n, (elements n).length = n) (hvalues : out.count ≤ values.length)
    (helements : ∀ (i : Nat) (a : α), values[i]? = some a →
      ((elements out.count).getD i .unknown).Covers names (SymElement.Known.known a)) :
    (sequence dtype length elements).Lists names (out.overwrite values).elements := by
  have hcount : ∀ es, (sequence dtype length elements).elements = some es →
      es = elements out.count ∧ es.length = out.count := by
    intro es he
    have hes := hexpects.length_eq he
    obtain ⟨old, hold, rfl⟩ := Option.map_eq_some_iff.mp he
    rw [hlen, ← hshape, ← out.length_data] at hes
    exact ⟨by rw [hes]; rfl, by rw [hlen, hes]; rfl⟩
  refine lists_overwrite (fun i c hc => ?_) fun es he => (hcount es he).2 ▸ hvalues
  rw [List.getElem?_map, Option.map_eq_some_iff] at hc
  obtain ⟨a, ha, rfl⟩ := hc
  cases he : (sequence dtype length elements).elements with
  | none =>
    rw [get_of_none he]
    exact SymElement.covers_unknown _
  | some es =>
    rw [get_of_elements he, (hcount es he).1]
    exact helements i a ha

theorem lists (h : List.Forall₂ (Option.Rel (Sound names)) sym inputs)
    (hts : Range.infer sym = .ok ts) (ho : List.Forall₂ (Expects names) ts outputs) :
    PreparesLists names ts (Range.prepare inputs outputs) := by
  rw [infer_eq] at hts
  obtain ⟨s, hs, hts⟩ := bind_eq_ok.mp hts
  obtain ⟨_, _, hts⟩ := bind_eq_ok.mp hts
  obtain ⟨d, hd, hts⟩ := bind_eq_ok.mp hts
  obtain ⟨_, _, hts⟩ := bind_eq_ok.mp hts
  obtain ⟨_, _, hts⟩ := bind_eq_ok.mp hts
  obtain ⟨_, _, hts⟩ := bind_eq_ok.mp hts
  obtain ⟨_, _, hts⟩ := bind_eq_ok.mp hts
  unfold result at hts
  split at hts
  case h_1 start limit delta hstart _ hdelta =>
    obtain ⟨length, _, hts⟩ := bind_eq_ok.mp hts
    cases hts
    refine always_bind fun x hx => always_bind fun y hy => lists_single ho fun out hout => ?_
    have hxs := Sound.demand h hs hx
    have hys := Sound.demand h hd hy
    cases out with
    | float out =>
      refine always_ok (lists_filled (always_bind fun o ho => always_bind fun a ha => ?_))
      cases element_of_single hxs hstart ho ha
    | int out =>
      refine always_ok (lists_filled (always_bind fun o ho => always_bind fun a ha => ?_))
      refine always_bind fun o' ho' => always_bind fun b hb => always_bind fun steps hsteps => ?_
      cases element_of_single hxs hstart ho ha
      cases element_of_single hys hdelta ho' hb
      refine always_ok (lists_sequence hout rfl (fun n => length_intElements _ n _) ?_ ?_)
      · rw [List.length_cons, length_stepsFrom hsteps]
        omega
      · exact fun i n hn => getD_intElements hsteps hn
  case h_2 start limit delta hstart _ hdelta =>
    obtain ⟨length, _, hts⟩ := bind_eq_ok.mp hts
    cases hts
    refine always_bind fun x hx => always_bind fun y hy => lists_single ho fun out hout => ?_
    have hxs := Sound.demand h hs hx
    have hys := Sound.demand h hd hy
    cases out with
    | int out =>
      refine always_ok (lists_filled (always_bind fun o ho => always_bind fun a ha => ?_))
      cases element_of_single hxs hstart ho ha
    | float out =>
      refine always_ok (lists_filled (always_bind fun o ho => always_bind fun a ha => ?_))
      refine always_bind fun o' ho' => always_bind fun b hb => always_bind fun steps hsteps => ?_
      cases element_of_single hxs hstart ho ha
      cases element_of_single hys hdelta ho' hb
      refine always_ok (lists_sequence hout rfl (fun n => length_floatElements _ n _) ?_ ?_)
      · rw [List.length_cons, length_stepsFrom hsteps]
        omega
      · intro i n hn
        simp only [Binary32.ofBits_toBits]
        exact getD_floatElements hsteps hn
  case h_3 =>
    obtain ⟨_, _, hts⟩ := bind_eq_ok.mp hts
    cases hts
    refine preparesLists_of_unknown (Range.prepares inputs outputs) ho.length_eq ?_
    simp [get_ofShape]

end Range

theorem SymTensor.lists_vector [SymElement.Known α] {out : Tensor α} {values : List α}
    {es : List SymElement} (dtype : DataType)
    (h : List.Forall₂ (SymElement.Covers names) es (values.map SymElement.Known.known)) :
    (vector dtype es).Lists names (out.overwrite values).elements := by
  have helements : (vector dtype es).elements = none ∨ (vector dtype es).elements = some es := by
    simp only [vector]
    split_ifs <;> simp
  refine lists_overwrite (fun i c hc => ?_) fun es' he => ?_
  · rcases helements with he | he
    · rw [get_of_none he]
      exact SymElement.covers_unknown c
    · obtain ⟨e, hei, hec⟩ := Related.get_right h hc
      rwa [get_of_elements he, List.getD_eq_getElem?_getD, hei]
  · rcases helements with hnone | hsome
    · simp [hnone] at he
    · cases hsome.symm.trans he
      rw [h.length_eq, List.length_map]

theorem ShapeOf.lists (op : ShapeOf) (h : List.Forall₂ (Option.Rel (Sound names)) sym inputs)
    (hts : op.infer sym = .ok ts) (ho : List.Forall₂ (Expects names) ts outputs) :
    PreparesLists names ts (op.prepare inputs outputs) := by
  obtain ⟨s, hs, hts⟩ := bind_eq_ok.mp hts
  cases hshape : s.shape with
  | unknown =>
    simp only [hshape] at hts
    cases hts
    refine preparesLists_of_unknown (op.prepares inputs outputs) ho.length_eq ?_
    simp [get_ofShape]
  | ranked ds =>
    simp only [hshape] at hts
    cases hts
    refine always_bind fun x hx => lists_single ho fun out _ => always_ok ?_
    obtain ⟨cs, hcs, hdims⟩ := hshape ▸ (Sound.demand h hs hx).describes.shape
    rw [SymShape.ofShape, SymShape.ranked.injEq] at hcs
    have hlen : ds.length = x.rank := by rw [hdims.length_eq, ← hcs, List.length_map]; rfl
    rw [hlen]
    cases out with
    | float out => exact lists_none
    | int out =>
      refine lists_filled (x := .ok _) (always_ok (lists_vector .int ?_))
      subst hcs
      rw [List.forall₂_map_right_iff] at hdims
      rw [List.map_map]
      refine Related.map (List.forall₂_drop _ (List.forall₂_take _ hdims)) fun d n hd => ?_
      exact SymElement.covers_ofDim hd

theorem intOfSize_mul (m n : Nat) : intOfSize (m * n) = intOfSize m * intOfSize n :=
  Int64.ofNat_mul m n

theorem SymDim.mul_ofSize {d : SymDim} {m : Nat} (h : d = .unknown ∨ d = .ofSize m) (n : Nat) :
    d * .ofSize n = .unknown ∨ d * .ofSize n = .ofSize (m * n) := by
  change SymDim.mul d (.ofSize n) = _ ∨ SymDim.mul d (.ofSize n) = _
  simp only [ofSize, intOfSize_mul] at h ⊢
  rcases h with rfl | rfl
  · by_cases h1 : intOfSize n = 1 <;> by_cases h0 : intOfSize n = 0 <;> simp [mul, h1, h0]
  · unfold mul
    split_ifs with h1 h2 h3
    · simp_all
    · simp_all
    · rcases h3 with h3 | h3 <;> simp_all
    · dsimp only [mulInt?]
      split_ifs <;> simp [ofOption]

theorem SymShape.count_ofShape (shape : Shape) :
    (SymShape.ofShape shape).count = .unknown ∨
      (SymShape.ofShape shape).count = .ofSize shape.volume := by
  have hfold : ∀ (d : SymDim) (m : Nat), d = .unknown ∨ d = .ofSize m →
      (shape.map SymDim.ofSize).foldl (· * ·) d = .unknown ∨
        (shape.map SymDim.ofSize).foldl (· * ·) d = .ofSize (m * shape.volume) := by
    induction shape with
    | nil => simp [Shape.volume]
    | cons n shape ih =>
      intro d m h
      rw [List.map_cons, List.foldl_cons, Shape.volume, ← Nat.mul_assoc]
      exact ih _ _ (SymDim.mul_ofSize h n)
  have hcount := hfold (.size 1) 1 (.inr rfl)
  rwa [Nat.one_mul] at hcount

theorem SizeOf.lists (h : List.Forall₂ (Option.Rel (Sound names)) sym inputs)
    (hts : SizeOf.infer sym = .ok ts) (ho : List.Forall₂ (Expects names) ts outputs) :
    PreparesLists names ts (SizeOf.prepare inputs outputs) := by
  obtain ⟨s, hs, hts⟩ := bind_eq_ok.mp hts
  cases hts
  refine always_bind fun x hx => lists_single ho fun out _ => always_ok ?_
  have hcount := (Sound.demand h hs hx).describes.shape.count
  cases out with
  | float out => exact lists_none
  | int out =>
    refine lists_filled (x := .ok _) (always_ok fun i c hc => ?_)
    obtain ⟨n, hn, rfl⟩ := Tensor.getElem?_elements hc
    simp only [Tensor.map, List.map_const', List.getElem?_replicate] at hn
    split_ifs at hn
    cases hn
    cases i with
    | succ i => exact SymElement.covers_unknown _
    | zero =>
      change (SymElement.ofDim s.shape.count).Covers names (.int (intOfSize x.count))
      rw [x.count_eq_volume]
      rcases SymShape.count_ofShape x.shape with hc | hc
      · rw [hc] at hcount
        rw [hcount.eq_unknown]
        exact SymElement.covers_unknown _
      · rw [hc] at hcount
        exact SymElement.covers_ofDim hcount

end TensorGraph
