import TensorGraph.Elementwise.Several
import TensorGraph.Elementwise.Unary
import TensorGraph.Proofs.Kernels.Reading

/-! Functions of elements that may be unknown or named. Where such a function tells a result, it
is the one on the elements themselves: the shortcuts for a zero or a one, for one name on both
sides, and for two choices that agree, hold for whatever is behind a name. Functions that are
computed element by element give the elements that inference lists. -/

namespace TensorGraph

section

open Outcome

variable {names : Names} {a b : SymElement}

namespace BinaryFn

theorem onElements_covers_int {f : BinaryFn} {x y z : Int64} (ha : a.Covers names (.int x))
    (hb : b.Covers names (.int y)) (hz : f.onInt? x y = some z) :
    (f.onElements a b).Covers names (.int z) := by
  cases f
  case add => exact Option.some.inj hz ▸ SymElement.add_covers_int ha hb
  case sub => exact Option.some.inj hz ▸ SymElement.sub_covers_int ha hb
  case mul => exact Option.some.inj hz ▸ SymElement.mul_covers_int ha hb
  case div =>
    simp only [onInt?] at hz
    split_ifs at hz with hy
    exact Option.some.inj hz ▸ SymElement.div_covers_int hy ha hb
  all_goals
    rcases SymElement.covers_int_cases ha with rfl | rfl | ⟨p, rfl, hp⟩ <;>
      rcases SymElement.covers_int_cases hb with rfl | rfl | ⟨q, rfl, hq⟩ <;>
      simp only [onElements, hz, Option.elim_some, SymElement.covers_unknown, SymElement.covers_int]
  case equal =>
    split_ifs with hpq
    · subst hpq
      cases hp.symm.trans hq
      rw [← Option.some.inj hz]
      simp [truth]
    · exact SymElement.covers_unknown _

/-- Only for a divisor of zero a function has no value, and then it tells nothing. -/
theorem onElements_eq_unknown {f : BinaryFn} {x y : Int64} (ha : a.Covers names (.int x))
    (hb : b.Covers names (.int y)) (hz : f.onInt? x y = none) : f.onElements a b = .unknown := by
  cases f
  case div | mod =>
    obtain rfl : y = 0 := by simpa [onInt?] using hz
    rcases SymElement.covers_int_cases ha with rfl | rfl | ⟨p, rfl, -⟩ <;>
      rcases SymElement.covers_int_cases hb with rfl | rfl | ⟨q, rfl, -⟩ <;> rfl
  all_goals simp [onInt?] at hz

/-- On numbers, a function gives what it gives on their bits, or nothing. -/
theorem onElements_bits (f : BinaryFn) {x y : UInt32} (ha : a.Covers names (.float x))
    (hb : b.Covers names (.float y)) : f.onElements a b = .unknown ∨
      f.onElements a b = if f.isComparison then .int (truth (f.compare (.ofBits x) (.ofBits y)))
        else .ofFloat (f.onFloat (.ofBits x) (.ofBits y)) := by
  rcases SymElement.covers_float_cases ha with rfl | rfl
  · left
    rcases SymElement.covers_float_cases hb with rfl | rfl <;> cases f <;> rfl
  · rcases SymElement.covers_float_cases hb with rfl | rfl
    · left
      cases f <;> rfl
    · right
      cases f <;> rfl

theorem onElements_float (f : BinaryFn) {x y : Float32} (ha : a.Covers names (.ofFloat x))
    (hb : b.Covers names (.ofFloat y)) : f.onElements a b = .unknown ∨
      f.onElements a b = if f.isComparison then .int (truth (f.compare x y))
        else .ofFloat (f.onFloat x y) := by
  have hbits := f.onElements_bits ha hb
  rwa [Binary32.ofBits_toBits, Binary32.ofBits_toBits] at hbits

/-- Whether a function tells what another one gives, of elements of one type. -/
def Combines {α : Type} [SymElement.Known α] (names : Names) (f : BinaryFn) (g : α → α → α) :
    Prop :=
  ∀ a b x y, a.Covers names (SymElement.Known.known x) → b.Covers names (SymElement.Known.known y) →
    (f.onElements a b).Covers names (SymElement.Known.known (g x y))

end BinaryFn

theorem Tensor.getElem?_of_overwrite {α : Type} {t : Tensor α} {values : List α} {i : Nat} {x : α}
    (hlen : values.length = t.data.length) (h : (t.overwrite values).data[i]? = some x) :
    values[i]? = some x := by
  rw [Tensor.getElem?_overwrite] at h
  split_ifs at h with hi hvalues
  · exact h
  · omega

/-- Whether a description covers the element that a tensor, read in a shape, has at a position. -/
def SymElement.CoversAt {α : Type} [SymElement.Known α] (names : Names) (shape : Shape) (i : Nat)
    (e : SymElement) (t : Tensor α) : Prop :=
  ∀ xs : List α, (t.broadcastElements shape : Outcome OpError (List α)) = .ok xs →
    ∀ x, xs[i]? = some x → e.Covers names (SymElement.Known.known x)

namespace VariadicFn

variable {α : Type} [SymElement.Known α] {g : α → α → α} {es : List SymElement}
  {xs : List (Tensor α)}
  {i : Nat} {x : α}

theorem combine_onInt? {f : VariadicFn} {x y : Int64} :
    f.combine.onInt? x y = some ((f.combine.onInt? x y).getD 0) := by
  cases f <;> rfl

theorem combines_int (names : Names) (f : VariadicFn) :
    f.combine.Combines names fun x y => (f.combine.onInt? x y).getD 0 :=
  fun _ _ _ _ ha hb => BinaryFn.onElements_covers_int ha hb combine_onInt?

theorem combines_float (names : Names) (f : VariadicFn) :
    f.combine.Combines names f.combine.onFloat := by
  intro a b x y ha hb
  rcases f.combine.onElements_float ha hb with hi | hi
  · rw [hi]
    exact SymElement.covers_unknown _
  · rw [hi, if_neg (by cases f <;> simp [combine, BinaryFn.isComparison])]
    rfl

theorem covers_foldl {f : BinaryFn} (hg : f.Combines names g) {acc out : Tensor α} {e : SymElement}
    (h : List.Forall₂ (SymElement.CoversAt names acc.shape i) es xs)
    (he : ∀ x, acc.data[i]? = some x → e.Covers names (SymElement.Known.known x))
    (hfold : (xs.foldlM (fun acc t => t.broadcastElements acc.shape >>= fun ys =>
      .ok (acc.overwrite (List.zipWith g acc.data ys))) acc : Outcome OpError (Tensor α)) = .ok out)
    (hx : out.data[i]? = some x) :
    (es.foldl f.onElements e).Covers names (SymElement.Known.known x) := by
  induction xs generalizing acc es e with
  | nil =>
    cases h
    cases hfold
    exact he x hx
  | cons t xs ih =>
    obtain ⟨e', rest, ht, hrest, rfl⟩ := List.forall₂_cons_right_iff.mp h
    rw [List.foldlM_cons] at hfold
    obtain ⟨next, hnext, hfold⟩ := bind_eq_ok.mp hfold
    obtain ⟨ys, hys, hnext⟩ := bind_eq_ok.mp hnext
    cases hnext
    refine @ih rest (acc.overwrite (List.zipWith g acc.data ys)) (f.onElements e e') hrest
      (fun z hz => ?_) hfold
    have hlen : (List.zipWith g acc.data ys).length = acc.data.length := by
      rw [List.length_zipWith, Tensor.length_broadcastElements hys, ← acc.length_data, Nat.min_self]
    obtain ⟨b, c, hb, hc, rfl⟩ :=
      List.getElem?_zipWith_eq_some.mp (Tensor.getElem?_of_overwrite hlen hz)
    exact hg _ _ b c (he b hb) (ht ys hys c hc)

theorem covers_fold {f : VariadicFn} (hg : f.combine.Combines names g) {out y : Tensor α}
    (h : List.Forall₂ (SymElement.CoversAt names out.shape i) es xs)
    (hy : (fold g xs out : Outcome OpError (Tensor α)) = .ok y) (hx : y.data[i]? = some x) :
    (f.onElements es).Covers names (SymElement.Known.known x) := by
  cases h with
  | nil => exact SymElement.covers_unknown _
  | cons ht h =>
    obtain ⟨start, hstart, hy⟩ := bind_eq_ok.mp hy
    refine @covers_foldl _ _ _ _ _ _ _ _ _ hg (out.overwrite start) _ _ h (fun z hz => ?_) hy hx
    have hlen := (Tensor.length_broadcastElements hstart).trans out.length_data.symm
    exact ht start hstart z (Tensor.getElem?_of_overwrite hlen hz)

end VariadicFn

namespace Where

theorem onElements_covers {c a b : SymElement} {α : Type} [SymElement.Known α] {n : Int64} {x y : α}
    (hc : c.Covers names (.int n)) (ha : a.Covers names (SymElement.Known.known x))
    (hb : b.Covers names (SymElement.Known.known y)) :
    (onElements c a b).Covers names (SymElement.Known.known (if n ≠ 0 then x else y)) := by
  have hmerge : (a.merge b).Covers names (SymElement.Known.known (if n ≠ 0 then x else y)) := by
    split_ifs
    · exact ha.merge_left b
    · exact hb.merge_right a
  cases c with
  | int m =>
    cases SymElement.covers_int.mp hc
    by_cases hn : n = 0
    · simpa [onElements, hn] using hb
    · simpa [onElements, hn] using ha
  | unknown | param _ | float _ => exact hmerge

theorem covers_fill {c a b : SymElement} {α : Type} [SymElement.Known α] {condition : Tensor Int64}
    {x y out t : Tensor α} {i : Nat} {z : α} (hc : c.CoversAt names out.shape i condition)
    (ha : a.CoversAt names out.shape i x) (hb : b.CoversAt names out.shape i y)
    (ht : (fill condition x y out : Outcome OpError (Tensor α)) = .ok t)
    (hz : t.data[i]? = some z) :
    (onElements c a b).Covers names (SymElement.Known.known z) := by
  obtain ⟨cs, hcs, ht⟩ := bind_eq_ok.mp ht
  obtain ⟨xs, hxs, ht⟩ := bind_eq_ok.mp ht
  obtain ⟨ys, hys, ht⟩ := bind_eq_ok.mp ht
  cases ht
  have hentry := Tensor.getElem?_of_overwrite (by
    simp [Tensor.length_broadcastElements hcs, Tensor.length_broadcastElements hxs,
      Tensor.length_broadcastElements hys, out.length_data]) hz
  rw [List.getElem?_map, Option.map_eq_some_iff] at hentry
  obtain ⟨⟨n, v, w⟩, hentry, rfl⟩ := hentry
  obtain ⟨hn, hvw⟩ := List.getElem?_zip_eq_some.mp hentry
  obtain ⟨hv, hw⟩ := List.getElem?_zip_eq_some.mp hvw
  exact onElements_covers (hc cs hcs n hn) (ha xs hxs v hv) (hb ys hys w hw)

end Where

namespace SymElement

/-- What functions tell of described elements is right. Of two integers it is told only where the
function has a value; several are combined from the left, and one of two is chosen, as the kernels
do it. -/
theorem covers_combined (names : Names) :
    (∀ (f : BinaryFn) (a b : SymElement),
      (∀ x y, a.Covers names (.int x) → b.Covers names (.int y) → f.onElements a b = .unknown ∨
        ∃ z, f.onInt? x y = some z ∧ (f.onElements a b).Covers names (.int z)) ∧
      ∀ x y, a.Covers names (.float x) → b.Covers names (.float y) → f.onElements a b = .unknown ∨
        f.onElements a b =
          if f.isComparison then .int (BinaryFn.truth (f.compare (.ofBits x) (.ofBits y)))
          else .ofFloat (f.onFloat (.ofBits x) (.ofBits y))) ∧
    (∀ (f : VariadicFn) (es : List SymElement) (i : Nat),
      (∀ (xs : List (Tensor Int64)) (out y : Tensor Int64) (z : Int64),
        List.Forall₂ (CoversAt names out.shape i) es xs →
        (VariadicFn.fold (fun a b => (f.combine.onInt? a b).getD 0) xs out :
          Outcome OpError (Tensor Int64)) = .ok y →
        y.data[i]? = some z → (f.onElements es).Covers names (.int z)) ∧
      ∀ (xs : List (Tensor Float32)) (out y : Tensor Float32) (z : Float32),
        List.Forall₂ (CoversAt names out.shape i) es xs →
        (VariadicFn.fold f.combine.onFloat xs out : Outcome OpError (Tensor Float32)) = .ok y →
        y.data[i]? = some z → (f.onElements es).Covers names (.ofFloat z)) ∧
    ∀ (c a b : SymElement) (i : Nat) (α : Type) [Known α] (condition : Tensor Int64)
      (x y out t : Tensor α) (z : α), c.CoversAt names out.shape i condition →
        a.CoversAt names out.shape i x → b.CoversAt names out.shape i y →
        (Where.fill condition x y out : Outcome OpError (Tensor α)) = .ok t →
        t.data[i]? = some z → (Where.onElements c a b).Covers names (Known.known z) := by
  refine ⟨fun f a b => ⟨fun x y ha hb => ?_, fun x y ha hb => f.onElements_bits ha hb⟩,
    fun f es i => ⟨fun xs out y z h hy hz => ?_, fun xs out y z h hy hz => ?_⟩,
    fun c a b i α _ condition x y out t z hc ha hb ht hz => Where.covers_fill hc ha hb ht hz⟩
  · cases hz : f.onInt? x y with
    | none => exact .inl (BinaryFn.onElements_eq_unknown ha hb hz)
    | some z => exact .inr ⟨z, rfl, BinaryFn.onElements_covers_int ha hb hz⟩
  · exact VariadicFn.covers_fold (f.combines_int names) h hy hz
  · exact VariadicFn.covers_fold (f.combines_float names) h hy hz

/-- A name and a zero add up to the name, whatever is behind it. -/
theorem covers_combined_zero :
    VariadicFn.sum.onElements [.param "n", .int 0] = .param "n" ∧
      (VariadicFn.sum.onElements [.param "n", .int 0]).Covers (fun _ => some 7) (.int 7) := by
  have hname : (param "n").CoversAt (fun _ => some 7) [1] 0 (.ofList [7] : Tensor Int64) := by
    intro xs hxs x hx
    cases (rfl : (Tensor.ofList [7] : Tensor Int64).broadcastElements [1] = .ok [7]).symm.trans hxs
    exact ⟨7, rfl, congrArg int (Option.some.inj hx).symm⟩
  have hzero : (int 0).CoversAt (fun _ => some 7) [1] 0 (.ofList [0] : Tensor Int64) := by
    intro xs hxs x hx
    cases (rfl : (Tensor.ofList [0] : Tensor Int64).broadcastElements [1] = .ok [0]).symm.trans hxs
    exact congrArg int (Option.some.inj hx).symm
  exact ⟨rfl, ((covers_combined fun _ => some 7).2.1 .sum _ 0).1 [.ofList [7], .ofList [0]]
    (.ofList [0]) (.ofList [7]) 7 (.cons hname (.cons hzero .nil)) rfl rfl⟩

end SymElement

end

section

open Outcome Kernel SymTensor

variable {names : Names} {sym : SymInputs} {inputs : ValueInputs} {outputs : List Value}
  {ts : List SymTensor}

namespace UnaryFn

theorem onElement_covers_int (f : UnaryFn) {e : SymElement} {n : Int64}
    (h : e.Covers names (.int n)) : (f.onElement e).Covers names (.int (f.onInt n)) := by
  cases e with
  | int m =>
    cases SymElement.covers_int.mp h
    rfl
  | float _ => cases SymElement.covers_float.mp h
  | param _ | unknown => exact SymElement.covers_unknown _

theorem onElement_covers_float (f : UnaryFn) {e : SymElement} {x : Float32}
    (h : e.Covers names (.ofFloat x)) : (f.onElement e).Covers names (.ofFloat (f.onFloat x)) := by
  cases e with
  | int _ => cases SymElement.covers_int.mp h
  | float bits =>
    cases SymElement.covers_float.mp h
    rw [onElement, Binary32.ofBits_toBits]
    rfl
  | param _ | unknown => exact SymElement.covers_unknown _

theorem not_predicate_of_folds {f : UnaryFn} (h : f.folds = true) : f.isPredicate = false := by
  cases f <;> simp_all [folds, isPredicate]

theorem lists_kernel {f : UnaryFn} (hfolds : f.folds = true) {s t : SymTensor} {x : Value}
    (hx : Sound names s x) (ht : t = if f.folds && f.supports s.dtype then
      s.mapElements (f.resultType s.dtype) f.onElement else s.sameShape (f.resultType s.dtype))
    (out : Value) : Kernel.Lists names [t] (f.kernel x out) := by
  refine lists_unless fun hsupports => ?_
  rw [hfolds, hx.describes.dtype, Bool.true_and, if_pos (by simpa using hsupports)] at ht
  cases x <;> cases out
  case float.int x out =>
    refine lists_when fun hpredicate => ?_
    simp [not_predicate_of_folds hfolds] at hpredicate
  case float.float x out =>
    refine lists_filled (x := .ok _) (always_ok ?_)
    exact lists_mapElements hx.reads ht fun e a he => f.onElement_covers_float he
  case int.int x out =>
    refine lists_filled (x := .ok _) (always_ok ?_)
    exact lists_mapElements hx.reads ht fun e a he => f.onElement_covers_int he
  case int.float x out => exact lists_none

theorem lists {f : UnaryFn} (hfolds : f.folds = true)
    (h : List.Forall₂ (Option.Rel (Sound names)) sym inputs) (hts : f.infer sym = .ok ts)
    (ho : List.Forall₂ (Expects names) ts outputs) :
    PreparesLists names ts (inputs.demand 0 >>= fun x => single outputs >>= fun out =>
      .ok (f.kernel x out)) := by
  obtain ⟨s, hs, hts⟩ := bind_eq_ok.mp hts
  cases hts
  refine always_bind fun x hx => lists_single ho fun out _ => always_ok ?_
  exact lists_kernel hfolds (Sound.demand h hs hx) rfl out

end UnaryFn

namespace BinaryFn

theorem lists_mapPairs {t c d : SymTensor} {α β : Type} [SymElement.Known α] [SymElement.Known β]
    {x y : Tensor α} {out : Tensor β} {v : Value} {dtype : DataType} {shape : SymShape}
    {others : List SymTensor} {f : BinaryFn} {g : α → α → β} (hx : Reads names c x)
    (hy : Reads names d y) (ht : t = (SymTensor.ofShape dtype shape).fillFrom others
      fun i => f.onElements (c.readAt i) (d.readAt i))
    (hexpects : Expects names t v) (hshape : out.shape = v.shape)
    (hg : ∀ a b x y, a.Covers names (SymElement.Known.known x) →
      b.Covers names (SymElement.Known.known y) →
        (f.onElements a b).Covers names (SymElement.Known.known (g x y))) :
    ListsTensor names t (mapPairs g x y out : Outcome OpError (Tensor β)) := by
  refine always_bind fun xs hxs => always_bind fun ys hys => always_ok ?_
  refine lists_fillFrom ht hexpects hshape ?_ fun hrank i z hz => ?_
  · simp [Tensor.length_broadcastElements hxs, Tensor.length_broadcastElements hys]
  · obtain ⟨a, b, ha, hb, rfl⟩ := List.getElem?_zipWith_eq_some.mp hz
    exact hg _ _ a b (hx.readAt hxs hrank ha) (hy.readAt hys hrank hb)

theorem lists_kernel {f : BinaryFn} (hfolds : f.folds = true) {c d t : SymTensor} {a b out : Value}
    {shape : SymShape} (ha : Sound names c a) (hb : Sound names d b)
    (ht : t = if f.folds && f.supports c.dtype then
      (SymTensor.ofShape (f.resultType c.dtype) shape).fillFrom [c, d]
        fun i => f.onElements (c.readAt i) (d.readAt i)
      else .ofShape (f.resultType c.dtype) shape)
    (hexpects : Expects names t out) : Kernel.Lists names [t] (f.kernel a b out) := by
  refine lists_unless fun hsupports => ?_
  rw [hfolds, ha.describes.dtype, Bool.true_and, if_pos (by simpa using hsupports)] at ht
  cases a <;> cases b <;> cases out
  case float.float.int a b out =>
    refine lists_when fun hcomparison => lists_filled ?_
    refine lists_mapPairs ha.reads hb.reads ht hexpects rfl fun e e' x y he he' => ?_
    rcases f.onElements_float he he' with hi | hi
    · rw [hi]
      exact SymElement.covers_unknown _
    · rw [hi, if_pos hcomparison]
      rfl
  case float.float.float a b out =>
    have hcomparison : f.isComparison = false := by
      by_contra hf
      have hdtype := hexpects.fits.dtype
      rw [ht, dtype_fillFrom, dtype_ofShape, resultType, if_pos (by simpa using hf)] at hdtype
      cases hdtype
    refine lists_filled (lists_mapPairs ha.reads hb.reads ht hexpects rfl fun e e' x y he he' => ?_)
    rcases f.onElements_float he he' with hi | hi
    · rw [hi]
      exact SymElement.covers_unknown _
    · rw [hi, hcomparison]
      rfl
  case int.int.int a b out =>
    refine lists_filled (always_bind fun xs hxs => always_bind fun ys hys => ?_)
    refine always_bind fun zs hzs => always_ok ?_
    have hpairs := Option.mapM_eq_some.mp (orRefuse_eq_ok.mp hzs)
    refine lists_fillFrom ht hexpects rfl ?_ fun hrank i z hz => ?_
    · simp [← hpairs.length_eq, Tensor.length_broadcastElements hxs,
        Tensor.length_broadcastElements hys]
    · obtain ⟨⟨x, y⟩, hxy, hvalue⟩ := Related.get_right hpairs hz
      obtain ⟨hx, hy⟩ := List.getElem?_zip_eq_some.mp hxy
      exact onElements_covers_int (ha.reads.readAt hxs hrank hx) (hb.reads.readAt hys hrank hy)
        hvalue
  all_goals exact lists_none

theorem lists {f : BinaryFn} (hfolds : f.folds = true)
    (h : List.Forall₂ (Option.Rel (Sound names)) sym inputs) (hts : f.infer sym = .ok ts)
    (ho : List.Forall₂ (Expects names) ts outputs) :
    PreparesLists names ts (inputs.demand 0 >>= fun a => inputs.demand 1 >>= fun b =>
      single outputs >>= fun out => .ok (f.kernel a b out)) := by
  obtain ⟨c, hc, hts⟩ := bind_eq_ok.mp hts
  obtain ⟨d, hd, hts⟩ := bind_eq_ok.mp hts
  obtain ⟨_, _, hts⟩ := bind_eq_ok.mp hts
  obtain ⟨output, houtput, hts⟩ := bind_eq_ok.mp hts
  obtain ⟨shape, _, houtput⟩ := bind_eq_ok.mp houtput
  cases houtput
  cases hts
  refine always_bind fun a ha => always_bind fun b hb => lists_single ho fun out hout => ?_
  exact always_ok (lists_kernel hfolds (Sound.demand h hc ha) (Sound.demand h hd hb) rfl hout)

end BinaryFn

namespace VariadicFn

theorem lists_fold {f : VariadicFn} {α : Type} [SymElement.Known α] {g : α → α → α}
    (hg : f.combine.Combines names g) {args : List SymTensor} {xs : List (Tensor α)}
    (h : List.Forall₂ (Reads names) args xs) {t : SymTensor} {dtype : DataType} {shape : SymShape}
    (ht : t = (SymTensor.ofShape dtype shape).fillFrom args
      fun i => f.onElements (args.map (·.readAt i)))
    {out : Tensor α} {v : Value} (hexpects : Expects names t v) (hshape : out.shape = v.shape) :
    ListsTensor names t (fold g xs out : Outcome OpError (Tensor α)) := by
  intro y hy i c hc
  obtain ⟨a, ha, rfl⟩ := Tensor.getElem?_elements hc
  cases he : t.elements with
  | none =>
    rw [get_of_none he]
    exact SymElement.covers_unknown _
  | some es =>
    have hrank := hshape ▸ hexpects.rank_le_one he
    subst ht
    rcases get_fillFrom (.ofShape dtype shape) args
      (fun i => f.onElements (args.map (·.readAt i))) i with hi | hi | ⟨-, hi⟩
    · rw [hi]
      exact SymElement.covers_unknown _
    · rw [hi, get_ofShape]
      exact SymElement.covers_unknown _
    · rw [hi]
      refine covers_fold hg (List.forall₂_map_left_iff.mpr (h.imp fun s x hs => ?_)) hy ha
      exact fun xs hxs a ha => hs.readAt hxs hrank ha

theorem ne_mean_of_folds {f : VariadicFn} (h : f.folds = true) : f ≠ .mean := by
  cases f <;> simp_all [folds]

theorem lists_kernel {f : VariadicFn} (hfolds : f.folds = true) {args : List SymTensor}
    {vs : List Value} (h : List.Forall₂ (Sound names) args vs) {t : SymTensor} {dtype : DataType}
    {shape : SymShape} (ht : t = if f.folds then (SymTensor.ofShape dtype shape).fillFrom args
      (fun i => f.onElements (args.map (·.readAt i))) else .ofShape dtype shape) {out : Value}
    (hexpects : Expects names t out) : Kernel.Lists names [t] (f.kernel vs out) := by
  refine lists_unless fun _ => ?_
  rw [if_pos hfolds] at ht
  cases out with
  | float out =>
    refine lists_bind fun xs hxs => ?_
    simp only [if_neg (ne_mean_of_folds hfolds)]
    exact lists_filled (lists_fold (combines_float names f) (reads_of_typed h hxs) ht hexpects rfl)
  | int out =>
    refine lists_bind fun xs hxs => lists_filled ?_
    exact lists_fold (combines_int names f) (reads_of_typed h hxs) ht hexpects rfl

end VariadicFn

theorem VariadicFn.lists {f : VariadicFn} (hfolds : f.folds = true)
    (h : List.Forall₂ (Option.Rel (Sound names)) sym inputs) (hts : f.infer sym = .ok ts)
    (ho : List.Forall₂ (Expects names) ts outputs) :
    PreparesLists names ts (f.prepare inputs outputs) := by
  obtain ⟨_, _, hts⟩ := bind_eq_ok.mp hts
  obtain ⟨_, _, hts⟩ := bind_eq_ok.mp hts
  obtain ⟨output, houtput, hts⟩ := bind_eq_ok.mp hts
  obtain ⟨shape, _, houtput⟩ := bind_eq_ok.mp houtput
  cases houtput
  cases hts
  refine always_bind fun vs hvs => lists_single ho fun out hout => ?_
  exact always_ok (lists_kernel hfolds (Sound.given h hvs) rfl hout)

namespace Where

theorem lists (h : List.Forall₂ (Option.Rel (Sound names)) sym inputs)
    (hts : Where.infer sym = .ok ts) (ho : List.Forall₂ (Expects names) ts outputs) :
    PreparesLists names ts (Where.prepare inputs outputs) := by
  obtain ⟨sc, hsc, hts⟩ := bind_eq_ok.mp hts
  obtain ⟨sx, hsx, hts⟩ := bind_eq_ok.mp hts
  obtain ⟨sy, hsy, hts⟩ := bind_eq_ok.mp hts
  obtain ⟨_, _, hts⟩ := bind_eq_ok.mp hts
  obtain ⟨_, _, hts⟩ := bind_eq_ok.mp hts
  obtain ⟨output, houtput, hts⟩ := bind_eq_ok.mp hts
  obtain ⟨shape, _, houtput⟩ := bind_eq_ok.mp houtput
  cases houtput
  cases hts
  refine always_bind fun c hc => always_bind fun x hx => always_bind fun y hy => ?_
  refine lists_single ho fun out hout => ?_
  have hcsound := Sound.demand h hsc hc
  cases c with
  | float _ => exact always_ok lists_none
  | int c =>
    refine always_ok (lists_sameType (Sound.demand h hsx hx) fun x out' hx _ hshape => ?_)
    refine always_bind fun y hy' => always_bind fun cs hcs => always_bind fun xs hxs => ?_
    refine always_bind fun ys hys => always_ok ?_
    refine lists_fillFrom rfl hout hshape ?_ fun hrank i z hz => ?_
    · simp [Tensor.length_broadcastElements hcs, Tensor.length_broadcastElements hxs,
        Tensor.length_broadcastElements hys]
    · rw [List.getElem?_map, Option.map_eq_some_iff] at hz
      obtain ⟨⟨n, a, b⟩, hentry, rfl⟩ := hz
      obtain ⟨hn, hab⟩ := List.getElem?_zip_eq_some.mp hentry
      obtain ⟨ha, hb⟩ := List.getElem?_zip_eq_some.mp hab
      exact onElements_covers (hcsound.reads.readAt hcs hrank hn) (hx.readAt hxs hrank ha)
        (((Sound.demand h hsy hy).of_typed hy').readAt hys hrank hb)

end Where

end

end TensorGraph
