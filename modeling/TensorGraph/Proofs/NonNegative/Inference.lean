import TensorGraph.Proofs.NonNegative.Rearranging
import TensorGraph.Proofs.NonNegative.Windows
import TensorGraph.Proofs.Tracking.Inference

/-! The rule of every operator tells only of shapes without negative sizes, if its inputs have
such and the numbers that it makes sizes of without asking are sizes, and so does inference. Where
they are not, a negative element becomes a size. -/

namespace TensorGraph

section

open Outcome SymShape SymDim

variable {sym : SymInputs}

theorem ConstantOfShape.tellsNonNegative (op : ConstantOfShape) (sym : SymInputs) :
    TellsNonNegative (op.infer sym) := by
  refine always_bind fun _ _ => always_bind fun _ _ => always_bind fun s _ => ?_
  refine always_bind fun _ hsizes => tellsNonNegative_single ?_
  rw [refuseIf_eq_ok, List.any_eq_true] at hsizes
  intro d hd
  exact nonNegative_of_any (by decide) fun hn => hsizes ⟨d, hd, hn⟩

theorem Sampling.tellsNonNegative (op : Sampling) (h : sym.NonNegative)
    (hsizes : ∀ shape, op.shape? = some shape → ∀ n ∈ shape, n < intLimit) :
    TellsNonNegative (op.infer sym) := by
  unfold infer
  split
  · next shape hshape => exact tellsNonNegative_single (nonNegative_ofShape (hsizes shape hshape))
  · refine always_bind fun x hx => always_bind fun _ _ => ?_
    have hx := h.demand hx
    exact tellsNonNegative_single hx

namespace Range

def Countable (sym : SymInputs) : Prop :=
  ∀ start limit delta a b d n, Inputs.find? sym 0 = some start → Inputs.find? sym 1 = some limit →
    Inputs.find? sym 2 = some delta → start.single? = some (.float a) →
    limit.single? = some (.float b) → delta.single? = some (.float d) →
    floatLength (.ofBits a) (.ofBits b) (.ofBits d) = .ok n → n < intLimit

theorem nonNegative_sequence {n : Nat} (h : n < intLimit) (dtype : DataType)
    (elements : Nat → List SymElement) : (sequence dtype n elements).shape.NonNegative := by
  intro d hd
  rw [List.mem_singleton.mp hd]
  exact nonNegative_ofSize h

theorem tellsNonNegative (hcount : Countable sym) : TellsNonNegative (Range.infer sym) := by
  rw [infer_eq]
  refine always_bind fun start hstart => always_bind fun limit hlimit => ?_
  refine always_bind fun delta hdelta => always_bind fun _ _ => always_bind fun _ _ => ?_
  refine always_bind fun _ _ => always_bind fun _ _ => ?_
  rw [SymInputs.demand, orRefuse_eq_ok] at hstart hlimit hdelta
  unfold result
  split
  · refine always_bind fun n hn => ?_
    exact tellsNonNegative_single (nonNegative_sequence (intLength_lt hn) _ _)
  · next a b d ha hb hd =>
    refine always_bind fun n hn => ?_
    have hsize := hcount start limit delta a b d n hstart hlimit hdelta ha hb hd hn
    exact tellsNonNegative_single (nonNegative_sequence hsize _ _)
  · exact always_bind fun _ _ => tellsNonNegative_single (nonNegative_ofRank 1)

end Range

theorem Expand.tellsNonNegative (h : sym.NonNegative)
    (hsizes : ∀ t, Inputs.find? sym 1 = some t → t.ListsSizes) :
    TellsNonNegative (Expand.infer sym) := by
  refine always_bind fun x hx => always_bind fun t ht => always_bind fun _ _ => ?_
  refine always_bind fun target htarget => always_bind fun s hs => ?_
  have hlisted := (hsizes t (orRefuse_eq_ok.mp ht)).toSizes htarget
  have hs : s.NonNegative := SymShape.nonNegative_broadcast (by simp [h.demand hx, hlisted]) hs
  exact tellsNonNegative_single (by rwa [SymTensor.shape_fillFrom])

theorem ShapeOf.tellsNonNegative (op : ShapeOf) (sym : SymInputs)
    (hroom : ∀ t ∈ Inputs.given sym, t.shape.dims.length < intLimit) :
    TellsNonNegative (op.infer sym) := by
  refine always_bind fun x hx => ?_
  have hrank := hroom x (SymInputs.mem_given_of_demand hx)
  cases hs : x.shape with
  | unknown => exact tellsNonNegative_single (nonNegative_ofRank 1)
  | ranked ds =>
    simp only [hs, SymShape.dims, SymShape.dims?, Option.getD_some] at hrank
    refine tellsNonNegative_single (nonNegative_ofShape fun n hn => ?_)
    rw [List.mem_singleton.mp hn, List.length_map, List.length_drop, List.length_take]
    omega

theorem SizeOf.tellsNonNegative (sym : SymInputs) : TellsNonNegative (SizeOf.infer sym) :=
  always_bind fun _ _ => tellsNonNegative_single fun _ hd => by cases hd

theorem NonZero.tellsNonNegative (sym : SymInputs)
    (hroom : ∀ t ∈ Inputs.given sym, t.shape.dims.length < intLimit) :
    TellsNonNegative (NonZero.infer sym) := by
  refine always_bind fun x hx => tellsNonNegative_single ?_
  have hrank := hroom x (SymInputs.mem_given_of_demand hx)
  have hdim : (x.rank?.elim .unknown SymDim.ofSize).NonNegative := by
    cases hs : x.shape with
    | unknown =>
      simp only [SymTensor.rank?, hs, SymShape.rank?, SymShape.dims?]
      exact SymDim.nonNegative_unknown
    | ranked ds =>
      simp only [hs, SymShape.dims, SymShape.dims?, Option.getD_some] at hrank
      simp only [SymTensor.rank?, hs, SymShape.rank?, SymShape.dims?]
      exact nonNegative_ofSize hrank
  intro d hd
  rcases List.mem_pair.mp hd with rfl | rfl
  · exact hdim
  · exact SymDim.nonNegative_unknown

namespace OneHot

/-- A depth that is read from an integer is asked to be positive; one that is read from a number is
not. -/
theorem nonNegative_depthDim {depth : SymTensor} {d : SymDim}
    (hunsigned : ∀ bits, depth.single? = some (.float bits) →
      Binary32.isNegative (.ofBits bits) = false)
    (h : depthDim depth = .ok d) : d.NonNegative := by
  unfold depthDim at h
  split at h
  · next n _ =>
    split_ifs at h with hpositive
    cases h
    rw [Int64.lt_iff_toInt_lt] at hpositive
    have hone : (1 : Int64).toInt = 1 := rfl
    rw [nonNegative_size]
    omega
  · next bits hbits =>
    cases h
    exact nonNegative_size.mpr (Binary32.nonneg_toInt (hunsigned bits hbits))
  · next e hint _ _ =>
    cases h
    cases e with
    | int n => exact absurd rfl (hint n)
    | param name => exact nonNegative_param name
    | unknown | float _ => exact SymDim.nonNegative_unknown
  · cases h
    exact SymDim.nonNegative_unknown

theorem tellsNonNegative (op : OneHot) (h : sym.NonNegative)
    (hunsigned : ∀ t bits, Inputs.find? sym 1 = some t → t.single? = some (.float bits) →
      Binary32.isNegative (.ofBits bits) = false) : TellsNonNegative (op.infer sym) := by
  refine always_bind fun indices hindices => always_bind fun t ht => always_bind fun _ _ => ?_
  refine always_bind fun _ _ => always_bind fun _ _ => always_bind fun _ _ => ?_
  refine always_bind fun d hd => ?_
  have hdepth : d.NonNegative :=
    nonNegative_depthDim (fun bits => hunsigned t bits (orRefuse_eq_ok.mp ht)) hd
  have hdims := h.demand hindices
  cases hs : indices.shape with
  | unknown => exact tellsNonNegative_unranked _
  | ranked ds =>
    rw [hs] at hdims
    refine always_bind fun dim _ => tellsNonNegative_single fun e he => ?_
    rcases List.mem_append.mp he with he | he
    · exact hdims e (List.mem_of_mem_take he)
    · rcases List.mem_cons.mp he with rfl | he
      · exact hdepth
      · exact hdims e (List.mem_of_mem_drop he)

end OneHot

/-- Whether the numbers that an operator makes sizes of without asking are sizes. All other
operators refuse negative sizes, or make sizes only of sizes. -/
def Operator.TakesSizes (op : Operator) (sym : SymInputs) : Prop :=
  match op with
  | .convTranspose op => op.groups < intLimit
  | .expand => ∀ t, Inputs.find? sym 1 = some t → t.ListsSizes
  | .oneHot _ => ∀ t bits, Inputs.find? sym 1 = some t → t.single? = some (.float bits) →
      Binary32.isNegative (.ofBits bits) = false
  | .random op => ∀ shape, op.shape? = some shape → ∀ n ∈ shape, n < intLimit
  | .range => Range.Countable sym
  | .resize _ => (∀ t, Inputs.find? sym 2 = some t → t.ListsUnsigned) ∧
      ∀ t, Inputs.find? sym 3 = some t → t.ListsSizes
  | .spaceToDepth op => op.block < intLimit
  | _ => True

/-- The rule of an operator tells only of shapes without negative sizes if its inputs have such. -/
theorem Operator.tellsNonNegative (op : Operator) (h : sym.NonNegative) (hsizes : op.TakesSizes sym)
    (hroom : ∀ t ∈ Inputs.given sym, t.shape.dims.length < intLimit) :
    TellsNonNegative (op.infer sym) := by
  cases op with
  | argReduce op => exact op.tellsNonNegative h
  | batchNormalization _ => exact BatchNormalization.tellsNonNegative h
  | binary f => exact f.tellsNonNegative h
  | cast wanted => exact Cast.tellsNonNegative wanted h
  | castLike => exact Cast.tellsNonNegative_like h
  | clip => exact Clip.tellsNonNegative h
  | compress op => exact op.tellsNonNegative h
  | concat op => exact op.tellsNonNegative h
  | constantOfShape op => exact op.tellsNonNegative sym
  | conv op => exact op.tellsNonNegative h
  | convTranspose op => exact op.tellsNonNegative h hsizes
  | cumSum _ => exact CumSum.tellsNonNegative h
  | depthToSpace op => exact op.tellsNonNegative h
  | expand => exact Expand.tellsNonNegative h hsizes
  | eyeLike op => exact op.tellsNonNegative h
  | flatten op => exact op.tellsNonNegative h
  | gather op => exact op.tellsNonNegative h
  | gatherElements op => exact op.tellsNonNegative h
  | gatherND op => exact op.tellsNonNegative h
  | gemm op => exact op.tellsNonNegative h
  | globalPool _ => exact GlobalPool.tellsNonNegative h
  | identity => exact Reshaping.tellsNonNegative h
  | instanceNormalization _ => exact InstanceNormalization.tellsNonNegative h
  | layerNormalization op => exact op.tellsNonNegative h
  | lrn op => exact op.tellsNonNegative h
  | matMul => exact MatMul.tellsNonNegative h
  | nonZero => exact NonZero.tellsNonNegative sym hroom
  | oneHot op => exact op.tellsNonNegative h hsizes
  | pad op => exact op.tellsNonNegative sym
  | pool op => exact op.tellsNonNegative h
  | random op => exact op.tellsNonNegative h hsizes
  | range => exact Range.tellsNonNegative hsizes
  | reduce op => exact op.tellsNonNegative h
  | reshape op => exact op.tellsNonNegative h
  | resize _ => exact Resize.tellsNonNegative h hsizes.1 hsizes.2
  | scatterElements op => exact op.tellsNonNegative h
  | scatterND _ => exact ScatterND.tellsNonNegative h
  | shapeOf op => exact op.tellsNonNegative sym hroom
  | sizeOf => exact SizeOf.tellsNonNegative sym
  | slice => exact Slice.tellsNonNegative h
  | softmax op => exact op.tellsNonNegative h
  | spaceToDepth op => exact op.tellsNonNegative h hsizes
  | split op => exact op.tellsNonNegative h
  | squeeze => exact Squeeze.tellsNonNegative h
  | tile => exact Tile.tellsNonNegative h
  | topK op => exact op.tellsNonNegative h
  | transpose op => exact op.tellsNonNegative h
  | trilu _ => exact Trilu.tellsNonNegative h
  | unary f => exact f.tellsNonNegative h
  | unsqueeze => exact Unsqueeze.tellsNonNegative h
  | variadic f => exact f.tellsNonNegative h
  | select => exact Where.tellsNonNegative h

end

section

open Outcome SymShape

namespace Graph

/-- Whatever inference knows when it comes to a layer, the numbers that the rule of the layer makes
sizes of without asking are sizes. -/
def TakesSizes (g : Graph) : Prop :=
  ∀ k layer facts sym, g.layers[k]? = some layer → g.factsBefore k = .ok facts →
    facts.layerInputs layer = .ok sym → layer.op.TakesSizes sym

/-- Whether the sizes that inputs declare, and those of constants, are not read as negative. -/
structure DeclaresSizes (g : Graph) : Prop where
  inputs : ∀ input ∈ g.inputs, ∀ ds, input.shape = some ds → ∀ n, InputDim.fixed n ∈ ds →
    n < intLimit
  constants : ∀ c ∈ g.constants, ∀ n ∈ c.value.shape, n < intLimit

variable {g : Graph}

theorem DeclaresSizes.ofGraph (h : g.DeclaresSizes) {name : String} {t : SymTensor}
    (ht : (Facts.ofGraph g).find? name = some t) : t.shape.NonNegative := by
  rcases Facts.find?_ofGraph ht with ⟨input, hinput, rfl⟩ | ⟨c, hc, rfl⟩
  · change input.symShape.NonNegative
    unfold GraphInput.symShape
    split
    · next ds hds =>
      intro d hd
      obtain ⟨e, he, rfl⟩ := List.mem_map.mp hd
      cases e with
      | fixed n => exact SymDim.nonNegative_ofSize (h.inputs input hinput ds hds n he)
      | symbolic name => exact SymDim.nonNegative_param name
      | unknown => exact SymDim.nonNegative_unknown
    · exact SymShape.nonNegative_unknown
  · have hsizes := nonNegative_ofShape (h.constants c hc)
    cases hv : c.value <;> rw [hv] at hsizes <;> exact hsizes

end Graph

namespace Inference

variable {d : Draft} {g : Graph} {s : Inference} {name : String} {t : SymTensor} {n : Int64}

theorem Reached.nonNegative (hbuild : d.build = .ok g) (h : Reached g s)
    (hdeclared : g.DeclaresSizes) (hsizes : g.TakesSizes) (hroom : s.facts.FitMemory) :
    ∀ name t, s.facts.find? name = some t → t.shape.NonNegative := by
  have hlimit := intLimit_eq
  induction h with
  | start => exact fun name t => hdeclared.ofGraph
  | step h hstep ih =>
    have hbefore := fun name t ht => hroom name t (h.find?_step hbuild hstep ht)
    obtain ⟨hgraph, -, hfacts⟩ := h.factsBefore
    refine step_keeps hstep (ih hbefore) fun layer sym ts hlayer hsym hgiven hts => ?_
    rw [hgraph] at hlayer
    have hop : layer.op.TakesSizes sym := hsizes _ layer _ sym hlayer hfacts hsym
    have hranks : ∀ t ∈ Inputs.given sym, t.shape.dims.length < intLimit := by
      intro u hu
      obtain ⟨name, hname⟩ := Facts.given_layerInputs hsym hu
      have hbytes := hbefore name u hname
      unfold SymDim.bytes byteLimit at hbytes
      omega
    have htold := layer.op.tellsNonNegative hgiven hop hranks ts hts
    intro t ht
    unfold Operator.known at ht
    split_ifs at ht
    · exact htold t ht
    · obtain ⟨u, hu, rfl⟩ := List.mem_map.mp ht
      exact htold u hu

/-- After any number of steps no size of what is known is negative. -/
theorem Reached.size_nonneg (hbuild : d.build = .ok g) (h : Reached g s)
    (hdeclared : g.DeclaresSizes) (hsizes : g.TakesSizes) (hroom : s.facts.FitMemory)
    (ht : s.facts.find? name = some t)
    (hn : .size n ∈ t.shape.dims) : 0 ≤ n := by
  have hnonneg := h.nonNegative hbuild hdeclared hsizes hroom name t ht
  exact Int64.le_iff_toInt_le.mpr (hnonneg _ hn n rfl)

def repeatsDraft (count : Int64) : Draft where
  inputs := [⟨"x", .float, some [.fixed 1]⟩]
  constants := [⟨"target", .int (.ofList [count])⟩]
  layers := [⟨.expand, [some "x", some "target"], ["y"]⟩]
  outputs := ["y"]

def repeatsGraph (count : Int64) : Graph where
  inputs := (repeatsDraft count).inputs
  constants := (repeatsDraft count).constants
  layers := (repeatsDraft count).layers
  outputs := [⟨"y", .layer 0 0⟩]
  sources := ⟨[("x", .input 0), ("target", .constant 0), ("y", .layer 0 0)]⟩
  releases := [["x"]]

/-- What is known in the end of `repeatsGraph`. -/
def repeatsFacts (count : Int64) : Facts :=
  ⟨[("x", .ofShape .float (.ranked [.size 1])), ("target", .ofInts [count]),
    ("y", .ofShape .float (.ranked [.size count]))]⟩

theorem declaresSizes_repeats (count : Int64) : (repeatsGraph count).DeclaresSizes := by
  constructor
  · intro input hinput ds hds n hn
    cases List.mem_singleton.mp hinput
    cases hds
    cases List.mem_singleton.mp hn
    decide
  · intro c hc n hn
    cases List.mem_singleton.mp hc
    rw [List.mem_singleton.mp hn]
    exact Nat.one_lt_two_pow (by decide : 63 ≠ 0)

theorem Reached.size_nonneg_repeats : (repeatsDraft 3).build = .ok (repeatsGraph 3) ∧
    Reached (repeatsGraph 3) ⟨repeatsGraph 3, repeatsFacts 3, 1⟩ ∧ (repeatsGraph 3).DeclaresSizes ∧
    (repeatsGraph 3).TakesSizes ∧ (repeatsFacts 3).FitMemory ∧ (0 : Int64) ≤ 3 := by
  have hbuild : (repeatsDraft 3).build = .ok (repeatsGraph 3) := by cbv
  have hreached : Reached (repeatsGraph 3) ⟨repeatsGraph 3, repeatsFacts 3, 1⟩ :=
    reached_of_factsBefore (by decide) (by cbv)
  have hdeclared := declaresSizes_repeats 3
  have hsizes : (repeatsGraph 3).TakesSizes := by
    intro k layer facts sym hlayer hfacts hsym
    cases k with
    | zero =>
      cases hlayer
      cases hfacts
      cases hsym
      intro t ht es hes n hn
      cases ht
      cases hes
      cases List.mem_singleton.mp hn
      decide
    | succ k => cases hlayer
  have hroom : (repeatsFacts 3).FitMemory := by
    have hall : ∀ e ∈ (repeatsFacts 3).entries,
        e.2.shape.dims.length * SymDim.bytes < byteLimit := by decide
    exact fun name t ht => hall (name, t) (NameTable.mem_of_find? ht)
  have hy : (repeatsFacts 3).find? "y" = some (.ofShape .float (.ranked [.size 3])) := rfl
  exact ⟨hbuild, hreached, hdeclared, hsizes, hroom,
    hreached.size_nonneg hbuild hdeclared hsizes hroom hy List.mem_cons_self⟩

/-- An element that is no size is published as one. -/
theorem Reached.not_size_nonneg_repeats : (repeatsDraft (-1)).build = .ok (repeatsGraph (-1)) ∧
    Reached (repeatsGraph (-1)) ⟨repeatsGraph (-1), repeatsFacts (-1), 1⟩ ∧
    (repeatsGraph (-1)).DeclaresSizes ∧ (repeatsFacts (-1)).find? "y" =
      some (.ofShape .float (.ranked [.size (-1)])) ∧ ¬(0 : Int64) ≤ -1 := by
  have hbuild : (repeatsDraft (-1)).build = .ok (repeatsGraph (-1)) := by cbv
  have hreached : Reached (repeatsGraph (-1)) ⟨repeatsGraph (-1), repeatsFacts (-1), 1⟩ :=
    reached_of_factsBefore (by decide) (by cbv)
  exact ⟨hbuild, hreached, declaresSizes_repeats (-1), rfl, by decide⟩

end Inference

end

end TensorGraph
