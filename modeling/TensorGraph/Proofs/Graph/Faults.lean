import Mathlib
import TensorGraph.Graph.Build
import TensorGraph.Proofs.Faults.Parameters
import TensorGraph.Proofs.Faults.Windows
import TensorGraph.Proofs.Graph.Facts

/-! Inference over a graph does not fault as long as what its rules compute with is moderate. It
does where a slice has a long step. -/

namespace TensorGraph

open Outcome

/-- What a rule computes with beyond the shapes of its inputs is moderate: the sizes among its
attributes, and the integers that it reads from its inputs. -/
def Operator.Moderate (op : Operator) (sym : SymInputs) : Prop :=
  match op with
  | conv op => op.Moderate
  | convTranspose op => op.padding.Moderate
  | depthToSpace op => op.block ≤ factorLimit
  | pool op => op.Moderate
  | range => sym.Within 0 moderateLimit ∧ sym.Within 1 moderateLimit
  | slice => sym.Within 4 moderateLimit
  | spaceToDepth op => op.block ≤ factorLimit
  | split op => op.Moderate sym
  | _ => True

theorem Operator.noFault_infer {op : Operator} {sym : SymInputs} (hop : op.Moderate sym)
    (h : sym.Moderate) : (op.infer sym).NoFault := by
  cases op with
  | argReduce op => exact op.noFault_infer h
  | batchNormalization _ => exact BatchNormalization.noFault_infer sym
  | binary f => exact f.noFault_infer sym
  | cast wanted => exact Cast.noFault_infer wanted sym
  | castLike => exact Cast.noFault_inferLike sym
  | clip => exact Clip.noFault_infer sym
  | compress op => exact op.noFault_infer h
  | concat op => exact op.noFault_infer h
  | constantOfShape op => exact op.noFault_infer h
  | conv op => exact Conv.noFault_infer hop h
  | convTranspose op => exact ConvTranspose.noFault_infer hop sym
  | cumSum _ => exact CumSum.noFault_infer h
  | depthToSpace op => exact DepthToSpace.noFault_infer hop sym
  | expand => exact Expand.noFault_infer h
  | eyeLike op => exact op.noFault_infer sym
  | flatten op => exact op.noFault_infer h
  | gather op => exact op.noFault_infer h
  | gatherElements op => exact op.noFault_infer h
  | gatherND op => exact op.noFault_infer h
  | gemm op => exact op.noFault_infer sym
  | globalPool _ => exact GlobalPool.noFault_infer sym
  | identity => exact Reshaping.noFault_inferIdentity sym
  | instanceNormalization _ => exact InstanceNormalization.noFault_infer sym
  | layerNormalization op => exact op.noFault_infer h
  | lrn op => exact op.noFault_infer sym
  | matMul => exact MatMul.noFault_infer sym
  | nonZero => exact NonZero.noFault_infer sym
  | oneHot op => exact op.noFault_infer h
  | pad op => exact op.noFault_infer h
  | pool op => exact Pool.noFault_infer hop h
  | random op => exact op.noFault_infer sym
  | range => exact Range.noFault_infer hop.1 hop.2
  | reduce op => exact op.noFault_infer h
  | reshape op => exact op.noFault_infer h
  | resize _ => exact Resize.noFault_infer h
  | scatterElements op => exact op.noFault_infer h
  | scatterND _ => exact ScatterND.noFault_infer sym
  | shapeOf op => exact op.noFault_infer sym
  | sizeOf => exact SizeOf.noFault_infer sym
  | slice => exact Slice.noFault_infer h hop
  | softmax op => exact op.noFault_infer h
  | spaceToDepth op => exact SpaceToDepth.noFault_infer hop sym
  | split op => exact Split.noFault_infer hop h
  | squeeze => exact Squeeze.noFault_infer h
  | tile => exact Tile.noFault_infer h
  | topK op => exact op.noFault_infer h
  | transpose op => exact op.noFault_infer sym
  | trilu _ => exact Trilu.noFault_infer sym
  | unary f => exact f.noFault_infer sym
  | unsqueeze => exact Unsqueeze.noFault_infer h
  | variadic f => exact f.noFault_infer sym
  | select => exact Where.noFault_infer sym

namespace Facts

theorem noFault_layerInputs (facts : Facts) (layer : Layer) :
    (facts.layerInputs layer).NoFault := by
  refine noFault_mapM fun entry _ => ?_
  obtain ⟨name, i⟩ := entry
  cases name with
  | none => exact noFault_ok _
  | some name => exact noFault_bind (noFault_orRefuse _ _) fun _ _ => noFault_ok _

theorem noFault_inferLayer {facts : Facts} {layer : Layer}
    (h : ∀ sym, facts.layerInputs layer = .ok sym → sym.Moderate ∧ layer.op.Moderate sym) :
    (facts.inferLayer layer).NoFault := by
  refine noFault_bind (noFault_mapError _ ?_) fun _ _ => noFault_ok _
  refine noFault_bind (facts.noFault_layerInputs layer) fun sym hsym => ?_
  obtain ⟨hmoderate, hop⟩ := h sym hsym
  refine noFault_bind (noFault_refuseIf _ _) fun _ _ => ?_
  refine noFault_bind (Operator.noFault_infer hop hmoderate) fun _ _ => ?_
  exact noFault_bind (noFault_refuseIf _ _) fun _ _ => noFault_ok _

end Facts

namespace Graph

/-- Whatever inference knows when it comes to a layer, what the rule of the layer computes with is
moderate. -/
def Moderate (g : Graph) : Prop :=
  ∀ k layer facts sym, g.layers[k]? = some layer → g.factsBefore k = .ok facts →
    facts.layerInputs layer = .ok sym → sym.Moderate ∧ layer.op.Moderate sym

variable {g : Graph} {k : Nat}

theorem Moderate.noFault_factsBefore (h : g.Moderate) (hk : k ≤ g.layers.length) :
    (g.factsBefore k).NoFault := by
  induction k with
  | zero => exact noFault_ok _
  | succ k ih =>
    have hlayer := List.getElem?_eq_getElem (Nat.lt_of_succ_le hk)
    rw [factsBefore_succ hlayer]
    exact noFault_bind (ih (Nat.le_of_succ_le hk)) fun facts hfacts =>
      Facts.noFault_inferLayer fun sym => h k _ facts sym hlayer hfacts

/-- Inference ends with what is known of all values, or with an error. -/
theorem infer_ne_fault (h : g.Moderate) : g.infer [] ≠ .fault := by
  rw [infer_nil]
  exact h.noFault_factsBefore le_rfl

def sampleDraft (step : Int64) : Draft where
  inputs := [⟨"x", .float, some [.fixed 5]⟩]
  constants := [⟨"starts", .int (.ofList [0])⟩, ⟨"ends", .int (.ofList [5])⟩,
    ⟨"axes", .int (.ofList [0])⟩, ⟨"steps", .int (.ofList [step])⟩]
  layers := [⟨.slice, [some "x", some "starts", some "ends", some "axes", some "steps"], ["y"]⟩]
  outputs := ["y"]

def sampleGraph (step : Int64) : Graph where
  inputs := (sampleDraft step).inputs
  constants := (sampleDraft step).constants
  layers := (sampleDraft step).layers
  outputs := [⟨"y", .layer 0 0⟩]
  sources :=
    ⟨[("x", .input 0), ("starts", .constant 0), ("ends", .constant 1), ("axes", .constant 2),
    ("steps", .constant 3), ("y", .layer 0 0)]⟩
  releases := [["x"]]

theorem infer_ne_fault_sample : (sampleDraft 2).build = .ok (sampleGraph 2) ∧
    (sampleGraph 2).infer [] ≠ .fault := by
  refine ⟨by cbv, infer_ne_fault fun k layer facts sym hlayer hfacts hsym => ?_⟩
  cases k with
  | zero =>
    cases hlayer
    cases hfacts
    cases hsym
    exact ⟨by decide, show SymInputs.Within _ 4 moderateLimit by decide⟩
  | succ k => cases hlayer

/-- A step leads past the end, but the sum of the step and the size overflows. -/
theorem infer_fault_sample : (sampleDraft 9223372036854775807).build =
      .ok (sampleGraph 9223372036854775807) ∧
    (sampleGraph 9223372036854775807).infer [] = .fault :=
  ⟨by cbv, by cbv⟩

end Graph

end TensorGraph
