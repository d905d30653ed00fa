import TensorGraph.Proofs.Graph.Facts
import TensorGraph.Proofs.Tracking.Faithful

/-! The rule of every operator tells only what is faithful, if what it is given is. Elements are
computed by their functions or picked from inputs; those that operators without known values list
are cleared. -/

namespace TensorGraph

open Outcome SymTensor SymElement

variable {sym : SymInputs}

abbrev TellsFaithful (x : Outcome RuleError (List SymTensor)) : Prop :=
  Always (fun ts => ∀ t ∈ ts, t.Faithful) x

theorem tellsFaithful_single {t : SymTensor} (h : t.Faithful) : TellsFaithful (.ok [t]) :=
  always_ok fun _ ht => List.mem_singleton.mp ht ▸ h

theorem tellsFaithful_ofShape (dtype : DataType) (s : SymShape) :
    TellsFaithful (.ok [.ofShape dtype s]) :=
  tellsFaithful_single (faithful_ofShape dtype s)

theorem tellsFaithful_unranked (dtype : DataType) : TellsFaithful (.ok [.unranked dtype]) :=
  tellsFaithful_single (faithful_unranked dtype)

def SymInputs.Faithful (sym : SymInputs) : Prop := ∀ t ∈ Inputs.given sym, t.Faithful

theorem SymInputs.Faithful.demand (h : sym.Faithful) {i : Nat} {t : SymTensor}
    (ht : sym.demand i = .ok t) : t.Faithful :=
  h t (mem_given_of_demand ht)

theorem UnaryFn.faithful_onElement (f : UnaryFn) (e : SymElement) : (f.onElement e).Faithful := by
  cases e with
  | float bits => exact faithful_ofFloat _
  | unknown | param _ | int _ => trivial

theorem UnaryFn.tellsFaithful (f : UnaryFn) (h : sym.Faithful) : TellsFaithful (f.infer sym) := by
  refine always_bind fun x hx => tellsFaithful_single ?_
  split_ifs
  · exact (h.demand hx).mapElements fun e _ => f.faithful_onElement e
  · exact faithful_ofShape _ _

theorem BinaryFn.faithful_onElements (f : BinaryFn) {a b : SymElement} (ha : a.Faithful)
    (hb : b.Faithful) : (f.onElements a b).Faithful := by
  unfold onElements
  split
  · exact ha.add hb
  · exact ha.sub
  · exact ha.mul hb
  · exact ha.div
  · next m n _ _ _ _ => cases f.onInt? m n <;> trivial
  · split_ifs
    · trivial
    · exact faithful_onBits _ _ _
  · split_ifs <;> trivial
  · trivial

theorem BinaryFn.tellsFaithful (f : BinaryFn) (h : sym.Faithful) : TellsFaithful (f.infer sym) := by
  refine always_bind fun a ha => always_bind fun b hb => always_bind fun _ _ => ?_
  refine always_bind fun y hy => tellsFaithful_single ?_
  obtain ⟨s, -, hy⟩ := bind_eq_ok.mp hy
  cases hy
  have hfresh := faithful_ofShape (f.resultType a.dtype) s
  split_ifs
  · exact hfresh.fillFrom fun i =>
      f.faithful_onElements ((h.demand ha).readAt i) ((h.demand hb).readAt i)
  · exact hfresh

theorem VariadicFn.faithful_onElements (f : VariadicFn) {es : List SymElement}
    (h : ∀ e ∈ es, e.Faithful) : (f.onElements es).Faithful := by
  cases es with
  | nil => trivial
  | cons e es =>
    rw [List.forall_mem_cons] at h
    obtain ⟨he, hes⟩ := h
    show (es.foldl f.combine.onElements e).Faithful
    induction es generalizing e with
    | nil => exact he
    | cons a es ih =>
      rw [List.forall_mem_cons] at hes
      exact ih _ (f.combine.faithful_onElements he hes.1) hes.2

theorem VariadicFn.tellsFaithful (f : VariadicFn) (h : sym.Faithful) :
    TellsFaithful (f.infer sym) := by
  refine always_bind fun first _ => always_bind fun _ _ => always_bind fun y hy => ?_
  refine tellsFaithful_single ?_
  obtain ⟨s, -, hy⟩ := bind_eq_ok.mp hy
  cases hy
  have hfresh := faithful_ofShape first.dtype s
  split_ifs
  · refine hfresh.fillFrom fun i => f.faithful_onElements fun e he => ?_
    obtain ⟨t, ht, rfl⟩ := List.mem_map.mp he
    exact (h t ht).readAt i
  · exact hfresh

theorem Where.tellsFaithful (h : sym.Faithful) : TellsFaithful (Where.infer sym) := by
  refine always_bind fun c _ => always_bind fun a ha => always_bind fun b hb => ?_
  refine always_bind fun _ _ => always_bind fun _ _ => always_bind fun y hy => ?_
  obtain ⟨s, -, hy⟩ := bind_eq_ok.mp hy
  cases hy
  refine tellsFaithful_single ((faithful_ofShape _ s).fillFrom fun i => ?_)
  have hx := (h.demand ha).readAt i
  have hy := (h.demand hb).readAt i
  unfold onElements
  split
  · split_ifs
    · exact hy
    · exact hx
  · exact hx.merge

theorem Cast.faithful_onElement (wanted : DataType) {e : SymElement} (he : e.Faithful) :
    (onElement wanted e).Faithful := by
  cases e <;> cases wanted <;> first | exact he | exact faithful_ofFloat _ | trivial

theorem Cast.tellsFaithful (wanted : DataType) (h : sym.Faithful) :
    TellsFaithful (Cast.infer wanted sym) :=
  always_bind fun _ hx => tellsFaithful_single ((h.demand hx).mapElements fun _ he =>
    faithful_onElement wanted he)

theorem Cast.tellsFaithful_like (h : sym.Faithful) : TellsFaithful (Cast.inferLike sym) :=
  always_bind fun _ hx => always_bind fun _ _ => tellsFaithful_single
    ((h.demand hx).mapElements fun _ he => faithful_onElement _ he)

theorem ConstantOfShape.tellsFaithful (op : ConstantOfShape) (sym : SymInputs) :
    TellsFaithful (op.infer sym) := by
  refine always_bind fun _ _ => always_bind fun _ _ => always_bind fun s _ => ?_
  refine always_bind fun _ _ => tellsFaithful_single ?_
  refine (faithful_ofShape _ s).mapElements fun _ _ => ?_
  cases op.value with
  | float x => exact faithful_ofFloat x
  | int n => trivial

namespace Range

theorem faithful_intElements (delta : Int64) (count : Nat) (start : Option Int64) :
    ∀ e ∈ intElements delta count start, e.Faithful := by
  induction count generalizing start with
  | zero => cases start <;> simp [intElements]
  | succ count ih =>
    cases start <;> simp only [intElements, List.forall_mem_cons]
    · exact ⟨trivial, ih _⟩
    · exact ⟨trivial, ih _⟩

theorem faithful_floatElements (delta : Float32) (count : Nat) (start : Float32) :
    ∀ e ∈ floatElements delta count start, e.Faithful := by
  induction count generalizing start with
  | zero => simp [floatElements]
  | succ count ih =>
    simp only [floatElements, List.forall_mem_cons]
    exact ⟨faithful_ofFloat start, ih _⟩

theorem tellsFaithful (sym : SymInputs) : TellsFaithful (Range.infer sym) := by
  rw [infer_eq]
  refine always_bind fun _ _ => always_bind fun _ _ => always_bind fun _ _ => ?_
  refine always_bind fun _ _ => always_bind fun _ _ => always_bind fun _ _ => ?_
  refine always_bind fun _ _ => ?_
  unfold result
  split
  · exact always_bind fun length _ => tellsFaithful_single
      ((faithful_ofShape _ _).map fun es _ => faithful_intElements _ es.length _)
  · exact always_bind fun length _ => tellsFaithful_single
      ((faithful_ofShape _ _).map fun es _ => faithful_floatElements _ es.length _)
  · exact always_bind fun _ _ => tellsFaithful_ofShape _ _

end Range

theorem Reduce.tellsFaithful (op : Reduce) (h : sym.Faithful) : TellsFaithful (op.infer sym) := by
  refine always_bind fun x hx => ?_
  dsimp only
  generalize op.selectAxes ((Inputs.find? sym 1).map (·.ints?)) = axes
  split_ifs
  · exact tellsFaithful_single (h.demand hx)
  · refine always_bind fun s _ => ?_
    cases x.ints? with
    | none => exact tellsFaithful_ofShape _ _
    | some ns => exact tellsFaithful_single ((faithful_ofShape _ s).set 0 trivial)
  · exact always_bind fun _ _ => tellsFaithful_ofShape _ _

theorem ShapeOf.tellsFaithful (op : ShapeOf) (sym : SymInputs) : TellsFaithful (op.infer sym) := by
  refine always_bind fun x _ => ?_
  cases x.shape with
  | unknown => exact tellsFaithful_ofShape _ _
  | ranked ds =>
    refine tellsFaithful_single (faithful_vector fun e he => ?_)
    obtain ⟨d, -, rfl⟩ := List.mem_map.mp he
    exact faithful_ofDim d

theorem SizeOf.tellsFaithful (sym : SymInputs) : TellsFaithful (SizeOf.infer sym) :=
  always_bind fun _ _ => tellsFaithful_single (faithful_scalar (faithful_ofDim _))

theorem Reshaping.tellsFaithful (h : sym.Faithful) : TellsFaithful (Reshaping.inferIdentity sym) :=
  always_bind fun _ hx => tellsFaithful_single (h.demand hx)

theorem Reshape.tellsFaithful (op : Reshape) (h : sym.Faithful) : TellsFaithful (op.infer sym) := by
  refine always_bind fun x hx => always_bind fun _ _ => always_bind fun _ _ => ?_
  exact always_bind fun _ _ => always_bind fun s _ =>
    tellsFaithful_single ((h.demand hx).reshaped s)

theorem Flatten.tellsFaithful (op : Flatten) (h : sym.Faithful) : TellsFaithful (op.infer sym) := by
  refine always_bind fun x hx => ?_
  cases x.shape with
  | unknown => exact tellsFaithful_ofShape _ _
  | ranked ds =>
    simp only [ite_bind]
    exact always_bind fun _ _ => always_bind fun _ _ =>
      tellsFaithful_single ((h.demand hx).reshaped _)

theorem Squeeze.tellsFaithful (h : sym.Faithful) : TellsFaithful (Squeeze.infer sym) := by
  refine always_bind fun x hx => ?_
  cases x.shape with
  | unknown => exact tellsFaithful_unranked _
  | ranked ds => exact always_bind fun s _ => tellsFaithful_single ((h.demand hx).reshaped s)

theorem Unsqueeze.tellsFaithful (h : sym.Faithful) : TellsFaithful (Unsqueeze.infer sym) := by
  refine always_bind fun x hx => always_bind fun _ _ => always_bind fun _ _ => ?_
  exact always_bind fun s _ => tellsFaithful_single ((h.demand hx).reshaped s)

theorem Transpose.tellsFaithful (op : Transpose) (h : sym.Faithful) :
    TellsFaithful (op.infer sym) := by
  refine always_bind fun x hx => ?_
  cases x.shape with
  | unknown => exact tellsFaithful_ofShape _ _
  | ranked ds => exact always_bind fun _ _ => tellsFaithful_single ((h.demand hx).reshaped _)

theorem Expand.tellsFaithful (h : sym.Faithful) : TellsFaithful (Expand.infer sym) := by
  refine always_bind fun x hx => always_bind fun _ _ => always_bind fun _ _ => ?_
  refine always_bind fun _ _ => always_bind fun s _ => tellsFaithful_single ?_
  exact (faithful_ofShape x.dtype s).fillFrom (h.demand hx).readAt

theorem Concat.tellsFaithful (op : Concat) (h : sym.Faithful) : TellsFaithful (op.infer sym) := by
  refine always_bind fun first _ => always_bind fun _ _ => always_bind fun s _ => ?_
  have hfresh := faithful_ofShape first.dtype s
  split
  · next elements hlisted =>
    refine tellsFaithful_single (hfresh.setLeading fun e he => ?_)
    obtain ⟨es, hes, he⟩ := List.mem_flatten.mp he
    obtain ⟨i, hi⟩ := List.getElem?_of_mem hes
    obtain ⟨t, ht, htes⟩ := Related.get_left (Option.mapM_eq_some.mp hlisted).flip hi
    exact (h t (List.mem_of_getElem? ht)).elements es htes e he
  · exact tellsFaithful_single hfresh

namespace Gather

theorem faithful_pick {x output u : SymTensor} (hx : x.Faithful) (h : output.Faithful)
    {es : List SymElement} (hes : x.elements = some es) {entry : SymElement × Nat}
    (hu : pick es output entry = .ok u) : u.Faithful := by
  unfold pick at hu
  split at hu
  · cases hu
    exact h
  · obtain ⟨k, -, hu⟩ := bind_eq_ok.mp hu
    cases hu
    have hget := hx.get k
    rw [SymTensor.get, hes, Option.getD_some] at hget
    exact h.set entry.2 hget

theorem tellsFaithful (op : Gather) (h : sym.Faithful) : TellsFaithful (op.infer sym) := by
  rw [infer_eq]
  refine always_bind fun x hx => always_bind fun t _ => always_bind fun _ _ => ?_
  split
  · next ds ids _ _ =>
    refine always_bind fun dim _ => ?_
    have hfresh := faithful_ofShape x.dtype (.ranked (ds.take dim ++ ids ++ ds.drop (dim + 1)))
    split
    · next es entries hes _ =>
      split_ifs
      · refine always_bind fun u hu => tellsFaithful_single ?_
        exact foldlM_keeps (fun a b entry _ ha hb => faithful_pick (h.demand hx) ha hes hb) hfresh
          hu
      · exact tellsFaithful_single hfresh
    · exact tellsFaithful_single hfresh
  · exact tellsFaithful_unranked _

end Gather

namespace Split

theorem faithful_piece {x : SymTensor} (hx : x.Faithful) (ds : List SymDim) (dim : Nat)
    (start : Option Nat) (size : SymDim) : (piece x ds dim start size).Faithful := by
  have hfresh := faithful_ofShape x.dtype (.ranked (ds.set dim size))
  unfold piece
  dsimp only
  split
  · split_ifs
    · refine hfresh.map fun es hes e he => ?_
      obtain ⟨⟨old, i⟩, hmem, rfl⟩ := List.mem_map.mp he
      dsimp only
      split_ifs
      · exact hx.get _
      · exact hfresh.elements es hes old (List.fst_mem_of_mem_zipIdx hmem)
    · exact hfresh
  · exact hfresh

theorem tellsFaithful_pieces {x : SymTensor} (hx : x.Faithful) (ds : List SymDim) (dim : Nat)
    (start : Option Nat) (sizes : List SymDim) : TellsFaithful (pieces x ds dim start sizes) := by
  induction sizes generalizing start with
  | nil => exact always_ok fun t ht => by cases ht
  | cons size sizes ih =>
    rw [pieces_cons]
    refine always_bind fun next _ => always_bind fun ts hts => always_ok ?_
    exact List.forall_mem_cons.mpr ⟨faithful_piece hx ds dim start size, ih next ts hts⟩

theorem tellsFaithful (op : Split) (h : sym.Faithful) : TellsFaithful (op.infer sym) := by
  refine always_bind fun x hx => always_bind fun _ _ => ?_
  cases x.shape with
  | unknown =>
    refine always_bind fun _ _ => always_ok fun t ht => ?_
    rw [List.eq_of_mem_replicate ht]
    exact faithful_unranked x.dtype
  | ranked ds =>
    exact always_bind fun _ _ => always_bind fun _ _ => tellsFaithful_pieces (h.demand hx) _ _ _ _

end Split

namespace Slice

theorem tellsFaithful_cutAlong {x : SymTensor} (hx : x.Faithful) (ds : List SymDim)
    (starts stops : List (Option Int64)) (steps : Option (Option (List (Option Int64))))
    (dims : Option (List Nat)) : TellsFaithful (cutAlong x ds starts stops steps dims) := by
  cases dims with
  | none => exact tellsFaithful_ofShape _ _
  | some dims =>
    refine always_bind fun _ _ => always_bind fun _ _ => always_bind fun es _ => ?_
    refine always_bind fun w hw => tellsFaithful_single ?_
    have hfresh := faithful_ofShape x.dtype (.ranked es)
    rcases exists_cutElements hw with rfl | ⟨positions, rfl⟩
    · exact hfresh
    · refine hfresh.setLeading fun e he => ?_
      obtain ⟨i, -, rfl⟩ := List.mem_map.mp he
      exact hx.get i

theorem tellsFaithful (h : sym.Faithful) : TellsFaithful (Slice.infer sym) := by
  rw [infer_eq]
  refine always_bind fun x hx => always_bind fun _ _ => always_bind fun starts _ => ?_
  refine always_bind fun _ _ => always_bind fun stops _ => ?_
  refine always_bind fun axes _ => always_bind fun steps _ => ?_
  unfold result
  split
  · exact tellsFaithful_unranked _
  · exact always_bind fun _ _ => always_bind fun _ _ =>
      tellsFaithful_cutAlong (h.demand hx) _ _ _ _ _
  · exact tellsFaithful_ofShape _ _

end Slice

namespace Operator

theorem known_faithful_of_folds {op : Operator} {x : Outcome RuleError (List SymTensor)}
    (h : TellsFaithful x) : Always (fun ts => ∀ t ∈ op.known ts, t.Faithful) x := by
  intro ts hts t ht
  unfold known at ht
  split_ifs at ht
  · exact h ts hts t ht
  · obtain ⟨u, hu, rfl⟩ := List.mem_map.mp ht
    exact (h ts hts u hu).clearElements

theorem known_faithful_of_regular {op : Operator} {x : Outcome RuleError (List SymTensor)}
    (hfolds : op.folds = false) (h : TellsRegular x) :
    Always (fun ts => ∀ t ∈ op.known ts, t.Faithful) x := by
  intro ts hts t ht
  rw [known, hfolds] at ht
  obtain ⟨u, hu, rfl⟩ := List.mem_map.mp ht
  exact (h ts hts u hu).faithful_clear

theorem faithful_known (op : Operator) (h : sym.Faithful) :
    Always (fun ts => ∀ t ∈ op.known ts, t.Faithful) (op.infer sym) := by
  cases op with
  | unary f => exact known_faithful_of_folds (f.tellsFaithful h)
  | binary f => exact known_faithful_of_folds (f.tellsFaithful h)
  | variadic f => exact known_faithful_of_folds (f.tellsFaithful h)
  | reduce op => exact known_faithful_of_folds (op.tellsFaithful h)
  | cast wanted => exact known_faithful_of_folds (Cast.tellsFaithful wanted h)
  | castLike => exact known_faithful_of_folds (Cast.tellsFaithful_like h)
  | concat op => exact known_faithful_of_folds (op.tellsFaithful h)
  | constantOfShape op => exact known_faithful_of_folds (op.tellsFaithful sym)
  | expand => exact known_faithful_of_folds (Expand.tellsFaithful h)
  | flatten op => exact known_faithful_of_folds (op.tellsFaithful h)
  | gather op => exact known_faithful_of_folds (op.tellsFaithful h)
  | identity => exact known_faithful_of_folds (Reshaping.tellsFaithful h)
  | range => exact known_faithful_of_folds (Range.tellsFaithful sym)
  | reshape op => exact known_faithful_of_folds (op.tellsFaithful h)
  | shapeOf op => exact known_faithful_of_folds (op.tellsFaithful sym)
  | sizeOf => exact known_faithful_of_folds (SizeOf.tellsFaithful sym)
  | slice => exact known_faithful_of_folds (Slice.tellsFaithful h)
  | split op => exact known_faithful_of_folds (op.tellsFaithful h)
  | squeeze => exact known_faithful_of_folds (Squeeze.tellsFaithful h)
  | transpose op => exact known_faithful_of_folds (op.tellsFaithful h)
  | unsqueeze => exact known_faithful_of_folds (Unsqueeze.tellsFaithful h)
  | select => exact known_faithful_of_folds (Where.tellsFaithful h)
  | argReduce op => exact known_faithful_of_regular rfl (op.tellsRegular sym)
  | batchNormalization _ =>
    exact known_faithful_of_regular rfl (BatchNormalization.tellsRegular sym)
  | clip => exact known_faithful_of_regular rfl (Clip.tellsRegular sym)
  | compress op => exact known_faithful_of_regular rfl (op.tellsRegular sym)
  | conv op => exact known_faithful_of_regular rfl (op.tellsRegular sym)
  | convTranspose op => exact known_faithful_of_regular rfl (op.tellsRegular sym)
  | cumSum _ => exact known_faithful_of_regular rfl (CumSum.tellsRegular sym)
  | depthToSpace op => exact known_faithful_of_regular rfl (op.tellsRegular sym)
  | eyeLike op => exact known_faithful_of_regular rfl (op.tellsRegular sym)
  | gatherElements op => exact known_faithful_of_regular rfl (op.tellsRegular sym)
  | gatherND op => exact known_faithful_of_regular rfl (op.tellsRegular sym)
  | gemm op => exact known_faithful_of_regular rfl (op.tellsRegular sym)
  | globalPool _ => exact known_faithful_of_regular rfl (GlobalPool.tellsRegular sym)
  | instanceNormalization _ =>
    exact known_faithful_of_regular rfl (InstanceNormalization.tellsRegular sym)
  | layerNormalization op => exact known_faithful_of_regular rfl (op.tellsRegular sym)
  | lrn op => exact known_faithful_of_regular rfl (op.tellsRegular sym)
  | matMul => exact known_faithful_of_regular rfl (MatMul.tellsRegular sym)
  | nonZero => exact known_faithful_of_regular rfl (NonZero.tellsRegular sym)
  | oneHot op => exact known_faithful_of_regular rfl (op.tellsRegular sym)
  | pad op => exact known_faithful_of_regular rfl (op.tellsRegular sym)
  | pool op => exact known_faithful_of_regular rfl (op.tellsRegular sym)
  | random op => exact known_faithful_of_regular rfl (op.tellsRegular sym)
  | resize _ => exact known_faithful_of_regular rfl (Resize.tellsRegular sym)
  | scatterElements op => exact known_faithful_of_regular rfl (op.tellsRegular sym)
  | scatterND _ => exact known_faithful_of_regular rfl (ScatterND.tellsRegular sym)
  | softmax op => exact known_faithful_of_regular rfl (op.tellsRegular sym)
  | spaceToDepth op => exact known_faithful_of_regular rfl (op.tellsRegular sym)
  | tile => exact known_faithful_of_regular rfl (Tile.tellsRegular sym)
  | topK op => exact known_faithful_of_regular rfl (op.tellsRegular sym)
  | trilu _ => exact known_faithful_of_regular rfl (Trilu.tellsRegular sym)

end Operator

theorem Facts.faithful_of_factsBefore {g : Graph} {k : Nat} {facts : Facts}
    (hk : k ≤ g.layers.length) (h : g.factsBefore k = .ok facts) {name : String} {t : SymTensor}
    (ht : facts.find? name = some t) : t.Faithful := by
  induction k generalizing facts name t with
  | zero =>
    cases h
    rcases find?_ofGraph ht with ⟨input, -, rfl⟩ | ⟨c, -, rfl⟩
    · exact faithful_ofShape _ _
    · exact faithful_toSymbolic c.value
  | succ k ih =>
    have hlayer := List.getElem?_eq_getElem (Nat.lt_of_succ_le hk)
    rw [Graph.factsBefore_succ hlayer] at h
    obtain ⟨before, hbefore, h⟩ := bind_eq_ok.mp h
    have hold := fun {name t} => @ih before (Nat.le_of_succ_le hk) hbefore name t
    rcases find?_inferLayer h ht with hkept | ⟨sym, ts, hsym, hts, hmem⟩
    · exact hold hkept
    · refine Operator.faithful_known _ (fun u hu => ?_) ts hts t hmem
      obtain ⟨n, hn⟩ := given_layerInputs hsym hu
      exact hold hn

end TensorGraph
