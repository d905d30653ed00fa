import TensorGraph.Proofs.Json.Records

/-! Operators can be written as JSON if the sizes among their attributes are 64-bit words, and are
restored from it if their real attributes are finite. -/

namespace TensorGraph

open Json

variable {form : TextForm} {k : Nat}

@[simp]
theorem DataType.restores (dtype : DataType) : Restores form ofJson dtype.toJson dtype := by
  cases dtype <;> exact restores_case rfl

@[simp]
theorem DataType.writable (dtype : DataType) : dtype.toJson.Writable k := by
  cases dtype <;> exact .string _

@[simp]
theorem DataType.restores_optional (o : Option DataType) :
    Restores form (toOption ofJson) (ofOption toJson o) o :=
  restores_option (by rintro _ ⟨⟩) fun dtype _ => dtype.restores

@[simp]
theorem VariadicFn.restores (f : VariadicFn) : Restores form ofJson f.toJson f := by
  cases f <;> exact restores_case rfl

@[simp]
theorem Reduction.restores (r : Reduction) : Restores form ofJson (.string r.label) r := by
  cases r <;> exact restores_case rfl

@[simp]
theorem Combination.restores (c : Combination) : Restores form ofJson (.string c.label) c := by
  cases c <;> exact restores_case rfl

@[simp]
theorem Extremum.restores (e : Extremum) : Restores form ofJson (.string e.label) e := by
  cases e <;> exact restores_case rfl

@[simp]
theorem Weighting.restores (w : Weighting) : Restores form ofJson (.string w.label) w := by
  cases w <;> exact restores_case rfl

@[simp]
theorem Pooling.restores (p : Pooling) : Restores form ofJson (.string p.label) p := by
  cases p <;> exact restores_case rfl

@[simp]
theorem PadMode.restores (m : PadMode) : Restores form ofJson (.string m.label) m := by
  cases m <;> exact restores_case rfl

@[simp]
theorem ChannelOrder.restores (o : ChannelOrder) : Restores form ofJson (.string o.label) o := by
  cases o <;> exact restores_case rfl

@[simp]
theorem Interpolation.restores (i : Interpolation) : Restores form ofJson (.string i.label) i := by
  cases i <;> exact restores_case rfl

@[simp]
theorem CoordinateMode.restores (c : CoordinateMode) :
    Restores form ofJson (.string c.label) c := by
  cases c <;> exact restores_case rfl

@[simp]
theorem NearestMode.restores (n : NearestMode) : Restores form ofJson (.string n.label) n := by
  cases n <;> exact restores_case rfl

theorem UnaryFn.writable (f : UnaryFn) : f.toJson.Writable (k + 2) := by
  cases f <;> simp [toJson, ofCase]

theorem BinaryFn.writable (f : BinaryFn) : f.toJson.Writable (k + 2) := by
  cases f <;> simp [toJson, ofCase]

theorem Scalar.writable (s : Scalar) : s.toJson.Writable (k + 1) := by
  cases s <;> simp [toJson]

def UnaryFn.floats : UnaryFn → List Float32
  | celu alpha | elu alpha | leakyRelu alpha | swish alpha | thresholdedRelu alpha => [alpha]
  | hardSigmoid alpha beta => [alpha, beta]
  | selu alpha gamma => [alpha, gamma]
  | shrink bias lambda => [bias, lambda]
  | _ => []

theorem UnaryFn.restores_plain {f : UnaryFn} (h : f ∈ plain) :
    Restores form ofJson (.string f.name) f := by
  rw [Restores, reread]
  revert f
  decide

@[simp]
theorem BinaryFn.restores (f : BinaryFn) : Restores form ofJson f.toJson f := by
  cases f with
  | mod truncated =>
    apply restores_ofCase
    simp [ofJson, tagged, toCase, name]
  | _ => rfl

theorem UnaryFn.restores (hform : form.Faithful) {f : UnaryFn}
    (h : ∀ x ∈ f.floats, x.isFinite = true) :
    Restores form ofJson f.toJson f := by
  cases f with
  | celu alpha | elu alpha | leakyRelu alpha | swish alpha | thresholdedRelu alpha =>
    have halpha := restores_float hform (h alpha (by simp [floats]))
    apply restores_ofCase
    simp [ofJson, tagged, toCase, name, halpha]
  | gelu approximate =>
    apply restores_ofCase
    simp [ofJson, tagged, toCase, name]
  | hardSigmoid alpha beta =>
    have halpha := restores_float hform (h alpha (by simp [floats]))
    have hbeta := restores_float hform (h beta (by simp [floats]))
    apply restores_ofCase
    simp [ofJson, tagged, toCase, name, List.lookup_cons, halpha, hbeta]
  | isInf negative positive =>
    apply restores_ofCase
    simp [ofJson, tagged, toCase, name, List.lookup_cons]
  | selu alpha gamma =>
    have halpha := restores_float hform (h alpha (by simp [floats]))
    have hgamma := restores_float hform (h gamma (by simp [floats]))
    apply restores_ofCase
    simp [ofJson, tagged, toCase, name, List.lookup_cons, halpha, hgamma]
  | shrink bias lambda =>
    have hbias := restores_float hform (h bias (by simp [floats]))
    have hlambda := restores_float hform (h lambda (by simp [floats]))
    apply restores_ofCase
    simp [ofJson, tagged, toCase, name, List.lookup_cons, hbias, hlambda]
  | _ => exact restores_plain (by decide)

def Scalar.floats : Scalar → List Float32
  | int _ => []
  | float x => [x]

theorem Scalar.restores (hform : form.Faithful) {s : Scalar}
    (h : ∀ x ∈ s.floats, x.isFinite = true) :
    Restores form ofJson s.toJson s := by
  cases s with
  | int n => exact restores_content Scalar.int (restores_int n) fun _ => rfl
  | float x =>
    exact restores_content Scalar.float (restores_float hform (h x (by simp [floats]))) fun _ => rfl

def Padding.sizes : Padding → List Nat
  | same => []
  | fixed pads => pads

@[simp]
theorem Padding.writable_iff {p : Padding} :
    p.toJson.Writable (k + 2) ↔ ∀ n ∈ p.sizes, n < sizeLimit := by
  cases p <;> simp [toJson, sizes]

theorem Padding.restores {p : Padding} (h : ∀ n ∈ p.sizes, n < sizeLimit) :
    Restores form ofJson p.toJson p := by
  cases p with
  | same => rfl
  | fixed pads => exact restores_content Padding.fixed (restores_sizes h) fun _ => rfl

namespace Operator

variable {name : String} {fields : List (String × Json)} {d : Decoded Operator} {op : Operator}

theorem restores_numeric (h : numericOfJson? name (record (rereadAll form fields)) = some d)
    (hd : d = .ok op) : Restores form ofJson (ofCase name fields) op := by
  apply restores_ofCase
  simp [ofJson, tagged, toCase, h, hd]

theorem restores_indexing (hn : numericOfJson? name (record (rereadAll form fields)) = none)
    (h : indexingOfJson? name (record (rereadAll form fields)) = some d) (hd : d = .ok op) :
    Restores form ofJson (ofCase name fields) op := by
  apply restores_ofCase
  simp [ofJson, tagged, toCase, hn, h, hd]

theorem restores_moving (hn : numericOfJson? name (record (rereadAll form fields)) = none)
    (hi : indexingOfJson? name (record (rereadAll form fields)) = none)
    (h : movingOfJson? name (record (rereadAll form fields)) = some d) (hd : d = .ok op) :
    Restores form ofJson (ofCase name fields) op := by
  apply restores_ofCase
  simp [ofJson, tagged, toCase, hn, hi, h, hd]

theorem restores_spatial (hn : numericOfJson? name (record (rereadAll form fields)) = none)
    (hi : indexingOfJson? name (record (rereadAll form fields)) = none)
    (hm : movingOfJson? name (record (rereadAll form fields)) = none)
    (h : spatialOfJson? name (record (rereadAll form fields)) = some d) (hd : d = .ok op) :
    Restores form ofJson (ofCase name fields) op := by
  apply restores_ofCase
  simp [ofJson, tagged, toCase, hn, hi, hm, h, hd]

end Operator

open Operator (ofJson restores_numeric restores_indexing restores_moving restores_spatial)

theorem ArgReduce.restores (op : ArgReduce) :
    Restores form ofJson (Operator.argReduce op).toJson (.argReduce op) := by
  refine restores_numeric rfl ?_
  simp [List.lookup_cons]

theorem BatchNormalization.restores (hform : form.Faithful) {op : BatchNormalization}
    (h : op.epsilon.isFinite = true) :
    Restores form ofJson (Operator.batchNormalization op).toJson (.batchNormalization op) :=
  restores_single (Operator.batchNormalization ⟨·⟩) (restores_float hform h) fun _ => rfl

theorem CumSum.restores (op : CumSum) :
    Restores form ofJson (Operator.cumSum op).toJson (.cumSum op) := by
  refine restores_numeric rfl ?_
  simp [List.lookup_cons]

theorem Gemm.restores (hform : form.Faithful) {op : Gemm} (halpha : op.alpha.isFinite = true)
    (hbeta : op.beta.isFinite = true) :
    Restores form ofJson (Operator.gemm op).toJson (.gemm op) := by
  have halpha := restores_float hform halpha
  have hbeta := restores_float hform hbeta
  refine restores_numeric rfl ?_
  simp [List.lookup_cons, halpha, hbeta]

theorem InstanceNormalization.restores (hform : form.Faithful) {op : InstanceNormalization}
    (h : op.epsilon.isFinite = true) :
    Restores form ofJson (Operator.instanceNormalization op).toJson (.instanceNormalization op) :=
  restores_single (Operator.instanceNormalization ⟨·⟩) (restores_float hform h) fun _ => rfl

theorem LayerNormalization.restores (hform : form.Faithful) {op : LayerNormalization}
    (h : op.epsilon.isFinite = true) :
    Restores form ofJson (Operator.layerNormalization op).toJson (.layerNormalization op) := by
  have hepsilon := restores_float hform h
  refine restores_numeric rfl ?_
  simp [List.lookup_cons, hepsilon]

theorem Lrn.restores (hform : form.Faithful) {op : Lrn} (halpha : op.alpha.isFinite = true)
    (hbeta : op.beta.isFinite = true) (hbias : op.bias.isFinite = true)
    (hsize : op.size < sizeLimit) :
    Restores form ofJson (Operator.lrn op).toJson (.lrn op) := by
  have halpha := restores_float hform halpha
  have hbeta := restores_float hform hbeta
  have hbias := restores_float hform hbias
  refine restores_numeric rfl ?_
  simp [List.lookup_cons, halpha, hbeta, hbias, restores_size hsize]

theorem Reduce.restores (op : Reduce) :
    Restores form ofJson (Operator.reduce op).toJson (.reduce op) := by
  refine restores_numeric rfl ?_
  simp [List.lookup_cons]

theorem Softmax.restores (op : Softmax) :
    Restores form ofJson (Operator.softmax op).toJson (.softmax op) := by
  refine restores_numeric rfl ?_
  simp [List.lookup_cons]

theorem TopK.restores (op : TopK) : Restores form ofJson (Operator.topK op).toJson (.topK op) := by
  refine restores_numeric rfl ?_
  simp [List.lookup_cons]

theorem Compress.restores (op : Compress) :
    Restores form ofJson (Operator.compress op).toJson (.compress op) := by
  refine restores_indexing rfl rfl ?_
  simp

theorem ConstantOfShape.restores (hform : form.Faithful) {op : ConstantOfShape}
    (h : ∀ x ∈ op.value.floats, x.isFinite = true) :
    Restores form ofJson (Operator.constantOfShape op).toJson (.constantOfShape op) :=
  restores_single (Operator.constantOfShape ⟨·⟩) (Scalar.restores hform h) fun _ => rfl

theorem EyeLike.restores (op : EyeLike) :
    Restores form ofJson (Operator.eyeLike op).toJson (.eyeLike op) := by
  refine restores_indexing rfl rfl ?_
  simp [List.lookup_cons]

theorem Gather.restores (op : Gather) :
    Restores form ofJson (Operator.gather op).toJson (.gather op) :=
  restores_single (Operator.gather ⟨·⟩) (restores_int op.axis) fun _ => rfl

theorem GatherElements.restores (op : GatherElements) :
    Restores form ofJson (Operator.gatherElements op).toJson (.gatherElements op) :=
  restores_single (Operator.gatherElements ⟨·⟩) (restores_int op.axis) fun _ => rfl

theorem OneHot.restores (op : OneHot) :
    Restores form ofJson (Operator.oneHot op).toJson (.oneHot op) :=
  restores_single (Operator.oneHot ⟨·⟩) (restores_int op.axis) fun _ => rfl

theorem GatherND.restores {op : GatherND} (h : op.batchDims < sizeLimit) :
    Restores form ofJson (Operator.gatherND op).toJson (.gatherND op) :=
  restores_single (Operator.gatherND ⟨·⟩) (restores_size h) fun _ => rfl

theorem ScatterElements.restores (op : ScatterElements) :
    Restores form ofJson (Operator.scatterElements op).toJson (.scatterElements op) := by
  refine restores_indexing rfl rfl ?_
  simp [List.lookup_cons]

theorem ScatterND.restores (op : ScatterND) :
    Restores form ofJson (Operator.scatterND op).toJson (.scatterND op) :=
  restores_single (Operator.scatterND ⟨·⟩) op.combination.restores fun _ => rfl

theorem Concat.restores (op : Concat) :
    Restores form ofJson (Operator.concat op).toJson (.concat op) :=
  restores_single (Operator.concat ⟨·⟩) (restores_int op.axis) fun _ => rfl

theorem Flatten.restores (op : Flatten) :
    Restores form ofJson (Operator.flatten op).toJson (.flatten op) :=
  restores_single (Operator.flatten ⟨·⟩) (restores_int op.axis) fun _ => rfl

theorem Pad.restores (op : Pad) : Restores form ofJson (Operator.pad op).toJson (.pad op) :=
  restores_single (Operator.pad ⟨·⟩) op.mode.restores fun _ => rfl

theorem Reshape.restores (op : Reshape) :
    Restores form ofJson (Operator.reshape op).toJson (.reshape op) :=
  restores_single (Operator.reshape ⟨·⟩) (restores_bool op.allowZero) fun _ => rfl

theorem ShapeOf.restores (op : ShapeOf) :
    Restores form ofJson (Operator.shapeOf op).toJson (.shapeOf op) := by
  refine restores_moving rfl rfl rfl ?_
  simp [List.lookup_cons]

theorem Split.restores {op : Split} (h : op.count < sizeLimit) :
    Restores form ofJson (Operator.split op).toJson (.split op) := by
  refine restores_moving rfl rfl rfl ?_
  simp [List.lookup_cons, restores_size h]

theorem Transpose.restores {op : Transpose} (h : ∀ ns ∈ op.perm, ∀ n ∈ ns, n < sizeLimit) :
    Restores form ofJson (Operator.transpose op).toJson (.transpose op) := by
  refine restores_moving rfl rfl rfl ?_
  simp [restores_optional_sizes h]

theorem Trilu.restores (op : Trilu) : Restores form ofJson (Operator.trilu op).toJson (.trilu op) :=
  restores_single (Operator.trilu ⟨·⟩) (restores_bool op.upper) fun _ => rfl

theorem Conv.restores {op : Conv} (hpadding : ∀ n ∈ op.padding.sizes, n < sizeLimit)
    (hstrides : ∀ n ∈ op.strides, n < sizeLimit) (hdilations : ∀ n ∈ op.dilations, n < sizeLimit)
    (hgroups : op.groups < sizeLimit) :
    Restores form ofJson (Operator.conv op).toJson (.conv op) := by
  refine restores_spatial rfl rfl rfl rfl ?_
  simp [Operator.convOfJson, List.lookup_cons, Padding.restores hpadding, restores_sizes hstrides,
    restores_sizes hdilations, restores_size hgroups]

theorem ConvTranspose.restores {op : ConvTranspose}
    (hpadding : ∀ n ∈ op.padding.sizes, n < sizeLimit)
    (hstrides : ∀ n ∈ op.strides, n < sizeLimit) (hdilations : ∀ n ∈ op.dilations, n < sizeLimit)
    (hgroups : op.groups < sizeLimit) (houtput : ∀ n ∈ op.outputPadding, n < sizeLimit) :
    Restores form ofJson (Operator.convTranspose op).toJson (.convTranspose op) := by
  refine restores_spatial rfl rfl rfl rfl ?_
  simp [Operator.convTransposeOfJson, List.lookup_cons, Padding.restores hpadding,
    restores_sizes hstrides, restores_sizes hdilations, restores_size hgroups,
    restores_sizes houtput]

theorem DepthToSpace.restores {op : DepthToSpace} (h : op.block < sizeLimit) :
    Restores form ofJson (Operator.depthToSpace op).toJson (.depthToSpace op) := by
  refine restores_spatial rfl rfl rfl rfl ?_
  -- the record is taken first: `simp` would have the kernel compare names of fields by their bytes
  rw [toRecord_record, Outcome.ok_bind]
  simp [List.lookup_cons, restores_size h]

theorem GlobalPool.restores (op : GlobalPool) :
    Restores form ofJson (Operator.globalPool op).toJson (.globalPool op) :=
  restores_single (Operator.globalPool ⟨·⟩) op.pooling.restores fun _ => rfl

theorem Pool.restores {op : Pool} (hkernel : ∀ n ∈ op.kernel, n < sizeLimit)
    (hstrides : ∀ n ∈ op.strides, n < sizeLimit)
    (hpadding : ∀ n ∈ op.padding.sizes, n < sizeLimit) :
    Restores form ofJson (Operator.pool op).toJson (.pool op) := by
  refine restores_spatial rfl rfl rfl rfl ?_
  simp [Operator.poolOfJson, List.lookup_cons, restores_sizes hkernel, restores_sizes hstrides,
    Padding.restores hpadding]

theorem Resize.restores (op : Resize) :
    Restores form ofJson (Operator.resize op).toJson (.resize op) := by
  refine restores_spatial rfl rfl rfl rfl ?_
  simp [List.lookup_cons]

theorem SpaceToDepth.restores {op : SpaceToDepth} (h : op.block < sizeLimit) :
    Restores form ofJson (Operator.spaceToDepth op).toJson (.spaceToDepth op) :=
  restores_single (Operator.spaceToDepth ⟨·⟩) (restores_size h) fun _ => rfl

namespace Sampling

def floats : Sampling → List Float32
  | uniform low high _ seed | uniformLike low high seed => low :: high :: seed.toList
  | normal mean deviation _ seed | normalLike mean deviation seed =>
    mean :: deviation :: seed.toList
  | bernoulli seed => seed.toList

def sizes (op : Sampling) : List Nat := op.shape?.getD []

theorem writable {op : Sampling} (h : ∀ n ∈ op.sizes, n < sizeLimit) :
    op.toJson.Writable (k + 3) := by
  cases op with
  | uniform low high shape seed | normal low high shape seed =>
    have hshape : ∀ n ∈ shape, n < sizeLimit := h
    simpa [toJson, ofCase] using hshape
  | uniformLike | normalLike | bernoulli => simp [toJson, ofCase]

theorem restores (hform : form.Faithful) {op : Sampling}
    (hfloats : ∀ x ∈ op.floats, x.isFinite = true) (hsizes : ∀ n ∈ op.sizes, n < sizeLimit) :
    Restores form Operator.ofJson (Operator.random op).toJson (.random op) := by
  have hseed := restores_optional_float hform (o := op.seed) fun x hx =>
    hfloats x (by cases op <;> simp_all [floats, seed])
  cases op with
  | uniform low high shape seed =>
    have hlow := restores_float hform (hfloats low (by simp [floats]))
    have hhigh := restores_float hform (hfloats high (by simp [floats]))
    have hshape : Restores form (toList toSize) (.ofSizes shape) shape := restores_sizes hsizes
    refine restores_indexing rfl rfl ?_
    simp [uniformOfJson, List.lookup_cons, hlow, hhigh, hshape, hseed]
    rfl
  | uniformLike low high seed =>
    have hlow := restores_float hform (hfloats low (by simp [floats]))
    have hhigh := restores_float hform (hfloats high (by simp [floats]))
    refine restores_indexing rfl rfl ?_
    simp [uniformLikeOfJson, List.lookup_cons, hlow, hhigh, hseed]
    rfl
  | normal mean deviation shape seed =>
    have hmean := restores_float hform (hfloats mean (by simp [floats]))
    have hdeviation := restores_float hform (hfloats deviation (by simp [floats]))
    have hshape : Restores form (toList toSize) (.ofSizes shape) shape := restores_sizes hsizes
    refine restores_indexing rfl rfl ?_
    simp [normalOfJson, List.lookup_cons, hmean, hdeviation, hshape, hseed]
    rfl
  | normalLike mean deviation seed =>
    have hmean := restores_float hform (hfloats mean (by simp [floats]))
    have hdeviation := restores_float hform (hfloats deviation (by simp [floats]))
    refine restores_indexing rfl rfl ?_
    simp [normalLikeOfJson, List.lookup_cons, hmean, hdeviation, hseed]
    rfl
  | bernoulli seed =>
    refine restores_indexing rfl rfl ?_
    simp [bernoulliOfJson, hseed]
    rfl

end Sampling

namespace Operator

def floats : Operator → List Float32
  | batchNormalization op => [op.epsilon]
  | constantOfShape op => op.value.floats
  | gemm op => [op.alpha, op.beta]
  | instanceNormalization op => [op.epsilon]
  | layerNormalization op => [op.epsilon]
  | lrn op => [op.alpha, op.beta, op.bias]
  | random op => op.floats
  | unary f => f.floats
  | _ => []

def sizes : Operator → List Nat
  | conv op => op.groups :: (op.padding.sizes ++ op.strides ++ op.dilations)
  | convTranspose op =>
    op.groups :: (op.padding.sizes ++ op.strides ++ op.dilations ++ op.outputPadding)
  | depthToSpace op => [op.block]
  | gatherND op => [op.batchDims]
  | lrn op => [op.size]
  | pool op => op.kernel ++ op.strides ++ op.padding.sizes
  | random op => op.sizes
  | spaceToDepth op => [op.block]
  | split op => [op.count]
  | transpose op => op.perm.getD []
  | _ => []

theorem writable {op : Operator} (h : ∀ n ∈ op.sizes, n < sizeLimit) :
    op.toJson.Writable (k + 4) := by
  cases op with
  | binary f => simpa [toJson] using f.writable
  | unary f => simpa [toJson] using f.writable
  | variadic f => simp [toJson, VariadicFn.toJson]
  | random op => exact Sampling.writable h
  | constantOfShape op => simpa [toJson, ofCase] using op.value.writable
  | _ => simp_all [toJson, ofCase, sizes]

theorem restores_bare {name : String} {op : Operator}
    (hread : ∀ r, ofJson (tagged name r) = bare name op r) :
    Restores form ofJson (ofCase name []) op := by
  apply restores_ofCase
  rw [hread]
  rfl

theorem restores (hform : form.Faithful) {op : Operator}
    (hfloats : ∀ x ∈ op.floats, x.isFinite = true)
    (hsizes : ∀ n ∈ op.sizes, n < sizeLimit) : Restores form ofJson op.toJson op := by
  cases op with
  | castLike | clip | expand | identity | matMul | nonZero | range | sizeOf | slice | squeeze | tile
  | unsqueeze | select => exact restores_bare fun _ => rfl
  | cast wanted => exact restores_single Operator.cast wanted.restores fun _ => rfl
  | binary f => exact restores_content Operator.binary f.restores fun _ => rfl
  | unary f => exact restores_content Operator.unary (UnaryFn.restores hform hfloats) fun _ => rfl
  | variadic f => exact restores_content Operator.variadic f.restores fun _ => rfl
  | argReduce op | compress op | concat op | cumSum op | eyeLike op | flatten op | gather op
  | gatherElements op | globalPool op | oneHot op | pad op | reduce op | reshape op | resize op
  | scatterElements op | scatterND op | shapeOf op | softmax op | topK op | trilu op =>
    exact op.restores
  | batchNormalization op => exact BatchNormalization.restores hform (hfloats _ (by simp [floats]))
  | constantOfShape op => exact ConstantOfShape.restores hform hfloats
  | conv op =>
    exact Conv.restores (fun n hn => hsizes n (by simp [sizes, hn]))
      (fun n hn => hsizes n (by simp [sizes, hn])) (fun n hn => hsizes n (by simp [sizes, hn]))
      (hsizes _ (by simp [sizes]))
  | convTranspose op =>
    exact ConvTranspose.restores (fun n hn => hsizes n (by simp [sizes, hn]))
      (fun n hn => hsizes n (by simp [sizes, hn])) (fun n hn => hsizes n (by simp [sizes, hn]))
      (hsizes _ (by simp [sizes])) fun n hn => hsizes n (by simp [sizes, hn])
  | depthToSpace op => exact DepthToSpace.restores (hsizes _ (by simp [sizes]))
  | gatherND op => exact GatherND.restores (hsizes _ (by simp [sizes]))
  | gemm op =>
    exact Gemm.restores hform (hfloats _ (by simp [floats])) (hfloats _ (by simp [floats]))
  | instanceNormalization op =>
    exact InstanceNormalization.restores hform (hfloats _ (by simp [floats]))
  | layerNormalization op => exact LayerNormalization.restores hform (hfloats _ (by simp [floats]))
  | lrn op =>
    exact Lrn.restores hform (hfloats _ (by simp [floats])) (hfloats _ (by simp [floats]))
      (hfloats _ (by simp [floats])) (hsizes _ (by simp [sizes]))
  | pool op =>
    exact Pool.restores (fun n hn => hsizes n (by simp [sizes, hn]))
      (fun n hn => hsizes n (by simp [sizes, hn])) fun n hn => hsizes n (by simp [sizes, hn])
  | random op => exact Sampling.restores hform hfloats hsizes
  | spaceToDepth op => exact SpaceToDepth.restores (hsizes _ (by simp [sizes]))
  | split op => exact Split.restores (hsizes _ (by simp [sizes]))
  | transpose op =>
    exact Transpose.restores fun ns hns n hn =>
      hsizes n (by simpa [sizes, Option.mem_def.mp hns] using hn)

end Operator

end TensorGraph
