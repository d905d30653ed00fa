import TensorGraph.Execution.Error

/-!
The values that are live during a run, with the memory that they take and the most that they have
taken. Binding the inputs starts a run: each supplied value has to fit the declaration of its input,
a name in the declared shapes stands for one size throughout, and each input is supplied once.
-/

namespace TensorGraph

structure Store where
  values : NameTable Value
  liveBytes : Nat
  peakBytes : Nat
  deriving DecidableEq, Repr

namespace Store

def empty : Store := ⟨.empty, 0, 0⟩

def size (s : Store) : Nat := s.values.size

def find? (s : Store) (name : String) : Option Value := s.values.find? name

def contains (s : Store) (name : String) : Bool := s.values.contains name

/-- Adds a value under a name that is not live. -/
def insert (s : Store) (name : String) (v : Value) : Outcome RunError Store := do
  .refuseIf (s.contains name) (.duplicateValue name)
  let live := s.liveBytes + v.bytes
  return ⟨s.values.insert name v, live, max s.peakBytes live⟩

/-- Takes a value away, if its name is live. -/
def remove? (s : Store) (name : String) : Option (Value × Store) :=
  (s.find? name).map fun v => (v, ⟨s.values.erase name, s.liveBytes - v.bytes, s.peakBytes⟩)

/-- Takes the live ones of some values away, and tells how many bytes they took. -/
def release (s : Store) : List String → Nat × Store
  | [] => (0, s)
  | name :: names =>
    match s.remove? name with
    | some (v, s) =>
      let (bytes, s) := release s names
      (v.bytes + bytes, s)
    | none => release s names

end Store

/-- The inputs that are bound so far, with the sizes that names stand for. -/
structure Binding where
  store : Store
  symbols : NameTable Nat
  deriving DecidableEq, Repr

namespace Binding

def empty : Binding := ⟨.empty, .empty⟩

def matchDim (dims : List InputDim) (shape : Shape) (symbols : NameTable Nat) (dim : InputDim)
    (size : Nat) : Outcome InputConflict (NameTable Nat) :=
  match dim with
  | .fixed expected => if expected = size then .ok symbols else .error (.shape dims shape)
  | .unknown => .ok symbols
  | .symbolic name =>
    match symbols.find? name with
    | none => .ok (symbols.insert name size)
    | some bound => if bound = size then .ok symbols else .error (.symbol name size bound)

def matchInput (symbols : NameTable Nat) (input : GraphInput) (type : ValueType) :
    Outcome InputConflict (NameTable Nat) := do
  .refuseIf (type.dtype ≠ input.dtype) (.type input.dtype type.dtype)
  match input.shape with
  | none => return symbols
  | some dims =>
    .refuseIf (dims.length ≠ type.shape.length) (.rank dims.length type.shape.length)
    (dims.zip type.shape).foldlM (fun symbols (dim, size) =>
      matchDim dims type.shape symbols dim size) symbols

end Binding

namespace SymTensor

/-- Whether a value of some type and shape agrees with what is known of it. -/
def admits (known : SymTensor) (type : ValueType) : Bool :=
  known.dtype = type.dtype &&
    match known.shape with
    | .unknown => true
    | .ranked ds => ds.length = type.shape.length &&
      (ds.zip type.shape).all fun (d, size) => d.value?.all (· = intOfSize size)

end SymTensor

def Facts.demandAdmitted (facts : Option Facts) (layer name : String) (type : ValueType) :
    Outcome RunError Unit :=
  match facts.bind (·.find? name) with
  | some known => .refuseIf (!known.admits type) (.shapeMismatch layer name known type)
  | none => .ok ()

namespace Binding

def add (g : Graph) (facts : Option Facts) (b : Binding) (name : String) (v : Value) :
    Outcome RunError Binding := do
  let invalid (c : InputConflict) := RunError.invalidInput name c
  let input ← .orRefuse (invalid .notAnInput) (g.input? name)
  let symbols ← (matchInput b.symbols input v.type).mapError invalid
  Facts.demandAdmitted facts name name v.type
  .refuseIf (b.store.contains name) (invalid .repeated)
  return ⟨← b.store.insert name v, symbols⟩

def demandComplete (g : Graph) (b : Binding) : Outcome RunError Unit :=
  match g.inputs.find? fun input => !b.store.contains input.name with
  | some input => .error (.invalidInput input.name .missing)
  | none => .ok ()

/-- Binds supplied values in order until one does not fit. -/
def addAll (g : Graph) (facts : Option Facts) (given : List (String × Value)) :
    Binding × Outcome RunError Unit :=
  Outcome.foldUntil (fun b (name, v) => b.add g facts name v) empty given

end Binding

end TensorGraph
