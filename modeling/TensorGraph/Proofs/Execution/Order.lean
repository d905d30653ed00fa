import TensorGraph.Proofs.Execution.Values

/-! Which inputs are bound. Sizes of names are settled one by one in the order of the inputs, but
the inputs are bound in any order just if one assignment of sizes to all names fits every
declaration. -/

namespace TensorGraph

open Outcome

namespace Binding

variable {g : Graph} {facts : Option Facts} {given given' : List (String × Value)} {b b' : Binding}
  {name : String} {v : Value} {symbols : NameTable Nat} {sizes : String → Nat}
    {dims ds : List InputDim}
  {shape : Shape}

/-- Whether an assignment gives names the sizes for which they stand so far. -/
def Agrees (sizes : String → Nat) (symbols : NameTable Nat) : Prop :=
  ∀ name size, symbols.find? name = some size → sizes name = size

end Binding

namespace Session

variable {g : Graph} {options : LogOptions} {given given' : List (String × Value)} {values : Values}

theorem Evaluates.perm {chain : Chain} {facts : Option Facts} {m n : Numbers}
    (hperm : given.Perm given') (hagree : ∀ layer ∈ g.layers, m.AgreeOn n layer)
    (h : (⟨g, chain, facts, m⟩ : Session).Evaluates given values) :
    (⟨g, chain, facts, n⟩ : Session).Evaluates given' values where
  given := fun entry hentry => h.given entry (hperm.mem_iff.mpr hentry)
  constants := h.constants
  layers := fun layer hlayer => (h.layers layer hlayer).of_agreeOn (hagree layer hlayer)

end Session

end TensorGraph
