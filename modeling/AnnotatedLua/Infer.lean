/-
The types of expressions. An expression whose type depends on itself has none. With all values
wanted, what was found is kept, before the names in it are bound in the scope of the expression.
-/
import AnnotatedLua.Accept

namespace AnnotatedLua

open Solve

namespace Rule

variable (S : Solver)

def runInference : Inference → Solve (Option Ty)
  | .unknown => return none
  | .known type => return some type
  | .follow node otherwise => return (← S.infer node).or otherwise
  | .project type => do
    let position := (← get).position
    if position < 0 then return some type
    return some (← S.resultAt type position.toNat)

def requestInference (node : Node) : Solve (Option Ty) := do
  match (← read).provider.inference with
  | none => return none
  | some inference =>
    modify fun s => { s with inferences := s.inferences + 1 }
    runInference S (inference node)

def inferFresh (node : Node) (keep : Bool) : Solve (Option Ty) := do
  match (← withGuard .inference (.node node) (requestInference S node)).join with
  | none => return none
  | some type =>
    if keep then modify fun s => { s with inferred := s.inferred.insert node type }
    return some (← S.substitute type (.scope node))

def infer (node : Node) : Solve (Option Ty) := do
  let keep := (← get).position == allResults && !(← isBlind)
  let found ← if keep then pure ((← get).inferred[node]?) else pure none
  match found with
  | some type => return some type
  | none => inferFresh S node keep

end Rule

end AnnotatedLua
