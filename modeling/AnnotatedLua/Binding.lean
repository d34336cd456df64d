/-
Inference of type parameters. The type of an argument and the declared type of its parameter are
walked side by side; what stands where a parameter is reached is bound to it. Of two types bound to
one parameter the one that accepts the other is kept, or else their union. A type outside of the
bound resets the binding.
-/
import AnnotatedLua.Infer

namespace AnnotatedLua

open Solve

namespace Solver

variable (S : Solver)

/-! ## Positions -/

/-- Looks for bindings with the search moved to another position; nothing stands at `void`. -/
def bindAt (search : Search) (position : Ty) (bindings : Bindings) (declared : Solve Ty) :
    Solve Bindings := do
  if position.isVoid then return bindings
  let current ← S.resolve position
  S.bind { search with current } bindings (← declared)

def bindPairs (search : Search) (bindings : Bindings) (pairs : List (Ty × Solve Ty)) : Solve Bindings :=
  pairs.foldlM (fun bindings (position, declared) => S.bindAt search position bindings declared)
    bindings

def forCurrent (search : Search) (bindings : Bindings) (f : Bindings → Ty → Solve Bindings) :
    Solve Bindings := do
  (← S.resolvedMembers search.current).foldlM f bindings

/-! ## Parameters -/

def isInsideCall (search : Search) : Nat → Node → Solve Bool
  | 0, _ => return false
  | n + 1, node => do
    if search.callNodes.contains node then return true
    match ← parent node with
    | some up => isInsideCall search n up
    | none => return false

def isArgumentTable (search : Search) (ty : Ty) : Solve Bool := do
  match ← inlineTableNode ty with
  | some node => isInsideCall search maxAncestors node
  | none => return false

def bindingMode (search : Search) (ty : Ty) : Solve Mode := do
  return { strictAny := true, widenTables := ← isArgumentTable search ty }

def combine (search : Search) (existing current : Ty) : Solve Ty := do
  if ← S.accepts existing current (← bindingMode search current) then return existing
  if ← S.accepts current existing (← bindingMode search existing) then return current
  S.union existing current

def bindType (search : Search) (name : Symbol) (param limit : Ty) (bindings : Bindings) (found : Ty) :
    Solve Bindings := do
  let existing := bindings.get? name
  let current ← S.substitute found (.params bindings)
  let within ← S.accepts limit current { openParams := true, strictAny := true }
  let bound ←
    if within then
      match existing with
      | none => pure current
      | some existing => S.combine search existing current
    else pure param
  return bindings.insert name bound

def bindParam (search : Search) (bindings : Bindings) (name : Symbol) : Solve Bindings := do
  match search.params.get? name with
  | none => return bindings
  | some param =>
    let limit ← S.substitute param .bounds
    S.forCurrent search bindings (S.bindType search name param limit)

/-! ## Declared types -/

def bindResults (search : Search) (bindings : Bindings) (results : Results) : Solve Bindings := do
  match ← lookup (← S.mergeResults search.current) with
  | .results types variadic =>
    let pairs ← S.pairUp results ⟨types, variadic⟩ true
    S.bindPairs search bindings
      (pairs.map fun (declared, found) => (found.getD Ty.nil, pure declared))
  | _ =>
    match results.types with
    | first :: _ => S.bind search bindings first
    | [] => return bindings

def bindClassParams (search : Search) (bindings : Bindings) (declared : Ty) : Solve Bindings := do
  let params ← S.paramsOf declared
  if params.isEmpty then return bindings
  S.forCurrent search bindings fun bindings source => do
    if source = declared || (← kind source) != .classRef then return bindings
    let pairs := (← S.paramsOf source).zip params
    S.bindPairs search bindings (pairs.map fun (found, param) => (found, S.resolve param))

def visitShapeMember (shape source : Ty) : Visitor (List (Ty × Ty)) := fun pairs member => do
  match ← S.memberAt? shape false member.key with
  | none => return (pairs, true)
  | some shapeMember =>
    if shapeMember.type.isNone then return (pairs, true)
    let found ← S.memberType source member
    return (pairs ++ [(found, ← S.memberType shape shapeMember)], true)

def bindShape (search : Search) (bindings : Bindings) (shape : Ty) : Solve Bindings :=
  S.forCurrent search bindings fun bindings source => do
    let (pairs, _) ← S.visitMembers (S.visitShapeMember shape source) true source []
    S.bindPairs search bindings (pairs.map fun (found, declared) => (found, S.resolve declared))

def bindClass (search : Search) (bindings : Bindings) (declared : Ty) : Solve Bindings := do
  let bindings ← S.bindClassParams search bindings declared
  if ← S.isShape declared then S.bindShape search bindings declared else return bindings

def visitValue : Visitor (List Ty) := fun values member =>
  return (values ++ [member.type.getD Ty.any], true)

def bindArray (search : Search) (bindings : Bindings) (element : Ty) : Solve Bindings := do
  let declared ← S.resolve element
  S.forCurrent search bindings fun bindings source => do
    match ← lookup source with
    | .array sourceElement => S.bindAt search sourceElement bindings (pure declared)
    | .classRef _ _ =>
      if !(← S.isArray source) then return bindings
      let (values, _) ← S.visitMembers visitValue true source []
      S.bindPairs search bindings (values.map fun value => (value, pure declared))
    | _ => return bindings

def bindFunction (search : Search) (bindings : Bindings) (main : Signature) : Solve Bindings := do
  match main.returns with
  | none => return bindings
  | some declared =>
    S.forCurrent search bindings fun bindings source => do
      match ← lookup source with
      | .function sourceMain _ _ =>
        match sourceMain.returns with
        | some found => S.bindAt search found bindings (S.resolve declared)
        | none => return bindings
      | _ => return bindings

def bindUnion (search : Search) (bindings : Bindings) (parts : List Ty) : Solve Bindings :=
  parts.foldlM (fun bindings part => do
    (← S.resolvedMembers part).foldlM (S.bind search) bindings) bindings

/-- The keys and values at the present position against those of a `table<K, V>`. -/
def bindTable (search : Search) (bindings : Bindings) (key value : Ty) : Solve Bindings := do
  let key ← S.resolve key
  let value ← S.resolve value
  let pairs (foundKey foundValue : Ty) : List (Ty × Solve Ty) :=
    [(foundKey, pure key), (foundValue, pure value)]
  S.forCurrent search bindings fun bindings source => do
    if source = Ty.table then S.bindPairs search bindings (pairs Ty.any Ty.any)
    else match ← lookup source with
      | .array element => S.bindPairs search bindings (pairs Ty.number element)
      | _ =>
        if !(← S.isShape source) then return bindings
        match ← tableArgs (← S.tableOfMembers source) with
        | some (foundKey, foundValue) => S.bindPairs search bindings (pairs foundKey foundValue)
        | none => return bindings

def bindArgs (search : Search) (bindings : Bindings) (base : Ty) (args : List Ty) : Solve Bindings := do
  let declaredBase ← S.resolve base
  S.forCurrent search bindings fun bindings source => do
    match ← lookup source with
    | .generic sourceBase sourceArgs =>
      let bindings ←
        if sourceBase = declaredBase then pure bindings
        else S.bindAt search sourceBase bindings (pure declaredBase)
      S.bindPairs search bindings
        ((sourceArgs.zip args).map fun (found, declared) => (found, S.resolve declared))
    | _ => return bindings

def bindInstance (search : Search) (bindings : Bindings) (declared base : Ty) (args : List Ty) :
    Solve Bindings := do
  let bindings ← match decide (base = Ty.table), args with
    | true, [key, value] => S.bindTable search bindings key value
    | _, _ =>
      if ← S.isShape base then S.bindShape search bindings declared else pure bindings
  S.bindArgs search bindings base args

def bindForm (search : Search) (bindings : Bindings) (declared : Ty) : Solve Bindings := do
  match ← lookup declared with
  | .aliasRef _ _ target => S.bind search bindings target
  | .results types variadic => S.bindResults search bindings ⟨types, variadic⟩
  | .classRef _ _ => S.bindClass search bindings declared
  | .param name _ _ => S.bindParam search bindings name
  | .union parts => S.bindUnion search bindings parts
  | .array element => S.bindArray search bindings element
  | .function main _ _ => S.bindFunction search bindings main
  | .generic base args => S.bindInstance search bindings declared base args
  | _ => return bindings

/-! ## Analyses -/

def startSearch (params : List Ty) (callNodes : List Node) : Solve Search := do
  let named ← ofTypes fun t => params.filterMap fun param =>
    match t.lookup param with
    | .param name _ _ => some (name, param)
    | _ => none
  return { params := .ofList named, callNodes, current := Ty.void, visiting := [] }

def analyze (search : Search) (bindings : Bindings) (arg declared : Ty) : Solve Bindings :=
  S.bindAt search arg bindings (S.resolve declared)

def finishBindings (search : Search) (bindings : Bindings) : Solve Bindings := do
  let found := bindings.entries.filter fun (_, type) => !type.isVoid
  ofTypes fun t => search.params.entries.foldl (fun bindings (name, param) =>
    match bindings.get? name, t.lookup param with
    | none, .param _ _ (some bound) => bindings.insert name bound
    | _, _ => bindings) ⟨found⟩

end Solver

/-! ## Rule -/

def Rule.bind (S : Solver) (search : Search) (bindings : Bindings) (declared : Ty) :
    Solve Bindings := do
  if ← isCanceled then return bindings
  if search.visiting.contains declared then return bindings
  S.bindForm { search with visiting := declared :: search.visiting } bindings declared

end AnnotatedLua
