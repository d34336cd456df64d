/-
Carrying out substitutions. A type is rebuilt from its parts, and keeps its handle if none of them
changed.
-/
import AnnotatedLua.Results

namespace AnnotatedLua

open Solve

namespace Solver

variable (S : Solver)

/-! ## Rebuilding -/

def substituteSingle (s : Substitution) (ty : Ty) : Solve Ty := do
  S.resultAt (← S.substitute ty s) 0

def substituteOptional (f : Ty → Solve Ty) : Option Ty → Solve (Option Ty)
  | some ty => return some (← f ty)
  | none => return none

def substituteParameter (s : Substitution) (p : Parameter) : Solve Parameter := do
  return { p with type := ← substituteOptional (S.substituteSingle s) p.type }

def substituteSignature (s : Substitution) (signature : Signature) : Solve Signature := do
  let params ← signature.params.mapM (S.substituteParameter s)
  let returns ← substituteOptional (S.substitute · s) signature.returns
  let variadic ← substituteOptional (S.substituteSingle s) signature.variadic
  return { signature with params, returns, variadic }

def substituteInstance (s : Substitution) (ty base : Ty) (args : List Ty) : Solve Ty := do
  let newArgs ← args.mapM (S.substituteSingle s)
  let newBase ← S.substitute base s
  if newArgs = args && newBase = base then return ty
  intern (.generic newBase newArgs)

def substituteFunction (s : Substitution) (ty : Ty) (main : Signature) (overloads : List Signature)
    (marks : Marks) : Solve Ty := do
  let newMain ← S.substituteSignature s main
  let newOverloads ← overloads.mapM (S.substituteSignature s)
  if newMain = main && newOverloads = overloads then return ty
  intern (.function newMain newOverloads marks)

def substituteArray (s : Substitution) (ty element : Ty) : Solve Ty := do
  let newElement ← S.substituteSingle s element
  if newElement = element then return ty
  intern (.array newElement)

def substituteUnion (s : Substitution) (ty : Ty) (parts : List Ty) : Solve Ty := do
  let newParts ← parts.mapM (S.substitute · s)
  if newParts = parts then return ty
  S.unionAll newParts

def runningUnions (acc : Option Ty) : List Ty → Solve (List Ty)
  | [] => return []
  | ty :: rest => do
    let next ← S.unionWith acc ty
    return next :: (← runningUnions (some next) rest)

/-- What takes the place of an item that changed: a list of values is put in place of the item. In a
variadic list each of its values is widened by those before it, since the last type stands for all
that follow. The flag says whether a variadic list came in. -/
def spliceItem (variadic : Bool) (ty : Ty) : Solve (List Ty × Bool) := do
  match ← lookup ty with
  | .results types nested =>
    if variadic then return (← S.runningUnions none types, false)
    return (types, nested)
  | _ => return ([ty], false)

/-- The items of a list with a substitution made in them, whether one of them changed, and whether the
last one brought in a variadic list. -/
def substituteItems (s : Substitution) (variadic : Bool) : List Ty → Solve (List Ty × Bool × Bool)
  | [] => return ([], false, false)
  | item :: rest => do
    let newItem ← S.substitute item s
    let (here, opened) ← if newItem = item then pure ([item], false) else S.spliceItem variadic newItem
    let (after, changed, openedAfter) ← substituteItems s variadic rest
    return (here ++ after, changed || newItem != item, openedAfter || (opened && rest.isEmpty))

def substituteResults (s : Substitution) (ty : Ty) (types : List Ty) (variadic : Bool) : Solve Ty := do
  let (newTypes, changed, opened) ← S.substituteItems s variadic types
  if changed then intern (.results newTypes (variadic || opened)) else return ty

/-! ## Names -/

def substituteEach (links : List Substitution) (ty : Ty) : Solve Ty :=
  links.foldlM (fun ty link => S.substitute ty link) ty

def expandAlias (expanding : List Symbol) (ty : Ty) (name : Symbol) (params : List Ty) (target : Ty) :
    Solve Ty :=
  if !params.isEmpty || expanding.contains name then return ty
  else S.substitute target (.aliases (name :: expanding))

def aliasOfBase (base : Ty) : Solve (Option Ty) := do
  match ← lookup base with
  | .aliasRef _ _ _ => return some base
  | .classRef name marks => if marks.isVariable then return none else aliasType name
  | _ => return none

/-- Expands an instance of an alias; one that is being expanded is `void`. -/
def expandInstance (expanding : List Symbol) (ty base : Ty) (args : List Ty) : Solve Ty := do
  match ← aliasOfBase base with
  | none => S.substituteInstance (.aliases expanding) ty base args
  | some type =>
    match ← lookup type with
    | .aliasRef name params target =>
      if expanding.contains name then return Ty.void
      let bindings ← ofTypes (Bindings.ofArgs · params args)
      let instantiated ← S.substitute target (.params bindings)
      S.substitute instantiated (.aliases (name :: expanding))
    | _ => S.substituteInstance (.aliases expanding) ty base args

def expandClass (expanding : List Symbol) (ty : Ty) (name : Symbol) (marks : Marks) : Solve Ty := do
  if marks.isVariable then return ty
  match ← aliasType name with
  | some type => S.substitute type (.aliases expanding)
  | none => return ty

def instantiateTable (bindings : Bindings) (ty : Ty) (name : Symbol) (marks : Marks) : Solve Ty := do
  if !marks.structural || marks.literalTable then return ty
  match ← classDecl name with
  | none => return ty
  | some decl =>
    if decl.tableNode.isNone || decl.params.isEmpty then return ty
    let args ← decl.params.mapM (S.substitute · (.params bindings))
    if args = decl.params then return ty
    intern (.generic ty args)

def bindScoped (node : Node) (ty : Ty) (name : Symbol) (marks : Marks) : Solve Ty := do
  if marks != Marks.none then return ty
  match ← scopedType node name with
  | none => return ty
  | some type => return if (← kind type) == .param then type else ty

def resolveBound (ty : Ty) (name written : Symbol) (bound : Option Ty) : Solve Ty := do
  match bound with
  | none => return ty
  | some bound =>
    let newBound ← S.substitute bound .bounds
    if newBound = bound then return ty
    intern (.param name written (some newBound))

def resolveInBound (ty : Ty) (name : Symbol) : Solve Ty := do
  if !(← S.willResolve ty) then return ty
  let resolved ← S.resolve ty
  if resolved = ty then return ty
  return (← withExpansion name (S.substitute resolved .bounds)).getD ty

end Solver

/-! ## Rules -/

namespace Rule

variable (S : Solver)

def substituteAlias (ty : Ty) (name : Symbol) (params : List Ty) (target : Ty) :
    Substitution → Solve Ty
  | .aliases expanding => S.expandAlias expanding ty name params target
  | .chain links => S.substituteEach links ty
  | _ => return ty

def substituteClass (ty : Ty) (name : Symbol) (marks : Marks) : Substitution → Solve Ty
  | .aliases expanding => S.expandClass expanding ty name marks
  | .params bindings => S.instantiateTable bindings ty name marks
  | .receiver receiver => return if ← ofTypes (·.isSelfClass ty) then receiver else ty
  | .scope node => Solver.bindScoped node ty name marks
  | .bounds => S.resolveInBound ty name
  | .chain links => S.substituteEach links ty

def substituteParam (ty : Ty) (name written : Symbol) (bound : Option Ty) : Substitution → Solve Ty
  | .params bindings => return (bindings.get? name).getD ty
  | .bounds => S.resolveBound ty name written bound
  | .chain links => S.substituteEach links ty
  | _ => return ty

def substituteGeneric (ty base : Ty) (args : List Ty) : Substitution → Solve Ty
  | .aliases expanding => S.expandInstance expanding ty base args
  | .chain links => S.substituteEach links ty
  | s => S.substituteInstance s ty base args

def substituteFunction (ty : Ty) (main : Signature) (overloads : List Signature) (marks : Marks) :
    Substitution → Solve Ty
  | .chain links => S.substituteEach links ty
  | s => S.substituteFunction s ty main overloads marks

def substitute (ty : Ty) (s : Substitution) : Solve Ty := do
  match ← lookup ty with
  | .aliasRef name params target => substituteAlias S ty name params target s
  | .classRef name marks => substituteClass S ty name marks s
  | .param name written bound => substituteParam S ty name written bound s
  | .generic base args => substituteGeneric S ty base args s
  | .function main overloads marks => substituteFunction S ty main overloads marks s
  | .array element => S.substituteArray s ty element
  | .union parts => S.substituteUnion s ty parts
  | .results types variadic => S.substituteResults s ty types variadic
  | _ => return ty

end Rule

end AnnotatedLua
