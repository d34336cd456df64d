/-
Acceptance: whether a value of one type may stand where another is required. Every form of target
starts from one rule (`acceptsBase`) and adds its own.
-/
import AnnotatedLua.Check

namespace AnnotatedLua

open Solve

namespace Solver

variable (S : Solver)

/-! ## The common rule -/

def isLenient (source : Ty) (mode : Mode) : Solve Bool := do
  let strictNil := mode.strictNil || (← settings).strictNil
  return (source.isAny && !mode.strictAny) || (source.isNil && !strictNil)

def acceptsSuper (target source : Ty) (mode : Mode) : Solve Bool := do
  match ← S.superClass source with
  | none => return false
  | some type =>
    let answer ← withGuard .superClass (.pair target type) (S.accepts target type mode)
    return answer.getD false

/-- Whether the target, a shape, accepts the members of the source. A pair that is being compared is
taken to be related. -/
def acceptsShapeOf (target source : Ty) (mode : Mode) : Solve Bool := do
  let answer ← withGuard .shape (.pair target source) (S.acceptsMembers
    { wanted := false, target, source, mode, targetNode := none, sourceNode := none })
  return (answer.map Verdict.accepted).getD true

/-- Whether the target accepts a source that is no union and stands for nothing else, by its members
or by its superclass. -/
def acceptsSingle (target source : Ty) (form : Form) (mode : Mode) : Solve Bool := do
  let structural := !mode.nominal || form.marks.literalTable
  let hasMembers := form.kind == .classRef || form.kind == .generic
  if ← pure (structural && hasMembers) <&&> S.isShape target then S.acceptsShapeOf target source mode
  else S.acceptsSuper target source mode

def acceptsBase (target source : Ty) (mode : Mode) : Solve Bool := do
  if ← isLenient source mode then return true
  let resolved ← S.resolve source
  if ← S.equal target resolved then return true
  if resolved ≠ source then return ← S.accepts target resolved mode
  match ← lookup source with
  | .union parts =>
    let counted ← ofTypes fun t => parts.filter (t.kind · != .snippet)
    counted.allM fun part => S.accepts target part mode
  | form => S.acceptsSingle target source form mode

/-! ## Targets -/

/-- `function` accepts functions, and `table` accepts what is a table, unless `any` is strict. -/
def acceptsAsPrimitive (kind : Primitive) (source : Ty) (form : Form) : Solve Bool := do
  match kind with
  | .function => return form.kind == .function
  | .table =>
    let base := match form with
      | .generic base _ => base
      | _ => source
    return form.kind == .array || (← Solve.kind base) == .classRef || base = Ty.table
  | _ => return false

def primitiveAccepts (kind : Primitive) (target source : Ty) (mode : Mode) : Solve Bool := do
  if ← S.acceptsBase target source mode then return true
  let resolved ← S.resolve source
  let form ← lookup resolved
  if form = .primitive kind then return true
  if mode.strictAny then return false
  acceptsAsPrimitive kind resolved form

/-- A literal never accepts `nil`, and accepts an unresolved class unless `any` is strict. -/
def literalAccepts (target source : Ty) (mode : Mode) : Solve Bool := do
  let resolved ← S.resolve source
  if resolved = target then return true
  if ← pure !mode.strictAny <&&> (return (← classMarks resolved).unresolved) then return true
  S.acceptsBase target source { mode with strictNil := true }

def acceptElements (element : Ty) (mode : Mode) : List Ty → Option Ty → Solve (Option Ty × Bool)
  | [], found => return (found, true)
  | value :: rest, found => do
    if ← S.accepts element value mode then
      acceptElements element mode rest (some (← S.unionWith found value))
    else return (found, false)

def visitArrayMember (element source : Ty) (mode : Mode) : Visitor (Option Ty) :=
  fun found member => do
    match member.index? with
    | none => return (found, true)
    | some index =>
      if ← pure (decide (index ≠ Ty.number)) <&&> (return (← integerKey index).isNone) then
        return (found, true)
      let values ← expandResults (← S.memberType source member)
      S.acceptElements element mode values found

def arrayAcceptsShape (element source : Ty) (mode : Mode) : Solve Bool := do
  let (found, accepted) ← S.visitMembers (S.visitArrayMember element source mode) true source none
  if !accepted then return false
  if mode.widenTables then return true
  let fits ← match found with
    | some union => S.equal element union
    | none => pure true
  return fits || (element.isAny && !mode.strictAny)

def arrayAccepts (target element source : Ty) (mode : Mode) : Solve Bool := do
  if ← S.acceptsBase target source mode then return true
  let resolved ← S.resolve source
  let element ← S.resolve element
  match ← lookup resolved with
  | .array sourceElement =>
    S.equal element sourceElement <||>
      (pure mode.widenTables <&&> S.accepts element sourceElement mode)
  | .classRef _ _ =>
    if ← S.isArray resolved then S.arrayAcceptsShape element resolved mode else return false
  | _ => return false

def classAccepts (target source : Ty) (mode : Mode) : Solve Bool := do
  if (← classMarks target).unresolved then return (← kind source) != .results
  let resolved ← S.resolve target
  if resolved = target then S.acceptsBase target source mode else S.accepts resolved source mode

def paramAccepts (target : Ty) (bound : Option Ty) (source : Ty) (mode : Mode) : Solve Bool :=
  if mode.openParams then
    match bound with
    | some bound => S.accepts bound source mode
    | none => return true
  else S.acceptsBase target source mode

/-! ## Instances -/

/-- Whether a `table<K, V>` accepts an array. -/
def tableAcceptsArray (target element : Ty) (mode : Mode) : Solve Bool := do
  match ← tableArgs target with
  | none => return false
  | some (key, value) =>
    if key = Ty.number || (key.isAny && !mode.strictAny) then
      S.equal value element <||> (pure mode.widenTables <&&> S.accepts value element mode)
    else return false

structure AsInstance where
  base : Ty
  args : List Ty
  narrower : Bool := false

/-- A source that is no instance as one of the base: a shape is a `table<K, V>`, and a class an
instance with its own parameters. `table` itself is none. -/
def sourceInstance (base : Ty) (args : List Ty) (source : Ty) (form : Form) (mode : Mode) :
    Solve (Option AsInstance) := do
  match form with
  | .generic otherBase otherArgs => return some { base := otherBase, args := otherArgs }
  | _ =>
    if base = Ty.table && args.length = 2 then
      if !(← S.isShape source) then return none
      match ← tableArgs (← S.tableOfMembers source) with
      | some (key, value) =>
        return some { base := Ty.table, args := [key, value], narrower := mode.widenTables }
      | none => return none
    else match form with
      | .classRef _ _ => return some { base := source, args := ← S.paramsOf source }
      | _ => return none

def argumentAccepts (mode : Mode) (narrower : Bool) (arg other : Ty) : Solve Bool := do
  if ← S.equal arg other then return true
  if !mode.strictAny && other.isAny then return true
  let isOpen := mode.openParams && (← kind arg) == .param
  if narrower || isOpen then S.accepts arg other mode else return false

def instanceAcceptsArgs (target base : Ty) (args : List Ty) (source : Ty) (form : Form) (mode : Mode) :
    Solve Bool := do
  let other ← S.sourceInstance base args source form mode
  match other with
  | none => S.acceptsBase target source mode
  | some other =>
    if ← S.equal base other.base then
      allEqual (S.argumentAccepts mode other.narrower) args other.args
    else S.acceptsBase target source mode

def instanceByMembers (base : Ty) (form : Form) (mode : Mode) : Solve Bool := do
  let sameBase ← match form with
    | .generic otherBase _ => S.equal otherBase base
    | _ => pure false
  if !(← S.isShape base) then return false
  let hasMembers := form.kind == .classRef || form.kind == .generic
  return (mode.widenTables || !sameBase) && hasMembers

def instanceAcceptsResolved (target base : Ty) (args : List Ty) (source : Ty) (mode : Mode) :
    Solve Bool := do
  let form ← lookup source
  if form.kind == .union then return ← S.acceptsBase target source mode
  let base ← S.resolve base
  if ← S.instanceByMembers base form mode then
    let answer ← withGuard .genericShape (.pair target source)
      (S.acceptsInstanceMembers target source mode)
    return answer.getD true
  match form with
  | .array element => S.tableAcceptsArray target element mode
  | _ =>
    if base = Ty.table && args.length = 2 && source = Ty.table then return args.all Ty.isAny
    S.instanceAcceptsArgs target base args source form mode

def instanceAccepts (target base : Ty) (args : List Ty) (source : Ty) (mode : Mode) : Solve Bool := do
  if ← isLenient source mode then return true
  let resolved ← S.resolve target
  if resolved ≠ target then return ← S.accepts resolved source mode
  S.instanceAcceptsResolved target base args (← S.resolve source) mode

/-! ## Functions and lists of values -/

/-- Whether a signature takes and returns anything, as `function` does. -/
def takesAnything (anyResults : Ty) (s : Signature) : Bool :=
  s.params.isEmpty && s.variadic == some Ty.any && (s.returns.isNone || s.returns == some anyResults)

def signaturesAccept (targets : List Signature) (source : Ty) (mode : Mode) : Solve Bool := do
  let resolved ← S.resolve source
  if resolved = Ty.function then
    let anyResults ← store .anyResults
    return targets.any (takesAnything anyResults)
  let sources ← S.signaturesOf resolved
  targets.anyM fun target => sources.anyM fun source => S.signatureAccepts target source mode

/-- Whether the positions of a list accept those of another; a variadic list goes on with its last
type, and what any other list has no position for is accepted. -/
def positionsAccept (mode : Mode) (last : Option Ty) : List Ty → List Ty → Solve Bool
  | _, [] => return true
  | target :: targets, source :: sources => do
    if ← S.accepts target source mode then positionsAccept mode last targets sources
    else return false
  | [], source :: sources => do
    match last with
    | none => return true
    | some target =>
      if ← S.accepts target source mode then positionsAccept mode last [] sources else return false

def resultsAccept (results : Results) (source : Ty) (mode : Mode) : Solve Bool := do
  let required := if results.variadic then results.types.length - 1 else results.types.length
  match ← lookup (← S.mergeResults source) with
  | .results types variadic =>
    if variadic && !results.variadic then return false
    if !variadic && types.length < required then return false
    let last := if results.variadic then results.types.getLast? else none
    S.positionsAccept mode last results.types types
  | _ =>
    if 1 < required then return false
    match results.types with
    | [] => return true
    | first :: _ => S.accepts first source mode

end Solver

/-! ## Rule -/

def Rule.accepts (S : Solver) (target source : Ty) (mode : Mode) : Solve Bool := do
  if target = source then return true
  match ← lookup target with
  | .any => return (← kind source) != .results
  | .nil => S.acceptsBase target source mode
  | .void => S.acceptsBase target source mode
  | .primitive kind => S.primitiveAccepts kind target source mode
  | .literal _ _ => S.literalAccepts target source mode
  | .array element => S.arrayAccepts target element source mode
  | .classRef _ _ => S.classAccepts target source mode
  | .param _ _ bound => S.paramAccepts target bound source mode
  | .aliasRef _ _ aliased =>
    S.accepts aliased source mode <||> S.acceptsBase target source mode
  | .union parts =>
    S.acceptsBase target source mode <||> parts.anyM fun part => S.accepts part source mode
  | .generic base args => S.instanceAccepts target base args source mode
  | .function main overloads _ =>
    S.acceptsBase target source mode <||> S.signaturesAccept (overloads ++ [main]) source mode
  | .results types variadic => S.resultsAccept ⟨types, variadic⟩ source mode
  | .snippet _ => S.acceptsBase target source mode

end AnnotatedLua
