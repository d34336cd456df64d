/-
Calls: which signature a call binds to. Those that can take as many arguments are tried in order,
and the first one without an error is taken. If there is none, the call still has a return type.
-/
import AnnotatedLua.Binding

namespace AnnotatedLua

open Solve

/-! ## Call sites -/

structure Argument where
  node : Node
  type : Ty
  /-- Whether a table constructor is written as the argument. -/
  isTable : Bool
  deriving DecidableEq, Repr

structure CallSite where
  /-- The call itself; missing arguments show here. -/
  node : Node
  args : List Argument
  /-- Called with a colon. -/
  colon : Bool
  /-- The type of what the callee was reached through. -/
  receiver : Option Ty
  deriving DecidableEq, Repr

structure Accepted where
  signature : Signature
  instantiated : Signature
  deriving DecidableEq, Repr

structure CallMatch where
  accepted : Option Accepted
  returns : Ty
  deriving DecidableEq, Repr

inductive CallError where
  | canceled
  deriving DecidableEq, Repr

def CallError.message : CallError → String
  | .canceled => "type query canceled"

structure CallAnswer where
  outcome : Except CallError (Option CallMatch)
  problems : List Problem

namespace Solver

variable (S : Solver)

def inferCallSite (node : Node) (args : List Node) : Solve CallSite := do
  let args ← args.zipIdx.mapM fun (arg, i) => do
    let inferred ← withListEntry (i + 1 == args.length) (S.infer arg)
    let type := inferred.getD Ty.any
    return { node := arg, type, isTable := ← isInlineTable type arg }
  return { node, args, colon := false, receiver := none }

/-! ## Values -/

structure Passed where
  type : Ty
  arg : Argument

structure PassedValues where
  values : List Passed
  /-- What the last argument gives any number of. -/
  variadic : Option Passed

def argumentResults (last : Bool) (arg : Argument) : Solve Results := do
  match (← S.asResults arg.type).filter (fun _ => last) with
  | some results => return results
  | none => return ⟨[← S.resultAt arg.type 0], false⟩

def argumentLists : List Argument → Solve (List (Argument × Results))
  | [] => return []
  | arg :: rest => do
    let results ← S.argumentResults rest.isEmpty arg
    return (arg, results) :: (← argumentLists rest)

def splitVariadic (results : Results) : List Ty × Option Ty :=
  if results.variadic then (results.types.dropLast, results.types.getLast?) else (results.types, none)

def passedValues (call : CallSite) : Solve PassedValues := do
  let lists ← S.argumentLists call.args
  let values := lists.flatMap fun (arg, results) => (splitVariadic results).1.map (Passed.mk · arg)
  let variadic := lists.getLast?.bind fun (arg, results) =>
    (splitVariadic results).2.map (Passed.mk · arg)
  return { values, variadic }

/-! ## Instantiation -/

def analyzedTypes (call : CallSite) : Solve (List Ty) := do
  let receiver := if call.colon then call.receiver.toList else []
  let lists ← S.argumentLists call.args
  return receiver ++ lists.flatMap fun (_, results) => results.types

def inferBindings (signature : Signature) (call : CallSite) : Solve Bindings := do
  let types ← S.analyzedTypes call
  let search ← startSearch signature.typeParams (call.args.map Argument.node)
  let bindings ← (declaredParameters signature).foldlM (fun bindings (param, index) =>
    match types[index]?, param.type with
    | some arg, some declared => S.analyze search bindings arg declared
    | _, _ => return bindings) Bindings.empty
  let next := ((declaredParameters signature).getLast?.map (·.2 + 1)).getD 0
  let bindings ← match signature.variadic with
    | some declared =>
      (types.drop next).foldlM (fun bindings arg => S.analyze search bindings arg declared) bindings
    | none => pure bindings
  finishBindings search bindings

def callSubstitution (signature : Signature) (call : CallSite) : Solve Substitution := do
  let receiver := call.receiver.toList.map Substitution.receiver
  if !signature.isGeneric then return .chain receiver
  return .chain (receiver ++ [.params (← S.inferBindings signature call)])

/-! ## Arguments -/

def checkArgument (wanted : Bool) (param : Ty) (value : Passed) (wider : Reason → Reason) :
    Solve Verdict := do
  let mode : Mode := { widenTables := value.arg.isTable }
  if !wanted then return ⟨← S.accepts param value.type mode, []⟩
  return (← S.check true param value.type mode none value.arg.node).widen wider

structure Attempt where
  wanted : Bool
  signature : Signature
  call : CallSite
  passed : PassedValues

namespace Attempt

def isFromResults (a : Attempt) (position : Nat) : Bool :=
  let written := a.call.args.length
  let count := a.passed.values.length
  written ≤ position && (written < count || (a.passed.variadic.isSome && written ≤ count))

def wider (a : Attempt) (position : Nat) (isSelf : Bool) (reason : Reason) : Reason :=
  let reason := if a.isFromResults position then .inResult (position + 1) reason else reason
  if isSelf then .meantColon reason else reason

end Attempt

def missingArgument (a : Attempt) (param : Parameter) (isSelf : Bool) : Solve Verdict := do
  if !a.wanted then return .rejectSilently
  let reason ←
    if isSelf then pure .missingSelf
    else pure (.missingArgument (← text param.name) (← name param.typeOrAny))
  return .reject true (.error none a.call.node reason)

/-- The outcome for one parameter. If no value is passed for it, that is an error, and the values that
may come after the last one are checked, too. -/
def checkParameter (a : Attempt) (selfSymbol : Symbol) (position : Nat) (param : Parameter) :
    Solve Verdict := do
  let isSelf := !a.call.colon && position == 0 && param.name == selfSymbol
  match a.passed.values[position]? with
  | some value => S.checkArgument a.wanted param.typeOrAny value (a.wider position isSelf)
  | none =>
    if param.optional then return .accept
    let missing ← missingArgument a param isSelf
    match a.passed.variadic with
    | none => return missing
    | some value =>
      return missing.and (← S.checkArgument a.wanted param.typeOrAny value (a.wider position isSelf))

/-- Whether the parameter ends the check when problems are not wanted: a value was looked at, and
there is an error by now. -/
def endsCheck (a : Attempt) (position : Nat) (param : Parameter) (verdict : Verdict) : Bool :=
  let looked := a.passed.values[position]?.isSome || (!param.optional && a.passed.variadic.isSome)
  looked && !verdict.accepted && !a.wanted

def checkParameters (a : Attempt) (selfSymbol : Symbol) : List (Parameter × Nat) → Verdict → Solve Verdict
  | [], before => return before
  | (param, position) :: rest, before => do
    let verdict := before.and (← S.checkParameter a selfSymbol position param)
    if endsCheck a position param verdict then return verdict
    checkParameters a selfSymbol rest verdict

def checkVariadic (a : Attempt) (variadic : Ty) (values : List Passed) : Solve Verdict :=
  values.foldlM (fun before value => do
    let type ← S.resultAt value.type 0
    return before.and (← S.checkArgument a.wanted variadic { value with type } id)) .accept

/-- The outcome for values that there is no parameter for: too many written arguments are an error,
values that a list gives beyond them are not used. -/
def checkExcess (a : Attempt) (count : Nat) : Verdict :=
  if count < a.call.args.length then
    let problems := (a.call.args.drop count).map fun arg => Problem.error none arg.node .tooManyArguments
    ⟨false, if a.wanted then problems else []⟩
  else match a.call.args.getLast? with
    | some last =>
      let reason := Reason.excessResults (a.passed.values.length - count)
      ⟨true, if a.wanted then [.weakWarning none last.node reason] else []⟩
    | none => .accept

def checkRest (a : Attempt) (count : Nat) : Solve Verdict := do
  if count < a.passed.values.length then
    match a.signature.variadic with
    | some variadic => S.checkVariadic a variadic (a.passed.values.drop count)
    | none => return checkExcess a count
  else match a.signature.variadic, a.passed.variadic with
    | some variadic, some value => S.checkArgument a.wanted variadic value .inVariadicResult
    | _, _ => return .accept

def checkCandidate (a : Attempt) : Solve Verdict := do
  let selfSymbol ← store (.symbol selfName)
  let params ← store (callParameters a.signature a.call.receiver a.call.colon)
  let verdict ← S.checkParameters a selfSymbol params.zipIdx .accept
  if !verdict.accepted && !a.wanted then return verdict
  return verdict.and (← S.checkRest a params.length)

/-! ## Matching -/

def returnType (signature : Signature) : Solve Ty :=
  match signature.returns with
  | some type => return type
  | none => store .anyResults

structure Refusal where
  signature : Signature
  problems : List Problem

def refusalProblems (several : Bool) (refusals : List Refusal) : Solve (List Problem) :=
  ofTypes fun t => refusals.flatMap fun r =>
    if several then r.problems.map (·.widen (.inSignature · (t.renderSignature r.signature)))
    else r.problems

def fallbackAfter (fallback : Option Ty) (instantiated : Signature) : Solve (Option Ty) := do
  if fallback.isSome || instantiated.returns = some Ty.void then return fallback
  return some (← returnType instantiated)

structure Matching where
  wanted : Bool
  call : CallSite
  passed : PassedValues

structure Trial where
  instantiated : Signature
  verdict : Verdict

def trySignature (m : Matching) (signature : Signature) : Solve Trial := do
  let substitution ← S.callSubstitution signature m.call
  let instantiated ← S.substituteSignature substitution signature
  let verdict ← S.checkCandidate
    { wanted := m.wanted, signature := instantiated, call := m.call, passed := m.passed }
  return { instantiated, verdict }

/-- Tries the signatures in order, after those that did not accept the call. A query that was canceled
on the way may have missed an error, so it has no match. -/
def trySignatures (m : Matching) (several : Bool) :
    List Signature → List Refusal → Option Ty → Solve CallAnswer
  | [], refusals, fallback => do
    return ⟨.ok (some ⟨none, fallback.getD Ty.void⟩), ← refusalProblems several refusals⟩
  | signature :: rest, refusals, fallback => do
    if ← isCanceled then return ⟨.error .canceled, []⟩
    let trial ← S.trySignature m signature
    if ← isCanceled then return ⟨.error .canceled, []⟩
    if trial.verdict.accepted then
      let returns ← returnType trial.instantiated
      return ⟨.ok (some ⟨some ⟨signature, trial.instantiated⟩, returns⟩), trial.verdict.problems⟩
    let fallback ← fallbackAfter fallback trial.instantiated
    trySignatures m several rest (refusals ++ [⟨signature, trial.verdict.problems⟩]) fallback

/-- The signature that a call of `callable` binds to, with the problems if they are wanted: those of
the accepted signature, which are warnings, or those of all candidates. -/
def matchCall (wanted : Bool) (callable : Ty) (call : CallSite) : Solve CallAnswer := do
  if ← isCanceled then return ⟨.error .canceled, []⟩
  let passed ← S.passedValues call
  let candidates ← S.candidates callable call.args.length call.colon
  if candidates.isEmpty then return ⟨.ok none, []⟩
  S.trySignatures { wanted, call, passed } (1 < candidates.length) candidates [] none

end Solver

end AnnotatedLua
