/-
Resolution: what a name stands for. A class that is named after an alias stands for the alias, an
alias for its target, an instance of a generic alias for the target with the arguments put in. Aliases
that only lead back to themselves stand for `void`. Superclasses are found here, too.
-/
import AnnotatedLua.Union

namespace AnnotatedLua

open Solve

/-! ## Steps of resolution -/

namespace Solver

variable (S : Solver)

def classMarks (ty : Ty) : Solve Marks := do
  match ← lookup ty with
  | .classRef name marks =>
    match ← classDecl name with
    | some decl => return marks.merge decl.marks
    | none => return marks
  | form => return form.marks

/-- What `base` stands for with the arguments put in. -/
def resolveWithArgs (base : Ty) (args : List Ty) : Solve Ty := do
  match ← lookup base with
  | .classRef name _ =>
    if !(← S.willResolve base) then return base
    match ← aliasType name with
    | some type => if args.isEmpty then return type else intern (.generic type args)
    | none => return base
  | .aliasRef _ params target =>
    if params.isEmpty || args.isEmpty then return target
    let bindings ← ofTypes (Bindings.ofArgs · params args)
    S.substitute target (.params bindings)
  | _ => return base

def resolveOne (ty : Ty) : Solve Ty := do
  match ← lookup ty with
  | .classRef name _ =>
    if !(← S.willResolve ty) then return ty
    return (← aliasType name).getD ty
  | .aliasRef _ _ target => return target
  | .generic base args =>
    let resolved ← S.resolveWithArgs base args
    return if resolved = base then ty else resolved
  | _ => return ty

/-! ## Resolution -/

def resolvePending : Nat → List Ty → List Ty → List Ty → Solve (List Ty)
  | _, [], _, out => return out
  | 0, _ :: _, _, _ => exhausted
  | n + 1, current :: pending, visited, out => do
    if ← isCanceled then return out
    if visited.contains current then resolvePending n pending visited out
    else
      let visited := current :: visited
      let resolved ← S.resolveOne current
      if resolved = current then
        resolvePending n pending visited (if out.contains current then out else out ++ [current])
      else
        resolvePending n ((← members resolved) ++ pending) visited out

def resolvedMembers (ty : Ty) : Solve (List Ty) := do
  let parts ← members ty
  if !(← parts.anyM S.willResolve) then return parts
  S.resolvePending S.budget parts (if 1 < parts.length then [ty] else []) []

def resolve (ty : Ty) : Solve Ty := do
  let parts ← members ty
  if !(← parts.anyM S.willResolve) then return ty
  let resolved ← S.resolvedMembers ty
  if resolved.length = parts.length && resolved.all parts.contains then return ty
  match resolved with
  | [] => return Ty.void
  | [single] => return single
  | _ => S.unionAll resolved

def genericBaseParams (base : Ty) : Solve (List Ty) := do
  match ← lookup base with
  | .classRef name _ =>
    if (← classMarks base).isVariable then S.paramsOf base
    else match ← aliasType name with
      | some type => S.paramsOf type
      | none => S.paramsOf base
  | _ => S.paramsOf base

/-! ## Superclasses -/

/-- Visits the superclasses of a type, from the nearest one. It ends when the visitor says so (the
answer is `false` then), at the end of the chain, or at a name that was already seen. -/
def visitSupersFrom {σ : Type} (visit : σ → Ty → Solve (σ × Bool)) :
    Nat → Ty → List String → σ → Solve (σ × Bool)
  | 0, _, _, _ => exhausted
  | n + 1, current, seen, state => do
    match ← S.superClass current with
    | none => return (state, true)
    | some next =>
      if ← isCanceled then return (state, true)
      let nextName ← name next
      if seen.contains nextName then return (state, true)
      let (state, go) ← visit state next
      if go then visitSupersFrom visit n next (nextName :: seen) state else return (state, false)

def visitSupers {σ : Type} (visit : σ → Ty → Solve (σ × Bool)) (start : Ty) (state : σ) :
    Solve (σ × Bool) := do
  S.visitSupersFrom visit S.budget start [← name start] state

/-! ## Properties of types -/

def isInlineTable (ty : Ty) (node : Node) : Solve Bool := do
  match ← lookup ty with
  | .classRef name marks =>
    if !marks.literalTable then return false
    match ← classDecl name with
    | some decl => return decl.tableNode == some node
    | none => return false
  | _ => return false

def truthOf (ty : Ty) : Form → Ty
  | .nil => Ty.falseLiteral
  | .literal _ _ => if ty = Ty.falseLiteral then Ty.falseLiteral else Ty.trueLiteral
  | .primitive .boolean => Ty.boolean
  | _ => Ty.trueLiteral

/-- What a value of the type is as a condition: `true`, `false`, or `boolean` if it may be either. -/
def truth (ty : Ty) : Solve Ty := do
  let parts ← S.resolvedMembers ty
  let truths ← ofTypes fun t => parts.map fun part => truthOf part (t.lookup part)
  match truths with
  | [] => return Ty.trueLiteral
  | first :: rest => return if rest.all (· = first) then first else Ty.boolean

end Solver

/-! ## Rules -/

namespace Rule

variable (S : Solver)

def willResolve (ty : Ty) : Solve Bool := do
  match ← lookup ty with
  | .classRef _ _ => return !(← Solver.classMarks ty).isVariable
  | .aliasRef _ _ _ => return true
  | .generic base _ => (← members base).anyM S.willResolve
  | _ => return false

def paramsOf (ty : Ty) : Solve (List Ty) := do
  match ← lookup ty with
  | .classRef name _ => return ((← classDecl name).map ClassDecl.params).getD []
  | .aliasRef _ params _ => return params
  | .generic base _ => S.paramsOf base
  | _ => return []

def classSuper (name : Symbol) : Solve (Option Ty) := do
  match (← classDecl name).bind ClassDecl.superClass with
  | some type => return some type
  | none =>
    match Text.beforeEnding? selfEnding (← text name) with
    | some owner => return some (← store (.classNamed owner Marks.none))
    | none => return none

def instanceSuper (base : Ty) (args : List Ty) : Solve (Option Ty) := do
  match ← S.superClass base with
  | none => return none
  | some type =>
    if (← kind type) != .generic then return some type
    let params ← S.paramsOf base
    if params.isEmpty then return some type
    let bindings ← ofTypes (Bindings.ofArgs · params args)
    return some (← S.substitute type (.params bindings))

def superClass (ty : Ty) : Solve (Option Ty) := do
  match ← lookup ty with
  | .literal kind _ => return some kind.type
  | .classRef name _ => classSuper name
  | .param _ _ bound => return bound
  | .generic base args => instanceSuper S base args
  | _ => return none

def isShape (ty : Ty) : Solve Bool := do
  match ← lookup ty with
  | .classRef _ _ =>
    let resolved ← S.resolve ty
    if resolved = ty then return (← Solver.classMarks ty).structural
    S.isShape resolved
  | .generic base _ => S.isShape base
  | _ => return false

end Rule

end AnnotatedLua
