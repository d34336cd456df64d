/-
Walks over members. The own members of a class come first, then those of the class it shares its
members with, then the inherited ones that are not overridden. A visitor may stop the walk.
-/
import AnnotatedLua.Substitute

namespace AnnotatedLua.Solver

open Solve

variable (S : Solver)

/-- What is done at each member: the state is carried along, and `false` stops the walk. -/
abbrev Visitor (σ : Type) := σ → Member → Solve (σ × Bool)

structure Walked (σ : Type) where
  state : σ
  visited : List Ty
  complete : Bool

def visitOwn {σ : Type} (visit : Visitor σ) : List Member → σ → Solve (σ × Option Bool)
  | [], state => return (state, none)
  | member :: rest, state => do
    if ← isCanceled then return (state, some true)
    let (state, go) ← visit state member
    if go then visitOwn visit rest state else return (state, some false)

def ownMembers (decl : ClassDecl) : Solve (List Member) := do
  match decl.otherName with
  | none => return decl.members
  | some other =>
    if other = decl.name then return decl.members
    match ← classDecl other with
    | some otherDecl => return decl.members ++ otherDecl.members
    | none => return decl.members

def isOverridden (seen : List Member) (member : Member) : Solve Bool :=
  seen.anyM fun earlier =>
    match earlier.key, member.key with
    | .field a, .field b => return a = b
    | .index a, .index b => if a = b then return true else S.accepts a b { strictAny := true }
    | _, _ => return false

def keeping {σ : Type} (visit : Visitor σ) : Visitor (σ × List Member) :=
  fun (state, kept) member => do
    let (state, go) ← visit state member
    return ((state, kept ++ [member]), go)

def inheriting {σ : Type} (seen : List Member) (visit : Visitor σ) : Visitor (σ × List Member) :=
  fun (state, kept) member => do
    if ← S.isOverridden seen member then return ((state, kept), true)
    keeping visit (state, kept) member

abbrev Walker :=
  {σ : Type} → Visitor σ → (deep : Bool) → Ty → (visited : List Ty) → σ → Solve (Walked σ)

/-- Goes on to the superclasses of a type, when the walk is deep and was not stopped. `own` are the
members of the type itself. -/
def walkSupers {σ : Type} (walk : Walker) (visit : Visitor σ) (ty : Ty) (own : List Member)
    (visited : List Ty) (state : σ) : Solve (Walked σ) := do
  let ((state, visited, _), complete) ← S.visitSupers
    (fun (state, visited, seen) super => do
      let w ← walk (S.inheriting seen visit) false super visited (state, [])
      return ((w.state.1, w.visited, seen ++ w.state.2), w.complete))
    ty (state, visited, own)
  return ⟨state, visited, complete⟩

def walkClass {σ : Type} (walk : Walker) (visit : Visitor σ) (deep : Bool) (ty : Ty) (name : Symbol)
    (visited : List Ty) (state : σ) : Solve (Walked σ) := do
  match ← classDecl name with
  | none =>
    if deep then S.walkSupers walk visit ty [] visited state else return ⟨state, visited, true⟩
  | some decl =>
    let own ← ownMembers decl
    let (state, outcome) ← visitOwn visit own state
    match outcome with
    | some complete => return ⟨state, visited, complete⟩
    | none =>
      if deep then S.walkSupers walk visit ty own visited state else return ⟨state, visited, true⟩

def walkInstance {σ : Type} (walk : Walker) (visit : Visitor σ) (deep : Bool) (ty base : Ty)
    (visited : List Ty) (state : σ) : Solve (Walked σ) := do
  let w ← walk (keeping visit) false base visited (state, [])
  if w.complete && deep then S.walkSupers walk visit ty w.state.2 w.visited w.state.1
  else return ⟨w.state.1, w.visited, w.complete⟩

def walkForm {σ : Type} (walk : Walker) (visit : Visitor σ) (deep : Bool) (ty : Ty)
    (visited : List Ty) (state : σ) : Solve (Walked σ) := do
  match ← lookup ty with
  | .classRef name _ =>
    let resolved ← S.resolve ty
    if resolved = ty then S.walkClass walk visit deep ty name visited state
    else walk visit deep resolved visited state
  | .param _ _ (some bound) => walk visit deep bound visited state
  | .generic base _ => S.walkInstance walk visit deep ty base visited state
  | .primitive kind =>
    let library ← store (.classNamed kind.name Marks.none)
    walk visit deep library visited state
  | .literal kind _ => walk visit deep kind.type visited state
  | .aliasRef _ _ _ =>
    let resolved ← S.resolve ty
    if resolved = ty then return ⟨state, visited, true⟩ else walk visit deep resolved visited state
  | _ => return ⟨state, visited, true⟩

def walkWithin (n : Nat) {σ : Type} (visit : Visitor σ) (deep : Bool) (ty : Ty) (visited : List Ty)
    (state : σ) : Solve (Walked σ) :=
  match n with
  | 0 => exhausted
  | n + 1 =>
    if visited.contains ty then return ⟨state, visited, true⟩
    else S.walkForm (walkWithin n) visit deep ty (ty :: visited) state

/-- Visits the members of a type, the inherited ones too if the walk is deep. The answer is `false` if
the visitor stopped it. -/
def visitMembers {σ : Type} (visit : Visitor σ) (deep : Bool) (ty : Ty) (state : σ) :
    Solve (σ × Bool) := do
  let w ← S.walkWithin S.budget visit deep ty [] state
  return (w.state, w.complete)

end AnnotatedLua.Solver
