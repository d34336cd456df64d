/-
The state of a query. A query reads a context (declarations, settings), and works on a session: the
types, the recursion guard, the lookups made so far, and the scopes it stands in. It may run out of
the budget it was given; then it has no answer.
-/
import AnnotatedLua.Declaration
import AnnotatedLua.Guard
import AnnotatedLua.Settings.Json
import AnnotatedLua.Type.Intern

namespace AnnotatedLua

/-! ## Guarded activities -/

inductive Activity where
  /-- Comparing two members of a union. -/
  | union
  /-- Comparing a type with a shape. -/
  | shape
  /-- Going from a type to its superclass. -/
  | superClass
  /-- Comparing a type with an instance of a generic shape. -/
  | genericShape
  /-- Comparing an alias with a type for equality. -/
  | aliasEquality
  /-- Comparing two shapes for equality. -/
  | shapeEquality
  /-- Finding what the members of a type are instantiated with. -/
  | memberSubstitution
  /-- Inferring the type of an expression. -/
  | inference
  /-- An activity of the program that asks. -/
  | host
  deriving DecidableEq, Repr

inductive Subject where
  | node (node : Node)
  | type (type : Ty)
  | pair (first second : Ty)
  | name (name : Symbol)
  deriving DecidableEq, Repr

structure GuardKey where
  activity : Activity
  blind : Bool
  subject : Subject
  deriving DecidableEq, Repr

/-! ## Context and session -/

structure Context where
  provider : Provider
  settings : Settings := {}
  /-- Whether the query takes notice of a cancellation. -/
  cancellable : Bool := true

def allResults : Int := -1

structure Session where
  types : TypeTable
  guard : Guard GuardKey
  /-- Names that are being expanded. -/
  expanding : List Symbol := []
  /-- Which value of an expression is wanted; negative for all of them. -/
  position : Int := 0
  /-- Whether more than one value is of use. -/
  several : Bool := false
  /-- Whether declarations are left alone. -/
  blind : Bool := false
  classes : Std.TreeMap Symbol (Option ClassDecl) := ∅
  aliases : Std.TreeMap Symbol (Option Ty) := ∅
  /-- The types found for expressions, before scoped names are bound. -/
  inferred : Std.TreeMap Node Ty := ∅
  canceled : Bool := false
  /-- The number of inferences that the declarations were asked for. -/
  inferences : Nat := 0

def Session.start (types : TypeTable) (limits : Limits) : Session :=
  { types, guard := .ofLimits limits }

abbrev Solve := ReaderT Context (StateT Session Option)

namespace Solve

def exhausted {α : Type} : Solve α := fun _ _ => none

/-! ## Types -/

def ofTypes {α : Type} (f : TypeTable → α) : Solve α := return f (← get).types

def lookup (ty : Ty) : Solve Form := ofTypes (·.lookup ty)

def kind (ty : Ty) : Solve Kind := ofTypes (·.kind ty)

def text (s : Symbol) : Solve String := ofTypes (·.text s)

def members (ty : Ty) : Solve (List Ty) := ofTypes (·.members ty)

def store {α : Type} (act : Interning α) : Solve α := do
  let types ← modifyGet fun s => (s.types, { s with types := TypeTable.initial })
  let (a, types) := act types
  modifyGet fun s => (a, { s with types })

def intern (form : Form) : Solve Ty := store (.form form)

def name (ty : Ty) : Solve String := store (.nameOf ty)

/-! ## Cancellation -/

def isCanceled : Solve Bool := return (← read).cancellable && (← get).canceled

/-! ## Scopes -/

def isBlind : Solve Bool := return (← get).blind || (← read).provider.blind

def withBlind {α : Type} (act : Solve α) : Solve α := do
  let before := (← get).blind
  modify fun s => { s with blind := true }
  let a ← act
  modify fun s => { s with blind := before }
  return a

def withPosition {α : Type} (position : Int) (several : Bool) (act : Solve α) : Solve α := do
  let before ← get
  let (position₀, several₀) := (before.position, before.several)
  modify fun s => { s with position, several }
  let a ← act
  modify fun s => { s with position := position₀, several := several₀ }
  return a

def withAllResults {α : Type} (act : Solve α) : Solve α := withPosition allResults true act

def withListEntry {α : Type} (last : Bool) (act : Solve α) : Solve α :=
  if last then withAllResults act else withPosition 0 false act

def withGuard {α : Type} (activity : Activity) (subject : Subject) (act : Solve α) :
    Solve (Option α) := do
  let key : GuardKey := ⟨activity, ← isBlind, subject⟩
  let admission ← modifyGet fun s =>
    let (admission, guard) := s.guard.enter key
    (admission, { s with guard })
  match admission with
  | .entered =>
    let a ← act
    modify fun s => { s with guard := s.guard.leave key }
    return some a
  | _ => return none

def withExpansion {α : Type} (name : Symbol) (act : Solve α) : Solve (Option α) := do
  if (← get).expanding.contains name then return none
  modify fun s => { s with expanding := name :: s.expanding }
  let a ← act
  modify fun s => { s with expanding := s.expanding.erase name }
  return some a

/-! ## Declarations -/

def classDecl (name : Symbol) : Solve (Option ClassDecl) := do
  if ← isBlind then return none
  match (← get).classes[name]? with
  | some decl => return decl
  | none =>
    let provider := (← read).provider
    let decl := provider.classDecl name
    modify fun s =>
      { s with
        classes := s.classes.insert name decl
        canceled := s.canceled || provider.cancels name }
    return decl

def aliasType (name : Symbol) : Solve (Option Ty) := do
  if ← isBlind then return none
  match (← get).aliases[name]? with
  | some type => return type
  | none =>
    let type := (← read).provider.aliasType name
    modify fun s => { s with aliases := s.aliases.insert name type }
    return type

def scopedType (node : Node) (name : Symbol) : Solve (Option Ty) := do
  if ← isBlind then return none
  return (← read).provider.scopedType node name

def parent (node : Node) : Solve (Option Node) := return (← read).provider.parent node

def settings : Solve Settings := return (← read).settings

end Solve

end AnnotatedLua
