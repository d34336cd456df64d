/-
Storing types. Storing a form that is already there gives its handle back. The first handles are
the builtin types, in every table.
-/
import AnnotatedLua.Type.Name

namespace AnnotatedLua

namespace TypeTable

/-! ## Storing a form -/

def withKey (t : TypeTable) (key : List Nat) : List Ty := t.byKey.getD key []

def find? (t : TypeTable) (form : Form) : Option Ty :=
  (t.withKey form.key).find? fun ty => t.forms[ty.index]? = some form

def push (t : TypeTable) (form : Form) : TypeTable :=
  let types := ⟨t.size⟩ :: t.withKey form.key
  { t with forms := t.forms.push form, byKey := t.byKey.insert form.key types }

def intern (t : TypeTable) (form : Form) : Ty × TypeTable :=
  match t.find? form with
  | some ty => (ty, t)
  | none => (⟨t.forms.size⟩, t.push form)

def internText (t : TypeTable) (text : String) : Symbol × TypeTable :=
  let (s, symbols) := t.symbols.intern text
  (s, { t with symbols })

/-! ## Builtin types -/

def initial : TypeTable :=
  let t : TypeTable := { symbols := SymbolTable.initial, forms := #[] }
  let (yes, t) := t.internText "true"
  let (no, t) := t.internText "false"
  [.any, .nil, .void, .primitive .boolean, .primitive .string, .primitive .number,
    .primitive .table, .primitive .function, .literal .boolean yes, .literal .boolean no].foldl
      (fun t form => (t.intern form).2) t

/-! ## Unions -/

def insertByName (t : TypeTable) (ty : Ty) : List Ty → List Ty
  | [] => [ty]
  | head :: rest =>
    if t.name ty ≤ t.name head then ty :: head :: rest else head :: t.insertByName ty rest

def sortByName (t : TypeTable) (types : List Ty) : List Ty :=
  types.foldr t.insertByName []

/-- Drops every type whose name is that of the type kept before it; `last` was kept. -/
def dropRepeatsAfter (t : TypeTable) (last : Ty) : List Ty → List Ty
  | [] => []
  | ty :: rest =>
    if t.name ty = t.name last then t.dropRepeatsAfter last rest
    else ty :: t.dropRepeatsAfter ty rest

def dropRepeats (t : TypeTable) : List Ty → List Ty
  | [] => []
  | ty :: rest => ty :: t.dropRepeatsAfter ty rest

/-- The union of two or more types that are no unions themselves. They are told apart by their
names, which are kept. -/
def unionOfSeveral (t : TypeTable) (types : List Ty) : Ty × TypeTable :=
  let t := types.foldl keepName t
  match t.dropRepeats (t.sortByName types) with
  | [ty] => (ty, t)
  | members => t.intern (.union members)

/-- The union of types that are no unions themselves: none is `void`, one is that type. -/
def unionOf (t : TypeTable) (types : List Ty) : Ty × TypeTable :=
  match types with
  | [] => (Ty.void, t)
  | [ty] => (ty, t)
  | _ => t.unionOfSeveral types

end TypeTable

/-! ## Constructors -/

abbrev Interning := StateM TypeTable

namespace Interning

def symbol (text : String) : Interning Symbol := fun t => t.internText text

def form (form : Form) : Interning Ty := fun t => t.intern form

def nameOf (ty : Ty) : Interning String := fun t =>
  let t := t.keepName ty
  (t.name ty, t)

def unionOf (types : List Ty) : Interning Ty := fun t => t.unionOf types

def literal (kind : Primitive) (text : String) : Interning Ty := do
  form (.literal kind (← symbol text))

def classNamed (name : String) (marks : Marks) : Interning Ty := do
  form (.classRef (← symbol name) marks)

def global (name : String) : Interning Ty :=
  classNamed (globalMark.toString ++ name) { global := true }

def literalTable (name : String) : Interning Ty :=
  classNamed name { literalTable := true, structural := true }

def declaredTable (name : String) : Interning Ty :=
  classNamed name { structural := true }

def selfClass (name : String) : Interning Ty :=
  classNamed (name ++ selfEnding) { anonymous := true }

def aliasNamed (name : String) (params : List Ty) (target : Ty) : Interning Ty := do
  form (.aliasRef (← symbol name) params target)

def functionOf (main : Signature) : Interning Ty :=
  form (.function main [] { method := main.colon })

def paramNamed (name written : String) (bound : Option Ty) : Interning Ty := do
  let name ← symbol name
  let written ← symbol written
  form (.param name written bound)

def snippet (text : String) : Interning Ty := do
  form (.snippet (← symbol text))

def anyResults : Interning Ty := form (.results [Ty.any] true)

end Interning

end AnnotatedLua
