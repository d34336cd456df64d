/-
The type table: every type is stored once, by its form, and is referred to by its handle. The table
only grows, so a form may hold a handle that is still to be given out; until then that handle reads
as `any`.
-/
import AnnotatedLua.Text.Name
import AnnotatedLua.Type.Form
import Std.Data.TreeMap

namespace AnnotatedLua

structure TypeTable where
  symbols : SymbolTable
  forms : Array Form
  /-- The stored types by the keys of their forms. -/
  byKey : Std.TreeMap (List Nat) (List Ty) := ∅
  /-- The display names that were shown. A name stays as it was first shown. -/
  names : Std.TreeMap Ty String := ∅

def selfEnding : String := ":self"

def globalMark : Char := '$'

namespace TypeTable

/-- The form of a type. A handle that was not given out reads as `any`. -/
def lookup (t : TypeTable) (ty : Ty) : Form := t.forms[ty.index]?.getD .any

def text (t : TypeTable) (s : Symbol) : String := t.symbols.text s

def kind (t : TypeTable) (ty : Ty) : Kind := (t.lookup ty).kind

def marks (t : TypeTable) (ty : Ty) : Marks := (t.lookup ty).marks

def size (t : TypeTable) : Nat := t.forms.size

def isEmpty (t : TypeTable) : Bool := t.size ≤ Ty.builtinCount

def members (t : TypeTable) (ty : Ty) : List Ty :=
  match t.lookup ty with
  | .union members => members
  | _ => [ty]

/-- Whether `member` is the type or one of its members. -/
def contains (t : TypeTable) (ty member : Ty) : Bool :=
  ty == member || (t.members ty).contains member

def className? (t : TypeTable) (ty : Ty) : Option Symbol :=
  match t.lookup ty with
  | .classRef name _ => some name
  | .param name _ _ => some name
  | _ => none

def isSelfClass (t : TypeTable) (ty : Ty) : Bool :=
  match t.lookup ty with
  | .classRef name _ => (Text.beforeEnding? selfEnding (t.text name)).isSome
  | _ => false

def widen (t : TypeTable) (ty : Ty) : Ty :=
  match t.lookup ty with
  | .literal kind _ => kind.type
  | _ => ty

end TypeTable

end AnnotatedLua
