/-
The forms of types. A form names its parts by handles: `Form` is what the type table stores. The
definitions leave open what stands for a name and for a type, so that the same forms also describe
types whose parts are written out.
-/
import AnnotatedLua.Symbol

namespace AnnotatedLua

/-! ## Handles -/

/-- A handle of a stored type. Equal handles are equal types; an alias and its target are equal types
with different handles. -/
structure Ty where
  index : Nat
  deriving DecidableEq, Repr

instance : Ord Ty := ⟨compareOn Ty.index⟩

namespace Ty

def any : Ty := ⟨0⟩
def nil : Ty := ⟨1⟩
def void : Ty := ⟨2⟩
def boolean : Ty := ⟨3⟩
def string : Ty := ⟨4⟩
def number : Ty := ⟨5⟩
def table : Ty := ⟨6⟩
def function : Ty := ⟨7⟩
def trueLiteral : Ty := ⟨8⟩
def falseLiteral : Ty := ⟨9⟩

def builtinCount : Nat := 10

def isBuiltin (t : Ty) : Bool := t.index < builtinCount
def isAny (t : Ty) : Bool := t == any
def isNil (t : Ty) : Bool := t == nil
def isVoid (t : Ty) : Bool := t == void

end Ty

/-! ## Primitives -/

inductive Primitive where
  | string
  | number
  | boolean
  | table
  | function
  deriving DecidableEq, Repr

namespace Primitive

def name : Primitive → String
  | .string => "string"
  | .number => "number"
  | .boolean => "boolean"
  | .table => "table"
  | .function => "function"

def type : Primitive → Ty
  | .string => Ty.string
  | .number => Ty.number
  | .boolean => Ty.boolean
  | .table => Ty.table
  | .function => Ty.function

def tag : Primitive → Nat
  | .string => 0
  | .number => 1
  | .boolean => 2
  | .table => 3
  | .function => 4

def ofTag? : Nat → Option Primitive
  | 0 => some .string
  | 1 => some .number
  | 2 => some .boolean
  | 3 => some .table
  | 4 => some .function
  | _ => none

end Primitive

/-! ## Marks -/

structure Marks where
  /-- A local without a declaration, or the receiver of a class. -/
  anonymous : Bool := false
  /-- A global variable without a declaration. -/
  global : Bool := false
  /-- A function declared with a colon. -/
  method : Bool := false
  /-- A table constructor. -/
  literalTable : Bool := false
  /-- Compared by its members and not by its name. -/
  structural : Bool := false
  /-- A name that could not be resolved; it accepts everything. -/
  unresolved : Bool := false
  deriving DecidableEq, Repr

namespace Marks

def none : Marks := {}

def merge (a b : Marks) : Marks where
  anonymous := a.anonymous || b.anonymous
  global := a.global || b.global
  method := a.method || b.method
  literalTable := a.literalTable || b.literalTable
  structural := a.structural || b.structural
  unresolved := a.unresolved || b.unresolved

def isVariable (m : Marks) : Bool := m.anonymous || m.global

def toBits (m : Marks) : Nat :=
  m.anonymous.toNat + 2 * m.global.toNat + 4 * m.method.toNat + 8 * m.literalTable.toNat
    + 16 * m.structural.toNat + 32 * m.unresolved.toNat

def ofBits (bits : Nat) : Marks where
  anonymous := bits.testBit 0
  global := bits.testBit 1
  method := bits.testBit 2
  literalTable := bits.testBit 3
  structural := bits.testBit 4
  unresolved := bits.testBit 5

end Marks

/-! ## Forms -/

structure ParameterOf (ν τ : Type) where
  name : ν
  type : Option τ
  optional : Bool
  deriving DecidableEq, Repr

structure SignatureOf (ν τ : Type) where
  /-- Declared with a colon: the receiver comes before the declared parameters. -/
  colon : Bool
  /-- The type parameters of this signature. -/
  typeParams : List τ
  params : List (ParameterOf ν τ)
  variadic : Option τ
  returns : Option τ
  deriving DecidableEq, Repr

def SignatureOf.isGeneric {ν τ : Type} (s : SignatureOf ν τ) : Bool := !s.typeParams.isEmpty

inductive Kind where
  | any
  | primitive
  | array
  | function
  | classRef
  | aliasRef
  | union
  | generic
  | nil
  | void
  | results
  | param
  | literal
  | snippet
  deriving DecidableEq, Repr

namespace Kind

def tag : Kind → Nat
  | .any => 0
  | .primitive => 1
  | .array => 2
  | .function => 3
  | .classRef => 4
  | .aliasRef => 5
  | .union => 6
  | .generic => 7
  | .nil => 8
  | .void => 9
  | .results => 10
  | .param => 11
  | .literal => 12
  | .snippet => 13

def ofTag? : Nat → Option Kind
  | 0 => some .any
  | 1 => some .primitive
  | 2 => some .array
  | 3 => some .function
  | 4 => some .classRef
  | 5 => some .aliasRef
  | 6 => some .union
  | 7 => some .generic
  | 8 => some .nil
  | 9 => some .void
  | 10 => some .results
  | 11 => some .param
  | 12 => some .literal
  | 13 => some .snippet
  | _ => none

end Kind

inductive FormOf (ν τ : Type) where
  | any
  | nil
  | void
  | primitive (kind : Primitive)
  /-- A single value such as `"ok"`, `42` or `true`, kept as it is written. -/
  | literal (kind : Primitive) (text : ν)
  | array (element : τ)
  /-- A class by its name; its declaration is looked up when it is needed. -/
  | classRef (name : ν) (marks : Marks)
  | aliasRef (name : ν) (params : List τ) (target : τ)
  | union (members : List τ)
  | generic (base : τ) (args : List τ)
  /-- The overloads are tried before the main signature. -/
  | function (main : SignatureOf ν τ) (overloads : List (SignatureOf ν τ)) (marks : Marks)
  /-- The values of a call or of a vararg list; the last type repeats when variadic. -/
  | results (types : List τ) (variadic : Bool)
  /-- A type parameter. `name` is unique to the scope that declares it; `written` is what stands in the
  text. -/
  | param (name written : ν) (bound : Option τ)
  /-- Text that is no type; it accepts nothing but itself. -/
  | snippet (text : ν)
  deriving DecidableEq, Repr

namespace FormOf

variable {ν τ : Type}

def kind : FormOf ν τ → Kind
  | .any => .any
  | .nil => .nil
  | .void => .void
  | .primitive _ => .primitive
  | .literal _ _ => .literal
  | .array _ => .array
  | .classRef _ _ => .classRef
  | .aliasRef _ _ _ => .aliasRef
  | .union _ => .union
  | .generic _ _ => .generic
  | .function _ _ _ => .function
  | .results _ _ => .results
  | .param _ _ _ => .param
  | .snippet _ => .snippet

def marks : FormOf ν τ → Marks
  | .classRef _ marks => marks
  | .function _ _ marks => marks
  | _ => Marks.none

end FormOf

abbrev Parameter := ParameterOf Symbol Ty
abbrev Signature := SignatureOf Symbol Ty
abbrev Form := FormOf Symbol Ty

/-- The declared type of a parameter; without one it is `any`. -/
def ParameterOf.typeOrAny (p : Parameter) : Ty := p.type.getD Ty.any

/-! ## Keys -/

def SignatureOf.handles (s : Signature) : List Nat :=
  let param (p : Parameter) : List Nat := p.name.index :: p.type.toList.map Ty.index
  s.typeParams.map Ty.index ++ s.params.flatMap param ++ s.variadic.toList.map Ty.index
    ++ s.returns.toList.map Ty.index

namespace FormOf

def handles : Form → List Nat
  | .any => []
  | .nil => []
  | .void => []
  | .primitive kind => [kind.tag]
  | .literal kind text => [kind.tag, text.index]
  | .array element => [element.index]
  | .classRef name marks => [name.index, marks.toBits]
  | .aliasRef name params target => name.index :: target.index :: params.map Ty.index
  | .union members => members.map Ty.index
  | .generic base args => base.index :: args.map Ty.index
  | .function main overloads marks =>
    marks.toBits :: (main :: overloads).flatMap SignatureOf.handles
  | .results types variadic => variadic.toNat :: types.map Ty.index
  | .param name written bound => name.index :: written.index :: bound.toList.map Ty.index
  | .snippet text => [text.index]

def key (form : Form) : List Nat := form.kind.tag :: form.handles

end FormOf

structure Results where
  types : List Ty
  variadic : Bool
  deriving DecidableEq, Repr

end AnnotatedLua
