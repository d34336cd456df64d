/-
Declarations: what the solver asks of the program around a type.
-/
import AnnotatedLua.Type.Form
import Std.Data.TreeMap

namespace AnnotatedLua

/-! ## Members and classes -/

inductive Key where
  | field (name : Symbol)
  | index (type : Ty)
  deriving DecidableEq, Repr

structure Member where
  key : Key
  /-- Absent when it could not be determined. -/
  type : Option Ty
  /-- Whether the type is written and not inferred. -/
  declared : Bool
  /-- The syntax that declares the member. -/
  node : Option Node
  deriving DecidableEq, Repr

namespace Member

def name? (m : Member) : Option Symbol :=
  match m.key with
  | .field name => some name
  | .index _ => none

def index? (m : Member) : Option Ty :=
  match m.key with
  | .field _ => none
  | .index type => some type

def indexed (index type : Ty) : Member :=
  { key := .index index, type := some type, declared := true, node := none }

end Member

structure ClassDecl where
  name : Symbol
  marks : Marks
  superClass : Option Ty := none
  params : List Ty := []
  members : List Member := []
  /-- How a value of the class is called. -/
  signatures : List Signature := []
  /-- Another class whose members count as this one's. -/
  otherName : Option Symbol := none
  /-- The table constructor or the table type that the class describes. -/
  tableNode : Option Node := none
  deriving DecidableEq, Repr

/-! ## What the solver asks -/

inductive Inference where
  /-- There is nothing to find. -/
  | unknown
  | known (type : Ty)
  /-- The type of another expression, or `otherwise` if that has none. -/
  | follow (node : Node) (otherwise : Option Ty)
  /-- The wanted value of several. -/
  | project (type : Ty)
  deriving DecidableEq, Repr

structure Provider where
  classDecl : Symbol → Option ClassDecl
  aliasType : Symbol → Option Ty
  /-- What a name stands for in the syntax around a node. -/
  scopedType : Node → Symbol → Option Ty := fun _ _ => none
  parent : Node → Option Node := fun _ => none
  /-- Absent where expressions have no types. -/
  inference : Option (Node → Inference) := none
  /-- Whether declarations may be incomplete; they are not consulted then. -/
  blind : Bool := false
  /-- Whether looking this class up cancels the query. -/
  cancels : Symbol → Bool := fun _ => false

/-! ## Declarations in memory -/

structure Declarations where
  classes : Std.TreeMap Symbol ClassDecl := ∅
  aliases : Std.TreeMap Symbol Ty := ∅
  localNames : Std.TreeMap (Node × Symbol) Ty lexOrd.compare := ∅
  parents : Std.TreeMap Node Node := ∅
  nodeTypes : Std.TreeMap Node Ty := ∅
  /-- Inferences that come before the types of nodes. -/
  rules : Std.TreeMap Node Inference := ∅
  blind : Bool := false
  /-- The class whose look-up cancels the query. -/
  cancelling : Option Symbol := none

namespace Declarations

def empty : Declarations := {}

def addClass (d : Declarations) (decl : ClassDecl) : Declarations :=
  { d with classes := d.classes.insert decl.name decl }

def removeClass (d : Declarations) (name : Symbol) : Declarations :=
  { d with classes := d.classes.erase name }

def addAlias (d : Declarations) (name : Symbol) (type : Ty) : Declarations :=
  { d with aliases := d.aliases.insert name type }

/-- Lets `name` stand for a type inside the syntax at `node`. -/
def addScoped (d : Declarations) (node : Node) (name : Symbol) (type : Ty) : Declarations :=
  { d with localNames := d.localNames.insert (node, name) type }

def setParent (d : Declarations) (node parent : Node) : Declarations :=
  { d with parents := d.parents.insert node parent }

def setNodeType (d : Declarations) (node : Node) (type : Ty) : Declarations :=
  { d with nodeTypes := d.nodeTypes.insert node type, rules := d.rules.erase node }

def setRule (d : Declarations) (node : Node) (rule : Inference) : Declarations :=
  { d with rules := d.rules.insert node rule }

/-- The type a name stands for at a node or at the nearest node around it, within `n` steps. -/
def scopedWithin (d : Declarations) (name : Symbol) : Nat → Node → Option Ty
  | n, node =>
    match d.localNames[(node, name)]? with
    | some type => some type
    | none =>
      match n, d.parents[node]? with
      | n + 1, some parent => d.scopedWithin name n parent
      | _, _ => none

/-- The type a name stands for in the syntax around a node: the innermost binding counts. Parents may
run in a circle, so no more steps are taken than there are nodes with a parent. -/
def scopedType (d : Declarations) (node : Node) (name : Symbol) : Option Ty :=
  d.scopedWithin name (d.parents.size + 1) node

def inference (d : Declarations) (node : Node) : Inference :=
  match d.rules[node]? with
  | some rule => rule
  | none =>
    match d.nodeTypes[node]? with
    | some type => .known type
    | none => .unknown

def provider (d : Declarations) : Provider where
  classDecl name := d.classes[name]?
  aliasType name := d.aliases[name]?
  scopedType := d.scopedType
  parent node := d.parents[node]?
  inference := some d.inference
  blind := d.blind
  cancels name := d.cancelling == some name

def nominalProvider (d : Declarations) : Provider where
  classDecl name := d.classes[name]?
  aliasType name := d.aliases[name]?
  cancels name := d.cancelling == some name

end Declarations

end AnnotatedLua
