/-
Members by their keys, and their types. `table<K, V>` and arrays have members without a declaration;
a primitive has those of the class that is declared under its name.
-/
import AnnotatedLua.Member.Walk

namespace AnnotatedLua

open Solve

namespace Solver

variable (S : Solver)

/-! ## Finding members -/

/-- The key and the value type of a `table<K, V>`. -/
def tableArgs (ty : Ty) : Solve (Option (Ty × Ty)) := do
  match ← lookup ty with
  | .generic base [key, value] => return if base = Ty.table then some (key, value) else none
  | _ => return none

/-- The member of a `table<K, V>` whose key passes the test. -/
def tableMember (ty : Ty) (test : Ty → Solve Bool) : Solve (Option Member) := do
  match ← tableArgs ty with
  | none => return none
  | some (key, value) => return if ← test key then some (Member.indexed key value) else none

/-- Whether a key of `table<K, V>` takes a field of this name. -/
def keyTakesField (name : Symbol) (key : Ty) : Solve Bool := do
  if key = Ty.string then return true
  S.accepts key (← intern (.literal .string name)) Mode.lenient

structure FieldSearch where
  declared : Option Member := none
  inferred : Option Member := none

def visitField (name : Symbol) : Visitor FieldSearch := fun found member => do
  if member.name? ≠ some name then return (found, true)
  if member.declared && found.declared.isNone then
    return ({ found with declared := some member }, false)
  return ({ found with inferred := found.inferred.or (some member) }, true)

def member? (ty : Ty) (name : Symbol) : Solve (Option Member) := do
  match ← tableMember ty (S.keyTakesField name) with
  | some member => return some { member with key := .field name }
  | none =>
    let (found, _) ← S.visitMembers (visitField name) true ty {}
    return found.declared.or found.inferred

structure IndexSearch where
  declared : Option Member := none
  inferred : Option Member := none

def isNarrower (found : Option Member) (key : Ty) : Solve Bool := do
  match found with
  | none => return true
  | some earlier =>
    match earlier.index? with
    | none => return false
    | some earlierKey => S.accepts earlierKey key { strictAny := true }

def keyMatches (index : Ty) (exact : Bool) (key : Ty) : Solve Bool := do
  if exact then
    if key = index then return true
    S.equal key index
  else S.accepts key index { strictAny := true }

def visitIndexer (index : Ty) (exact : Bool) : Visitor IndexSearch := fun found member => do
  match member.index? with
  | none => return (found, true)
  | some key =>
    if !(← S.keyMatches index exact key) then return (found, true)
    if member.declared then
      if ← S.isNarrower found.declared key then
        return ({ found with declared := some member }, true)
      return (found, true)
    else
      if ← S.isNarrower found.inferred key then
        return ({ found with inferred := some member }, true)
      return (found, true)

def arrayIndexer (element index : Ty) (exact : Bool) : Solve (Option Member) := do
  let taken ←
    if exact then pure (decide (index = Ty.number))
    else S.accepts Ty.number index { strictAny := true }
  return if taken then some (Member.indexed Ty.number element) else none

def tableKeyTakes (index : Ty) (exact : Bool) (key : Ty) : Solve Bool := do
  if index = key then return true
  if exact then return false
  S.accepts key index Mode.lenient

def classIndexer (ty index : Ty) (exact : Bool) : Solve (Option Member) := do
  let (found, _) ← S.visitMembers (S.visitIndexer index exact) true ty {}
  return found.declared.or found.inferred

/-- The indexer of a type that takes `index`, or that has this very index if `exact`. -/
def indexer? (ty index : Ty) (exact : Bool) : Solve (Option Member) := do
  match ← lookup ty with
  | .array element => S.arrayIndexer element index exact
  | .generic _ _ =>
    match ← tableMember ty (S.tableKeyTakes index exact) with
    | some member => return some member
    | none => S.classIndexer ty index exact
  | _ => S.classIndexer ty index exact

def memberAt? (ty : Ty) (exact : Bool) : Key → Solve (Option Member)
  | .field name => S.member? ty name
  | .index index => S.indexer? ty index exact

/-! ## Types of members -/

/-- The type of a member as the owner has it; without a type it is `any`. -/
def memberType (owner : Ty) (member : Member) : Solve Ty := do
  match member.type with
  | none => return Ty.any
  | some type =>
    match ← S.memberSubstitution owner with
    | some links => S.substitute type (.chain links)
    | none => return type

/-- Members of unresolved classes read as `any` if the settings say so. -/
def missingMemberType (ty : Ty) : Solve (Option Ty) := do
  if !(← settings).indexAny then return none
  return if (← classMarks ty).unresolved then some Ty.any else none

def unionOfSome (find : Ty → Solve (Option Ty)) (types : List Ty) : Solve (Option Ty) :=
  types.foldlM (fun acc ty => do
    match ← find ty with
    | none => return acc
    | some found => return some (← S.unionWith acc found)) none

def indexedTypes (ty : Ty) (exact : Bool) : List Ty → Option Ty → Solve (Option Ty)
  | [], found => return found
  | index :: rest, found => do
    match ← S.indexer? ty index exact with
    | none =>
      match ← missingMemberType ty with
      | some type => return some type
      | none => indexedTypes ty exact rest found
    | some member =>
      if member.type.isNone then return some Ty.any
      let type ← S.memberType ty member
      indexedTypes ty exact rest (some (← S.unionWith found type))

/-! ## Shapes as tables -/

structure TableSearch where
  key : Option Ty := none
  value : Option Ty := none

def visitTable : Visitor TableSearch := fun found member => do
  let memberKey ← match member.key with
    | .field name => intern (.literal .string name)
    | .index index => pure index
  let key ← S.unionWith found.key memberKey
  let value ← S.unionWith found.value (member.type.getD Ty.any)
  return ({ key := some key, value := some value }, !(key.isAny && value.isAny))

/-- The `table<K, V>` that a shape is: all of its keys, and all of its values. -/
def tableOfMembers (ty : Ty) : Solve Ty := do
  let (found, _) ← S.visitMembers S.visitTable true ty {}
  intern (.generic Ty.table [found.key.getD Ty.any, found.value.getD Ty.any])

/-! ## Arrays -/

/-- The integer that a key such as `[3]` is. -/
def integerKey (index : Ty) : Solve (Option Int) := do
  match ← lookup index with
  | .literal .number value => return Text.integer? (← text value)
  | _ => return none

/-- The integer keys seen so far, each once, and whether there was a `number` indexer. -/
structure ArraySearch where
  keys : List Int := []
  indexed : Bool := false

namespace ArraySearch

def addKey (found : ArraySearch) (key : Int) : ArraySearch :=
  if found.keys.contains key then found else { found with keys := key :: found.keys }

def isContiguous (found : ArraySearch) : Bool :=
  (List.range found.keys.length).all fun i => found.keys.contains (i + 1 : Int)

def isArray (found : ArraySearch) : Bool := found.indexed || found.isContiguous

end ArraySearch

def visitElementKey : Visitor ArraySearch := fun found member => do
  match member.index? with
  | none => return (found, false)
  | some index =>
    if index = Ty.number then return ({ found with indexed := true }, true)
    match ← integerKey index with
    | some key => return (found.addKey key, true)
    | none => return (found, false)

def isArray (ty : Ty) : Solve Bool := do
  let resolved ← S.resolve ty
  match ← lookup resolved with
  | .array _ => return true
  | .classRef _ _ =>
    if !(← S.isShape resolved) then return false
    let (found, complete) ← S.visitMembers visitElementKey true resolved {}
    return complete && found.isArray
  | _ => return false

end Solver

/-! ## Rules -/

namespace Rule

variable (S : Solver)

def instanceSubstitution (ty : Ty) : Solve (Option (List Substitution)) := do
  let form ← lookup ty
  let inherited ← match ← S.superClass ty with
    | some type => S.memberSubstitution type
    | none => pure none
  match form with
  | .generic base args =>
    let params ← S.genericBaseParams base
    if params.isEmpty then return inherited
    let bindings ← ofTypes (Bindings.ofArgs · params args)
    return some (inherited.getD [] ++ [.params bindings])
  | _ => return inherited

def memberSubstitution (ty : Ty) : Solve (Option (List Substitution)) := do
  return (← withGuard .memberSubstitution (.type ty) (instanceSubstitution S ty)).join

def declaredFieldType (ty : Ty) (name : Symbol) : Solve (Option Ty) := do
  match ← S.member? ty name with
  | some member => return some (← S.memberType ty member)
  | none => Solver.missingMemberType ty

def fieldType (ty : Ty) (name : Symbol) : Solve (Option Ty) := do
  match ← lookup ty with
  | .union parts => S.unionOfSome (S.fieldType · name) parts
  | .any => return if (← settings).indexAny then some Ty.any else none
  | .primitive .table => return some Ty.any
  | .literal kind _ => S.fieldType kind.type name
  | .aliasRef _ _ _ =>
    let resolved ← S.resolve ty
    if resolved = ty then return none else S.fieldType resolved name
  | _ => declaredFieldType S ty name

def indexedType (ty index : Ty) (exact : Bool) : Solve (Option Ty) := do
  match ← lookup ty with
  | .union parts => S.unionOfSome (S.indexedType · index exact) parts
  | .any => return if (← settings).indexAny then some Ty.any else none
  | .primitive .table => return some Ty.any
  | .literal kind _ => S.indexedType kind.type index exact
  | .aliasRef _ _ _ =>
    let resolved ← S.resolve ty
    if resolved = ty then return none else S.indexedType resolved index exact
  | _ => S.indexedTypes ty exact (← S.resolvedMembers index) none

def signaturesOf (ty : Ty) : Solve (List Signature) := do
  match ← lookup ty with
  | .function main overloads _ => return overloads ++ [main]
  | .classRef name _ =>
    let resolved ← S.resolve ty
    if resolved ≠ ty then return ← S.signaturesOf resolved
    return ((← classDecl name).map ClassDecl.signatures).getD []
  | .aliasRef _ _ _ =>
    let resolved ← S.resolve ty
    if resolved = ty then return [] else S.signaturesOf resolved
  | _ => return []

end Rule

end AnnotatedLua
