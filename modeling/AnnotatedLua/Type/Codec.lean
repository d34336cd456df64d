/-
The binary form of types. A type is its kind (one byte), its marks (four bytes, the lowest first) and
its parts in place. Texts and lists carry their length, optional parts a presence byte. Reading gives
a precise cause of failure, and stores types and texts as it goes.
-/
import AnnotatedLua.Type.Intern

namespace AnnotatedLua.Codec

def maxDepth : Nat := 128

/-! ## Writing -/

def byte (n : Nat) : List UInt8 := [n.toUInt8]

def word (n : Nat) : List UInt8 :=
  [n.toUInt8, (n / 0x100).toUInt8, (n / 0x10000).toUInt8, (n / 0x1000000).toUInt8]

def length (n : Nat) : List UInt8 := word (min n 0xFFFFFFFF)

def flag (b : Bool) : List UInt8 := byte b.toNat

def text (s : String) : List UInt8 :=
  let bytes := s.toUTF8.data.toList
  length bytes.length ++ bytes

def list {α : Type} (item : α → List UInt8) (items : List α) : List UInt8 :=
  length items.length ++ items.flatMap item

def optional {α : Type} (item : α → List UInt8) : Option α → List UInt8
  | none => flag false
  | some a => flag true ++ item a

section
variable (t : TypeTable) (part : Ty → List UInt8)

def symbol (s : Symbol) : List UInt8 := text (t.text s)

def parameter (p : Parameter) : List UInt8 :=
  symbol t p.name ++ flag p.optional ++ optional part p.type

def signature (s : Signature) : List UInt8 :=
  flag s.colon ++ list part s.typeParams ++ list (parameter t part) s.params
    ++ optional part s.variadic ++ optional part s.returns

/-- The parts of a form, each type among them written by `part`. -/
def payload : Form → List UInt8
  | .any => []
  | .nil => []
  | .void => []
  | .primitive kind => byte kind.tag
  | .literal kind value => byte kind.tag ++ symbol t value
  | .array element => part element
  | .classRef name _ => symbol t name
  | .aliasRef name params target => symbol t name ++ list part params ++ part target
  | .union members => list part members
  | .generic base args => part base ++ list part args
  | .function main overloads _ => signature t part main ++ list (signature t part) overloads
  | .results types variadic => flag variadic ++ list part types
  | .param name written bound => symbol t name ++ symbol t written ++ optional part bound
  | .snippet value => symbol t value

end

def encodeBelow (t : TypeTable) : Nat → Ty → List UInt8
  | 0, _ => []
  | n + 1, ty =>
    let form := t.lookup ty
    byte form.kind.tag ++ word form.marks.toBits ++ payload t (encodeBelow t n) form

def encode (t : TypeTable) (ty : Ty) : List UInt8 := encodeBelow t (t.size + 1) ty

/-! ## Errors -/

inductive TagRole where
  | kind
  | primitive
  | flag
  deriving DecidableEq, Repr

def TagRole.name : TagRole → String
  | .kind => "kind"
  | .primitive => "primitive"
  | .flag => "bool"

inductive DecodeError where
  | truncated (offset : Nat)
  | badTag (role : TagRole) (tag offset : Nat)
  | badText (offset : Nat)
  | trailing (count : Nat)
  | tooDeep
  deriving DecidableEq, Repr

def DecodeError.message : DecodeError → String
  | .truncated offset => "unexpected end of input at byte " ++ toString offset
  | .badTag role tag offset =>
    "unknown " ++ role.name ++ " tag " ++ toString tag ++ " at byte " ++ toString offset
  | .badText offset => "invalid UTF-8 in string at byte " ++ toString offset
  | .trailing count => toString count ++ " trailing bytes after type value"
  | .tooDeep => "type nesting exceeds the decode depth limit"

/-! ## Reading -/

structure Cursor where
  rest : List UInt8
  offset : Nat
  types : TypeTable

abbrev Decoder := ExceptT DecodeError (StateM Cursor)

/-- The next `n` bytes. -/
def take (n : Nat) : Decoder (List UInt8) := do
  let c ← get
  if n ≤ c.rest.length then
    set { c with rest := c.rest.drop n, offset := c.offset + n }
    return c.rest.take n
  else throw (.truncated c.offset)

def offset : Decoder Nat := return (← get).offset

def ofBytes (bytes : List UInt8) : Nat :=
  bytes.foldr (fun b n => b.toNat + 0x100 * n) 0

def readByte : Decoder Nat := return ofBytes (← take 1)

def readWord : Decoder Nat := return ofBytes (← take 4)

def readLength : Decoder Nat := do
  let start ← offset
  let n ← readWord
  if n ≤ (← get).rest.length then return n else throw (.truncated start)

def readFlag : Decoder Bool := do
  let start ← offset
  match ← readByte with
  | 0 => return false
  | 1 => return true
  | tag => throw (.badTag .flag tag start)

def readPrimitive : Decoder Primitive := do
  let start ← offset
  let tag ← readByte
  match Primitive.ofTag? tag with
  | some p => return p
  | none => throw (.badTag .primitive tag start)

def readKind : Decoder Kind := do
  let start ← offset
  let tag ← readByte
  match Kind.ofTag? tag with
  | some k => return k
  | none => throw (.badTag .kind tag start)

def store {α : Type} (act : Interning α) : Decoder α := do
  modifyGet fun c =>
    let (a, types) := act c.types
    (a, { c with types })

def readSymbol : Decoder Symbol := do
  let n ← readLength
  let start ← offset
  let bytes ← take n
  match String.fromUTF8? ⟨bytes.toArray⟩ with
  | some s => store (Interning.symbol s)
  | none => throw (.badText start)

/-- The same reader `n` times. -/
def readTimes {α : Type} (item : Decoder α) : Nat → Decoder (List α)
  | 0 => return []
  | n + 1 => return (← item) :: (← readTimes item n)

def readList {α : Type} (item : Decoder α) : Decoder (List α) := do
  readTimes item (← readLength)

def readOptional {α : Type} (item : Decoder α) : Decoder (Option α) := do
  if ← readFlag then return some (← item) else return none

section
variable (part : Decoder Ty)

def readParameter : Decoder Parameter := do
  let name ← readSymbol
  let isOptional ← readFlag
  let type ← readOptional part
  return { name, type, optional := isOptional }

def readSignature : Decoder Signature := do
  let colon ← readFlag
  let typeParams ← readList part
  let params ← readList (readParameter part)
  let variadic ← readOptional part
  let returns ← readOptional part
  return { colon, typeParams, params, variadic, returns }

/-- One type, each type among its parts read by `part`. -/
def readType : Decoder Ty := do
  let kind ← readKind
  let marks := Marks.ofBits (← readWord)
  match kind with
  | .any => return Ty.any
  | .nil => return Ty.nil
  | .void => return Ty.void
  | .primitive => return (← readPrimitive).type
  | .literal =>
    let kind ← readPrimitive
    let value ← readSymbol
    store (.form (.literal kind value))
  | .array =>
    let element ← part
    store (.form (.array element))
  | .classRef =>
    let name ← readSymbol
    store (.form (.classRef name marks))
  | .aliasRef =>
    let name ← readSymbol
    let params ← readList part
    let target ← part
    store (.form (.aliasRef name params target))
  | .union =>
    let members ← readList part
    store (.unionOf members)
  | .generic =>
    let base ← part
    let args ← readList part
    store (.form (.generic base args))
  | .function =>
    let main ← readSignature part
    let overloads ← readList (readSignature part)
    store (.form (.function main overloads marks))
  | .results =>
    let variadic ← readFlag
    let types ← readList part
    store (.form (.results types variadic))
  | .param =>
    let name ← readSymbol
    let written ← readSymbol
    let bound ← readOptional part
    store (.form (.param name written bound))
  | .snippet =>
    let value ← readSymbol
    store (.form (.snippet value))

end

def readBelow : Nat → Decoder Ty
  | 0 => throw .tooDeep
  | n + 1 => readType (readBelow n)

def decode (bytes : List UInt8) (t : TypeTable) : Except DecodeError Ty × TypeTable :=
  match (readBelow maxDepth).run ⟨bytes, 0, t⟩ with
  | (.ok ty, c) => (if c.rest.isEmpty then .ok ty else .error (.trailing c.rest.length), c.types)
  | (.error e, c) => (.error e, c.types)

end AnnotatedLua.Codec
