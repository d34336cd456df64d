/-
Settings of the solver, and how they are read from JSON text: an object whose known fields are
booleans, or an array of at most two booleans in the order of the fields. A known field may stand only
once; the value of an unknown field is passed over, but has to be grammatical. Every reader takes the
text from where it stands and gives the rest of it.
-/
namespace AnnotatedLua

/-- Every setting defaults to the lenient behaviour. -/
structure Settings where
  /-- `nil` is only accepted by types that include it. -/
  strictNil : Bool := false
  /-- Members of `any` and of unresolved classes read as `any` instead of missing. -/
  indexAny : Bool := false
  deriving DecidableEq, Repr

namespace Json

/-! ## Words and numbers -/

def isBlank (c : Char) : Bool := c == ' ' || c == '\t' || c == '\n' || c == '\r'

def skipBlanks (cs : List Char) : List Char := cs.dropWhile isBlank

/-- The text after `word`, if it starts with it. -/
def word? (word cs : List Char) : Option (List Char) :=
  if word.isPrefixOf cs then some (cs.drop word.length) else none

/-- The text after the next character, which has to be `c`, blanks before it aside. -/
def mark? (c : Char) (cs : List Char) : Option (List Char) :=
  word? [c] (skipBlanks cs)

def boolean? (cs : List Char) : Option (Bool × List Char) :=
  let cs := skipBlanks cs
  match word? "true".toList cs with
  | some rest => some (true, rest)
  | none => (word? "false".toList cs).map (false, ·)

def skipDigits? : List Char → Option (List Char)
  | c :: rest => if c.isDigit then some (rest.dropWhile Char.isDigit) else none
  | [] => none

def skipWhole? : List Char → Option (List Char)
  | '0' :: rest => if (rest.head?.map Char.isDigit).getD false then none else some rest
  | cs => skipDigits? cs

def skipFraction? : List Char → Option (List Char)
  | '.' :: rest => skipDigits? rest
  | cs => some cs

def skipSign : List Char → List Char
  | '+' :: rest => rest
  | '-' :: rest => rest
  | cs => cs

def skipExponent? : List Char → Option (List Char)
  | 'e' :: rest => skipDigits? (skipSign rest)
  | 'E' :: rest => skipDigits? (skipSign rest)
  | cs => some cs

def skipNumber? (cs : List Char) : Option (List Char) := do
  let unsigned := match cs with
    | '-' :: rest => rest
    | cs => cs
  skipExponent? (← skipFraction? (← skipWhole? unsigned))

/-! ## Strings -/

def hexDigit? (c : Char) : Option Nat :=
  if c.isDigit then some (c.toNat - '0'.toNat)
  else if 'a' ≤ c && c ≤ 'f' then some (c.toNat - 'a'.toNat + 10)
  else if 'A' ≤ c && c ≤ 'F' then some (c.toNat - 'A'.toNat + 10)
  else none

def hexWord? (a b c d : Char) : Option Nat := do
  return (← hexDigit? a) * 4096 + (← hexDigit? b) * 256 + (← hexDigit? c) * 16 + (← hexDigit? d)

/-- The character that a backslash and `c` stand for. -/
def escaped? : Char → Option Char
  | '"' => some '"'
  | '\\' => some '\\'
  | '/' => some '/'
  | 'b' => some '\x08'
  | 'f' => some '\x0c'
  | 'n' => some '\n'
  | 'r' => some '\r'
  | 't' => some '\t'
  | _ => none

def skipString? : List Char → Option (List Char)
  | [] => none
  | '"' :: rest => some rest
  | '\\' :: 'u' :: a :: b :: c :: d :: rest =>
    if (hexWord? a b c d).isSome then skipString? rest else none
  | '\\' :: c :: rest => if (escaped? c).isSome then skipString? rest else none
  | c :: rest => if c.toNat < 0x20 || c == '\\' then none else skipString? rest

/-- The characters of a string whose opening quote was read, and the text after it. An escaped high
surrogate has to be followed by an escaped low one, and a low one has to follow a high one. -/
def string? : List Char → Option (List Char × List Char)
  | [] => none
  | '"' :: rest => some ([], rest)
  | '\\' :: 'u' :: a :: b :: c :: d :: rest =>
    match hexWord? a b c d with
    | none => none
    | some high =>
      if high < 0xD800 || 0xE000 ≤ high then
        (string? rest).map fun (s, rest) => (Char.ofNat high :: s, rest)
      else match rest with
        | '\\' :: 'u' :: e :: f :: g :: h :: rest =>
          match hexWord? e f g h with
          | none => none
          | some low =>
            if high < 0xDC00 && 0xDC00 ≤ low && low < 0xE000 then
              (string? rest).map fun (s, rest) =>
                (Char.ofNat (0x10000 + (high - 0xD800) * 0x400 + (low - 0xDC00)) :: s, rest)
            else none
        | _ => none
  | '\\' :: c :: rest =>
    match escaped? c with
    | some c => (string? rest).map fun (s, rest) => (c :: s, rest)
    | none => none
  | c :: rest =>
    if c.toNat < 0x20 || c == '\\' then none
    else (string? rest).map fun (s, rest) => (c :: s, rest)

/-! ## Values passed over -/

mutual

def skipValue? : Nat → List Char → Option (List Char)
  | 0, _ => none
  | n + 1, cs =>
    match skipBlanks cs with
    | '"' :: rest => skipString? rest
    | '[' :: rest =>
      match mark? ']' rest with
      | some rest => some rest
      | none => skipItems? n rest
    | '{' :: rest =>
      match mark? '}' rest with
      | some rest => some rest
      | none => skipFields? n rest
    | 't' :: rest => word? "rue".toList rest
    | 'f' :: rest => word? "alse".toList rest
    | 'n' :: rest => word? "ull".toList rest
    | cs => skipNumber? cs

def skipItems? : Nat → List Char → Option (List Char)
  | 0, _ => none
  | n + 1, cs =>
    match skipValue? n cs with
    | none => none
    | some rest =>
      match mark? ',' rest with
      | some rest => skipItems? n rest
      | none => mark? ']' rest

def skipFields? : Nat → List Char → Option (List Char)
  | 0, _ => none
  | n + 1, cs =>
    match (mark? '"' cs).bind skipString? with
    | none => none
    | some rest =>
      match (mark? ':' rest).bind (skipValue? n) with
      | none => none
      | some rest =>
        match mark? ',' rest with
        | some rest => skipFields? n rest
        | none => mark? '}' rest

end

/-! ## Settings -/

structure Fields where
  strictNil : Option Bool := none
  indexAny : Option Bool := none

def Fields.settings (f : Fields) : Settings :=
  { strictNil := f.strictNil.getD false, indexAny := f.indexAny.getD false }

/-- Reads the value of the field `key`. -/
def field? (fields : Fields) (key : String) (cs : List Char) : Option (Fields × List Char) :=
  if key == "strictNil" then
    if fields.strictNil.isSome then none
    else (boolean? cs).map fun (b, rest) => ({ fields with strictNil := some b }, rest)
  else if key == "unknownIndexable" then
    if fields.indexAny.isSome then none
    else (boolean? cs).map fun (b, rest) => ({ fields with indexAny := some b }, rest)
  else (skipValue? (2 * cs.length + 1) cs).map (fields, ·)

def fields? : Nat → Fields → List Char → Option (Fields × List Char)
  | 0, _, _ => none
  | n + 1, fields, cs => do
    let (key, rest) ← string? (← mark? '"' cs)
    let (fields, rest) ← field? fields (String.ofList key) (← mark? ':' rest)
    match mark? ',' rest with
    | some rest => fields? n fields rest
    | none => return (fields, ← mark? '}' rest)

def items? (cs : List Char) : Option (Fields × List Char) :=
  match mark? ']' cs with
  | some rest => some ({}, rest)
  | none => do
    let (first, rest) ← boolean? cs
    match mark? ',' rest with
    | none => return ({ strictNil := some first }, ← mark? ']' rest)
    | some rest =>
      let (second, rest) ← boolean? rest
      return ({ strictNil := some first, indexAny := some second }, ← mark? ']' rest)

def value? (cs : List Char) : Option (Fields × List Char) :=
  match skipBlanks cs with
  | '[' :: rest => items? rest
  | '{' :: rest =>
    match mark? '}' rest with
    | some rest => some ({}, rest)
    | none => fields? rest.length {} rest
  | _ => none

end Json

def Settings.ofJson? (text : String) : Option Settings := do
  let (fields, rest) ← Json.value? text.toList
  if (Json.skipBlanks rest).isEmpty then some fields.settings else none

end AnnotatedLua
