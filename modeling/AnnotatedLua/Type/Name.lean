/-
Display names. A name is made from the form and the names of its parts; declarations are not
consulted. The order of union members depends on these names. A name is kept when it is shown: of a
type that holds a handle given out later, the kept name and a fresh one may differ.
-/
import AnnotatedLua.Type.Table

namespace AnnotatedLua

def quoted (text : String) : String :=
  let escape : Char → List Char
    | '"' => ['\\', '"']
    | '\\' => ['\\', '\\']
    | '\n' => ['\\', 'n']
    | c => [c]
  String.ofList ('"' :: text.toList.flatMap escape ++ ['"'])

def parenthesized (text : String) : String := "(" ++ text ++ ")"

/-- The text, in parentheses if `inside` holds. -/
def parenthesizedIf (inside : Bool) (text : String) : String :=
  if inside then parenthesized text else text

namespace TypeTable

/-! ## Rendering -/

def isBoundedParam (t : TypeTable) (ty : Ty) : Bool :=
  match t.lookup ty with
  | .param _ _ (some _) => true
  | _ => false

def renderClass (t : TypeTable) (name : Symbol) (marks : Marks) : String :=
  let text := t.text name
  if marks.literalTable then "table"
  else if marks.global then "[global " ++ Text.dropFirst globalMark text ++ "]"
  else if marks.anonymous && (Text.beforeEnding? selfEnding text).isNone then "[local " ++ text ++ "]"
  else text

section
variable (t : TypeTable) (part : Ty → String)

def renderParameter (p : Parameter) : String :=
  t.text p.name ++ ": " ++ parenthesizedIf (t.isBoundedParam p.typeOrAny) (part p.typeOrAny)

/-- A signature as a function type, each type in it rendered by `part`. -/
def renderCall (s : Signature) : String :=
  let variadic := match s.variadic with
    | some v => ["...: " ++ part v]
    | none => []
  let returns := match s.returns with
    | some r => ": " ++ parenthesizedIf (t.kind r == .union || t.isBoundedParam r) (part r)
    | none => ""
  let params := s.params.map (t.renderParameter part) ++ variadic
  "fun" ++ parenthesized (", ".intercalate params) ++ returns

/-- The display name of a form, each type in it rendered by `part`. -/
def renderForm : Form → String
  | .any => "any"
  | .nil => "nil"
  | .void => "void"
  | .primitive kind => kind.name
  | .literal .string text => quoted (t.text text)
  | .literal _ text => t.text text
  | .array element =>
    let inside := t.kind element == .union || t.kind element == .function || t.isBoundedParam element
    parenthesizedIf inside (part element) ++ "[]"
  | .classRef name marks => t.renderClass name marks
  | .aliasRef name _ _ => t.text name
  | .union members =>
    " | ".intercalate <| members.map fun m =>
      parenthesizedIf (t.kind m == .function || t.kind m == .results) (part m)
  | .generic base args =>
    let base := match t.lookup base with
      | .classRef name _ => t.text name
      | _ => part base
    base ++ "<" ++ ", ".intercalate (args.map part) ++ ">"
  | .function main _ _ => t.renderCall part main
  | .results types variadic =>
    ", ".intercalate (types.map part) ++ (if variadic then "..." else "")
  | .param _ written bound =>
    match bound with
    | some b => t.text written ++ " : " ++ part b
    | none => t.text written
  | .snippet text => t.text text

end

def renderBelow (t : TypeTable) : Nat → Ty → String
  | 0, _ => ""
  | n + 1, ty => t.renderForm (t.renderBelow n) (t.lookup ty)

/-- The display name of a type, made afresh. A type that is no part of itself nests no deeper than
the table is long. -/
def render (t : TypeTable) (ty : Ty) : String := t.renderBelow (t.size + 1) ty

def renderSignature (t : TypeTable) (s : Signature) : String := t.renderCall t.render s

/-! ## Names that were shown -/

def name (t : TypeTable) (ty : Ty) : String :=
  match t.names[ty]? with
  | some shown => shown
  | none => t.render ty

def keepName (t : TypeTable) (ty : Ty) : TypeTable :=
  match t.names[ty]? with
  | some _ => t
  | none => { t with names := t.names.insert ty (t.render ty) }

end TypeTable

end AnnotatedLua
