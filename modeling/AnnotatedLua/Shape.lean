/-
Comparing by members. A shape accepts a type that has all of its members; a member may be missing if
`nil` will do. Members that the shape does not have are allowed, but under an index that the shape has
in a wider form the types have to be equal, unless tables may be narrower.
-/
import AnnotatedLua.Equality

namespace AnnotatedLua.Solver

open Solve

variable (S : Solver)

def mismatch (targetNode : Option Node) (sourceNode : Node) (target source : Ty) : Solve Problem := do
  return .error targetNode sourceNode (.mismatch (← name target) (← name source))

def inlineTableNode (ty : Ty) : Solve (Option Node) := do
  match ← lookup ty with
  | .classRef name marks =>
    if !marks.literalTable then return none
    return (← classDecl name).bind ClassDecl.tableNode
  | _ => return none

def keyName : Key → Solve String
  | .field field => text field
  | .index index => return "[" ++ (← name index) ++ "]"

def mismatchUnless (wanted accepted : Bool) (targetNode anchor : Option Node) (target source : Ty) :
    Solve Verdict := do
  if accepted then return .accept
  match wanted, anchor with
  | true, some node => return .reject true (← mismatch targetNode node target source)
  | _, _ => return .rejectSilently

/-- Compares the types of one member. A table constructor is checked member by member, so that its
problems show at its own fields. -/
def memberAccepts (wanted : Bool) (target source : Ty) (mode : Mode) (targetNode anchor : Option Node) :
    Solve Verdict := do
  let inline ← if wanted && anchor.isSome then inlineTableNode source else pure none
  match inline with
  | some tableNode => S.check wanted target source mode targetNode tableNode
  | none => mismatchUnless wanted (← S.accepts target source mode) targetNode anchor target source

structure Comparison where
  /-- Whether problems are wanted; if not, the first one ends the comparison. -/
  wanted : Bool
  target : Ty
  source : Ty
  mode : Mode
  targetNode : Option Node
  sourceNode : Option Node

def Comparison.next (c : Comparison) (before : Verdict) (part : Verdict) : Verdict × Bool :=
  (before.and part, part.accepted || c.wanted)

def missingVerdict (c : Comparison) (member : Member) (targetType : Ty) : Solve Verdict := do
  if ← ofTypes (·.contains targetType Ty.nil) then return .accept
  if !c.wanted then return .rejectSilently
  let reason := Reason.missingMember (← keyName member.key) (← name c.target)
  let node := (c.sourceNode.or member.node).getD Node.absent
  return .reject true (.error c.targetNode node reason)

def presentVerdict (c : Comparison) (targetType : Ty) (sourceMember : Member) : Solve Verdict := do
  let sourceType ← S.memberType c.source sourceMember
  if !c.mode.strictAny && sourceType.isAny then return .accept
  let anchor := c.sourceNode.map sourceMember.node.getD
  S.memberAccepts c.wanted targetType sourceType c.mode c.targetNode anchor

def visitTargetMember (c : Comparison) : Visitor Verdict := fun before member => do
  if member.type.isNone then return (before, true)
  let targetType ← S.memberType c.target member
  match ← S.memberAt? c.source true member.key with
  | none => return c.next before (← missingVerdict c member targetType)
  | some sourceMember => return c.next before (← S.presentVerdict c targetType sourceMember)

def visitIndex : Visitor (List (Ty × Option Node)) := fun found member =>
  match member.key with
  | .index index => return (found ++ [(index, member.node)], true)
  | .field _ => return (found, true)

def indexVerdict (c : Comparison) (index : Ty) (node : Option Node) : Solve Verdict := do
  match ← S.indexer? c.target index false with
  | none => return .accept
  | some targetMember =>
    let same ← match targetMember.index? with
      | none => pure false
      | some key => if key = index then pure true else S.equal key index
    if same || targetMember.type.isNone then return .accept
    let targetType ← S.memberType c.target targetMember
    let sourceType := (← S.indexedType c.source index true).getD Ty.any
    if !c.mode.strictAny && sourceType.isAny then return .accept
    let anchor := c.sourceNode.map node.getD
    if c.mode.widenTables then
      S.memberAccepts c.wanted targetType sourceType c.mode c.targetNode anchor
    else
      mismatchUnless c.wanted (← S.equal targetType sourceType) c.targetNode anchor targetType sourceType

def indexVerdicts (c : Comparison) : List (Ty × Option Node) → Verdict → Solve Verdict
  | [], before => return before
  | (index, node) :: rest, before => do
    let (before, go) := c.next before (← S.indexVerdict c index node)
    if go then indexVerdicts c rest before else return before

def acceptsMembers (c : Comparison) : Solve Verdict := do
  let (verdict, _) ← S.visitMembers (S.visitTargetMember c) true c.target .accept
  if !verdict.accepted && !c.wanted then return verdict
  let (indexes, _) ← S.visitMembers visitIndex true c.source []
  S.indexVerdicts c indexes verdict

def acceptsInstanceMembers (target source : Ty) (mode : Mode) : Solve Bool := do
  let (_, accepted) ← S.visitMembers (fun _ member => do
    if member.type.isNone then return ((), true)
    let targetType ← S.memberType target member
    match ← S.memberAt? source false member.key with
    | none => return ((), ← ofTypes (·.contains targetType Ty.nil))
    | some sourceMember =>
      let sourceType ← S.memberType source sourceMember
      return ((), ← S.accepts targetType sourceType mode)) true target ()
  return accepted

end AnnotatedLua.Solver
