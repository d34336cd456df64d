/-
Checks that say what is wrong. They follow the rules of acceptance, and anchor each problem at the
most specific syntax. A table constructor that fits no member of a union is explained by the members
it came closest to.
-/
import AnnotatedLua.Shape

namespace AnnotatedLua

open Solve

namespace Solver

variable (S : Solver)

/-! ## Arrays -/

/-- What is checked: a value at `sourceNode` against a type, and whether problems are wanted. -/
structure Inspection where
  wanted : Bool
  mode : Mode
  targetNode : Option Node
  sourceNode : Node

def expandResults (ty : Ty) : Solve (List Ty) := do
  match ← lookup ty with
  | .results types _ => return types
  | _ => return [ty]

def checkEach (i : Inspection) (target : Ty) (anchor : Node) : List Ty → Verdict → Solve Verdict
  | [], before => return before
  | value :: rest, before => do
    let part ← S.check i.wanted target value i.mode i.targetNode anchor
    let verdict := before.and part
    if part.accepted || i.wanted then checkEach i target anchor rest verdict else return verdict

def elementKey (found : ArraySearch) : Key → Solve (ArraySearch ⊕ String)
  | .index index => do
    if index = Ty.number then return .inl { found with indexed := true }
    match ← integerKey index with
    | some key => return .inl (found.addKey key)
    | none => return .inr (← keyName (.index index))
  | .field field => return .inr (← keyName (.field field))

/-- Checks a member of a shape as an element of an array, whose name is `shown`. -/
def visitElement (i : Inspection) (inline : Bool) (shown : String) (element source : Ty) :
    Visitor (ArraySearch × Verdict) := fun (found, before) member => do
  let anchor := if inline then member.node.getD i.sourceNode else i.sourceNode
  match ← elementKey found member.key with
  | .inr field =>
    let part := Verdict.reject i.wanted (.error i.targetNode anchor (.nonArrayField shown field))
    return ((found, before.and part), i.wanted)
  | .inl found =>
    let values ← expandResults (← S.memberType source member)
    let part ← S.checkEach i element anchor values .accept
    return ((found, before.and part), part.accepted || i.wanted)

/-- Checks a shape where an array is required: its keys have to be the integers from one on, or
`number`, and its values have to fit the element type. -/
def checkArrayShape (i : Inspection) (target element source : Ty) : Solve Verdict := do
  let inline ← isInlineTable source i.sourceNode
  let required ← name target
  let ((found, verdict), _) ←
    S.visitMembers (S.visitElement i inline required element source) true source ({}, .accept)
  if verdict.accepted && !found.isArray then
    let shown := "table<number, " ++ (← name element) ++ ">"
    return .reject i.wanted (.error i.targetNode i.sourceNode (.mismatch required shown))
  return verdict

/-! ## Single targets -/

def checkPlain (i : Inspection) (target source : Ty) : Solve Verdict := do
  if ← S.accepts target source i.mode then return .accept
  return .reject i.wanted (← mismatch i.targetNode i.sourceNode target source)

def checkTable (i : Inspection) (target source : Ty) : Solve Verdict := do
  let base ← match ← lookup target with
    | .generic base _ => pure base
    | _ => pure target
  if ← isInlineTable source i.sourceNode <&&> S.isShape base then
    S.acceptsMembers
      { wanted := i.wanted, target, source, mode := { i.mode with widenTables := true }
        targetNode := i.targetNode, sourceNode := some i.sourceNode }
  else S.checkPlain i target source

def checkArray (i : Inspection) (target source : Ty) : Solve Verdict := do
  let arrayLike ← match ← kind source with
    | .array => pure true
    | .classRef => S.isArray source
    | _ => pure false
  if arrayLike then S.checkTable i target source
  else if ← S.accepts target source i.mode then S.checkTable i target source
  else return .reject i.wanted (← mismatch i.targetNode i.sourceNode target source)

def checkSingle (i : Inspection) (target source : Ty) : Solve Verdict := do
  match ← lookup target with
  | .array element =>
    let element ← S.resolve element
    let isClass := (← kind source) == .classRef
    if ← pure isClass <&&> S.isShape source then S.checkArrayShape i target element source
    else S.checkArray i target source
  | _ => S.checkTable i target source

/-! ## Union targets -/

def maxAncestors : Nat := 4096

def depthBelow (root : Node) : Nat → Node → Solve Nat
  | 0, _ => return 0
  | n + 1, node => do
    if node = root then return 0
    match ← parent node with
    | some up => return (← depthBelow root n up) + 1
    | none => return 0

structure Candidate where
  name : String
  problems : List Problem

def addCandidate (new : Candidate) : List Candidate → List Candidate
  | [] => [new]
  | c :: rest => if c.name = new.name then new :: rest else c :: addCandidate new rest

def candidateDepth (root : Node) (c : Candidate) : Solve (Option Nat) := do
  return (← c.problems.mapM fun p => depthBelow root maxAncestors p.source).min?

/-- The names of the candidates that got furthest so far, and how far that is. -/
structure Ranking where
  best : List String := []
  depth : Option Nat := none

/-- One more candidate. Without problems it is passed over, and if it got further than all others it is
the only one that is left. -/
def Ranking.add (ranking : Ranking) : Candidate × Option Nat → Ranking
  | (_, none) => ranking
  | (c, some depth) =>
    match ranking.depth with
    | none => ⟨[c.name], some depth⟩
    | some current =>
      if depth < current then ranking
      else if depth = current then { ranking with best := ranking.best ++ [c.name] }
      else ⟨[c.name], some depth⟩

/-- Takes out the candidate of this name; the last one comes to its place. -/
def swapRemove (name : String) : List Candidate → Option (Candidate × List Candidate)
  | [] => none
  | c :: rest =>
    if c.name = name then some (c, rest.getLast?.toList ++ rest.dropLast)
    else (swapRemove name rest).map fun (found, rest) => (found, c :: rest)

/-- The problems of the candidates of these names, one after the other. -/
def takeProblems (suffixed : Bool) : List String → List Candidate → List Problem
  | [], _ => []
  | name :: names, candidates =>
    match swapRemove name candidates with
    | none => takeProblems suffixed names candidates
    | some (c, rest) =>
      (if suffixed then c.problems.map (·.widen (.onCandidate · name)) else c.problems) ++
        takeProblems suffixed names rest

def tryCandidates (i : Inspection) (source : Ty) :
    List Ty → List Candidate → Solve (Option (List Candidate))
  | [], tried => return some tried
  | target :: rest, tried => do
    let verdict ← S.checkSingle { i with wanted := true } target source
    if verdict.accepted then return none
    tryCandidates i source rest (addCandidate ⟨← name target, verdict.problems⟩ tried)

def checkCandidates (i : Inspection) (target source : Ty) : Solve Verdict := do
  match ← S.tryCandidates i source (← S.resolvedMembers target) [] with
  | none => return .accept
  | some tried =>
    let ranked ← tried.mapM fun c => return (c, ← candidateDepth i.sourceNode c)
    let best := (ranked.foldl Ranking.add {}).best
    let problems := takeProblems (1 < best.length) best tried
    return ⟨false, if i.wanted then problems else []⟩

def acceptsShape (target : Ty) : Solve Bool := do
  (← S.resolvedMembers target).anyM fun member => do S.isShape (← S.resolve member)

end Solver

/-! ## Rule -/

def Rule.check (S : Solver) (wanted : Bool) (target source : Ty) (mode : Mode)
    (targetNode : Option Node) (sourceNode : Node) : Solve Verdict := do
  if target = source then return .accept
  let i : Solver.Inspection := { wanted, mode, targetNode, sourceNode }
  let resolved ← S.resolve target
  let isArray := (← kind source) == .array
  let literal ← pure isArray <||> Solver.isInlineTable source sourceNode
  if !(← S.acceptsShape resolved) || !literal then S.checkSingle i resolved source
  else
    let isUnion := (← kind resolved) == .union
    if ← pure isUnion <&&> S.accepts resolved source mode then return .accept
    S.checkCandidates i resolved source

end AnnotatedLua
