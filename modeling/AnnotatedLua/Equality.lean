/-
Equality of types by meaning: aliases are their targets, and two shapes are equal if each accepts the
other.
-/
import AnnotatedLua.Signature

namespace AnnotatedLua

open Solve

namespace Solver

variable (S : Solver)

/-- Whether two shapes accept each other. A pair that is being compared is not equal: what remains is
the comparison by members, where recursive shapes are taken to be related. -/
def shapesEqual (a b : Ty) : Solve Bool := do
  if !(← S.isShape a) then return false
  if !(← S.isShape b) then return false
  let answer ← withGuard .shapeEquality (.pair a b)
    (S.accepts a b Mode.lenient <&&> S.accepts b a Mode.lenient)
  return answer.getD false

/-- Whether a class that stands for nothing else is equal to `other`, which was resolved. -/
def classEqual (a : Ty) (name : Symbol) (other : Ty) : Solve Bool := do
  if other = a then return true
  match ← lookup other with
  | .classRef otherName _ =>
    if otherName = name then
      let marks ← classMarks a
      if marks = (← classMarks other) then return true
    S.shapesEqual a other
  | _ => S.shapesEqual a other

/-- Whether an instance that stands for nothing else is equal to `other`, which was resolved. -/
def instanceEqual (a base : Ty) (args : List Ty) (other : Ty) : Solve Bool := do
  match ← lookup other with
  | .generic otherBase otherArgs =>
    if args.length = otherArgs.length then
      if ← S.equal base otherBase <&&> allEqual S.equal args otherArgs then return true
    S.shapesEqual a other
  | _ => S.shapesEqual a other

def unionsEqual (own other : List Ty) : Solve Bool :=
  if own.length = other.length then
    own.allM fun member =>
      if other.contains member then return true else other.anyM (S.equal member)
  else return false

def paramsEqual (name : Symbol) (bound : Option Ty) (otherName : Symbol) (otherBound : Option Ty) :
    Solve Bool :=
  if name = otherName then S.optionalEqual bound otherBound else return false

end Solver

/-! ## Rule -/

def Rule.equal (S : Solver) (a b : Ty) : Solve Bool := do
  if a = b then return true
  match ← lookup a with
  | .snippet _ => return false
  | .array element =>
    match ← lookup (← S.resolve b) with
    | .array otherElement => S.equal element otherElement
    | _ => return false
  | .classRef name _ =>
    let resolved ← S.resolve a
    if resolved ≠ a then return ← S.equal resolved b
    S.classEqual a name (← S.resolve b)
  | .param name _ bound =>
    match ← lookup (← S.resolve b) with
    | .param otherName _ otherBound => S.paramsEqual name bound otherName otherBound
    | _ => return false
  | .aliasRef _ _ target =>
    return (← withGuard .aliasEquality (.pair a b) (S.equal target b)).getD false
  | .union _ =>
    let own ← members (← S.resolve a)
    let other ← members (← S.resolve b)
    S.unionsEqual own other
  | .generic base args =>
    let resolved ← S.resolve a
    if resolved ≠ a then return ← S.equal resolved b
    S.instanceEqual a base args (← S.resolve b)
  | .function main overloads _ =>
    match ← lookup (← S.resolve b) with
    | .function otherMain otherOverloads _ =>
      S.signatureEqual main otherMain <&&>
        Solver.allEqual S.signatureEqual overloads otherOverloads
    | _ => return false
  | .results types variadic =>
    match ← lookup (← S.resolve b) with
    | .results otherTypes otherVariadic =>
      if variadic = otherVariadic then Solver.allEqual S.equal types otherTypes else return false
    | _ => return false
  | _ => return (← S.resolve b) = a

end AnnotatedLua
