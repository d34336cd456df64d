/-
Unions and differences. A union is kept small as it is built: a member that another one accepts is
dropped, `true` and `false` together are `boolean`, and `any` takes the place of all of them unless
lists of values are among them.
-/
import AnnotatedLua.Query

namespace AnnotatedLua.Solver

open Solve

variable (S : Solver)

/-! ## Unions -/

def subsumption : Mode := { strictAny := true, strictNil := true, nominal := true }

def subsumes (target source : Ty) : Solve Bool := do
  let answer ← withGuard .union (.pair target source) (S.accepts target source subsumption)
  return answer.getD false

def appendMember (children : List Ty) (member : Ty) : Solve (List Ty) := do
  let kept ← children.filterM fun child => return !(← S.subsumes member child)
  return kept ++ [member]

def covers (children : List Ty) (member : Ty) : Solve Bool := do
  if children.contains member then return true
  children.anyM fun child => S.subsumes child member

def otherBoolean? (ty : Ty) : Option Ty :=
  if ty = Ty.trueLiteral then some Ty.falseLiteral
  else if ty = Ty.falseLiteral then some Ty.trueLiteral
  else none

/-- The members with one more, which is neither `true` nor `false` or has not met the other. -/
def insertPlain (children : List Ty) (member : Ty) : Solve (List Ty) := do
  if ← S.covers children member then return children
  S.appendMember children member

def insertMember (children : List Ty) (member : Ty) : Solve (List Ty) := do
  if ← S.covers children member then return children
  match otherBoolean? member with
  | some other =>
    if children.contains other then S.insertPlain (children.erase other) Ty.boolean
    else S.appendMember children member
  | none => S.appendMember children member

def unionOf (children : List Ty) : Solve Ty :=
  match children with
  | [] => return Ty.void
  | [ty] => return ty
  | _ => store (.unionOf children)

def unionAll (types : List Ty) : Solve Ty := do
  let flat ← ofTypes fun t => (types.flatMap t.members).filter (!·.isVoid)
  let hasResults ← ofTypes fun t => flat.any (t.kind · == .results)
  if !hasResults && flat.any Ty.isAny then return Ty.any
  unionOf (← flat.foldlM S.insertMember [])

def union (a b : Ty) : Solve Ty :=
  if a = b then return a
  else if a.isVoid then return b
  else if b.isVoid then return a
  else S.unionAll [a, b]

def unionWith (acc : Option Ty) (ty : Ty) : Solve Ty :=
  match acc with
  | some acc => S.union acc ty
  | none => return ty

/-! ## Differences -/

/-- The members without those of `removed`, which is no union. Only what `removed` accepts outright
goes; taking one boolean literal from `boolean` leaves the other. -/
def removeMember (children : List Ty) (removed : Ty) : Solve (List Ty) := do
  if children.contains removed then return children.erase removed
  match otherBoolean? removed with
  | some other =>
    if children.contains Ty.boolean then
      let rest := children.erase Ty.boolean
      return if rest.contains other then rest else rest ++ [other]
    else return children
  | none =>
    if removed = Ty.boolean then
      return children.filter fun c => c != Ty.trueLiteral && c != Ty.falseLiteral
    else children.filterM fun child => return !(← S.accepts removed child { strictNil := true })

/-- `a` without the members of `b`. -/
def subtract (a b : Ty) : Solve Ty := do
  unionOf (← (← members b).foldlM S.removeMember (← members a))

end AnnotatedLua.Solver
