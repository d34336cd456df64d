/-
Lists of values. The values of a call are a fixed part and, when variadic, any number of the last
type after it. A union of such lists is one list, made position by position.
-/
import AnnotatedLua.Resolve

namespace AnnotatedLua

open Solve

namespace Solver

variable (S : Solver)

/-! ## Merging -/

structure Merge where
  positions : List Ty := []
  tail : Option Ty := none
  /-- Whether there was no list yet. -/
  fresh : Bool := true

/-- The positions from `start` on, each with `ty` added. -/
def widenFrom (start : Nat) (ty : Ty) (positions : List Ty) : Solve (List Ty) := do
  return positions.take start ++ (← (positions.drop start).mapM (S.union · ty))

/-- The type at a position beyond the earlier lists: it may also hold what came after those, and `nil`
where they were shorter. -/
def beyond (m : Merge) (ty : Ty) : Solve Ty := do
  let widened ← S.unionWith m.tail ty
  if m.fresh then return widened else S.union widened Ty.nil

def mergeValue (m : Merge) (next : Results) (positions : List Ty) (value : Ty × Nat) :
    Solve (List Ty) := do
  let (ty, index) := value
  match positions[index]? with
  | some old => return positions.set index (← S.union old ty)
  | none =>
    if next.variadic && next.types.length - 1 ≤ index then return positions
    return positions ++ [← S.beyond m ty]

def mergeList (m : Merge) (next : Results) : Solve Merge := do
  let positions ← next.types.zipIdx.foldlM (S.mergeValue m next) m.positions
  match next.variadic, next.types.getLast? with
  | true, some last =>
    let positions ← S.widenFrom next.types.length last positions
    return { positions, tail := some (← S.unionWith m.tail last), fresh := false }
  | _, _ =>
    let positions ← S.widenFrom next.types.length Ty.nil positions
    return { positions, tail := m.tail, fresh := false }

def mergeSingle (m : Merge) (ty : Ty) : Solve Merge := do
  let first ← S.unionWith m.positions.head? ty
  let positions ← S.widenFrom 1 Ty.nil (first :: m.positions.tail)
  return { positions, tail := m.tail, fresh := false }

def mergeMember (m : Merge) (ty : Ty) : Solve Merge := do
  match ← lookup ty with
  | .results types variadic => S.mergeList m ⟨types, variadic⟩
  | _ => S.mergeSingle m ty

/-- A union of lists as one list; if that has a single position, it is that position's type. Any other
type is left as it is. -/
def mergeResults (ty : Ty) : Solve Ty := do
  match ← lookup ty with
  | .union parts =>
    let m ← parts.foldlM S.mergeMember {}
    match m.positions, m.tail with
    | [single], none => return single
    | positions, tail => intern (.results (positions ++ tail.toList) tail.isSome)
  | _ => return ty

def asResults (ty : Ty) : Solve (Option Results) := do
  match ← lookup (← S.mergeResults ty) with
  | .results types variadic => return some ⟨types, variadic⟩
  | _ => return none

/-! ## Pairing -/

/-- The type of `first` at a position. -/
def pairLeft (first : Results) (last : Ty) (k : Nat) : Solve Ty :=
  if first.variadic && first.types.length - 1 ≤ k then S.union Ty.nil last
  else return first.types[k]?.getD last

/-- The type of `second` that belongs to the last position of `first`: all that is left. -/
def pairRest (second : Results) (k : Nat) : Solve (Option Ty) :=
  if second.types.length - 1 ≤ k then
    match second.variadic, second.types.getLast? with
    | true, some tail => some <$> intern (.results [tail] true)
    | _, _ => return second.types[k]?
  else some <$> intern (.results (second.types.drop k) second.variadic)

/-- The type of `second` at a position. -/
def pairRight (second : Results) (k : Nat) : Solve (Option Ty) :=
  match second.variadic, second.types.getLast? with
  | true, some tail =>
    if second.types.length - 1 ≤ k then some <$> S.union Ty.nil tail else return second.types[k]?
  | _, _ => return second.types[k]?

/-- Pairs the positions of `first` with those of `second`. A variadic `first` goes on until `second`
is used up. With `several`, the last position of `first` gets all that is left of `second`. -/
def pairUp (first second : Results) (several : Bool) : Solve (List (Ty × Option Ty)) := do
  match first.types.getLast? with
  | none => return []
  | some last =>
    let count := if first.variadic then second.types.length + 1 else first.types.length
    (List.range count).mapM fun k => do
      let left ← S.pairLeft first last k
      let right ←
        if several && k + 1 = first.types.length then pairRest second k else S.pairRight second k
      return (left, right)

end Solver

/-! ## Rules -/

def Rule.resultAt (S : Solver) (ty : Ty) (position : Nat) : Solve Ty := do
  let merged ← S.mergeResults ty
  match ← lookup merged with
  | .results types variadic =>
    match types.getLast? with
    | none => return Ty.nil
    | some last =>
      let lastIndex := types.length - 1
      if position < lastIndex then S.resultAt (types[position]?.getD last) 0
      else if variadic then
        let tail ← S.union (← S.resultAt last 0) (← S.resultAt last (position - lastIndex))
        S.union Ty.nil tail
      else S.resultAt last (position - lastIndex)
  | _ => return if position = 0 then merged else Ty.nil

end AnnotatedLua
