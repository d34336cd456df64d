/-
Signatures: when two are equal, when one may stand for another, and which parameters a call fills.
-/
import AnnotatedLua.Member.Lookup

namespace AnnotatedLua

open Solve

/-! ## Parameters of a call -/

namespace Solver

def selfName : String := "self"

def selfParameter (receiver : Option Ty) : Interning Parameter := do
  return { name := ← Interning.symbol selfName, type := some (receiver.getD Ty.any), optional := false }

/-- The parameters that a call fills, in order. A colon call passes the receiver as the first
parameter of a signature that is declared without a colon, which is left out therefore. A dot call of
a signature that is declared with one passes `self` as its first argument. -/
def callParameters (signature : Signature) (receiver : Option Ty) (colon : Bool) :
    Interning (List Parameter) := do
  if colon && !signature.colon then return signature.params.drop 1
  if !colon && signature.colon then return (← selfParameter receiver) :: signature.params
  return signature.params

def declaredParameters (signature : Signature) : List (Parameter × Nat) :=
  signature.params.zipIdx signature.colon.toNat

variable (S : Solver)

def filledCount (method colon : Bool) (count : Nat) : Nat :=
  if method && !colon then count - 1
  else if !method && colon then count + 1
  else count

def candidates (callable : Ty) (count : Nat) (colon : Bool) : Solve (List Signature) := do
  let method := (← ofTypes (·.marks callable)).method
  let count := filledCount method colon count
  let signatures ← S.signaturesOf callable
  let able := signatures.filter fun s => count ≤ s.params.length || s.variadic.isSome
  return if able.isEmpty then signatures.getLast?.toList else able

/-! ## Comparing -/

def optionalEqual : Option Ty → Option Ty → Solve Bool
  | some a, some b => S.equal a b
  | none, none => return true
  | _, _ => return false

def allEqual {α : Type} (equal : α → α → Solve Bool) (as bs : List α) : Solve Bool :=
  if as.length = bs.length then (as.zip bs).allM fun (a, b) => equal a b else return false

def parameterEqual (a b : Parameter) : Solve Bool :=
  if a.optional = b.optional then S.equal a.typeOrAny b.typeOrAny else return false

def signatureEqual (a b : Signature) : Solve Bool :=
  if a.colon = b.colon then
    S.optionalEqual a.returns b.returns <&&> S.optionalEqual a.variadic b.variadic
      <&&> allEqual S.parameterEqual a.params b.params
      <&&> allEqual S.equal a.typeParams b.typeParams
  else return false

/-- Whether every parameter of `source` is one of `target` and takes what `target` would be passed. -/
def parametersAccept (mode : Mode) : List Parameter → List Parameter → Solve Bool
  | _, [] => return true
  | [], _ :: _ => return false
  | target :: targets, source :: sources => do
    if ← S.accepts source.typeOrAny target.typeOrAny mode then parametersAccept mode targets sources
    else return false

/-- Whether a function of signature `source` may stand for one of signature `target`. A target that
does not say what it returns takes anything. -/
def signatureAccepts (target source : Signature) (mode : Mode) : Solve Bool := do
  if !(← S.parametersAccept mode target.params source.params) then return false
  match target.returns, source.returns with
  | some target, some source => S.accepts target source mode
  | some _, none => return false
  | none, _ => return true

end Solver

end AnnotatedLua
