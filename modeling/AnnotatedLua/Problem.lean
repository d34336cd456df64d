/-
Problems: why a value does not fit, and where. A reason is kept as what it is about; its wording is
made by `Reason.message` alone.
-/
import AnnotatedLua.Symbol
import AnnotatedLua.Text.Lowercase
import AnnotatedLua.Text.Message

namespace AnnotatedLua

inductive Severity where
  | error
  | weakWarning
  deriving DecidableEq, Repr

inductive Reason where
  | mismatch (required found : String)
  | missingMember (member owner : String)
  | nonArrayField (required field : String)
  | missingArgument (name type : String)
  | missingSelf
  | tooManyArguments
  | excessResults (count : Nat)
  /-- The reason is about the value at a position (from one) of the arguments, which a call gave. -/
  | inResult (position : Nat) (reason : Reason)
  /-- The reason is about the values that a call gives any number of. -/
  | inVariadicResult (reason : Reason)
  /-- The value stands where the receiver should. -/
  | meantColon (reason : Reason)
  /-- The reason speaks against one of several signatures. -/
  | inSignature (reason : Reason) (signature : String)
  /-- The reason speaks against one of several members of a union. -/
  | onCandidate (reason : Reason) (candidate : String)
  deriving DecidableEq, Repr

def Reason.message : Reason → String
  | .mismatch required found => Text.Template.typeMismatch.fill [required, found]
  | .missingMember member owner => Text.Template.missingMember.fill [member, owner]
  | .nonArrayField required field => Text.Template.nonArrayField.fill [required, field]
  | .missingArgument name type => Text.Template.missingArgument.fill [name, type]
  | .missingSelf => Text.Template.missingSelf.text
  | .tooManyArguments => Text.Template.tooManyArguments.text
  | .excessResults count =>
    if count = 1 then Text.Template.excessResult.text
    else Text.Template.excessResults.fill [toString count]
  | .inResult position reason =>
    Text.Template.inResult.fill [toString position, Text.decapitalize reason.message]
  | .inVariadicResult reason =>
    Text.Template.inVariadicResult.fill [Text.decapitalize reason.message]
  | .meantColon reason => reason.message ++ Text.Template.meantColon.text
  | .inSignature reason signature => Text.Template.inSignature.fill [reason.message, signature]
  | .onCandidate reason candidate => Text.Template.onCandidate.fill [reason.message, candidate]

structure Problem where
  /-- The declaration that the value was checked against. -/
  target : Option Node
  /-- Where the problem shows. -/
  source : Node
  reason : Reason
  severity : Severity
  deriving DecidableEq, Repr

namespace Problem

def error (target : Option Node) (source : Node) (reason : Reason) : Problem :=
  ⟨target, source, reason, .error⟩

def weakWarning (target : Option Node) (source : Node) (reason : Reason) : Problem :=
  ⟨target, source, reason, .weakWarning⟩

def widen (p : Problem) (f : Reason → Reason) : Problem := { p with reason := f p.reason }

end Problem

structure Verdict where
  accepted : Bool
  problems : List Problem
  deriving DecidableEq, Repr

namespace Verdict

def accept : Verdict := ⟨true, []⟩

def reject (wanted : Bool) (p : Problem) : Verdict := ⟨false, if wanted then [p] else []⟩

def rejectSilently : Verdict := ⟨false, []⟩

def and (a b : Verdict) : Verdict := ⟨a.accepted && b.accepted, a.problems ++ b.problems⟩

def widen (v : Verdict) (f : Reason → Reason) : Verdict :=
  { v with problems := v.problems.map (·.widen f) }

end Verdict

end AnnotatedLua
