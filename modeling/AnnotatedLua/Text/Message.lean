/-
Message templates. A placeholder is a number in braces. Filling goes argument by argument, so the
text that one argument brings in is open to the arguments after it.
-/
namespace AnnotatedLua.Text

/-! ## Filling -/

/-- The text with every occurrence of `pattern` replaced, from the left and without overlaps. The
first argument counts the characters of a matched pattern that are still to be passed over. -/
def replaceFrom (pattern replacement : List Char) : Nat → List Char → List Char
  | _, [] => []
  | skip + 1, _ :: rest => replaceFrom pattern replacement skip rest
  | 0, c :: rest =>
    if pattern.isPrefixOf (c :: rest) then
      replacement ++ replaceFrom pattern replacement (pattern.length - 1) rest
    else
      c :: replaceFrom pattern replacement 0 rest

/-- What stands for argument `i` in a template. -/
def placeholder (i : Nat) : List Char :=
  '{' :: (toString i).toList ++ ['}']

/-- Replaces the placeholders `i`, `i + 1`, … by the arguments, one after the other. -/
def fillFrom (text : List Char) : Nat → List String → List Char
  | _, [] => text
  | i, arg :: rest => fillFrom (replaceFrom (placeholder i) arg.toList 0 text) (i + 1) rest

def fill (template : String) (args : List String) : String :=
  String.ofList (fillFrom template.toList 0 args)

/-! ## Templates -/

inductive Template where
  | typeMismatch
  | missingMember
  | nonArrayField
  | missingArgument
  | missingSelf
  | meantColon
  | tooManyArguments
  | excessResult
  | excessResults
  | inResult
  | inVariadicResult
  | inSignature
  | onCandidate
  deriving DecidableEq, Repr

def Template.text : Template → String
  | .typeMismatch => "Type mismatch. Required: '\x7b0\x7d' Found: '\x7b1\x7d'"
  | .missingMember => "Type mismatch. Missing member: '\x7b0\x7d' of: '\x7b1\x7d'"
  | .nonArrayField => "Type mismatch. Required: '\x7b0\x7d' Found non-array field '\x7b1\x7d'"
  | .missingArgument => "Missing argument: \x7b0\x7d: \x7b1\x7d"
  | .missingSelf => "Missing self argument.\n\nDid you mean to call the method with a colon?"
  | .meantColon => ".\n\nDid you mean to call the method with a colon?"
  | .tooManyArguments => "Too many arguments."
  | .excessResult => "1 result is an excess argument."
  | .excessResults => "\x7b0\x7d results are excess arguments."
  | .inResult => "Result \x7b0\x7d, \x7b1\x7d"
  | .inVariadicResult => "Variadic result, \x7b0\x7d"
  | .inSignature => "\x7b0\x7d. In: \x7b1\x7d\n"
  | .onCandidate => "\x7b0\x7d, on union candidate \x7b1\x7d"

def Template.fill (t : Template) (args : List String) : String :=
  Text.fill t.text args

end AnnotatedLua.Text
