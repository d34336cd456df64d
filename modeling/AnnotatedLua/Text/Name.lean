/-
Texts of names and table keys: beginnings and ends of names, and the integer numerals of keys, which
are an optional sign and decimal digits in the range of signed 64-bit words.
-/
namespace AnnotatedLua.Text

/-- The text without its first character, when that is `c`. -/
def dropFirst (c : Char) (text : String) : String :=
  match text.toList with
  | d :: rest => if d = c then String.ofList rest else text
  | [] => text

def beforeEnding? (ending text : String) : Option String :=
  if ending.toList.isSuffixOf text.toList then
    some (String.ofList (text.toList.take (text.toList.length - ending.toList.length)))
  else none

def digitsFrom? (value : Nat) : List Char → Option Nat
  | [] => some value
  | c :: rest => if c.isDigit then digitsFrom? (10 * value + (c.toNat - '0'.toNat)) rest else none

def digits? : List Char → Option Nat
  | [] => none
  | cs => digitsFrom? 0 cs

def signed? : List Char → Option Int
  | '-' :: rest => (digits? rest).map fun n => -(n : Int)
  | '+' :: rest => (digits? rest).map fun n => (n : Int)
  | cs => (digits? cs).map fun n => (n : Int)

/-- The integer a key text denotes, when it lies between `-2 ^ 63` and `2 ^ 63 - 1`. -/
def integer? (text : String) : Option Int :=
  (signed? text.toList).filter fun n => -0x8000000000000000 ≤ n && n < 0x8000000000000000

end AnnotatedLua.Text
