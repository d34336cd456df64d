/-
Names and literal texts are stored once and referred to by symbols, so that comparing two of them
compares two numbers. The table only grows. Syntax is referred to by nodes. The solver never looks
inside a node: it hands nodes back to the declarations and anchors problems at them.
-/
namespace AnnotatedLua

/-- A handle of a syntax node, below `2 ^ 32`. -/
structure Node where
  id : Nat
  deriving DecidableEq, Repr

instance : Ord Node := ⟨compareOn Node.id⟩

def Node.absent : Node := ⟨0xFFFFFFFF⟩

def Node.isAbsent (n : Node) : Bool := n == Node.absent

structure Symbol where
  index : Nat
  deriving DecidableEq, Repr

def Symbol.empty : Symbol := ⟨0⟩

instance : Ord Symbol := ⟨compareOn Symbol.index⟩

def Symbol.isEmpty (s : Symbol) : Bool := s == Symbol.empty

structure SymbolTable where
  texts : Array String

namespace SymbolTable

def initial : SymbolTable := ⟨#[""]⟩

/-- The text's index among the first `n` texts. -/
def findBelow (t : SymbolTable) (text : String) : Nat → Option Nat
  | 0 => none
  | n + 1 =>
    match t.texts[n]? with
    | some stored => if stored = text then some n else t.findBelow text n
    | none => t.findBelow text n

def find? (t : SymbolTable) (text : String) : Option Symbol :=
  (t.findBelow text t.texts.size).map Symbol.mk

def intern (t : SymbolTable) (text : String) : Symbol × SymbolTable :=
  match t.find? text with
  | some s => (s, t)
  | none => (⟨t.texts.size⟩, ⟨t.texts.push text⟩)

def text (t : SymbolTable) (s : Symbol) : String :=
  t.texts[s.index]?.getD ""

def size (t : SymbolTable) : Nat := t.texts.size

def isEmpty (t : SymbolTable) : Bool := t.size ≤ 1

end SymbolTable

end AnnotatedLua
