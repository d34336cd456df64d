/-
Substitutions: what replaces the names inside a type. They are data; `Solver.substitute` carries them
out.
-/
import AnnotatedLua.Type.Table

namespace AnnotatedLua

/-! ## Bindings -/

structure Bindings where
  entries : List (Symbol × Ty)
  deriving DecidableEq, Repr

namespace Bindings

def empty : Bindings := ⟨[]⟩

def get? (b : Bindings) (name : Symbol) : Option Ty := b.entries.lookup name

def size (b : Bindings) : Nat := b.entries.length

def isEmpty (b : Bindings) : Bool := b.entries.isEmpty

def insertEntry (name : Symbol) (type : Ty) : List (Symbol × Ty) → List (Symbol × Ty)
  | [] => [(name, type)]
  | entry :: rest =>
    if entry.1 = name then (name, type) :: rest else entry :: insertEntry name type rest

def insert (b : Bindings) (name : Symbol) (type : Ty) : Bindings :=
  ⟨insertEntry name type b.entries⟩

def ofList (entries : List (Symbol × Ty)) : Bindings :=
  entries.foldl (fun b (name, type) => b.insert name type) empty

def ofArgs (t : TypeTable) (params args : List Ty) : Bindings :=
  ofList ((params.zip args).filterMap fun (param, arg) =>
    (t.className? param).map fun name => (name, arg))

end Bindings

/-! ## Substitutions -/

inductive Substitution where
  /-- Aliases by their targets, except those that are already being expanded. -/
  | aliases (expanding : List Symbol)
  /-- Type parameters by the types bound to them. -/
  | params (bindings : Bindings)
  /-- Receiver classes by the receiver of a call. -/
  | receiver (type : Ty)
  /-- Names by the type parameters that they stand for around a node. -/
  | scope (node : Node)
  /-- Aliases inside the bounds of type parameters. -/
  | bounds
  /-- One substitution after the other. -/
  | chain (links : List Substitution)

end AnnotatedLua
