/-
The questions of the solver. Its rules call each other in circles, through declarations that may be
recursive, so a rule does not call another rule of the circle: it asks a `Solver`. A solver with a
budget answers by the rules over a solver with a smaller budget (`Solver.ofBudget`).
-/
import AnnotatedLua.Problem
import AnnotatedLua.Session
import AnnotatedLua.Substitution

namespace AnnotatedLua

structure Mode where
  /-- `any` is not accepted everywhere. -/
  strictAny : Bool := false
  /-- A type parameter accepts whatever its bound accepts. -/
  openParams : Bool := false
  /-- The parts of tables may be narrower than required, as in a table constructor. -/
  widenTables : Bool := false
  /-- `nil` is not accepted everywhere. -/
  strictNil : Bool := false
  /-- Shapes are compared by name, table constructors excepted. -/
  nominal : Bool := false
  deriving DecidableEq, Repr

namespace Mode

def lenient : Mode := {}

def ofBits (bits : Nat) : Mode where
  strictAny := bits.testBit 0
  openParams := bits.testBit 1
  widenTables := bits.testBit 2
  strictNil := bits.testBit 3
  nominal := bits.testBit 4

end Mode

/-- Where the search for bindings stands: the parameters searched for, the arguments of the call, the
type at the present position of the argument, and the declared types that are being looked into. -/
structure Search where
  params : Bindings
  callNodes : List Node
  current : Ty
  visiting : List Ty

inductive Query : Type → Type where
  | accepts (target source : Ty) (mode : Mode) : Query Bool
  | equal (a b : Ty) : Query Bool
  | check (wanted : Bool) (target source : Ty) (mode : Mode) (targetNode : Option Node)
      (sourceNode : Node) : Query Verdict
  | willResolve (ty : Ty) : Query Bool
  | isShape (ty : Ty) : Query Bool
  | paramsOf (ty : Ty) : Query (List Ty)
  | superClass (ty : Ty) : Query (Option Ty)
  | resultAt (ty : Ty) (position : Nat) : Query Ty
  | substitute (ty : Ty) (s : Substitution) : Query Ty
  | memberSubstitution (ty : Ty) : Query (Option (List Substitution))
  | fieldType (ty : Ty) (name : Symbol) : Query (Option Ty)
  | indexedType (ty index : Ty) (exact : Bool) : Query (Option Ty)
  | signaturesOf (ty : Ty) : Query (List Signature)
  | infer (node : Node) : Query (Option Ty)
  | bind (search : Search) (bindings : Bindings) (declared : Ty) : Query Bindings

structure Solver where
  budget : Nat
  ask : {α : Type} → Query α → Solve α

namespace Solver

/-- Whether a value of type `source` may stand where `target` is required. -/
def accepts (S : Solver) (target source : Ty) (mode : Mode) : Solve Bool :=
  S.ask (.accepts target source mode)

def equal (S : Solver) (a b : Ty) : Solve Bool := S.ask (.equal a b)

/-- As `accepts`, with the problems if they are wanted. -/
def check (S : Solver) (wanted : Bool) (target source : Ty) (mode : Mode)
    (targetNode : Option Node) (sourceNode : Node) : Solve Verdict :=
  S.ask (.check wanted target source mode targetNode sourceNode)

def willResolve (S : Solver) (ty : Ty) : Solve Bool := S.ask (.willResolve ty)

def isShape (S : Solver) (ty : Ty) : Solve Bool := S.ask (.isShape ty)

def paramsOf (S : Solver) (ty : Ty) : Solve (List Ty) := S.ask (.paramsOf ty)

def superClass (S : Solver) (ty : Ty) : Solve (Option Ty) := S.ask (.superClass ty)

def resultAt (S : Solver) (ty : Ty) (position : Nat) : Solve Ty := S.ask (.resultAt ty position)

def substitute (S : Solver) (ty : Ty) (s : Substitution) : Solve Ty := S.ask (.substitute ty s)

def memberSubstitution (S : Solver) (ty : Ty) : Solve (Option (List Substitution)) :=
  S.ask (.memberSubstitution ty)

def fieldType (S : Solver) (ty : Ty) (name : Symbol) : Solve (Option Ty) := S.ask (.fieldType ty name)

def indexedType (S : Solver) (ty index : Ty) (exact : Bool) : Solve (Option Ty) :=
  S.ask (.indexedType ty index exact)

def signaturesOf (S : Solver) (ty : Ty) : Solve (List Signature) := S.ask (.signaturesOf ty)

def infer (S : Solver) (node : Node) : Solve (Option Ty) := S.ask (.infer node)

def bind (S : Solver) (search : Search) (bindings : Bindings) (declared : Ty) : Solve Bindings :=
  S.ask (.bind search bindings declared)

end Solver

end AnnotatedLua
