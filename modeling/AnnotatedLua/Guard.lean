/-
The recursion guard. Every walk over declarations announces what it is about to do. The guard
refuses a key that is still active, too many active keys, and too many requests in all.
-/
namespace AnnotatedLua

structure Limits where
  depth : Nat
  iterations : Nat
  deriving DecidableEq, Repr

def Limits.standard : Limits := ⟨256, 1000000⟩

inductive Admission where
  | entered
  | cycle
  | depthExceeded
  | iterationsExceeded
  deriving DecidableEq, Repr

namespace Admission

def isEntered (a : Admission) : Bool := a == .entered

def isCycle (a : Admission) : Bool := a == .cycle

def isExceeded (a : Admission) : Bool := a == .depthExceeded || a == .iterationsExceeded

def isDenied (a : Admission) : Bool := !a.isEntered

end Admission

structure Guard (κ : Type) where
  limits : Limits
  active : List κ
  depth : Nat
  iterations : Nat
  exceeded : Bool

namespace Guard

variable {κ : Type}

def ofLimits (limits : Limits) : Guard κ := ⟨limits, [], 0, 0, false⟩

def counterMax : Nat := 0xFFFFFFFF

def count (g : Guard κ) : Guard κ :=
  { g with iterations := min (g.iterations + 1) counterMax }

variable [DecidableEq κ]

def isActive (g : Guard κ) (key : κ) : Bool := g.active.contains key

/-- A request to enter `key`. The request is counted first; then the number of requests, the number
of active keys and the key itself are looked at, in this order. -/
def enter (g : Guard κ) (key : κ) : Admission × Guard κ :=
  let g := g.count
  if g.limits.iterations < g.iterations then (.iterationsExceeded, { g with exceeded := true })
  else if g.limits.depth ≤ g.depth then (.depthExceeded, { g with exceeded := true })
  else if g.isActive key then (.cycle, g)
  else (.entered, { g with active := key :: g.active, depth := g.depth + 1 })

def leave (g : Guard κ) (key : κ) : Guard κ :=
  { g with active := g.active.erase key, depth := g.depth - 1 }

end Guard

end AnnotatedLua
