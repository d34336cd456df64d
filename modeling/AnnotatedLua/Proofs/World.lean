/-
Whole runs of a program. Types and texts are stored, bytes are read, contexts are opened on the types and asked, in
any order and with any handles that were given out before. One step keeps the table well-formed and all that the
contexts hold stored (`World.Step.sound`); so the types that were given out never change, whatever is done
(`World.table_invariant`).
-/
import AnnotatedLua.Proofs.Codec.Stored
import AnnotatedLua.Proofs.Query.Settled
import Mathlib.Logic.Relation

namespace AnnotatedLua

open Relation List

variable {t t' : TypeTable}

/-! ## Storing and reading -/

/-- What may be done to a table with handles that it gave out. -/
inductive TypeTable.Step : TypeTable → TypeTable → Prop
  | text {t : TypeTable} (text : String) : Step t (t.internText text).2
  | form {t : TypeTable} {form} : t.Holds form → Step t (t.intern form).2
  | name {t : TypeTable} {ty} : t.Has ty → Step t (t.keepName ty)
  | union {t : TypeTable} {types} : (∀ ty ∈ types, t.Has ty) → Step t (t.unionOf types).2
  | read {t : TypeTable} (bytes : List UInt8) : Step t (Codec.decode bytes t).2

theorem TypeTable.Step.keeps (h : t.WF) (hstep : t.Step t') : t'.WF ∧ t.Extends t' := by
  cases hstep with
  | text text => exact ⟨h.internText text, t.internText_extends text⟩
  | form hf => exact ⟨h.intern hf, t.intern_extends _⟩
  | name hty => exact ⟨h.keepName hty, t.keepName_extends _⟩
  | union htypes => exact ⟨(h.unionOf_stored htypes).1, t.unionOf_extends _⟩
  | read bytes =>
    obtain ⟨k, hx, -⟩ := Codec.decode_stored bytes h
    exact ⟨k, hx⟩

theorem TypeTable.Extends.forms_take (hx : t.Extends t') : t'.forms.toList.take t.forms.size = t.forms.toList := by
  apply ext_getElem?
  intro i
  rw [getElem?_take]
  split
  · rename_i hi
    have hform : t.forms[i]? = some t.forms[i] := Array.getElem?_eq_getElem hi
    rw [Array.getElem?_toList, Array.getElem?_toList, hform, hx.forms i _ hform]
  · rename_i hi
    exact (getElem?_eq_none (by simpa using hi)).symm

/-! ## Runs -/

/-- The types, and the contexts that were opened on them. A context reads the types as they are now, whatever they
were when it was asked last. -/
structure World where
  types : TypeTable
  contexts : List (Context × Session)

namespace World

def initial : World := ⟨.initial, []⟩

/-- One thing that a program may do with handles that were given out. -/
inductive Step : World → World → Prop
  | store {w} {t : TypeTable} : w.types.Step t → Step w { w with types := t }
  /-- A context is opened. -/
  | start {w ctx} (limits : Limits) : ctx.Declared w.types →
    Step w { w with contexts := w.contexts ++ [(ctx, .start w.types limits)] }
  /-- A context comes to other declarations, into another scope, or into the middle of other queries. -/
  | turn {w i ctx ctx' s guard expanding}
    (position : Int) (several blind canceled : Bool) (inferences : Nat) :
    w.contexts[i]? = some (ctx, s) → ctx'.Declared w.types → Same w.types.given guard guard →
    Same w.types.given expanding expanding →
    Step w ⟨w.types, w.contexts.set i
      (ctx', { s with guard, expanding, position, several, blind, canceled, inferences })⟩
  /-- A context is asked. -/
  | ask {w : World} {i n : Nat} {ctx : Context} {s u : Session} {request : Request} :
    w.contexts[i]? = some (ctx, s) → request.Given w.types →
    request.Answered (Solver.ofBudget n) ctx { s with types := w.types } u →
    Step w ⟨u.types, w.contexts.set i (ctx, u)⟩

/-- The table is well-formed, and all that the contexts hold is stored in it. -/
structure Sound (w : World) : Prop where
  types : w.types.WF
  contexts : ∀ c ∈ w.contexts, Session.Settled c.1 { c.2 with types := w.types }

theorem initial_sound : initial.Sound := ⟨TypeTable.initial_wf, fun c hc => by cases hc⟩

variable {w w' : World}

theorem Sound.set (h : w.Sound) (ht : t.WF) (hx : w.types.Extends t) {i : Nat} {c : Context × Session}
    (hc : Session.Settled c.1 { c.2 with types := t }) : Sound ⟨t, w.contexts.set i c⟩ := by
  refine ⟨ht, fun d hd => ?_⟩
  rcases mem_or_eq_of_mem_set hd with hd | rfl
  · exact (h.contexts d hd).grow hx ht
  · exact hc

theorem Step.sound (hstep : Step w w') (h : w.Sound) : w'.Sound ∧ w.types.Extends w'.types := by
  cases hstep with
  | store hstep =>
    obtain ⟨ht, hx⟩ := hstep.keeps h.types
    exact ⟨⟨ht, fun c hc => (h.contexts c hc).grow hx ht⟩, hx⟩
  | start limits hd =>
    refine ⟨⟨h.types, fun c hc => ?_⟩, .refl _⟩
    rcases mem_append.1 hc with hc | hc
    · exact h.contexts c hc
    · obtain rfl := mem_singleton.1 hc
      exact .start h.types hd limits
  | turn position several blind canceled inferences hi hd hguard hexpanding =>
    have hs := (h.contexts _ (mem_of_getElem? hi)).redeclare hd
    have hturned := hs.turn position several blind canceled inferences (h.types.stores_given hguard)
      (h.types.stores_given hexpanding)
    exact ⟨h.set h.types (.refl _) hturned, .refl _⟩
  | ask hi hgiven hr =>
    have hreaches := Request.reaches _ (h.contexts _ (mem_of_getElem? hi)) hgiven hr
    exact ⟨h.set hreaches.settled.types hreaches.grows.grown hreaches.settled, hreaches.grows.grown⟩

theorem run_sound (hrun : ReflTransGen Step w w') (h : w.Sound) : w'.Sound ∧ w.types.Extends w'.types := by
  induction hrun with
  | refl => exact ⟨h, .refl _⟩
  | tail _ hstep ih =>
    obtain ⟨hnext, hx⟩ := hstep.sound ih.1
    exact ⟨hnext, ih.2.trans hx⟩

/-- At every point of every run: no two handles stand for the same form, what a handle stands for never changes, a
type is given out after its parts, so that it unfolds to a finite tree, the builtin types come first, and a name that
is kept is the one that would be shown. -/
theorem table_invariant (hrun : ReflTransGen Step initial w) (hlater : ReflTransGen Step w w') :
    (∀ a b, w.types.Has a → w.types.Has b → w.types.lookup a = w.types.lookup b → a = b) ∧
    (∀ ty, w.types.Has ty → w'.types.Has ty ∧ w'.types.lookup ty = w.types.lookup ty) ∧
    (∀ ty, ∀ part ∈ (w.types.lookup ty).parts, part.index < ty.index ∧ w.types.Has part) ∧
    WellFounded (fun part ty => part ∈ (w.types.lookup ty).parts) ∧
    w.types.forms.toList.take 10 = TypeTable.initial.forms.toList ∧
    ∀ ty name, w.types.names[ty]? = some name → w.types.Has ty ∧ name = w.types.render ty := by
  obtain ⟨h, -⟩ := run_sound hrun initial_sound
  obtain ⟨-, hx⟩ := run_sound hlater h
  have hparts : ∀ ty, ∀ part ∈ (w.types.lookup ty).parts, part.index < ty.index ∧ w.types.Has part :=
    fun ty part hpart => h.types.toGrounded.part_lt hpart
  refine ⟨fun a b ha hb he => h.types.toGrounded.eq_of_lookup ha hb he, fun ty hty => ⟨hx.has hty, hx.lookup hty⟩, hparts,
    ?_, ?_, h.types.shown⟩
  · exact Subrelation.wf (fun {part ty} hpart => (hparts ty part hpart).1) (measure Ty.index).wf
  · have hsize : TypeTable.initial.forms.size = 10 := by decide
    rw [← hsize]
    exact h.types.base.forms_take

/-- Types that were stored stand while a context makes more of them. -/
theorem table_invariant_union : ∃ w w' : World, ReflTransGen Step initial w ∧ ReflTransGen Step w w' ∧
    w.types.lookup ⟨10⟩ = .union [Ty.number, Ty.string] ∧ w'.types.lookup ⟨11⟩ = .union [Ty.nil, Ty.number] ∧
    w'.types.lookup ⟨10⟩ = .union [Ty.number, Ty.string] := by
  let t := (TypeTable.initial.unionOf [Ty.string, Ty.number]).2
  have hstored : t.lookup ⟨10⟩ = .union [Ty.number, Ty.string] := by decide
  have hasked : (((Solver.ofBudget 4).union Ty.nil Ty.number undeclared (.start t Limits.standard)).map
      fun r => r.2.types.lookup ⟨11⟩) = some (.union [Ty.nil, Ty.number]) := by decide
  obtain ⟨⟨r, u⟩, hr, hnew⟩ := Option.map_eq_some_iff.1 hasked
  have hunion : Step initial ⟨t, []⟩ := .store (.union (by decide))
  have hopen : ReflTransGen Step initial ⟨t, [(undeclared, .start t Limits.standard)]⟩ :=
    .tail (.single hunion) (.start _ (undeclared_declared t))
  have hgiven : (Request.union Ty.nil Ty.number).Given t := ⟨⟨rfl, .inr rfl⟩, ⟨rfl, .inr rfl⟩⟩
  have hask : ReflTransGen Step ⟨t, [(undeclared, .start t Limits.standard)]⟩ ⟨u.types, [(undeclared, u)]⟩ :=
    .single (.ask (i := 0) rfl hgiven ⟨r, hr⟩)
  have hkeeps := (table_invariant hopen hask).2.1 ⟨10⟩ (by decide)
  exact ⟨_, _, hopen, hask, hstored, hnew, hkeeps.2.trans hstored⟩

end World

end AnnotatedLua
