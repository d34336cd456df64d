/-
Putting types for type parameters ends (`ends_substitute`). What comes out keeps its shape (`ends_substitute_compound`)
and is made of the types that are put in (`ends_substitute_plain`).
-/
import AnnotatedLua.Proofs.Alias.Values

namespace AnnotatedLua

open Solve Solver TypeTable List

variable {u s : Session} {ctx : Context} {bindings : Bindings} {form : Form} {σ : Substitution}

/-! ## Types of a shape -/

section
variable {ν τ : Type}

def SignatureOf.slots (s : SignatureOf ν τ) : List (τ × Bool) :=
  s.typeParams.map (·, false) ++ (s.params.flatMap fun p => p.type.toList.map (·, true)) ++
    s.variadic.toList.map (·, true) ++ s.returns.toList.map (·, true)

def FormOf.slots : FormOf ν τ → List (τ × Bool)
  | .array element => [(element, true)]
  | .generic base args => (base :: args).map (·, true)
  | .function main overloads _ => (main :: overloads).flatMap SignatureOf.slots
  | form => form.parts.map (·, false)

theorem SignatureOf.slots_parts (s : SignatureOf ν τ) : s.slots.map Prod.fst = s.parts := by
  simp [slots, parts, map_flatMap, Function.comp_def]

theorem FormOf.slots_parts (form : FormOf ν τ) : form.slots.map Prod.fst = form.parts := by
  cases form <;> simp [slots, parts, SignatureOf.slots_parts, map_flatMap, Function.comp_def]

structure Slot (R : Ty → Ty → Prop) (x y : Ty × Bool) : Prop where
  kind : y.2 = x.2
  filled : x.2 = true → R x.1 y.1
  kept : x.2 = false → y.1 = x.1

variable {R : Ty → Ty → Prop}

theorem Slot.imp {R' : Ty → Ty → Prop} (h : ∀ p r, R p r → R' p r) (x y : Ty × Bool) (hxy : Slot R x y) : Slot R' x y :=
  ⟨hxy.kind, fun hx => h _ _ (hxy.filled hx), hxy.kept⟩

theorem Slot.of_filled {p r : Ty} (h : R p r) : Slot R (p, true) (r, true) :=
  ⟨rfl, fun _ => h, nofun⟩

/-- The same form, with other types where a substitution puts them in. -/
structure FormOf.Refilled (R : Ty → Ty → Prop) (form form' : Form) : Prop where
  shape : form'.shape = form.shape
  slots : Forall₂ (Slot R) form.slots form'.slots

theorem FormOf.Refilled.forall_parts {J : Ty → Prop} {form' : Form} (h : form.Refilled R form')
    (hR : ∀ p r, R p r → J r) (hold : ∀ p ∈ form.parts, J p) : ∀ p ∈ form'.parts, J p := by
  rw [← slots_parts, forall_mem_map] at hold ⊢
  refine forall₂_right (Forall₂.imp ?_ ((forall₂_and_left _ _).2 ⟨hold, h.slots⟩))
  rintro ⟨x, _ | _⟩ y ⟨hx, hxy⟩
  · rwa [hxy.kept rfl]
  · exact hR x y.1 (hxy.filled rfl)

theorem shapes_of_forall₂ {α β σ : Type} (parts : α → List β) {shape : α → σ} {R : β → β → Prop} {l r : List α}
    (h : Forall₂ (fun a b => shape b = shape a ∧ Forall₂ R (parts a) (parts b)) l r) :
    r.map shape = l.map shape ∧ Forall₂ R (l.flatMap parts) (r.flatMap parts) := by
  induction h with
  | nil => exact ⟨rfl, .nil⟩
  | cons hab _ ih => exact ⟨by simp only [map_cons, hab.1, ih.1], rel_append hab.2 ih.2⟩
end

section
variable [Solvers] {R : TypeTable → Ty → Ty → Prop}
  (hlater : ∀ u v : Session, u.Past ctx s → v.Past ctx u → ∀ p r, R u.types p r → R v.types p r)

theorem ends_substituteOptional {f : Solver → Ty → Solve Ty} {o : Option Ty} (hu : u.types.WF)
    (hf : ∀ p, o = some p → u.Ends ctx (fun S => f S p) fun r v => R v.types p r) :
    u.Ends ctx (fun S => substituteOptional (f S) o) fun r v => r.map (fun _ => ()) = o.map (fun _ => ()) ∧
      Forall₂ (Slot (R v.types)) (o.toList.map (·, true)) (r.toList.map (·, true)) := by
  cases o with
  | none => exact .pure hu ⟨rfl, .nil⟩
  | some p => exact (hf p rfl).bind fun r v hv hr => .pure hv.types ⟨rfl, .cons (.of_filled hr) .nil⟩

include hlater

omit [Solvers] in
theorem slots_later {v : Session} (hu : u.Past ctx s) (hv : v.Past ctx u) {l r : List (Ty × Bool)}
    (h : Forall₂ (Slot (R u.types)) l r) : Forall₂ (Slot (R v.types)) l r :=
  h.imp (Slot.imp (hlater u v hu hv))

section
variable {signature : Signature}
  (hpart : ∀ p ∈ signature.parts, s.Onward ctx (·.substitute p σ) fun r v => R v.types p r)
  (hsingle : ∀ p ∈ signature.parts, s.Onward ctx (·.substituteSingle σ p) fun r v => R v.types p r)
include hpart hsingle

theorem ends_substituteSignature (hu : u.Past ctx s) :
    u.Ends ctx (·.substituteSignature σ signature) fun r v => r.map id (fun _ => ()) = signature.map id (fun _ => ()) ∧
      Forall₂ (Slot (R v.types)) signature.slots r.slots := by
  have hparams : ∀ q ∈ signature.params, u.Onward ctx (·.substituteParameter σ q) fun r w => r.map id (fun _ => ()) = q.map id (fun _ => ()) ∧
        Forall₂ (Slot (R w.types)) (q.type.toList.map (·, true)) (r.type.toList.map (·, true)) := by
    intro q hq v hv
    refine (ends_substituteOptional hv.types fun p hp => ?_).bind fun r w hw hr => .pure hw.types ⟨?_, hr.2⟩
    · refine hsingle p ?_ v (hu.trans hv)
      simp only [SignatureOf.parts, mem_append, mem_flatMap, Option.mem_toList]
      exact .inl (.inl (.inr ⟨q, hq, hp⟩))
    · simp only [ParameterOf.map, hr.1]
  refine (ends_mapM_forall₂ hu.types (fun _ _ _ v w hv hw hr => ⟨hr.1, slots_later hlater (hu.trans hv) hw hr.2⟩)
    hparams).bind fun _ v hv hforall => ?_
  obtain ⟨hshape, hall⟩ := shapes_of_forall₂ (fun q : Parameter => q.type.toList.map (·, true)) hforall
  have hv := hu.trans hv
  refine (ends_substituteOptional hv.types fun p hp => hpart p ?_ v hv).bind fun _ w hw hreturns => ?_
  · simp [SignatureOf.parts, hp]
  have hw' := hv.trans hw
  refine (ends_substituteOptional hw.types fun p hp => hsingle p ?_ w hw').bind fun _ x hx hvariadic => ?_
  · simp [SignatureOf.parts, hp]
  refine .pure hx.types ⟨?_, rel_append (rel_append (rel_append ?_ ?_) hvariadic.2) ?_⟩
  · simp only [SignatureOf.map, hshape, hreturns.1, hvariadic.1]
  · exact forall₂_same.2 (by simp +contextual [Slot.mk])
  · exact slots_later hlater hv (hw.trans hx) hall
  · exact slots_later hlater hw' hx hreturns.2
end

section
variable {ty : Ty} (hw : s.types.WF) (hty : s.types.Has ty) (hhas : ∀ t p r, R t p r → t.Has r)
include hw hty hhas

theorem ends_reshaped (hu : u.Past ctx s) {p : Prop} [Decidable p]
    (hp : p → form = s.types.lookup ty) (h : (s.types.lookup ty).Refilled (R u.types) form) :
    u.Ends ctx (fun _ => if p then pure ty else intern form) fun r v =>
      v.types.Has r ∧ (s.types.lookup ty).Refilled (R v.types) (v.types.lookup r) := by
  refine .ite (fun hsame => .pure hu.types ⟨hu.grown.has hty, ?_⟩) fun _ => ?_
  · rw [hp hsame] at h
    rwa [hu.grown.lookup hty]
  · have hholds : u.types.Holds form := by
      refine ⟨h.forall_parts (hhas _) fun p hp => hu.grown.has (hw.part_lt hp).2, fun x hx => ?_⟩
      rw [FormOf.names_of_shape h.shape] at hx
      exact hu.grown.hasSymbol (hw.hasSymbol hx)
    refine (ends_intern hu.types hholds).imp ?_
    rintro r v hv ⟨hr, hl⟩
    rw [hl]
    exact ⟨hr, h.shape, slots_later hlater hu hv h.slots⟩

variable
  (hpart : ∀ p ∈ (s.types.lookup ty).parts, s.Onward ctx (·.substitute p (.params bindings)) fun r v => R v.types p r)
  (hsingle : ∀ p ∈ (s.types.lookup ty).parts, s.Onward ctx (·.substituteSingle (.params bindings) p) fun r v => R v.types p r)
include hpart hsingle

theorem ends_substitute_compound (hkind : s.types.kind ty ∈ [Kind.array, .generic, .function])
    (hu : u.Past ctx s) : u.Ends ctx (·.substitute ty (.params bindings)) fun r v =>
      v.types.Has r ∧ (s.types.lookup ty).Refilled (R v.types) (v.types.lookup r) := by
  refine .ask rfl (.lookup hu.types ty fun form hform => ?_)
  rw [hu.grown.lookup hty] at hform
  have hreshaped {form : Form} {v : Session} (hv : v.Past ctx s) {p : Prop} [Decidable p]
      (hp : p → form = s.types.lookup ty) (h : (s.types.lookup ty).Refilled (R v.types) form) :=
    ends_reshaped hlater hw hty hhas hv hp h
  rw [← hform] at hpart hsingle
  unfold TypeTable.kind at hkind
  rw [← hform] at hkind hreshaped ⊢
  cases form with
  | array element =>
    refine (hsingle element (by simp) u hu).bind fun r v hv hr => ?_
    exact hreshaped (hu.trans hv) (fun h => by rw [h]) ⟨rfl, .cons (.of_filled hr) .nil⟩
  | generic base args =>
    have hargs : ∀ a ∈ args, u.Onward ctx (·.substituteSingle (.params bindings) a) fun r w => R w.types a r :=
      fun a ha v hv => hsingle a (by simp [ha]) v (hu.trans hv)
    refine (ends_mapM_forall₂ hu.types (fun a _ r v w hv hw => hlater v w (hu.trans hv) hw a r) hargs).bind
      fun _ v hv hnew => ?_
    have hv := hu.trans hv
    refine (hpart base (by simp) v hv).bind fun _ w hw' hbase => ?_
    refine hreshaped (hv.trans hw') (by simp +contextual) ⟨?_, .cons (.of_filled hbase) ?_⟩
    · have hlen := hnew.length_eq
      simp [FormOf.shape, FormOf.map, map_const', hlen]
    · rw [forall₂_map_left_iff, forall₂_map_right_iff]
      exact hnew.imp fun a r h => .of_filled (hlater v w hv hw' a r h)
  | function main overloads marks =>
    have hsignature : ∀ signature ∈ main :: overloads, u.Onward ctx (·.substituteSignature (.params bindings) signature) fun r w =>
          r.map id (fun _ => ()) = signature.map id (fun _ => ()) ∧
            Forall₂ (Slot (R w.types)) signature.slots r.slots := by
      intro signature hm v hv
      have hmem {p : Ty} (hp : p ∈ signature.parts) : p ∈ (FormOf.function main overloads marks).parts :=
        mem_flatMap.2 ⟨signature, hm, hp⟩
      exact ends_substituteSignature hlater (fun p hp => hpart p (hmem hp)) (fun p hp => hsingle p (hmem hp)) (hu.trans hv)
    obtain ⟨hmain, hoverloads⟩ := forall_mem_cons.1 hsignature
    refine (hmain u (.of_wf hu.types)).bind fun _ v hv hnewMain => ?_
    have hv' := hu.trans hv
    refine (ends_mapM_forall₂ hv.types (fun _ _ _ w x hw hx hr => ⟨hr.1, slots_later hlater (hv'.trans hw) hx hr.2⟩)
      fun signature hm w hw' => hoverloads signature hm w (hv.trans hw')).bind fun _ w hw' hnew => ?_
    obtain ⟨hshape, hall⟩ := shapes_of_forall₂ SignatureOf.slots hnew
    refine hreshaped (hv'.trans hw') (by simp +contextual) ⟨?_, rel_append (slots_later hlater hv' hw' hnewMain.2) hall⟩
    simp only [FormOf.shape, FormOf.map, hnewMain.1, hshape]
  | _ => simp at hkind
end

end

/-! ## Every type -/

/-- Types can be put for type parameters: unions of stored types are found, and the parameters that tables declare are
type parameters. -/
structure Session.Substitutes [Solvers] (ctx : Context) (s : Session) : Prop where
  types : s.types.WF
  decides : s.Decides ctx
  params : ∀ name decl, s.classSeen ctx name = some decl → ∀ p ∈ decl.params, s.types.Has p ∧ s.types.kind p = .param

theorem Session.Substitutes.at [Solvers] (hs : s.Substitutes ctx) (hu : u.Past ctx s) :
    u.Substitutes ctx where
  types := hu.types
  decides v hv := hs.decides v (hu.trans hv)
  params name decl hd p hp := by
    rw [hu.classSeen] at hd
    obtain ⟨hhas, _⟩ := hs.params name decl hd p hp
    exact ⟨hu.grown.has hhas, by rwa [hu.kind hhas]⟩

/-- The class is a table that is declared in place with type parameters around it. -/
def Session.Instantiated (ctx : Context) (s : Session) (name : Symbol) (marks : Marks) : Prop :=
  marks.structural = true ∧ marks.literalTable = false ∧
    ∃ decl, s.classSeen ctx name = some decl ∧ decl.tableNode.isSome ∧ decl.params ≠ []

theorem Session.Past.instantiated (hu : u.Past ctx s) : u.Instantiated ctx = s.Instantiated ctx := by
  unfold Session.Instantiated
  rw [hu.classSeen]

section
variable [Solvers]

section
variable (hs : s.Substitutes ctx)
include hs

theorem ends_runningUnions {acc : Option Ty} {types : List Ty} (ha : ∀ a, acc = some a → s.types.Has a)
    (ht : ∀ ty ∈ types, s.types.Has ty) :
    s.Ends ctx (·.runningUnions acc types) fun r u => ∀ ty ∈ r, u.types.Has ty := by
  induction types generalizing s acc with
  | nil => exact .pure hs.types nofun
  | cons ty rest ih =>
    obtain ⟨hty, hrest⟩ := forall_mem_cons.1 ht
    refine (ends_unionWith (joins_has hs.types hs.decides) ha hty).bind fun _ u hu hnext => ?_
    refine (ih (hs.at hu) ?_ fun p hp => hu.grown.has (hrest p hp)).bind fun r v hv hr => .pure hv.types ?_
    · rintro _ ⟨⟩
      exact hnext
    · exact forall_mem_cons.2 ⟨hv.grown.has hnext, hr⟩

theorem ends_spliceItem (variadic : Bool) {ty : Ty} (hty : s.types.Has ty) :
    s.Ends ctx (·.spliceItem variadic ty) fun r u => ∀ p ∈ r.1, u.types.Has p := by
  refine .lookup hs.types ty fun form hform => ?_
  cases form with
  | results types =>
    have htypes : ∀ p ∈ types, s.types.Has p := fun p hp => hs.types.part_has hform.symm hp
    refine .ite (fun _ => ?_) fun _ => .pure hs.types htypes
    have hnone : ∀ a, (none : Option Ty) = some a → s.types.Has a := by simp
    exact (ends_runningUnions hs hnone htypes).bind fun r u hu hr => .pure hu.types hr
  | _ => exact .pure hs.types (by simpa using hty)

theorem ends_substituteItems (variadic : Bool) {items : List Ty}
    (hitems : ∀ item ∈ items, s.Onward ctx (·.substitute item σ) fun r v => v.types.Has r) :
    s.Ends ctx (·.substituteItems σ variadic items) fun r u => ∀ p ∈ r.1, u.types.Has p := by
  induction items generalizing s with
  | nil => exact .pure hs.types nofun
  | cons item rest ih =>
    obtain ⟨hitem, hrest⟩ := forall_mem_cons.1 hitems
    refine (hitem s (.of_wf hs.types)).bind fun newItem u hu hnew => ?_
    have hafter {v : Session} (hv : v.Past ctx u) {here : List Ty} (opened : Bool) (hhere : ∀ p ∈ here, v.types.Has p) :
        v.Ends ctx (fun S => S.substituteItems σ variadic rest >>= fun r =>
          pure (here ++ r.1, r.2.1 || newItem != item, r.2.2 || (opened && rest.isEmpty)))
          fun (r : List Ty × Bool × Bool) w => ∀ p ∈ r.1, w.types.Has p := by
      have hv' := hu.trans hv
      refine (ih (hs.at hv') fun y hy w hw => hrest y hy w (hv'.trans hw)).bind fun r w hw hafter => ?_
      exact .pure hw.types (forall_mem_append.2 ⟨fun p hp => hw.grown.has (hhere p hp), hafter⟩)
    refine .ite (fun he => ?_) fun _ => ?_
    · exact hafter (.of_wf hu.types) false (by simpa [← he] using hnew)
    · refine (ends_spliceItem (hs.at hu) variadic hnew).bind fun here v hv hhere => ?_
      exact hafter hv here.2 hhere

theorem ends_substitute_param {ty : Ty} (hkind : s.types.kind ty = .param) (hty : s.types.Has ty)
    (hb : ∀ name v, bindings.get? name = some v → s.types.Has v) :
    s.Ends ctx (·.substitute ty (.params bindings)) fun r u => u.types.Has r := by
  refine .ask rfl (.lookup hs.types ty fun form hform => ?_)
  rw [kind_of hform.symm] at hkind
  cases form with
  | param name =>
    refine .pure hs.types ?_
    cases hget : bindings.get? name with
    | none => exact hty
    | some v => exact hb name v hget
  | _ => cases hkind
end

section
variable {ty : Ty} {name : Symbol} {marks : Marks} (hw : s.types.WF)
  (hs : s.Instantiated ctx name marks → s.Substitutes ctx) (hb : ∀ name v, bindings.get? name = some v → s.types.Has v)
include hw hs hb

theorem ends_instantiateTable (hty : s.types.Has ty) :
    s.Ends ctx (·.instantiateTable bindings ty name marks) fun r u => r = ty ∨
      u.types.Has r ∧ s.Instantiated ctx name marks ∧ ∃ args, u.types.lookup r = .generic ty args := by
  refine .early hw (.inl rfl) fun hmarks => ?_
  refine (ends_classDecl hw name).bind fun found u hu hfound => ?_
  cases found with
  | none => exact .pure hu.types (.inl rfl)
  | some decl =>
    refine .early hu.types (.inl rfl) fun hdecl => ?_
    have hinst : s.Instantiated ctx name marks := by
      simp only [Bool.or_eq_true, Bool.not_eq_true', not_or, Bool.not_eq_false] at hmarks hdecl
      refine ⟨hmarks.1, by simpa using hmarks.2, decl, hfound.symm, ?_, by simpa using hdecl.2⟩
      cases hnode : decl.tableNode <;> simp [hnode] at hdecl ⊢
    have hs := hs hinst
    have hparams : ∀ p ∈ decl.params, u.Onward ctx (·.substitute p (.params bindings)) fun r w => w.types.Has r := by
      intro p hp v hv
      have hv := hu.trans hv
      obtain ⟨hhas, hkind⟩ := (hs.at hv).params name decl (by rw [hv.classSeen, ← hfound]) p hp
      exact ends_substitute_param (hs.at hv) hkind hhas fun name v' h => hv.grown.has (hb name v' h)
    refine (ends_mapM hu.types Session.lasting_has hparams).bind fun args v hv hargs => ?_
    have hv := hu.trans hv
    refine .early hv.types (.inl rfl) fun _ => ?_
    have hholds : v.types.Holds (.generic ty args) := ⟨forall_mem_cons.2 ⟨hv.grown.has hty, hargs⟩, nofun⟩
    exact (ends_intern hv.types hholds).imp fun r w _ h => .inr ⟨h.1, hinst, args, h.2⟩

theorem ends_substitute_class (hl : s.types.lookup ty = .classRef name marks) :
    s.Ends ctx (·.substitute ty (.params bindings)) fun r u => r = ty ∨
      u.types.Has r ∧ s.Instantiated ctx name marks ∧ ∃ args, u.types.lookup r = .generic ty args := by
  refine .ask rfl (.lookup hw ty fun _ hform => ?_)
  rw [hl] at hform
  subst hform
  exact ends_instantiateTable hw hs hb (has_of hl)
end

theorem ends_substitute (hs : s.Substitutes ctx) {ty : Ty} (hty : s.types.Has ty)
    (hb : ∀ name v, bindings.get? name = some v → s.types.Has v) :
    s.Ends ctx (·.substitute ty (.params bindings)) fun r u => u.types.Has r ∧
      (s.types.kind ty ∈ [Kind.array, .function, .results] → u.types.kind r = s.types.kind ty) := by
  obtain ⟨n, hn⟩ : ∃ n, ty.index = n := ⟨_, rfl⟩
  induction n using Nat.strong_induction_on generalizing s ty with
  | _ n ih =>
    have hpart : ∀ p ∈ (s.types.lookup ty).parts, s.Onward ctx (·.substitute p (.params bindings)) fun r v => v.types.Has r := by
      intro p hp u hu
      obtain ⟨_, hhas⟩ := hs.types.part_lt hp
      exact (ih p.index (by omega) (hs.at hu) (hu.grown.has hhas) (fun name v h => hu.grown.has (hb name v h)) rfl).imp
        fun _ _ _ h => h.1
    by_cases hcompound : s.types.kind ty ∈ [Kind.array, .generic, .function]
    · have hsingle : ∀ p ∈ (s.types.lookup ty).parts, s.Onward ctx (·.substituteSingle (.params bindings) p) fun r v => v.types.Has r := fun p hp u hu =>
        (hpart p hp u hu).bind fun r v hv hr => ends_resultAt_has hv.types (hs.at (hu.trans hv)).decides hr 0
      refine (ends_substitute_compound (R := fun t _ r => t.Has r) (fun _ _ _ hv _ _ => hv.grown.has) hs.types hty
        (fun _ _ _ => id) hpart hsingle hcompound (.of_wf hs.types)).imp fun r u _ hr => ⟨hr.1, fun _ => ?_⟩
      unfold TypeTable.kind
      rw [← FormOf.kind_shape, hr.2.shape, FormOf.kind_shape]
    refine .ask rfl (.lookup hs.types ty fun form hform => ?_)
    rw [← hform] at hpart
    unfold TypeTable.kind at hcompound ⊢
    rw [← hform] at hcompound ⊢
    cases form with
    | union =>
      refine (ends_mapM hs.types Session.lasting_has hpart).bind fun _ u hu hnew => ?_
      refine .early hu.types ⟨hu.grown.has hty, by simp⟩ fun _ => ?_
      refine (ends_unionAll (joins_has hu.types (hs.at hu).decides) hnew).imp fun r v _ hr => ?_
      exact ⟨hr.1, by simp⟩
    | results types variadic =>
      refine (ends_substituteItems hs variadic hpart).bind fun r u hu hr => ?_
      refine .ite (fun _ => ?_) fun _ => .pure hu.types ⟨hu.grown.has hty, fun _ => ?_⟩
      · have hholds : u.types.Holds (.results r.1 (variadic || r.2.2)) := ⟨hr, by simp⟩
        refine (ends_intern hu.types hholds).imp fun r v _ h => ⟨h.1, fun _ => ?_⟩
        rw [h.2]
        rfl
      · rw [hu.grown.lookup hty, ← hform]
    | classRef =>
      refine (ends_instantiateTable hs.types (fun _ => hs) hb hty).imp fun r u hu hr => ⟨?_, by simp⟩
      rcases hr with rfl | ⟨hhas, -⟩
      · exact hu.grown.has hty
      · exact hhas
    | param name =>
      refine .pure hs.types ⟨?_, by simp⟩
      cases hget : bindings.get? name with
      | none => exact hty
      | some v => exact hb name v hget
    | array | generic | function => simp at hcompound
    | _ => exact .pure hs.types ⟨hty, by simp⟩
end

/-! ## Plain types -/

/-- No list and no table that is instantiated stands in the type. -/
inductive Session.Plain (ctx : Context) (s : Session) : Ty → Prop
  | leaf {ty} (hkind : s.types.kind ty ∉ [Kind.classRef, .array, .union, .function, .generic, .results]) : Plain ctx s ty
  | classRef {ty name marks} (hl : s.types.lookup ty = .classRef name marks)
      (h : ¬ s.Instantiated ctx name marks) : Plain ctx s ty
  | compound {ty} (hkind : s.types.kind ty ∈ [Kind.array, .union, .function, .generic])
      (hparts : ∀ p ∈ (s.types.lookup ty).parts, Plain ctx s p) : Plain ctx s ty

/-- The type parameter of this name stands somewhere in the type. -/
inductive TypeTable.Uses (t : TypeTable) : Ty → Symbol → Prop
  | param {ty name written bound} (hl : t.lookup ty = .param name written bound) :
    Uses t ty name
  | part {ty p name} (hkind : t.kind ty ∈ [Kind.array, .union, .function, .generic])
      (hp : p ∈ (t.lookup ty).parts) (h : Uses t p name) : Uses t ty name

section
variable [Solvers] (hs : s.Substitutes ctx)
include hs

theorem ends_substitute_plain {ty : Ty} (hp : s.Plain ctx ty) (hty : s.types.Has ty) {n : Nat}
    (hu : u.Past ctx s) (hhas : ∀ name v, bindings.get? name = some v → u.types.Has v)
    (hb : ∀ name v, s.types.Uses ty name → bindings.get? name = some v → u.types.tree v ∈ unions (s.types.made n)) :
    u.Ends ctx (·.substitute ty (.params bindings)) fun r v =>
      v.types.Has r ∧ v.types.tree r ∈ unions (s.types.made (n + ty.index + 1)) := by
  have hself {v : Session} (hv : v.Past ctx s) {ty : Ty} (hty : s.types.Has ty) (m : Nat) :
      v.types.Has ty ∧ v.types.tree ty ∈ unions (s.types.made m) :=
    ⟨hv.grown.has hty, .inl (tree_old hs.types hv.types hv.grown hty)⟩
  induction hp generalizing u with
  | @leaf ty hkind =>
    refine .ask rfl (.lookup hu.types ty fun form hform => ?_)
    rw [hu.grown.lookup hty] at hform
    rw [kind_of hform.symm] at hkind
    cases form with
    | param name =>
      refine .pure hu.types ?_
      cases hget : bindings.get? name with
      | none => exact hself hu hty _
      | some v =>
        have hmade := hb name v (.param hform.symm) hget
        exact ⟨hhas name v hget, unions_mono (made_mono _ (by omega)) hmade⟩
    | classRef | array | union | function | generic | results => simp at hkind
    | _ => exact .pure hu.types (hself hu hty _)
  | @classRef ty name marks hl h =>
    have hl' : u.types.lookup ty = .classRef name marks := (hu.grown.lookup hty).trans hl
    refine (ends_substitute_class hu.types (fun _ => hs.at hu) hhas hl').imp fun r v hv hr => ?_
    rcases hr with rfl | ⟨-, hinstantiated, -⟩
    · exact hself (hu.trans hv) hty _
    · rw [hu.instantiated] at hinstantiated
      exact absurd hinstantiated h
  | @compound ty hkind hparts ih =>
    -- the parts have a layer less
    have hpart : ∀ p ∈ (s.types.lookup ty).parts, u.Onward ctx (·.substitute p (.params bindings)) fun r w =>
          w.types.Has r ∧ w.types.tree r ∈ unions (s.types.made (n + ty.index)) := by
      intro p hp v hv
      obtain ⟨_, hold⟩ := hs.types.part_lt hp
      refine (ih p hp hold (hu.trans hv) (fun name value hget => hv.grown.has (hhas name value hget))
        fun name value huses hget => ?_).imp fun r w _ hr => ?_
      · rw [hv.grown.tree_eq hu.types hv.types (hhas name value hget)]
        exact hb name value (.part hkind hp huses) hget
      · exact ⟨hr.1, unions_mono (made_mono _ (by omega)) hr.2⟩
    by_cases hunion : s.types.kind ty = .union
    · refine .ask rfl (.lookup hu.types ty fun _ hform => ?_)
      rw [hu.grown.lookup hty, lookup_of_union hunion] at hform
      rw [lookup_of_union hunion] at hpart
      subst hform
      have hj := (joins_made (X := fun _ _ => True) hs.types hs.decides (by simp) (by simp) (n + ty.index)).at hu
      have hparts : ∀ p ∈ s.types.members ty, u.Onward ctx (·.substitute p (.params bindings)) fun r w => w.types.Has r ∧
            w.types.tree r ∈ unions (s.types.made (n + ty.index)) ∧ ∀ z ∈ w.types.members r, True :=
        fun p hp v hv => (hpart p hp v hv).imp fun r w _ h => ⟨h.1, h.2, fun _ _ => trivial⟩
      refine (ends_mapM hu.types hj.lasting hparts).bind fun _ v hv hnew => ?_
      refine .early hv.types (hself (hu.trans hv) hty _) fun _ => ?_
      refine (ends_unionAll (hj.at hv) hnew).imp fun r w _ hr => ⟨hr.1.1, ?_⟩
      exact unions_mono (made_mono _ (by omega)) hr.1.2.1
    · have hcompound : u.types.kind ty ∈ [Kind.array, .generic, .function] := by
        rw [hu.kind hty]
        simp only [mem_cons, not_mem_nil, or_false] at hkind ⊢
        tauto
      have hlookup := hu.grown.lookup hty
      have hsingle : ∀ p ∈ (s.types.lookup ty).parts, u.Onward ctx (·.substituteSingle (.params bindings) p) fun r w =>
            w.types.Has r ∧ w.types.tree r ∈ unions (s.types.made (n + ty.index)) := by
        intro p hp v hv
        refine (hpart p hp v hv).bind fun r w hw hr => ?_
        refine (ends_resultAt_made (X := fun _ _ => True) hs.types hs.decides (by simp) (by simp)
          (hu.trans (hv.trans hw)) hr.1 hr.2 (by simp) 0).imp fun r _ _ h => ⟨h.1, h.2.1⟩
      rw [← hlookup] at hpart hsingle
      refine (ends_substitute_compound (s := u)
        (R := fun t _ r => t.Has r ∧ t.tree r ∈ unions (s.types.made (n + ty.index))) ?_ hu.types (hu.grown.has hty)
        (fun _ _ _ h => h.1) hpart hsingle hcompound (.of_wf hu.types)).imp ?_
      · intro v w hv hw _ p hp
        refine ⟨hw.grown.has hp.1, ?_⟩
        rw [hw.grown.tree_eq hv.types hw.types hp.1]
        exact hp.2
      · rintro r v hv ⟨hr, hrefilled⟩
        have hv := hu.trans hv
        rw [hlookup] at hrefilled
        rw [hu.kind hty] at hcompound
        refine ⟨hr, .inl (shape_made hs.types hv.types hv.grown hty hcompound hrefilled.shape ?_)⟩
        exact hrefilled.forall_parts (fun _ _ h => h.2) fun p hp => (hself hv (hs.types.part_lt hp).2 _).2
end

end AnnotatedLua
