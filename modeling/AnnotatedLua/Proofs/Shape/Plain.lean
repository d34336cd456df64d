/-
Declarations of plain shapes: classes without superclasses that are compared by their members, which are strings,
numbers, booleans or such shapes again. What the solver looks up has one answer each.
-/
import AnnotatedLua.Proofs.Union.Atoms

namespace AnnotatedLua

open Solve Session Std.TreeMap
open Solver (FieldSearch Visitor Walked ofBudget ownMembers visitField visitOwn)
open TypeTable (has_of)

variable {s : Session} {σ : Type} {l : List Member} {decl : ClassDecl}

/-! ## Declarations -/

/-- The marks of a class that is compared by its members. -/
def Marks.shape : Marks := { structural := true }

/-! ## Members one by one -/

def foldUntil {α : Type} (f : σ → α → σ × Bool) : List α → σ → σ × Bool
  | [], state => (state, true)
  | x :: rest, state => if (f state x).2 then foldUntil f rest (f state x).1 else f state x

theorem visitOwn_pure {visit : Visitor σ} {f : σ → Member → σ × Bool}
    (hf : ∀ state, ∀ m ∈ l, visit state m = pure (f state m)) {ctx : Context}
    (hc : isCanceled ctx s = some (false, s)) (state : σ) : visitOwn visit l state ctx s =
      some (((foldUntil f l state).1, if (foldUntil f l state).2 then none else some false), s) := by
  induction l generalizing state with
  | nil => rfl
  | cons m l ih =>
    have hrest := ih (fun state m hm => hf state m (.tail _ hm)) (f state m).1
    have hm : visit state m ctx s = some (f state m, s) := congrFun (congrFun (hf state m (.head _)) ctx) s
    rw [visitOwn, run_bind hc, if_neg Bool.false_ne_true, run_bind hm, foldUntil]
    cases hgo : (f state m).2 with
    | true => simpa [hgo] using hrest
    | false =>
      simp only [hgo, Bool.false_eq_true, if_false]
      rfl

def seekField (name : Symbol) (found : FieldSearch) (member : Member) : FieldSearch × Bool :=
  if member.name? ≠ some name then (found, true)
  else if member.declared && found.declared.isNone then ({ found with declared := some member }, false)
  else ({ found with inferred := found.inferred.or (some member) }, true)

theorem visitField_eq (name : Symbol) (found : FieldSearch) (member : Member) :
    visitField name found member = pure (seekField name found member) := by
  unfold visitField seekField
  split_ifs <;> rfl

def fieldsNamed (name : Symbol) (l : List Member) : List Member := l.filter (·.name? = some name)

/-- The first member whose type is written, or else the first one. -/
def preferred (l : List Member) : Option Member := (l.find? (·.declared)).or l.head?

theorem foldUntil_seekField (name : Symbol) (l : List Member) :
    let found := (foldUntil (seekField name) l {}).1
    found.declared.or found.inferred = preferred (fieldsNamed name l) := by
  have main (found : FieldSearch) (hnone : found.declared = none) :
      let r := (foldUntil (seekField name) l found).1
      let named := fieldsNamed name l
      r.declared.or r.inferred = (named.find? (·.declared)).or (found.inferred.or named.head?) := by
    unfold fieldsNamed
    induction l generalizing found with
    | nil => simp [foldUntil, hnone]
    | cons m l ih =>
      rw [foldUntil, seekField]
      by_cases hm : m.name? = some name
      · cases hd : m.declared with
        | true => simp [hm, hd, hnone]
        | false =>
          have := ih { found with inferred := found.inferred.or (some m) } hnone
          cases hi : found.inferred <;> simpa [hm, hd, hi] using this
      · simpa [hm] using ih found hnone
  exact main {} rfl

namespace Declarations

variable (d : Declarations) (t : TypeTable)

/-- The type refers to a class as a shape, and this is the declaration of the class. -/
def Shape (ty : Ty) (decl : ClassDecl) : Prop :=
  ∃ name, t.lookup ty = .classRef name Marks.shape ∧ d.classes[name]? = some decl

/-- The types that members of plain shapes have. -/
inductive PlainType : Ty → Prop
  | primitive (kind : Primitive) : kind = .string ∨ kind = .number ∨ kind = .boolean → PlainType kind.type
  | shape {ty decl} : d.Shape t ty decl → PlainType ty

structure PlainShape (decl : ClassDecl) : Prop where
  marks : decl.marks = Marks.shape
  superClass : decl.superClass = none
  otherName : decl.otherName = none
  fields : ∀ m ∈ decl.members, ∃ name type, m.key = .field name ∧ m.type = some type ∧ d.PlainType t type
  distinct : (decl.members.map Member.key).Nodup

/-- All classes are plain shapes, and there are no aliases. A class whose name ends like that of a
receiver class would have a superclass without declaring one. -/
structure PlainShapes : Prop where
  types : t.WF
  consulted : d.blind = false
  cancelling : d.cancelling = none
  aliases : ∀ name : Symbol, d.aliases[name]? = none
  classes : ∀ (name : Symbol) decl, d.classes[name]? = some decl → d.PlainShape t decl
  names : ∀ (name : Symbol) decl, d.classes[name]? = some decl → Text.beforeEnding? selfEnding (t.text name) = none

/-- The context of an ordinary query about the declarations. -/
def context : Context := { provider := d.provider }

variable {d} {types : TypeTable} {limits : Limits} {name : Symbol}

theorem classOf_start_eq (name : Symbol) : (start types limits).classOf d.context name = d.classes[name]? := by
  unfold classOf
  rw [show (start types limits).classes[name]? = none from getElem?_emptyc]
  rfl

theorem aliasOf_start_eq (name : Symbol) : (start types limits).aliasOf d.context name = d.aliases[name]? := by
  unfold aliasOf
  rw [show (start types limits).aliases[name]? = none from getElem?_emptyc]
  rfl

theorem classOf_start (h : (start types limits).classOf d.context name = some decl) : (name, decl) ∈ d.classes.toList :=
  mem_toList_iff_getElem?_eq_some.2 ((classOf_start_eq name).symm.trans h)

variable {ty : Ty}

theorem aliasOf_start (h : (start types limits).aliasOf d.context name = some ty) : (name, ty) ∈ d.aliases.toList :=
  mem_toList_iff_getElem?_eq_some.2 ((aliasOf_start_eq name).symm.trans h)

variable (d)

/-! ## Sessions -/

/-- The session of a query about the declarations. Nothing has canceled it, and what it looked up before is what it would
find now. -/
abbrev Reads (s : Session) : Prop := s.Along d.context (start t .standard) s.guard.active

def Yields {α : Type} (m : Solve α) (a : α) : Prop :=
  ∀ active, Finds.Exactly d.context (start t .standard) active m a

variable {d t} {α β : Type}

theorem Reads.withGuard (hs : d.Reads t s) (g : Guard GuardKey) : d.Reads t { s with guard := g } := hs.setGuard g

namespace Yields

variable {m : Solve α} {a : α}

theorem run (h : d.Yields t m a) (hs : d.Reads t s) : ∃ s', m d.context s = some (a, s') ∧ d.Reads t s' ∧ s.Kept s' := by
  obtain ⟨⟨b, u⟩, hr⟩ := (h _).ends trivial s hs
  obtain ⟨hu, hk, rfl, -⟩ := (h _).run s b u hs hr
  refine ⟨u, hr, ?_, hk⟩
  rwa [← hk.active] at hu

theorem of_run (h : ∀ s, d.Reads t s → ∃ s', m d.context s = some (a, s') ∧ d.Reads t s' ∧ s.Kept s') : d.Yields t m a := by
  refine fun active => ⟨fun _ s hs => ?_, fun s b u hs hr => ?_⟩
  all_goals
    obtain rfl := hs.active_eq
    obtain ⟨s', hr', hs', hk⟩ := h s hs
  · exact ⟨_, hr'⟩
  · cases hr'.symm.trans hr
    exact ⟨hk.active ▸ hs', hk, rfl, fun _ => rfl⟩

theorem pure (a : α) : d.Yields t (Pure.pure a) a := fun _ => .pure rfl

theorem bind {f : α → Solve β} {b : β} (hm : d.Yields t m a) (hf : d.Yields t (f a) b) : d.Yields t (m >>= f) b :=
  fun active => (hm active).after (hf active)

theorem lookup (hty : t.Has ty) : d.Yields t (Solve.lookup ty) (t.lookup ty) := fun active => Finds.lookup _ active hty

end Yields

/-! ## Look-ups -/

section
variable (hd : d.PlainShapes t)
include hd

theorem reads_start : d.Reads t (start t .standard) := .refl hd.types fun _ => ⟨rfl, fun name => by
  show (d.cancelling == some name) = false
  rw [hd.cancelling]
  rfl⟩

theorem consulted : ((start t .standard).blind || d.context.provider.blind) = false := hd.consulted

theorem blind_eq (hs : d.Reads t s) : (s.blind || d.context.provider.blind) = false := by
  rw [hs.blind]
  exact consulted hd

theorem yields_classDecl (name : Symbol) : d.Yields t (classDecl name) d.classes[name]? :=
  fun active => Finds.classDecl _ active (classOf_start_eq name) (.inr (consulted hd))

theorem aliasOf_none (name : Symbol) : (start t .standard).aliasOf d.context name = none := by
  rw [aliasOf_start_eq]
  exact hd.aliases name

theorem PlainType.has (hty : d.PlainType t ty) : t.Has ty := by
  cases hty with
  | primitive kind => exact has_of (hd.types.lookup_primitive kind)
  | shape h =>
    obtain ⟨_, hl, -⟩ := h
    exact has_of hl

theorem members_plain (hty : d.PlainType t ty) : t.members ty = [ty] := by
  unfold TypeTable.members
  cases hty with
  | primitive => rw [hd.types.lookup_primitive]
  | shape h =>
    obtain ⟨_, hl, -⟩ := h
    rw [hl]

section
variable {ty : Ty} {decl : ClassDecl} (hty : d.Shape t ty decl)
include hty

theorem plain : d.PlainShape t decl := by
  obtain ⟨name, -, hc⟩ := hty
  exact hd.classes name decl hc

theorem yields_classMarks : d.Yields t (Solver.classMarks ty) Marks.shape := by
  have hmarks := (plain hd hty).marks
  obtain ⟨name, hl, hc⟩ := hty
  refine (Yields.lookup (has_of hl)).bind ?_
  rw [hl]
  refine (yields_classDecl hd name).bind ?_
  rw [hc]
  show d.Yields t (pure (Marks.shape.merge decl.marks)) _
  rw [hmarks]
  exact .pure _

theorem yields_superClass (n : Nat) : d.Yields t ((ofBudget (n + 1)).superClass ty) none := by
  have hsuper := (plain hd hty).superClass
  obtain ⟨name, hl, hc⟩ := hty
  have h active := finds_superClass_class active hd.types (consulted hd) hl (hd.names name decl hc) n
  rwa [classOf_start_eq, hc, Option.bind_some, hsuper] at h

theorem yields_isShape (n : Nat) : d.Yields t ((ofBudget (n + 2)).isShape ty) true := by
  have hmarks := yields_classMarks hd hty
  obtain ⟨name, hl, -⟩ := hty
  exact fun active => finds_isShape_class active hl (hmarks active) rfl (aliasOf_none hd name) n
end

theorem yields_resolve (hty : d.PlainType t ty) (n : Nat) : d.Yields t ((ofBudget (n + 1)).resolve ty) ty := by
  intro active
  cases hty with
  | primitive kind => exact finds_resolve active hd.types (.primitive kind) n
  | shape h =>
    have hmarks := yields_classMarks hd h active
    obtain ⟨name, hl, -⟩ := h
    exact finds_resolve_class active hl hmarks rfl (aliasOf_none hd name) n

theorem yields_memberSubstitution (hty : d.Shape t ty decl) (n : Nat) :
    d.Yields t ((ofBudget (n + 2)).memberSubstitution ty) none := by
  intro active
  refine Finds.exactly_of_run (ask_keeps _ (.memberSubstitution ty) rfl) fun s hs => ?_
  have hsuper := yields_superClass hd hty n
  have hinside : d.Yields t (Rule.instanceSubstitution (ofBudget (n + 1)) ty) none := by
    obtain ⟨_, hl, -⟩ := hty
    refine (Yields.lookup (has_of hl)).bind (hsuper.bind ?_)
    rw [hl]
    exact .pure _
  -- A request that is refused has no answer, either.
  by_cases he : (s.guard.enter (guardKey d.context s .memberSubstitution (.type ty))).1 = .entered
  · obtain ⟨⟨_, u⟩, hr⟩ := (hinside _).ends trivial _ (hs.enter he)
    obtain ⟨hu, -, rfl, -⟩ := (hinside _).run _ _ _ (hs.enter he) hr
    have hrun := withGuard_entered (m := Rule.instanceSubstitution (ofBudget (n + 1)) ty) (Prod.ext he rfl)
    rw [hr] at hrun
    exact ⟨_, run_bind hrun, hu.leave⟩
  · exact ⟨_, run_bind (withGuard_refused he), hs.refused he⟩

theorem yields_memberType (hty : d.Shape t ty decl) {m : Member} {type : Ty}
    (hm : m.type = some type) (n : Nat) : d.Yields t ((ofBudget (n + 2)).memberType ty m) type := by
  unfold Solver.memberType
  rw [hm]
  exact (yields_memberSubstitution hd hty n).bind (.pure _)

/-! ## Walks -/

section
variable {ty : Ty} {decl : ClassDecl} (hty : d.Shape t ty decl) (n : Nat) (visit : Visitor σ) (state : σ)
include hty

theorem yields_walkSupers (walk : Solver.Walker) (own : List Member) (visited : List Ty) :
    d.Yields t ((ofBudget (n + 1)).walkSupers walk visit ty own visited state)
      ⟨state, visited, true⟩ := by
  have hname : d.Yields t (Solve.name ty) _ := fun active => Finds.name _ active hd.types (PlainType.has hd (.shape hty))
  exact Yields.bind (hname.bind ((yields_superClass hd hty n).bind (.pure _))) (.pure _)

theorem visitMembers_run (hs : d.Reads t s) : ∃ s1, d.Reads t s1 ∧ s.Kept s1 ∧
    ∀ st outcome s2, visitOwn visit decl.members state d.context s1 = some ((st, outcome), s2) →
      d.Reads t s2 → ∃ s3, (ofBudget (n + 1)).visitMembers visit true ty state d.context s =
        some ((st, outcome.getD true), s3) ∧ d.Reads t s3 ∧ s2.Kept s3 := by
  have hown := (plain hd hty).otherName
  have hresolve := yields_resolve hd (.shape hty) n
  have hsupers := yields_walkSupers hd hty n visit
  obtain ⟨name, hl, hc⟩ := hty
  obtain ⟨s1, hlook, hs1, hk1⟩ := (Yields.lookup (has_of hl)).run hs
  obtain ⟨s2, hres, hs2, hk2⟩ := hresolve.run hs1
  obtain ⟨s3, hdecl, hs3, hk3⟩ := (yields_classDecl hd name).run hs2
  refine ⟨s3, hs3, (hk1.trans hk2).trans hk3, fun st outcome s4 hvisit hs4 => ?_⟩
  have hclass : ∃ w s5, (ofBudget (n + 1)).walkClass ((ofBudget (n + 1)).walkWithin n) visit
      true ty name [ty] state d.context s2 = some (w, s5) ∧ w.state = st ∧ w.complete = outcome.getD true ∧
      d.Reads t s5 ∧ s4.Kept s5 := by
    have hstep : (ofBudget (n + 1)).walkClass ((ofBudget (n + 1)).walkWithin n) visit
        true ty name [ty] state d.context s2 = (match outcome with
          | some complete => pure ⟨st, [ty], complete⟩
          | none => (ofBudget (n + 1)).walkSupers ((ofBudget (n + 1)).walkWithin n) visit ty
            decl.members [ty] st : Solve (Walked σ)) d.context s4 := by
      unfold Solver.walkClass
      rw [run_bind hdecl, hc]
      show (ownMembers decl >>= _) d.context s3 = _
      have hmembers : ownMembers decl d.context s3 = some (decl.members, s3) := by
        unfold ownMembers
        rw [hown]
        rfl
      rw [run_bind hmembers, run_bind hvisit]
      cases outcome <;> rfl
    cases outcome with
    | some => exact ⟨_, s4, hstep, rfl, rfl, hs4, .refl s4⟩
    | none =>
      obtain ⟨s5, hrun, hs5, hk5⟩ := (hsupers st _ decl.members [ty]).run hs4
      exact ⟨_, s5, hstep.trans hrun, rfl, rfl, hs5, hk5⟩
  obtain ⟨w, s5, hrun, hst, hcomplete, hs5, hk5⟩ := hclass
  have hwalk : (ofBudget (n + 1)).walkWithin (n + 1) visit true ty [] state d.context s =
      some (w, s5) := by
    show (lookup ty >>= _) d.context s = _
    rw [run_bind hlook, hl]
    show ((ofBudget (n + 1)).resolve ty >>= _) d.context s1 = _
    rw [run_bind hres]
    show (if ty = ty then _ else _ : Solve (Walked σ)) d.context s2 = _
    rw [if_pos rfl, hrun]
  refine ⟨s5, (run_bind hwalk).trans ?_, hs5, hk5⟩
  rw [hst, hcomplete]
  rfl

theorem yields_visitMembers {f : σ → Member → σ × Bool}
    (hf : ∀ state, ∀ m ∈ decl.members, visit state m = pure (f state m)) :
    d.Yields t ((ofBudget (n + 1)).visitMembers visit true ty state) (foldUntil f decl.members state) := by
  refine .of_run fun s hs => ?_
  obtain ⟨s1, hs1, hk1, hrun⟩ := visitMembers_run hd hty n visit state hs
  have hc : isCanceled d.context s1 = some (false, s1) := by
    show some (_ && s1.canceled, s1) = _
    rw [hs1.canceled]
  obtain ⟨s2, hr, hs2, hk2⟩ := hrun _ _ s1 (visitOwn_pure hf hc state) hs1
  refine ⟨s2, hr.trans ?_, hs2, hk1.trans hk2⟩
  cases hend : (foldUntil f decl.members state).2 with
  | true => simp [← hend]
  | false => exact congrArg (fun r => some (r, s2)) (Prod.ext rfl hend.symm)
end

/-! ## Members by name -/

omit hd in
theorem PlainShape.fieldsNamed_eq (hl : (l.map Member.key).Nodup) (name : Symbol) :
    fieldsNamed name l = (l.find? (·.key = .field name)).toList := by
  unfold fieldsNamed
  induction l with
  | nil => rfl
  | cons m l ih =>
    rw [List.map_cons, List.nodup_cons] at hl
    have hname {m : Member} : m.name? = some name ↔ m.key = .field name := by
      unfold Member.name?
      cases m.key <;> simp
    by_cases hm : m.key = .field name
    · have hrest : l.filter (·.name? = some name) = [] := by
        refine List.filter_eq_nil_iff.2 fun _ hm' he => hl.1 ?_
        rw [hm, ← hname.1 (of_decide_eq_true he)]
        exact List.mem_map_of_mem hm'
      rw [List.filter_cons_of_pos (by simpa using hname.2 hm), hrest, List.find?_cons_of_pos (by simpa using hm)]
      rfl
    · simpa [hname, hm] using ih hl.2

theorem yields_member? (hty : d.Shape t ty decl) (n : Nat) (name : Symbol) :
    d.Yields t ((ofBudget (n + 1)).member? ty name) (decl.members.find? (·.key = .field name)) := by
  have htable : d.Yields t (Solver.tableMember ty ((ofBudget (n + 1)).keyTakesField name)) none := by
    obtain ⟨name, hl, -⟩ := hty
    refine Yields.bind (a := none) ?_ (.pure _)
    refine (Yields.lookup (has_of hl)).bind ?_
    rw [hl]
    exact .pure _
  have hfound := foldUntil_seekField name decl.members
  rw [PlainShape.fieldsNamed_eq (plain hd hty).distinct] at hfound
  have hwalk := yields_visitMembers hd hty n _ {} fun found m _ => visitField_eq name found m
  have hfirst (found : Option Member) : preferred found.toList = found := by
    cases found with
    | none => rfl
    | some m => cases hm : m.declared <;> simp [preferred, hm]
  rw [← hfirst (decl.members.find? _), ← hfound]
  exact htable.bind (hwalk.bind (.pure _))
end

end Declarations

end AnnotatedLua
