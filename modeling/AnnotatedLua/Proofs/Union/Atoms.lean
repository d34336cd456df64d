/-
Atoms: `nil`, the primitives, literals, and classes that nobody declared. Of two different atoms one subsumes the other
just if it is the primitive that the other is a literal of (`finds_subsumes`).
-/
import AnnotatedLua.Proofs.Union.Members

namespace AnnotatedLua

open Solve TypeTable
open Solver (classMarks isLenient ofBudget subsumption)

variable {base s : Session} {key : GuardKey} {b : Bool} {target source : Ty} {n : Nat}

/-! ## Atoms -/

/-- A type that consists of itself alone. A class is one if it is neither declared nor, by its name, the
receiver class of another one. -/
inductive Session.Atom (ctx : Context) (s : Session) : Ty → Prop
  | nil : Atom ctx s Ty.nil
  | primitive (kind : Primitive) : Atom ctx s kind.type
  | trueLiteral : Atom ctx s Ty.trueLiteral
  | falseLiteral : Atom ctx s Ty.falseLiteral
  | literal {ty kind text} (hkind : kind = .string ∨ kind = .number)
      (hform : s.types.lookup ty = .literal kind text) : Atom ctx s ty
  | undeclared {ty name} (hform : s.types.lookup ty = .classRef name Marks.none)
      (hclass : s.classOf ctx name = none) (halias : s.aliasOf ctx name = none)
      (hname : Text.beforeEnding? selfEnding (s.types.text name) = none) : Atom ctx s ty

def FormOf.primitive? : Form → Option Ty
  | .literal kind _ => some kind.type
  | _ => none

namespace TypeTable

def literalOf (t : TypeTable) : Subsumption := fun target source =>
  target == source || (t.lookup source).primitive? == some target

end TypeTable

inductive AtomForm (ctx : Context) (s : Session) (ty : Ty) : Form → Prop
  | nil (h : ty = Ty.nil) : AtomForm ctx s ty .nil
  | primitive {kind} (h : ty = kind.type) : AtomForm ctx s ty (.primitive kind)
  | literal {kind text}
      (hboolean : kind = .boolean → s.types.text text = "true" ∨ s.types.text text = "false") :
      AtomForm ctx s ty (.literal kind text)
  | undeclared {name} (hclass : s.classOf ctx name = none) (halias : s.aliasOf ctx name = none)
      (hname : Text.beforeEnding? selfEnding (s.types.text name) = none) : AtomForm ctx s ty (.classRef name Marks.none)

namespace Session.Atom

variable {ctx : Context} {ty : Ty}

theorem form (ha : s.Atom ctx ty) (hw : s.types.WF) :
    s.types.Has ty ∧ ∃ form, s.types.lookup ty = form ∧ AtomForm ctx s ty form := by
  cases ha with
  | nil =>
    obtain ⟨hhas, hform⟩ := hw.lookup_builtin Ty.nil rfl
    exact ⟨hhas, _, hform.trans (by decide), .nil rfl⟩
  | primitive kind =>
    have hhas := (hw.lookup_builtin kind.type (by cases kind <;> rfl)).1
    exact ⟨hhas, .primitive kind, hw.lookup_primitive kind, .primitive rfl⟩
  | trueLiteral =>
    obtain ⟨hhas, hform⟩ := hw.lookup_builtin Ty.trueLiteral rfl
    refine ⟨hhas, .literal .boolean ⟨1⟩, hform.trans (by decide), .literal fun _ => .inl ?_⟩
    exact (hw.base.text (by decide)).trans (by decide)
  | falseLiteral =>
    obtain ⟨hhas, hform⟩ := hw.lookup_builtin Ty.falseLiteral rfl
    refine ⟨hhas, .literal .boolean ⟨2⟩, hform.trans (by decide), .literal fun _ => .inr ?_⟩
    exact (hw.base.text (by decide)).trans (by decide)
  | literal hkind hform =>
    refine ⟨has_of hform, _, hform, .literal fun h => ?_⟩
    rcases hkind with hkind | hkind <;> cases hkind.symm.trans h
  | undeclared hform hclass halias hname =>
    exact ⟨has_of hform, _, hform, .undeclared hclass halias hname⟩

theorem members (ha : s.Atom ctx ty) (hw : s.types.WF) : s.types.members ty = [ty] := by
  obtain ⟨-, _, hl, hf⟩ := ha.form hw
  unfold TypeTable.members
  rw [hl]
  cases hf <;> rfl

theorem lookup_ne_union {parts : List Ty} (ha : s.Atom ctx ty) (hw : s.types.WF) : s.types.lookup ty ≠ .union parts := by
  intro hform
  obtain ⟨-, _, hl, hf⟩ := ha.form hw
  rw [hform] at hl
  subst hl
  cases hf

theorem unlimited (h : s.Atom ctx ty) : (s.unlimited 0).Atom ctx.uncancelled ty := by
  cases h with
  | nil => exact .nil
  | primitive kind => exact .primitive kind
  | trueLiteral => exact .trueLiteral
  | falseLiteral => exact .falseLiteral
  | literal hkind hform => exact .literal hkind hform
  | undeclared hform hclass halias hname => exact .undeclared hform hclass halias hname

end Session.Atom

/-! ## Sessions that nothing disturbs -/

/-- Nothing has canceled the query, and no look-up will. -/
def Session.Undisturbed (ctx : Context) (s : Session) : Prop :=
  ctx.cancellable = true → s.canceled = false ∧ ∀ name, ctx.provider.cancels name = false

structure Session.Along (ctx : Context) (s base : Session) (active : List GuardKey) : Prop
    extends s.From ctx base where
  active_eq : s.guard.active = active
  blind : s.blind = base.blind
  undisturbed : s.Undisturbed ctx

namespace Session.Along

variable {ctx : Context} {active : List GuardKey}

theorem refl (hw : base.types.WF) (hu : base.Undisturbed ctx) : base.Along ctx base base.guard.active :=
  ⟨⟨hw, .refl _, rfl, rfl⟩, rfl, rfl, hu⟩

section
variable (h : s.Along ctx base active)
include h

theorem canceled : (ctx.cancellable && s.canceled) = false := by
  cases hc : ctx.cancellable with
  | false => rfl
  | true => rw [(h.undisturbed hc).1]; rfl

theorem setGuard (g : Guard GuardKey) : Along ctx { s with guard := g } base g.active :=
  { h with active_eq := rfl }

theorem enter (he : (s.guard.enter key).1 = .entered) :
    Along ctx { s with guard := (s.guard.enter key).2 } base (key :: active) := by
  have hg := h.setGuard (s.guard.enter key).2
  have hactive : (s.guard.enter key).2.active = key :: active := by rw [(Guard.enter_entered he).2, ← h.active_eq]
  rwa [hactive] at hg

theorem refused (he : (s.guard.enter key).1 ≠ .entered) :
    Along ctx { s with guard := (s.guard.enter key).2 } base active := by
  have hg := h.setGuard (s.guard.enter key).2
  rwa [(Guard.Restored.of_refused he).active, h.active_eq] at hg
end

theorem leave (h : s.Along ctx base (key :: active)) : Along ctx { s with guard := s.guard.leave key } base active := by
  have hg := h.setGuard (s.guard.leave key)
  have : (s.guard.leave key).active = active := by
    show s.guard.active.erase key = active
    rw [h.active_eq, List.erase_cons_head]
  rwa [this] at hg

theorem guardKey (h : s.Along ctx base active) (activity : Activity) (subject : Subject) :
    guardKey ctx s activity subject = Solve.guardKey ctx base activity subject := by
  unfold Solve.guardKey
  rw [h.blind]

theorem lookClass (h : s.Along ctx base active) (name : Symbol) : (s.lookClass ctx name).Along ctx base active := by
  have hfrom := h.toFrom.lookClass name
  revert hfrom
  unfold Session.lookClass
  split
  · exact fun _ => h
  · refine fun hfrom => ⟨hfrom, h.active_eq, h.blind, fun hc => ⟨?_, (h.undisturbed hc).2⟩⟩
    obtain ⟨h1, h2⟩ := h.undisturbed hc
    show (s.canceled || ctx.provider.cancels name) = false
    rw [h1, h2]
    rfl

theorem lookAlias (h : s.Along ctx base active) (name : Symbol) : (s.lookAlias ctx name).Along ctx base active := by
  have hfrom := h.toFrom.lookAlias name
  obtain ⟨_, he⟩ := s.lookAlias_eq ctx name
  rw [he] at hfrom ⊢
  exact ⟨hfrom, h.active_eq, h.blind, h.undisturbed⟩

end Session.Along

/-! ## Look-ups -/

namespace Finds

variable {ctx : Context} {active : List GuardKey}

abbrev Exactly (ctx : Context) (base : Session) (active : List GuardKey) {α : Type} (m : Solve α) (a : α) : Prop :=
  Finds True ctx (Session.Along ctx · base active) m (· = a) a

theorem exactly_of_run {α : Type} {m : Solve α} {a : α} (hk : Keeps m)
    (h : ∀ s, s.Along ctx base active → ∃ u, m ctx s = some (a, u) ∧ u.Along ctx base active) :
    Exactly ctx base active m a where
  ends _ s hs := by
    obtain ⟨u, hr, -⟩ := h s hs
    exact ⟨_, hr⟩
  run s b v hs hr := by
    obtain ⟨u, hr', hu⟩ := h s hs
    rw [hr'] at hr
    cases hr
    exact ⟨hu, hk ctx s a v hr', rfl, fun _ => rfl⟩

variable (ctx active)

theorem lookup {ty : Ty} (hty : base.types.Has ty) : Exactly ctx base active (Solve.lookup ty) (base.types.lookup ty) :=
  ofTypes rfl fun _ hs => hs.grown.lookup hty

theorem members {ty : Ty} (hty : base.types.Has ty) :
    Exactly ctx base active (Solve.members ty) (base.types.members ty) :=
  ofTypes rfl fun _ hs => hs.grown.members hty

theorem name (hw : base.types.WF) {ty : Ty} (hty : base.types.Has ty) :
    Exactly ctx base active (Solve.name ty) (base.types.name ty) := by
  refine exactly_of_run (keeps_of_agree keeps_closed.logic.name) fun s hs => ⟨{ s with types := s.types.keepName ty }, ?_, ?_⟩
  all_goals have hx := keepName_extends s.types ty
  all_goals have hw' := hs.types.keepName (hs.grown.has hty)
  · rw [← (hs.grown.trans hx).name hw hw' hty]
    rfl
  · exact { hs with types := hw', grown := hs.grown.trans hx }

variable {name : Symbol}

theorem text (hname : base.types.HasSymbol name) : Exactly ctx base active (Solve.text name) (base.types.text name) :=
  ofTypes rfl fun _ hs => hs.grown.text hname

theorem isCanceled : Exactly ctx base active Solve.isCanceled false :=
  exactly_of_run keeps_closed.isCanceled fun s hs => ⟨s, by
    show some (ctx.cancellable && s.canceled, s) = _
    rw [hs.canceled], hs⟩

theorem isLenient {source : Ty} (hany : source.isAny = false) (hnil : source.isNil = false) (mode : Mode) :
    Exactly ctx base active (Solver.isLenient source mode) false := by
  refine exactly_of_run (keeps_of_id fun _ _ => ⟨_, rfl⟩) fun s hs => ⟨s, ?_, hs⟩
  show some ((source.isAny && _) || (source.isNil && _), s) = _
  rw [hany, hnil]
  rfl

theorem classDecl {found : Option ClassDecl} (hclass : base.classOf ctx name = found)
    (hseen : found = none ∨ (base.blind || ctx.provider.blind) = false) :
    Exactly ctx base active (Solve.classDecl name) found := by
  refine exactly_of_run (keeps_closed.classDecl name) fun s hs => ?_
  rw [classDecl_eq_look, hs.blind, hs.classes, hclass]
  split
  · rename_i hblind
    rw [hseen.resolve_right (by rw [hblind]; nofun)]
    exact ⟨s, rfl, hs⟩
  · exact ⟨_, rfl, hs.lookClass name⟩

theorem aliasType (halias : base.aliasOf ctx name = none) : Exactly ctx base active (Solve.aliasType name) none := by
  refine exactly_of_run (keeps_closed.aliasType name) fun s hs => ?_
  rw [aliasType_eq_look, hs.aliases, halias]
  split
  · exact ⟨s, rfl, hs⟩
  · exact ⟨_, rfl, hs.lookAlias name⟩

variable {ctx active} in
theorem guarded {activity : Activity} {subject : Subject} {m : Solve Bool} (hk : Keeps m)
    (hkey : b = true → guardKey ctx base activity subject ∉ active) (hm : guardKey ctx base activity subject ∉ active →
      Truth True ctx (Session.Along ctx · base (guardKey ctx base activity subject :: active)) m b) :
    Truth True ctx (Session.Along ctx · base active) (do
        let answer ← withGuard activity subject m
        return answer.getD false) b := by
  have hnew {s : Session} (hs : s.Along ctx base active)
      (he : (s.guard.enter (guardKey ctx s activity subject)).1 = .entered) :
      guardKey ctx base activity subject ∉ active := by
    rw [← hs.guardKey, ← hs.active_eq]
    exact fun hmem => Bool.false_ne_true ((Guard.enter_entered he).1.symm.trans (List.contains_iff_mem.2 hmem))
  constructor
  · intro _ s hs
    by_cases he : (s.guard.enter (guardKey ctx s activity subject)).1 = .entered
    · have hin := hs.enter he
      rw [hs.guardKey] at hin
      obtain ⟨⟨c, u⟩, hr⟩ := (hm (hnew hs he)).ends trivial _ hin
      exact ⟨_, run_bind (by rw [withGuard_entered (Prod.ext he rfl), hs.guardKey, hr]; rfl)⟩
    · exact ⟨_, run_bind (withGuard_refused he)⟩
  · intro s c v hs hr
    have hkept := keeps_closed.bind (keeps_withGuard activity subject hk)
      (fun answer => keeps_closed.pure (answer.getD false)) ctx s c v hr
    obtain ⟨_, u, hg, hret⟩ := bind_eq_some hr
    obtain ⟨rfl, rfl⟩ := pure_eq_some hret
    by_cases he : (s.guard.enter (guardKey ctx s activity subject)).1 = .entered
    · rw [withGuard_entered (Prod.ext he rfl)] at hg
      obtain ⟨⟨c, w⟩, hrun, hw⟩ := Option.map_eq_some_iff.1 hg
      cases hw
      have hin := hs.enter he
      rw [hs.guardKey] at hin hrun hkept ⊢
      obtain ⟨hw, -, -, hc⟩ := (hm (hnew hs he)).run _ _ _ hin hrun
      exact ⟨hw.leave, hkept, trivial, fun hclear => hc ⟨hclear.exceeded, hclear.canceled⟩⟩
    · rw [withGuard_refused he] at hg
      cases hg
      refine ⟨hs.refused he, hkept, trivial, fun hclear => ?_⟩
      rcases Guard.enter_cases s.guard (guardKey ctx s activity subject) with
        ⟨h1, -⟩ | ⟨-, hex, -⟩ | ⟨-, hact, -⟩
      · exact absurd h1 he
      · have := hclear.exceeded
        rw [hex] at this
        cases this
      · -- the comparison is under way, so it was not said to hold
        have hmem : guardKey ctx base activity subject ∈ active := by
          rw [← hs.guardKey, ← hs.active_eq]
          exact List.contains_iff_mem.1 hact
        cases b with
        | false => rfl
        | true => exact absurd hmem (hkey rfl)

end Finds

/-! ## Questions about atoms -/

section
open Finds

variable {ctx : Context} (active : List GuardKey)

/-! ### Classes that stand for themselves -/

theorem finds_superClass_class {ty : Ty} {name : Symbol} {marks : Marks} (hw : base.types.WF)
    (hc : (base.blind || ctx.provider.blind) = false) (hl : base.types.lookup ty = .classRef name marks)
    (htext : Text.beforeEnding? selfEnding (base.types.text name) = none) (n : Nat) :
    Exactly ctx base active ((ofBudget (n + 1)).superClass ty) ((base.classOf ctx name).bind ClassDecl.superClass) := by
  refine (lookup ctx active (has_of hl)).after ?_
  rw [hl]
  refine (classDecl ctx active rfl (.inr hc)).after ?_
  cases (base.classOf ctx name).bind ClassDecl.superClass with
  | some => exact .pure rfl
  | none =>
    have hname : name ∈ (base.types.lookup ty).names := by
      rw [hl]
      exact .head _
    refine (Finds.text ctx active (hw.hasSymbol hname)).after ?_
    rw [htext]
    exact .pure rfl

section
variable {ty : Ty} {name : Symbol} {marks found : Marks} (hl : base.types.lookup ty = .classRef name marks)
  (hmarks : Exactly ctx base active (classMarks ty) found) (hvariable : found.isVariable = false)
  (halias : base.aliasOf ctx name = none)
include hl hmarks hvariable halias

theorem finds_resolve_class (n : Nat) : Exactly ctx base active ((ofBudget (n + 1)).resolve ty) ty := by
  have hhas : base.types.Has ty := has_of hl
  have hmembers := members ctx active hhas
  rw [members_eq_self (by rw [kind_of hl]; nofun)] at hmembers
  have hwill : Exactly ctx base active ((ofBudget (n + 1)).willResolve ty) true := by
    refine (lookup ctx active hhas).after ?_
    rw [hl]
    refine hmarks.after ?_
    rw [hvariable]
    exact .pure rfl
  have hany : Exactly ctx base active ([ty].anyM (ofBudget (n + 1)).willResolve) true := hwill.after (.pure rfl)
  have hone : Exactly ctx base active ((ofBudget (n + 1)).resolveOne ty) ty := by
    refine (lookup ctx active hhas).after ?_
    rw [hl]
    exact hwill.after ((Finds.aliasType ctx active halias).after (.pure rfl))
  have hpending : Exactly ctx base active ((ofBudget (n + 1)).resolvePending (n + 1) [ty] [] []) [ty] := by
    refine (Finds.isCanceled ctx active).after (hone.after ?_)
    show Exactly ctx base active (if ty = ty then _ else _) _
    rw [if_pos rfl]
    cases n <;> exact .pure rfl
  have hall : Exactly ctx base active ((ofBudget (n + 1)).resolvedMembers ty) [ty] :=
    hmembers.after (hany.after hpending)
  refine hmembers.after (hany.after (hall.after ?_))
  show Exactly ctx base active (if ([ty].length = [ty].length && [ty].all [ty].contains) = true then _ else _) _
  rw [if_pos (by simp)]
  exact .pure rfl

theorem finds_isShape_class (n : Nat) : Exactly ctx base active ((ofBudget (n + 2)).isShape ty) found.structural := by
  refine (lookup ctx active (has_of hl)).after ?_
  rw [hl]
  refine (finds_resolve_class active hl hmarks hvariable halias n).after ?_
  show Exactly ctx base active (if ty = ty then _ else _) _
  rw [if_pos rfl]
  exact hmarks.after (.pure rfl)

theorem finds_equal_class (hstructural : found.structural = false) {other : Ty} (hhas : base.types.Has other) (n : Nat)
    (hresolve : Exactly ctx base active ((ofBudget (n + 2)).resolve other) other) (hne : ty ≠ other)
    (hname : ∀ marks, base.types.lookup other ≠ .classRef name marks) :
    Exactly ctx base active ((ofBudget (n + 3)).equal ty other) false := by
  have hshape := finds_isShape_class active hl hmarks hvariable halias n
  rw [hstructural] at hshape
  have hshapes : Exactly ctx base active ((ofBudget (n + 2)).shapesEqual ty other) false := hshape.after (.pure rfl)
  show Exactly ctx base active (if ty = other then _ else _) _
  rw [if_neg hne]
  refine (lookup ctx active (has_of hl)).after ?_
  rw [hl]
  refine (finds_resolve_class active hl hmarks hvariable halias (n + 1)).after ?_
  show Exactly ctx base active (if ty ≠ ty then _ else _) _
  rw [if_neg (by simp)]
  refine hresolve.after ?_
  show Exactly ctx base active (if other = ty then _ else _) _
  rw [if_neg hne.symm]
  refine (lookup ctx active hhas).after ?_
  cases hform : base.types.lookup other with
  | classRef name' marks =>
    show Exactly ctx base active (if name' = name then _ else _) _
    rw [if_neg fun h : name' = name => hname marks (h ▸ hform)]
    exact hshapes
  | _ => exact hshapes
end

theorem finds_acceptsBase {mode : Mode} (hhas : base.types.Has source)
    (hform : ∀ parts, base.types.lookup source ≠ .union parts)
    (hlenient : Exactly ctx base active (isLenient source mode) false)
    (hresolve : Exactly ctx base active ((ofBudget n).resolve source) source)
    (hequal : Exactly ctx base active ((ofBudget n).equal target source) false)
    (hshape : Exactly ctx base active ((ofBudget n).isShape target) false)
    (hsuper : Truth True ctx (Session.Along ctx · base active) ((ofBudget n).acceptsSuper target source mode) b) :
    Truth True ctx (Session.Along ctx · base active) ((ofBudget n).acceptsBase target source mode) b := by
  have hguard {d : Bool} : Exactly ctx base active (pure d <&&> (ofBudget n).isShape target) false := by
    cases d with
    | true => exact hshape
    | false => exact .pure rfl
  refine hlenient.after (hresolve.after (hequal.after ?_))
  show Truth True ctx _ (if source ≠ source then _ else _) _
  rw [if_neg (by simp)]
  refine (lookup ctx active hhas).after ?_
  cases hl : base.types.lookup source with
  | union parts => exact absurd hl (hform parts)
  | _ => exact hguard.after hsuper

/-! ### Atoms -/

variable (hw : base.types.WF)
include hw

section
variable {ty : Ty} (ha : base.Atom ctx ty)
include ha

theorem finds_classMarks : Exactly ctx base active (classMarks ty) Marks.none := by
  obtain ⟨hhas, _, hl, hf⟩ := ha.form hw
  refine (lookup ctx active hhas).after ?_
  rw [hl]
  cases hf with
  | undeclared hclass => exact (classDecl ctx active hclass (.inl rfl)).after (.pure rfl)
  | _ => exact .pure rfl

theorem finds_willResolve (n : Nat) : Exactly ctx base active ((ofBudget (n + 1)).willResolve ty)
    ((base.types.lookup ty).kind == .classRef) := by
  obtain ⟨hhas, _, hl, hf⟩ := ha.form hw
  have hmarks := finds_classMarks active hw ha
  refine (lookup ctx active hhas).after ?_
  rw [hl]
  cases hf with
  | undeclared => exact hmarks.after (.pure rfl)
  | _ => exact .pure rfl

theorem finds_resolve (n : Nat) : Exactly ctx base active ((ofBudget (n + 1)).resolve ty) ty := by
  obtain ⟨hhas, _, hl, hf⟩ := ha.form hw
  have hmembers := members ctx active hhas
  rw [ha.members hw] at hmembers
  cases hf with
  | undeclared hclass halias => exact finds_resolve_class active hl (finds_classMarks active hw ha) rfl halias n
  | _ =>
    have hwill := finds_willResolve active hw ha n
    rw [hl] at hwill
    have hany : Exactly ctx base active ([ty].anyM (ofBudget (n + 1)).willResolve) false := hwill.after (.pure rfl)
    exact hmembers.after (hany.after (.pure rfl))

theorem finds_isShape (n : Nat) : Exactly ctx base active ((ofBudget (n + 2)).isShape ty) false := by
  obtain ⟨hhas, _, hl, hf⟩ := ha.form hw
  cases hf with
  | undeclared hclass halias => exact finds_isShape_class active hl (finds_classMarks active hw ha) rfl halias n
  | _ =>
    refine (lookup ctx active hhas).after ?_
    rw [hl]
    exact .pure rfl

theorem finds_superClass (n : Nat) : Exactly ctx base active ((ofBudget (n + 1)).superClass ty)
    (base.types.lookup ty).primitive? := by
  obtain ⟨hhas, form, hl, hf⟩ := ha.form hw
  refine (lookup ctx active hhas).after ?_
  have hnames {name : Symbol} (h : name ∈ form.names) : base.types.HasSymbol name := hw.hasSymbol (hl ▸ h)
  rw [hl]
  cases hf with
  | undeclared hclass halias hname =>
    refine (classDecl ctx active hclass (.inl rfl)).after ?_
    refine (Finds.text ctx active (hnames (by simp))).after ?_
    rw [hname]
    exact .pure rfl
  | _ => exact .pure rfl
end

/-! ## Comparisons -/

variable (ht : base.Atom ctx target) (hs : base.Atom ctx source)
include ht hs

theorem finds_equal (n : Nat) : Exactly ctx base active ((ofBudget (n + 3)).equal target source)
    (decide (target = source)) := by
  obtain ⟨hhas, _, hl, hf⟩ := ht.form hw
  have hresolve := finds_resolve active hw hs (n + 1)
  by_cases he : target = source
  · show Exactly ctx base active (if target = source then _ else _) _
    rw [if_pos he, decide_eq_true he]
    exact .pure rfl
  rw [decide_eq_false he]
  cases hf with
  | undeclared hclass halias =>
    obtain ⟨hhas', _, hl', hf'⟩ := hs.form hw
    refine finds_equal_class active hl (finds_classMarks active hw ht) rfl halias rfl hhas' n hresolve he fun _ h => ?_
    rw [hl'] at h
    subst h
    cases hf'
    exact he (hw.eq_of_lookup hhas hhas' (hl.trans hl'.symm))
  | _ =>
    show Exactly ctx base active (if target = source then _ else _) _
    rw [if_neg he]
    refine (lookup ctx active hhas).after ?_
    rw [hl]
    refine hresolve.after ?_
    rw [decide_eq_false fun h : source = target => he h.symm]
    exact .pure rfl

variable (hne : target ≠ source)
include hne

theorem finds_accepts_of_super (hsuper : Truth True ctx (Session.Along ctx · base active)
      ((ofBudget (n + 3)).acceptsSuper target source subsumption) b) :
    Truth True ctx (Session.Along ctx · base active) ((ofBudget (n + 4)).accepts target source subsumption) b := by
  have hlenient : Exactly ctx base active (isLenient source subsumption) false := by
    refine exactly_of_run (keeps_of_id fun ctx s => ⟨_, rfl⟩) fun s hs => ⟨s, ?_, hs⟩
    show some ((source.isAny && !true) || (source.isNil && !(true || ctx.settings.strictNil)), s) = _
    simp
  have hequal := finds_equal active hw ht hs n
  rw [decide_eq_false hne] at hequal
  have hbase := finds_acceptsBase active (hs.form hw).1 (fun _ => hs.lookup_ne_union hw) hlenient
    (finds_resolve active hw hs (n + 2)) hequal (finds_isShape active hw ht (n + 1)) hsuper
  have hresolve := finds_resolve active hw hs (n + 2)
  obtain ⟨hhas, _, hl, hf⟩ := ht.form hw
  show Truth True ctx _ (if target = source then _ else _) _
  rw [if_neg hne]
  refine (lookup ctx active hhas).after ?_
  rw [hl]
  cases hf with
  | nil => exact hbase
  | primitive hkind =>
    rename_i kind
    refine hbase.bind (g := fun b => b) fun b _ => ?_
    cases b with
    | true => exact .pure trivial
    | false =>
      obtain ⟨hhas', _, -, -⟩ := hs.form hw
      refine hresolve.after ((lookup ctx active hhas').after ?_)
      have hform : ¬ base.types.lookup source = .primitive kind := fun h =>
        hne (hw.eq_of_lookup hhas hhas' (hl.trans h.symm))
      show Truth True ctx _ (if base.types.lookup source = .primitive kind then _ else _) _
      rw [if_neg hform]
      exact .pure trivial
  | literal =>
    refine hresolve.after ?_
    show Truth True ctx _ (if source = target then _ else _) _
    rw [if_neg fun h => hne h.symm]
    exact hbase
  | undeclared =>
    refine (finds_classMarks active hw ht).after ((finds_resolve active hw ht (n + 2)).after ?_)
    show Truth True ctx _ (if target = target then _ else _) _
    rw [if_pos rfl]
    exact hbase

omit hne

theorem finds_accepts_plain (hplain : (base.types.lookup source).primitive? = none) (n : Nat) :
    Truth True ctx (Session.Along ctx · base active)
      ((ofBudget (n + 4)).accepts target source subsumption) (decide (target = source)) := by
  by_cases he : target = source
  · show Truth True ctx _ (if target = source then _ else _) _
    rw [if_pos he, decide_eq_true he]
    exact .pure trivial
  · rw [decide_eq_false he]
    refine finds_accepts_of_super active hw ht hs he ?_
    have hsuper := finds_superClass active hw hs (n + 2)
    rw [hplain] at hsuper
    exact hsuper.after (.pure trivial)

theorem finds_accepts (n : Nat) (hactive : guardKey ctx base .superClass (.pair target target) ∉ active) :
    Truth True ctx (Session.Along ctx · base active)
      ((ofBudget (n + 5)).accepts target source subsumption) (base.types.literalOf target source) := by
  by_cases he : target = source
  · have : base.types.literalOf target source = true := by simp [literalOf, he]
    show Truth True ctx _ (if target = source then _ else _) _
    rw [if_pos he, this]
    exact .pure trivial
  · have horder : base.types.literalOf target source = ((base.types.lookup source).primitive? == some target) := by
      unfold literalOf
      rw [beq_eq_false_iff_ne.2 he, Bool.false_or]
    rw [horder]
    refine finds_accepts_of_super active hw ht hs he ((finds_superClass active hw hs (n + 3)).after ?_)
    obtain ⟨-, _, hl, hf⟩ := hs.form hw
    rw [hl]
    cases hf with
    | literal hboolean =>
      rename_i kind text
      show Truth True ctx _ _ (some kind.type == some target)
      -- the primitive of the literal has no superclass itself
      have hprimitive := finds_accepts_plain (guardKey ctx base .superClass (.pair target kind.type) :: active) hw ht
        (.primitive kind) (by rw [hw.lookup_primitive]; rfl) n
      have hbool : (some kind.type == some target) = decide (target = kind.type) := by
        simp [eq_comm, Bool.beq_eq_decide_eq]
      rw [hbool]
      refine guarded (ask_keeps _ (.accepts ..) rfl) (fun h => ?_) fun _ => hprimitive
      rw [← of_decide_eq_true h]
      exact hactive
    | _ => exact .pure trivial
end

/-! ## Subsumption -/

/-- None of the types is being compared with another one. -/
def Session.NotComparing (s : Session) (M : Ty → Prop) : Prop :=
  ∀ key ∈ s.guard.active, key.activity = .union ∨ key.activity = .superClass →
    ∀ x y, M x → M y → key.subject ≠ .pair x y

theorem finds_subsumes {ctx : Context} (hw : base.types.WF) {M : Ty → Prop}
    (hM : ∀ x, M x → base.Atom ctx x) (hcomparing : base.NotComparing M) (n : Nat) (x y : Ty) (hx : M x) (hy : M y) :
    Finds.Truth True ctx (Session.Along ctx · base base.guard.active) ((ofBudget (n + 5)).subsumes x y)
      (base.types.literalOf x y) := by
  refine Finds.guarded (ask_keeps _ (.accepts ..) rfl) (fun _ hmem => ?_) fun _ => ?_
  · exact hcomparing _ hmem (.inl rfl) x y hx hy rfl
  · refine finds_accepts _ hw (hM x hx) (hM y hy) n fun hmem => ?_
    rcases List.mem_cons.1 hmem with he | hmem
    · cases congrArg GuardKey.activity he
    · exact hcomparing _ hmem (.inr rfl) x x hx hx rfl

theorem TypeTable.WF.literalOf_orders {t : TypeTable} (h : t.WF) {M : Ty → Prop} (hboolean : M Ty.boolean)
    (htrue : M Ty.trueLiteral) (hfalse : M Ty.falseLiteral) : t.literalOf.Orders M := by
  have hprimitive {x y : Ty} (hxy : (t.lookup y).primitive? = some x) : (t.lookup x).primitive? = none := by
    unfold FormOf.primitive? at hxy
    split at hxy
    · rename_i kind text hl
      rw [← Option.some.inj hxy, h.lookup_primitive]
      rfl
    · cases hxy
  have htrueForm : (t.lookup Ty.trueLiteral).primitive? = some Ty.boolean := by
    rw [(h.lookup_builtin Ty.trueLiteral rfl).2]
    decide
  have hfalseForm : (t.lookup Ty.falseLiteral).primitive? = some Ty.boolean := by
    rw [(h.lookup_builtin Ty.falseLiteral rfl).2]
    decide
  have iff {x y : Ty} : t.literalOf x y = true ↔ x = y ∨ (t.lookup y).primitive? = some x := by
    simp [literalOf]
  refine ⟨?_, ?_, hboolean, htrue, hfalse, iff.2 (.inr htrueForm), iff.2 (.inr hfalseForm), ?_, ?_⟩
  · intro x y z _ _ _ hxy hyz
    rcases iff.1 hxy with rfl | hxy
    · exact hyz
    · rcases iff.1 hyz with rfl | hyz
      · exact iff.2 (.inr hxy)
      · -- a primitive is no literal
        rw [hprimitive hyz] at hxy
        cases hxy
  · intro x y _ _ hxy hyx
    rcases iff.1 hxy with rfl | hxy
    · rfl
    · rcases iff.1 hyx with rfl | hyx
      · rfl
      · rw [hprimitive hyx] at hxy
        cases hxy
  · intro x _ hx
    rcases iff.1 hx with hx | hx
    · exact .inl hx
    · exact .inr (.inl (Option.some.inj (hx.symm.trans htrueForm)))
  · intro x _ hx
    rcases iff.1 hx with hx | hx
    · exact .inl hx
    · exact .inr (.inl (Option.some.inj (hx.symm.trans hfalseForm)))

end AnnotatedLua
