/-
What a class inherits. A walk up the superclasses comes to each of them in turn, as long as no name comes twice
(`visitSupers_chain`), and ends where all of them are stored (`visitSupers_ends`). The nearest class that has fields of a
name settles which ones a class has (`nearest_fields_win`).
-/
import AnnotatedLua.Proofs.Query.Free
import AnnotatedLua.Proofs.Shape.Nominal
import AnnotatedLua.Proofs.Termination.Member

namespace AnnotatedLua

open Solve Solver Session List
open TypeTable (has_of)

variable {α : Type} {member : Member} {name : Symbol} {marks : Marks} {ctx : Context} {s : Session} {σ : Type} {ty : Ty}
  {l : List Ty}

/-! ## The way up -/

/-- The types above a type, up to the top or to a name that was seen. -/
inductive Session.Upward (ctx : Context) (s : Session) : List String → Ty → List Ty → Prop
  | top {seen ty super} (h : s.Always ctx (·.superClass ty) super)
    (hseen : ∀ next, super = some next → s.types.Has next ∧ s.types.name next ∈ seen) : Upward ctx s seen ty []
  | next {seen ty next l} (h : s.Always ctx (·.superClass ty) (some next)) (hnext : s.types.Has next)
    (hnew : s.types.name next ∉ seen) (rest : Upward ctx s (s.types.name next :: seen) next l) :
    Upward ctx s seen ty (next :: l)

theorem Session.Always.runs {m : Solver → Solve α} {a : α} (h : s.Always ctx m a) (hw : s.types.WF) :
    ∃ N u, ∀ n, N ≤ n → m (ofBudget n) ctx s = some (a, u) := by
  obtain ⟨N, _, u, hr, -, rfl⟩ := h.now hw
  exact ⟨N, u, hr⟩

section
variable (hc : ctx.cancellable = false) (hw : s.types.WF)
include hc hw

/-- A visitor that does at each type above what `g` says, where `I` tells of the types that are left. -/
theorem Session.Upward.visitSupersFrom {visit : Solver → σ → Ty → Solve (σ × Bool)} {g : σ → Ty → σ × Bool}
    {I : List String → List Ty → σ → Prop} {seen : List String} (hl : s.Upward ctx seen ty l)
    (hI : ∀ seen next l state, I seen (next :: l) state → s.types.name next ∉ seen →
      s.Always ctx (visit · state next) (g state next) ∧
        ((g state next).2 = true → I (s.types.name next :: seen) l (g state next).1))
    {state : σ} (hstate : I seen l state) (j : Nat) :
    s.Always ctx (fun S => S.visitSupersFrom (visit S) (S.budget - j) ty seen state) (foldUntil g l state) := by
  induction hl generalizing state j with
  | @top seen ty super h hseen =>
    refine fun u hu => ends_budget (F := fun S k => S.visitSupersFrom (visit S) k ty seen state) (Always.after h ?_ u hu)
    cases super with
    | none => exact .pure _
    | some next =>
      obtain ⟨hhas, hmem⟩ := hseen next rfl
      refine (Always.isCanceled hc).after ((Always.name hw hhas).after (.ite (fun _ => .pure _) fun hno => ?_))
      exact absurd (contains_iff_mem.2 hmem) hno
  | @next seen ty next l h hnext hnew rest ih =>
    -- the name is new, so the visitor decides whether the walk goes on
    obtain ⟨hvisit, hrest⟩ := hI seen next l state hstate hnew
    refine fun u hu => ends_budget (F := fun S k => S.visitSupersFrom (visit S) k ty seen state) (Always.after h ?_ u hu)
    refine (Always.isCanceled hc).after ((Always.name hw hnext).after (.ite (fun hyes => ?_) fun _ => hvisit.after ?_))
    · exact absurd (contains_iff_mem.1 hyes) hnew
    · rw [foldUntil]
      generalize g state next = r at hrest ⊢
      obtain ⟨_, go⟩ := r
      cases go with
      | true => exact ih (hrest rfl) (j + 1)
      | false => exact .pure _

/-! ## Fields -/

omit hc hw

theorem foldUntil_append (f : σ → α → σ × Bool) (l l' : List α) (state : σ) : foldUntil f (l ++ l') state =
    if (foldUntil f l state).2 then foldUntil f l' (foldUntil f l state).1 else foldUntil f l state := by
  induction l generalizing state with
  | nil => rfl
  | cons x l ih =>
    rw [cons_append, foldUntil, foldUntil]
    by_cases hx : (f state x).2 = true
    · simp only [hx, if_true, ih]
    · simp only [hx, Bool.false_eq_true, if_false]

def collect {α : Type} (seen : List α) (x : α) : Solve (List α × Bool) := pure (seen ++ [x], true)

theorem foldUntil_collect (l l' : List α) : foldUntil (fun seen x => (seen ++ [x], true)) l l' = (l' ++ l, true) := by
  induction l generalizing l' with
  | nil => rw [append_nil]; rfl
  | cons x l ih => rw [append_cons]; exact ih _

def overridden (seen : List Member) (member : Member) : Bool := seen.any (·.name? = member.name?)

/-- What is inherited from classes with these fields, the nearest one first. -/
def inherited : List Member → List (List Member) → List Member
  | _, [] => []
  | seen, fields :: rest =>
    let new := fields.filter (!overridden seen ·)
    new ++ inherited (seen ++ new) rest

def inherit (f : σ → Member → σ × Bool) (seen : List Member) (state : σ × List Member) (member : Member) :
    (σ × List Member) × Bool :=
  if overridden seen member then (state, true) else (((f state.1 member).1, state.2 ++ [member]), (f state.1 member).2)

theorem foldUntil_inherit (f : σ → Member → σ × Bool) (seen l kept : List Member) (state : σ) :
    let r := foldUntil (inherit f seen) l (state, kept)
    let new := l.filter (!overridden seen ·)
    (r.1.1, r.2) = foldUntil f new state ∧ (r.2 = true → r.1.2 = kept ++ new) := by
  induction l generalizing state kept with
  | nil => exact ⟨rfl, fun _ => (append_nil kept).symm⟩
  | cons m l ih =>
    rw [foldUntil, inherit]
    cases hm : overridden seen m with
    | true => simpa only [filter_cons, hm, Bool.not_true, Bool.false_eq_true, if_false, if_true] using ih kept state
    | false =>
      have := ih (kept ++ [m]) (f state m).1
      cases hgo : (f state m).2 with
      | true => simpa [hm, hgo, foldUntil] using this
      | false => simp [hm, hgo, foldUntil, Prod.ext_iff]

variable {f : σ → Member → σ × Bool}

theorem inheriting_pure (S : Solver) {visit : Visitor σ} {seen : List Member}
    (hf : ∀ state, visit state member = pure (f state member)) (hseen : ∀ m ∈ seen, m.name?.isSome)
    (hmember : member.name?.isSome) (state : σ × List Member) :
    S.inheriting seen visit state member = pure (inherit f seen state member) := by
  have hover : S.isOverridden seen member = pure (overridden seen member) := by
    unfold Solver.isOverridden overridden
    induction seen with
    | nil => rfl
    | cons m seen ih =>
      obtain ⟨hm, hseen⟩ := forall_mem_cons.1 hseen
      rw [anyM, ih hseen]
      unfold Member.name? at *
      cases hk : m.key with
      | index => simp [hk] at hm
      | field a =>
        cases hk' : member.key with
        | index => simp [hk'] at hmember
        | field b => by_cases hab : a = b <;> simp [hab, hk]
  unfold Solver.inheriting inherit keeping
  rw [hover]
  dsimp only
  rw [hf]
  by_cases ho : overridden seen member = true <;> simp [ho]

def inheritAll (f : σ → Member → σ × Bool) (fields : Ty → List Member) (p : σ × List Ty × List Member) (ty : Ty) :
    (σ × List Ty × List Member) × Bool :=
  let r := foldUntil (inherit f p.2.2) (fields ty) (p.1, [])
  ((r.1.1, ty :: p.2.1, p.2.2 ++ r.1.2), r.2)

theorem foldUntil_inheritAll (f : σ → Member → σ × Bool) (fields : Ty → List Member) (l : List Ty)
    (p : σ × List Ty × List Member) : ((foldUntil (inheritAll f fields) l p).1.1, (foldUntil (inheritAll f fields) l p).2) =
      foldUntil f (inherited p.2.2 (l.map fields)) p.1 := by
  induction l generalizing p with
  | nil => rfl
  | cons ty l ih =>
    obtain ⟨hstate, hkept⟩ := foldUntil_inherit f p.2.2 (fields ty) [] p.1
    rw [map_cons, inherited, foldUntil_append, ← hstate, foldUntil, inheritAll]
    dsimp only
    split_ifs with hgo
    · rw [ih, hkept hgo]
      rfl
    · rfl

/-! ## Walks -/

def Session.fieldsOf (ctx : Context) (s : Session) (ty : Ty) : List Member :=
  match s.types.lookup ty with
  | .classRef name _ => ((s.classSeen ctx name).map ClassDecl.members).getD []
  | _ => []

theorem Session.fieldsOf_eq (hl : s.types.lookup ty = .classRef name marks) :
    s.fieldsOf ctx ty = ((s.classSeen ctx name).map ClassDecl.members).getD [] := by
  unfold fieldsOf
  rw [hl]

/-- A class with nothing but fields, and no alias. -/
def Session.Bears (ctx : Context) (s : Session) (ty : Ty) : Prop :=
  (∀ m ∈ s.fieldsOf ctx ty, m.name?.isSome) ∧ ∃ name marks, s.types.lookup ty = .classRef name marks ∧
    s.aliasSeen ctx name = none ∧ ∀ decl, s.classSeen ctx name = some decl → decl.otherName = none

include hc hw

theorem Session.Bears.resolve (h : s.Bears ctx ty) : s.Always ctx (·.resolve ty) ty := by
  obtain ⟨-, name, _, hl, halias, -⟩ := h
  have hhas := has_of hl
  have hmembers : s.types.members ty = [ty] := by
    unfold TypeTable.members
    rw [hl]
  refine .resolve hc hw hhas ?_ (by simp [hmembers]) (by simp [hmembers])
  rw [hmembers, forall_mem_singleton]
  refine (Always.lookup hhas).after fun u hu => ?_
  rw [hl]
  refine (ends_willResolve_has hu.types (hu.grown.has hhas)).bind fun _ v hv _ => .early hv.types rfl fun _ => ?_
  refine (ends_aliasType hv.types name).bind ?_
  rintro _ w hw rfl
  rw [(hu.trans hv).aliasSeen, halias]
  exact .pure hw.types rfl

theorem Session.Bears.walkWithin {visit : Solver → Visitor σ} (hty : s.Bears ctx ty)
    (hf : ∀ S state, ∀ m ∈ s.fieldsOf ctx ty, visit S state m = pure (f state m)) {visited : List Ty} (hnew : ty ∉ visited)
    (deep : Bool) (state : σ) (j : Nat) {a : Walked σ} (ha : let r := foldUntil f (s.fieldsOf ctx ty) state
      s.Always ctx (fun S => if r.2 && deep then
        S.walkSupers (S.walkWithin (S.budget - (j + 1))) (visit S) ty (s.fieldsOf ctx ty) (ty :: visited) r.1
      else pure ⟨r.1, ty :: visited, r.2⟩) a) :
    s.Always ctx (fun S => S.walkWithin (S.budget - j) (visit S) deep ty visited state) a := by
  have hresolve := hty.resolve hc hw
  obtain ⟨-, name, _, hl, -, hother⟩ := hty
  rw [fieldsOf_eq hl] at hf ha
  refine fun u hu => ends_budget (F := fun S k => S.walkWithin k (visit S) deep ty visited state) (Always.ite ?_ ?_ u hu)
  · exact fun h => absurd (contains_iff_mem.1 h) hnew
  refine fun _ => (Always.lookup (has_of hl)).after ?_
  rw [hl]
  refine hresolve.after (.ite (fun _ => ?_) fun h => absurd rfl h)
  refine (Always.classDecl name).after ?_
  cases hdecl : s.classSeen ctx name with
  | none =>
    rw [hdecl] at ha
    exact ha
  | some decl =>
    rw [hdecl] at hf ha
    have hown : s.Always ctx (fun _ => ownMembers decl) decl.members := by
      unfold ownMembers
      rw [hother decl hdecl]
      exact .pure _
    have hvisit : s.Always ctx (fun S => visitOwn (visit S) decl.members state) _ := fun v hv =>
      ⟨0, _, v, fun n _ => visitOwn_pure (hf _) (isCanceled_eq hc v) state, .of_wf hv.types, rfl⟩
    refine hown.after (hvisit.after ?_)
    cases hend : (foldUntil f decl.members state).2 with
    | true => simpa [hend] using ha
    | false => simpa [hend] using ha

variable {visit : Visitor σ} {f : σ → Member → σ × Bool} (hf : ∀ state m, visit state m = pure (f state m))
  (hl : s.Upward ctx [s.types.name ty] ty l) (hbears : ∀ z ∈ ty :: l, s.Bears ctx z)
include hf hl hbears

theorem always_walkSupers (state : σ) :
    let r := foldUntil (inheritAll f (s.fieldsOf ctx)) l (state, [ty], s.fieldsOf ctx ty)
    s.Always ctx (fun S => S.walkSupers (S.walkWithin (S.budget - (0 + 1))) visit ty (s.fieldsOf ctx ty) [ty] state)
      ⟨r.1.1, r.1.2.1, r.2⟩ := by
  obtain ⟨hty, hbears⟩ := forall_mem_cons.1 hbears
  obtain ⟨_, _, hform, -⟩ := hty.2
  -- only what was seen was visited
  refine Always.after ((Always.name hw (has_of hform)).after (hl.visitSupersFrom hc hw (I := fun seen rest p =>
    rest ⊆ l ∧ (∀ z ∈ p.2.1, s.types.name z ∈ seen) ∧ ∀ m ∈ p.2.2, m.name?.isSome) ?_ ⟨List.Subset.refl l, by simp, hty.1⟩ 0))
    (.pure _)
  rintro seen next rest p ⟨hsub, hvisited, hnamed⟩ hnew
  obtain ⟨hnext, hsub⟩ := cons_subset.1 hsub
  have hnext := hbears next hnext
  refine ⟨(hnext.walkWithin hc hw (fun S state m hm => inheriting_pure S (hf · m) hnamed (hnext.1 m hm) state)
    (fun hmem => hnew (hvisited next hmem)) _ _ _ (.ite (fun h => by simp at h) fun _ => .pure _)).after (.pure _), fun hgo => ?_⟩
  refine ⟨hsub, forall_mem_cons.2 ⟨.head _, fun z hz => .tail _ (hvisited z hz)⟩, ?_⟩
  refine forall_mem_append.2 ⟨hnamed, fun m hm => ?_⟩
  rw [(foldUntil_inherit f p.2.2 (s.fieldsOf ctx next) [] p.1).2 hgo] at hm
  exact hnext.1 m (mem_of_mem_filter hm)

theorem always_visitMembers (state : σ) : s.Always ctx (·.visitMembers visit true ty state)
    (foldUntil f (s.fieldsOf ctx ty ++ inherited (s.fieldsOf ctx ty) (l.map (s.fieldsOf ctx))) state) := by
  have hsupers := always_walkSupers hc hw hf hl hbears (foldUntil f (s.fieldsOf ctx ty) state).1
  have hwalk (a : Walked σ) := (hbears ty (.head _)).walkWithin (a := a) hc hw (fun _ state m _ => hf state m) not_mem_nil true state 0
  rw [foldUntil_append]
  generalize foldUntil f (s.fieldsOf ctx ty) state = r at hsupers hwalk ⊢
  obtain ⟨state', go⟩ := r
  cases go with
  | true =>
    rw [if_pos rfl, ← foldUntil_inheritAll f (s.fieldsOf ctx) l (state', [ty], s.fieldsOf ctx ty)]
    exact (hwalk _ hsupers).after (.pure _)
  | false => exact (hwalk _ (.pure _)).after (.pure _)

omit hf

theorem always_collect : s.Always ctx (·.visitMembers collect true ty [])
    (s.fieldsOf ctx ty ++ inherited (s.fieldsOf ctx ty) (l.map (s.fieldsOf ctx)), true) := by
  have h := always_visitMembers (f := fun seen m => (seen ++ [m], true)) hc hw (fun _ _ => rfl) hl hbears []
  rw [foldUntil_collect] at h
  exact h

omit hbears in
theorem always_visitSupers (hty : s.types.Has ty) : s.Always ctx (·.visitSupers collect ty []) (l, true) := by
  refine (Always.name hw hty).after ?_
  rw [← nil_append l, ← foldUntil_collect l []]
  exact hl.visitSupersFrom (I := fun _ _ _ => True) hc hw (fun _ _ _ _ _ _ => ⟨.pure _, fun _ => trivial⟩) trivial 0
end

/-! ## Chains -/

theorem always_superClass_class (hc : ctx.cancellable = false) (hw : s.types.WF)
    (hconsulted : (s.blind || ctx.provider.blind) = false) (hl : s.types.lookup ty = .classRef name marks)
    (htext : Text.beforeEnding? selfEnding (s.types.text name) = none) :
    s.Always ctx (·.superClass ty) ((s.classOf ctx name).bind ClassDecl.superClass) :=
  .of_exactly (m := fun S x => S.superClass x) (fun _ _ _ hS _ _ _ _ => hS.superClass) hc (n := 1)
    (finds_superClass_class _ hw hconsulted hl htext 0)

/-- All that is above such types is stored, and such a type again. -/
def Session.Ascends (ctx : Context) (s : Session) (A : Ty → Prop) : Prop := ∀ ty, A ty → s.types.Has ty ∧
  ∃ super, s.Always ctx (·.superClass ty) super ∧ ∀ next, super = some next → A next

theorem Session.Ascends.exists_upward {A : Ty → Prop} (hA : s.Ascends ctx A) (hty : A ty) (seen : List String) :
    ∃ l, s.Upward ctx seen ty l ∧ ∀ z ∈ l, A z := by
  -- on the number of names that were not seen
  induction hn : (((range s.types.size).map fun i => s.types.name ⟨i⟩).toFinset \ seen.toFinset).card
    using Nat.strong_induction_on generalizing ty seen with
  | _ n ih =>
    obtain ⟨-, super, hsuper, habove⟩ := hA ty hty
    by_cases hseen : ∀ next, super = some next → s.types.name next ∈ seen
    · exact ⟨[], .top hsuper fun next he => ⟨(hA next (habove next he)).1, hseen next he⟩, nofun⟩
    · push Not at hseen
      obtain ⟨next, rfl, hnew⟩ := hseen
      have hnext := habove next rfl
      have hhas := (hA next hnext).1
      have hmem : s.types.name next ∈ ((range s.types.size).map fun i => s.types.name ⟨i⟩).toFinset :=
        mem_toFinset.2 (mem_map.2 ⟨next.index, mem_range.2 hhas, rfl⟩)
      obtain ⟨l, hl, hall⟩ := ih _ (hn ▸ card_sdiff_cons_lt hmem hnew) hnext _ rfl
      exact ⟨next :: l, .next hsuper hhas hnew hl, forall_mem_cons.2 ⟨hnext, hall⟩⟩

/-- A class that is referred to by its name alone. -/
def TypeTable.Named (t : TypeTable) (ty : Ty) : Prop := ∃ name, t.lookup ty = .classRef name Marks.none

theorem Session.ascends_named (hc : ctx.cancellable = false) (hw : s.types.WF)
    (hconsulted : (s.blind || ctx.provider.blind) = false)
    (htext : ∀ i < s.types.symbols.size, Text.beforeEnding? selfEnding (s.types.text ⟨i⟩) = none)
    (hsupers : ∀ name decl, s.classOf ctx name = some decl → ∀ super ∈ decl.superClass, s.types.Named super) :
    s.Ascends ctx s.types.Named := by
  rintro ty ⟨name, hl⟩
  have hsymbol := hw.hasSymbol (show name ∈ (s.types.lookup ty).names by rw [hl]; exact .head _)
  refine ⟨has_of hl, _, always_superClass_class hc hw hconsulted hl (htext name.index hsymbol), fun next he => ?_⟩
  obtain ⟨decl, hdecl, hnext⟩ := Option.bind_eq_some_iff.1 he
  exact hsupers name decl hdecl next hnext

/-- Classes have nothing but fields, and their superclasses are referred to by name. There are no aliases. -/
structure Session.PlainClasses (ctx : Context) (s : Session) : Prop where
  types : s.types.WF
  uncancelled : ctx.cancellable = false
  aliases : ∀ name, s.aliasSeen ctx name = none
  classes : ∀ name decl, s.classSeen ctx name = some decl → decl.otherName = none ∧ ∀ m ∈ decl.members, m.name?.isSome
  supers : s.Ascends ctx s.types.Named

theorem Session.PlainClasses.bears (hs : s.PlainClasses ctx) (hty : s.types.Named ty) : s.Bears ctx ty := by
  obtain ⟨name, hl⟩ := hty
  refine ⟨fun m hm => ?_, name, _, hl, hs.aliases name, fun decl hdecl => (hs.classes name decl hdecl).1⟩
  rw [fieldsOf_eq hl] at hm
  cases hdecl : s.classSeen ctx name with
  | none => simp [hdecl] at hm
  | some decl => exact (hs.classes name decl hdecl).2 m (by simpa [hdecl] using hm)

/-- `A` and `B` extend each other, and both have a field `x`. -/
def rivals : Declarations :=
  let d := heirs [(⟨3⟩, ⟨11⟩), (⟨4⟩, ⟨10⟩)]
  { d with classes := d.classes.map fun _ decl => { decl with members := [⟨.field ⟨5⟩, none, false, none⟩] } }

theorem namedTypes_named : namedTypes.Named ⟨10⟩ ∧ namedTypes.Named ⟨11⟩ :=
  ⟨⟨⟨3⟩, by decide⟩, ⟨4⟩, by decide⟩

theorem rivals_plain : namedStart.PlainClasses rivals.context.uncancelled := by
  have hall : ∀ e ∈ rivals.classes.toList, (e.2.otherName = none ∧ ∀ m ∈ e.2.members, m.name?.isSome) ∧
      ∀ next ∈ e.2.superClass, next = ⟨10⟩ ∨ next = ⟨11⟩ := by decide
  have hclass (name decl) (h : namedStart.classOf rivals.context name = some decl) :=
    hall (name, decl) (Declarations.classOf_start h)
  refine ⟨namedTypes_wf, rfl, fun name => ?_, fun name decl h => (hclass name decl h).1, ?_⟩
  · show namedStart.aliasOf rivals.context name = none
    exact Option.eq_none_iff_forall_ne_some.2 fun ty h => nomatch Declarations.aliasOf_start h
  · refine ascends_named rfl namedTypes_wf rfl (by decide) fun name decl h super hsuper => ?_
    rcases (hclass name decl h).2 super hsuper with rfl | rfl
    · exact namedTypes_named.1
    · exact namedTypes_named.2

/-- A walk up the superclasses ends if it never leads to a type that is not stored, and so does a walk over members. -/
theorem visitSupers_ends (hc : ctx.cancellable = false) (hw : s.types.WF) {A : Ty → Prop} (hA : s.Ascends ctx A)
    (hty : A ty) : ∃ l, s.Upward ctx [s.types.name ty] ty l ∧
      (∃ N u, ∀ n, N ≤ n → (ofBudget n).visitSupers collect ty [] ctx s = some ((l, true), u)) ∧
      ((∀ z, A z → s.Bears ctx z) → ∃ fields N u, ∀ n, N ≤ n →
        (ofBudget n).visitMembers collect true ty [] ctx s = some ((fields, true), u)) := by
  obtain ⟨l, hl, hall⟩ := hA.exists_upward hty [s.types.name ty]
  refine ⟨l, hl, (always_visitSupers hc hw hl (hA ty hty).1).runs hw, fun hbears => ⟨_, (always_collect hc hw hl ?_).runs hw⟩⟩
  exact forall_mem_cons.2 ⟨hbears ty hty, fun z hz => hbears z (hall z hz)⟩

theorem visitSupers_ends_rivals : ∃ l N u, ∀ n, N ≤ n →
    (ofBudget n).visitSupers collect ⟨10⟩ [] rivals.context.uncancelled namedStart = some ((l, true), u) := by
  obtain ⟨l, -, hr, -⟩ := visitSupers_ends rfl namedTypes_wf rivals_plain.supers namedTypes_named.1
  exact ⟨l, hr⟩

/-! ## The nearest class -/

/-- The fields of this name in the first of the classes that has any. -/
def firstNamed (field : Symbol) (l : List (List Member)) : List Member :=
  ((l.map (fieldsNamed field)).find? (!·.isEmpty)).getD []

theorem overridden_eq {field : Symbol} (h : member.name? = some field) (seen : List Member) :
    overridden seen member = !(fieldsNamed field seen).isEmpty := by
  unfold overridden fieldsNamed
  simp only [h]
  induction seen with
  | nil => rfl
  | cons m seen ih => by_cases hm : m.name? = some field <;> simp [hm, ih]

theorem fieldsNamed_inherited (field : Symbol) (seen : List Member) (l : List (List Member)) :
    fieldsNamed field (seen ++ inherited seen l) = firstNamed field (seen :: l) := by
  induction l generalizing seen with
  | nil =>
    rw [inherited, append_nil, firstNamed]
    cases h : fieldsNamed field seen <;> simp [h]
  | cons fields l ih =>
    -- either all fields of this name are new, or a nearer class has some
    have hnew : fieldsNamed field (fields.filter (!overridden seen ·)) =
        if (fieldsNamed field seen).isEmpty then fieldsNamed field fields else [] := by
      rw [fieldsNamed, filter_filter]
      cases hseen : (fieldsNamed field seen).isEmpty with
      | true => exact filter_congr fun m _ => by by_cases hm : m.name? = some field <;> simp [hm, overridden_eq, hseen]
      | false => exact filter_eq_nil_iff.2 fun m _ => by by_cases hm : m.name? = some field <;> simp [hm, overridden_eq, hseen]
    have happend (l l' : List Member) : fieldsNamed field (l ++ l') = fieldsNamed field l ++ fieldsNamed field l' :=
      filter_append ..
    rw [inherited, ← append_assoc, ih, firstNamed, firstNamed, map_cons, map_cons, map_cons, happend, hnew]
    cases fieldsNamed field seen <;> simp

/-- The nearest class that has fields of a name, of a plain class and those above it, settles which ones the class has. The
first one whose type is written is found, or else the first one. -/
theorem nearest_fields_win (hs : s.PlainClasses ctx) (hty : s.types.Named ty) (field : Symbol) :
    ∃ l, s.Upward ctx [s.types.name ty] ty l ∧ ∃ N fields found u v, (∀ n, N ≤ n →
        (ofBudget n).visitMembers collect true ty [] ctx s = some ((fields, true), u) ∧
        (ofBudget n).member? ty field ctx s = some (found, v)) ∧
      let nearest := firstNamed field ((ty :: l).map (s.fieldsOf ctx))
      fieldsNamed field fields = nearest ∧ found = preferred nearest := by
  obtain ⟨l, hl, hall⟩ := hs.supers.exists_upward hty [s.types.name ty]
  have hbears : ∀ z ∈ ty :: l, s.Bears ctx z :=
    forall_mem_cons.2 ⟨hs.bears hty, fun z hz => hs.bears (hall z hz)⟩
  have hargs : s.Always ctx (fun _ => tableArgs ty) none := by
    obtain ⟨name, hform⟩ := hty
    refine (Always.lookup (has_of hform)).after ?_
    rw [hform]
    exact .pure _
  have htable : s.Always ctx (fun S => tableMember ty (S.keyTakesField field)) none := hargs.after (.pure _)
  have hmember : s.Always ctx (·.member? ty field) (preferred (firstNamed field ((ty :: l).map (s.fieldsOf ctx)))) := by
    rw [map_cons, ← fieldsNamed_inherited, ← foldUntil_seekField]
    exact htable.after ((always_visitMembers hs.uncancelled hs.types (visitField_eq field) hl hbears {}).after (.pure _))
  obtain ⟨N, u, hr⟩ := (always_collect hs.uncancelled hs.types hl hbears).runs hs.types
  obtain ⟨N', v, hr'⟩ := hmember.runs hs.types
  exact ⟨l, hl, max N N', _, _, u, v, fun n hn => ⟨hr n (by omega), hr' n (by omega)⟩, fieldsNamed_inherited field _ _, rfl⟩

theorem nearest_fields_win_rivals : namedStart.PlainClasses rivals.context.uncancelled ∧ namedTypes.Named ⟨10⟩ ∧
    ∃ N found u, ∀ n, N ≤ n → (ofBudget n).member? ⟨10⟩ ⟨5⟩ rivals.context.uncancelled namedStart = some (found, u) := by
  obtain ⟨l, -, N, fields, found, u, v, hr, -⟩ := nearest_fields_win rivals_plain namedTypes_named.1 ⟨5⟩
  exact ⟨rivals_plain, namedTypes_named.1, N, found, v, fun n hn => (hr n hn).2⟩

end AnnotatedLua
