/-
Acceptance between types that are made of atoms (`Session.Single`). Such a type accepts another one just if it accepts
each of its members (`always_accepts`), and a single member if leniency says so or one of its own members takes it.
-/
import AnnotatedLua.Proofs.Query.Free
import AnnotatedLua.Proofs.Union.Canonical

namespace AnnotatedLua

open Solve Solver TypeTable List Context
open Session (Always entered_from)

variable {ctx : Context} {target source a b : Ty} {room : Nat} {mode : Mode} {t : TypeTable} {own : List Ty}
  {equal : Bool} {parts : List Ty} {s : Session}

/-! ## Types made of atoms -/

/-- A type that is `any`, an atom, or a union of atoms. -/
inductive Session.Single (ctx : Context) (s : Session) : Ty → Prop
  | any : Single ctx s Ty.any
  | atom {ty} (h : s.Atom ctx ty) : Single ctx s ty
  | union {ty parts} (hform : s.types.lookup ty = .union parts) (hnodup : parts.Nodup)
      (hne : parts ≠ []) (hatoms : ∀ z ∈ parts, s.Atom ctx z) : Single ctx s ty

namespace TypeTable

theorem members_of_union {ty : Ty} (h : t.lookup ty = .union parts) : t.members ty = parts := by
  unfold members
  rw [h]

theorem WF.lookup_any (hw : t.WF) : t.lookup Ty.any = .any := (hw.lookup_builtin Ty.any rfl).2.trans (by decide)

theorem WF.lookup_any_ne_union (hw : t.WF) : t.lookup Ty.any ≠ .union parts := by
  rw [hw.lookup_any]
  simp

theorem WF.members_any (hw : t.WF) : t.members Ty.any = [Ty.any] := by
  unfold members
  rw [hw.lookup_any]

end TypeTable

theorem Session.members_member {ty : Ty} (hw : s.types.WF) (h : ty = Ty.any ∨ s.Atom ctx ty) :
    s.types.members ty = [ty] := by
  rcases h with rfl | h
  · exact hw.members_any
  · exact h.members hw

namespace Session.Single

variable {u : Session} {ty : Ty}

theorem of_union (h : s.Single ctx ty) (hw : s.types.WF) (hform : s.types.lookup ty = .union parts) :
    parts ≠ [] ∧ ∀ z ∈ parts, s.Atom ctx z := by
  cases h with
  | any => exact absurd hform hw.lookup_any_ne_union
  | atom h => exact absurd hform (h.lookup_ne_union hw)
  | union hform' hnodup hne hatoms =>
    cases hform.symm.trans hform'
    exact ⟨hne, hatoms⟩

theorem of_member (h : ty = Ty.any ∨ s.Atom ctx ty) : s.Single ctx ty := by
  rcases h with rfl | h
  · exact .any
  · exact .atom h

section
variable (h : s.Single ctx ty)
include h

theorem has (hw : s.types.WF) : s.types.Has ty := by
  cases h with
  | any => exact (hw.lookup_builtin Ty.any rfl).1
  | atom h => exact (h.form hw).1
  | union hform => exact has_of hform

theorem later (hw : s.types.WF) (hu : u.From ctx s) : u.Single ctx ty := by
  have hhas := h.has hw
  cases h with
  | any => exact .any
  | atom h => exact .atom (h.later hw hu)
  | union hform hnodup hne hatoms =>
    exact .union ((hu.grown.lookup hhas).trans hform) hnodup hne fun z hz => (hatoms z hz).later hw hu

/-- The members of such a type are `any` alone or atoms. -/
theorem member (hw : s.types.WF) {z : Ty} (hz : z ∈ s.types.members ty) :
    (ty = Ty.any ∧ z = Ty.any) ∨ s.Atom ctx z := by
  cases h with
  | any =>
    rw [hw.members_any] at hz
    exact .inl ⟨rfl, mem_singleton.1 hz⟩
  | atom h =>
    rw [h.members hw, mem_singleton] at hz
    exact .inr (hz ▸ h)
  | union hform hnodup hne hatoms =>
    rw [members_of_union hform] at hz
    exact .inr (hatoms z hz)

theorem atom_or (hw : s.types.WF) : s.Atom ctx ty ∨ s.types.Has ty ∧ (s.types.lookup ty = .any ∨
    ∃ parts, s.types.lookup ty = .union parts) := by
  have hhas := h.has hw
  cases h with
  | any => exact .inr ⟨hhas, .inl hw.lookup_any⟩
  | atom h => exact .inl h
  | union hform => exact .inr ⟨hhas, .inr ⟨_, hform⟩⟩

theorem kind_mem (hw : s.types.WF) : s.types.kind ty ∈ [Kind.any, .nil, .primitive, .literal, .classRef, .union] := by
  unfold TypeTable.kind
  cases h with
  | any =>
    rw [hw.lookup_any]
    simp
  | atom h =>
    obtain ⟨-, _, hl, hf⟩ := h.form hw
    rw [hl]
    cases hf <;> simp
  | union hform =>
    rw [hform]
    simp

theorem kind_ne (hw : s.types.WF) : s.types.kind ty ≠ .results := by
  intro hkind
  have := h.kind_mem hw
  simp [hkind] at this
end

end Session.Single

/-! ## Questions about such types -/

section
variable (hs : s.Free ctx room) {ty : Ty}
include hs

theorem always_willResolve_atom (h : s.Atom ctx ty) : s.Always ctx (·.willResolve ty) (s.types.kind ty == .classRef) :=
  .of_exactly (m := fun S x => S.willResolve x) (fun _ _ _ hS _ _ _ _ => hS.willResolve) hs.uncancelled
    (finds_willResolve _ hs.types h 0)

theorem always_resolveOne_atom (h : s.Atom ctx ty) : s.Always ctx (·.resolveOne ty) ty := by
  obtain ⟨hhas, _, hl, hf⟩ := h.form hs.types
  have hwill := always_willResolve_atom hs h
  refine (Always.lookup hhas).after ?_
  unfold TypeTable.kind at hwill
  rw [hl] at hwill ⊢
  cases hf with
  | undeclared hclass halias =>
    have hnone : s.Always ctx (fun _ => aliasType _) none :=
      .of_exactly (m := fun _ x => aliasType x) (fun L _ _ _ _ _ _ _ => L.aliasType) hs.uncancelled (n := 0)
        (Finds.aliasType ctx _ halias)
    exact hwill.after (hnone.after (.pure ty))
  | _ => exact .pure ty

theorem always_resolves (h : s.Single ctx ty) :
    s.Always ctx (·.resolvedMembers ty) (s.types.members ty) ∧ s.Always ctx (·.resolve ty) ty := by
  refine Always.resolves hs.uncancelled hs.types (h.has hs.types) (fun z hz => ?_) ?_ fun hseveral hmem => ?_
  · rcases h.member hs.types hz with ⟨-, rfl⟩ | hz
    · refine (Always.lookup (hs.types.lookup_builtin Ty.any rfl).1).after ?_
      rw [hs.types.lookup_any]
      exact .pure _
    · exact always_resolveOne_atom hs hz
  · cases h with
    | any => simp [hs.types.members_any]
    | atom h => simp [h.members hs.types]
    | union hform => rwa [members_of_union hform]
  · -- a union of several is no member of itself
    rw [Session.members_member hs.types ((h.member hs.types hmem).imp_left (·.1))] at hseveral
    exact absurd hseveral (lt_irrefl 1)

theorem always_resolve (h : s.Single ctx ty) : s.Always ctx (·.resolve ty) ty := (always_resolves hs h).2

theorem always_isShape (h : s.Single ctx ty) : s.Always ctx (·.isShape ty) false := by
  rcases h.atom_or hs.types with h | ⟨hhas, hl⟩
  · exact .of_exactly (m := fun S x => S.isShape x) (fun _ _ _ hS _ _ _ _ => hS.isShape) hs.uncancelled
      (finds_isShape _ hs.types h 0)
  · refine .ask ((Always.lookup hhas).after ?_)
    rcases hl with hl | ⟨parts, hl⟩ <;> rw [hl] <;> exact .pure false

theorem always_classMarks (h : s.Single ctx ty) : s.Always ctx (fun _ => classMarks ty) Marks.none := by
  rcases h.atom_or hs.types with h | ⟨hhas, hl⟩
  · exact .of_exactly regular_classMarks hs.uncancelled (n := 0) (finds_classMarks _ hs.types h)
  · refine (Always.lookup hhas).after ?_
    rcases hl with hl | ⟨parts, hl⟩ <;> rw [hl] <;> exact .pure _

theorem always_superClass (h : ty = Ty.any ∨ s.Atom ctx ty) :
    s.Always ctx (·.superClass ty) (s.types.lookup ty).primitive? := by
  rcases h with rfl | h
  · refine .ask ((Always.lookup (hs.types.lookup_builtin Ty.any rfl).1).after ?_)
    rw [hs.types.lookup_any]
    exact .pure none
  · exact .of_exactly (m := fun S x => S.superClass x) (fun _ _ _ hS _ _ _ _ => hS.superClass) hs.uncancelled
      (finds_superClass _ hs.types h 0)

/-! ## Equality -/

theorem always_equal_atom (ha : s.Atom ctx a) (hb : s.Single ctx b) : s.Always ctx (·.equal a b) (decide (a = b)) := by
  by_cases he : a = b
  · refine .ask (.ite (fun _ => ?_) fun h => absurd he h)
    rw [decide_eq_true he]
    exact .pure true
  obtain ⟨hhas, _, hl, hf⟩ := ha.form hs.types
  have hresolve := always_resolve hs hb
  rcases hb.atom_or hs.types with hb | ⟨hhas', hl'⟩
  · exact .of_exactly regular_equal (x := (a, b)) hs.uncancelled (finds_equal _ hs.types ha hb 0)
  rw [decide_eq_false he]
  refine .ask (.ite (fun h => absurd h he) fun _ => (Always.lookup hhas).after ?_)
  rw [hl]
  cases hf with
  | undeclared =>
    have hshapes : s.Always ctx (·.shapesEqual a b) false := (always_isShape hs (.atom ha)).after (.pure false)
    refine (always_resolve hs (.atom ha)).after (.ite (fun h => absurd rfl h) fun _ => hresolve.after ?_)
    refine .ite (fun h => absurd h.symm he) fun _ => (Always.lookup hhas').after ?_
    rcases hl' with hl' | ⟨parts, hl'⟩ <;> rw [hl'] <;> exact hshapes
  | _ =>
    refine hresolve.after ?_
    rw [decide_eq_false fun h => he h.symm]
    exact .pure false

theorem always_equal_union (hform : s.types.lookup a = .union own) (ha : s.Single ctx a)
    (hb : s.Single ctx b) (hne : a ≠ b) : s.Always ctx (·.equal a b)
      (decide (own.length = (s.types.members b).length) && own.all (s.types.members b).contains) := by
  have hhas := ha.has hs.types
  refine .ask (.ite (fun h => absurd h hne) fun _ => (Always.lookup hhas).after ?_)
  rw [hform]
  have hown : s.Always ctx (fun _ => members a) (s.types.members a) := .members hhas
  rw [members_of_union hform] at hown
  refine (always_resolve hs ha).after (hown.after ?_)
  refine (always_resolve hs hb).after ((Always.members (hb.has hs.types)).after ?_)
  refine .ite (fun hlen => ?_) fun hlen => ?_
  · rw [decide_eq_true hlen, Bool.true_and]
    refine .allM fun z hz => .ite (fun h => ?_) fun h => ?_
    · rw [h]
      exact .pure true
    · rw [Bool.eq_false_iff.2 h]
      -- a member that the other type does not have is equal to none of its members
      have hatom : s.Atom ctx z := (ha.of_union hs.types hform).2 z hz
      have hnone : (s.types.members b).any (fun x => decide (z = x)) = false := by
        rw [any_eq_false]
        intro x hx hzx
        rw [of_decide_eq_true hzx] at h
        exact h (contains_iff_mem.2 hx)
      rw [← hnone]
      refine .anyM fun x hx => always_equal_atom hs hatom ?_
      rcases hb.member hs.types hx with ⟨-, rfl⟩ | hx
      · exact .any
      · exact .atom hx
  · rw [decide_eq_false hlen, Bool.false_and]
    exact .pure false
end

/-! ## What accepts which -/

def Context.lets (ctx : Context) (mode : Mode) (literal : Bool) (member : Ty) : Bool :=
  (member.isAny && !mode.strictAny) || (member.isNil && !(literal || mode.strictNil || ctx.settings.strictNil))

/-- Whether an atom takes a member of a source: itself, a literal of it, or an object as a table. -/
def TypeTable.takes (t : TypeTable) (mode : Mode) (target member : Ty) : Bool :=
  t.literalOf target member || (!mode.strictAny && target == Ty.table && t.kind member == .classRef)

def Context.acceptsMember (ctx : Context) (t : TypeTable) (mode : Mode) (target member : Ty) : Bool :=
  target.isAny || ctx.lets mode (t.kind target == .literal) member || (t.members target).any (t.takes mode · member)

def Context.acceptsMembers (ctx : Context) (t : TypeTable) (mode : Mode) (target source : Ty) : Bool :=
  (t.members source).all (ctx.acceptsMember t mode target)

section
variable (hs : s.Free ctx room)

theorem always_isLenient (source : Ty) (mode : Mode) :
    s.Always ctx (fun _ => isLenient source mode) (ctx.lets mode false source) :=
  fun u hu => ⟨0, _, u, fun _ _ => rfl, .of_wf hu.types, by simp [lets]⟩

include hs

theorem always_acceptsBase_member {member : Ty} {super : Bool} (ht : s.Single ctx target)
    (hm : member = Ty.any ∨ s.Atom ctx member) (hequal : s.Always ctx (·.equal target member) equal)
    (hsuper : s.Always ctx (·.acceptsSuper target member mode) super) :
    s.Always ctx (·.acceptsBase target member mode) (ctx.lets mode false member || (equal || super)) := by
  have hmember : s.Single ctx member := .of_member hm
  refine (always_isLenient member mode).orElse ((always_resolve hs hmember).after (hequal.orElse ?_))
  refine .ite (fun h => absurd rfl h) fun _ => (Always.lookup (hmember.has hs.types)).after ?_
  -- what has members is no shape here, so that the superclass decides
  have hsingle (form : Form) : s.Always ctx (·.acceptsSingle target member form mode) super := by
    have hguard {b : Bool} : s.Always ctx (fun S => pure b <&&> S.isShape target) false := by
      cases b with
      | true => exact always_isShape hs ht
      | false => exact .pure false
    exact hguard.after hsuper
  rcases hm with rfl | hm
  · rw [hs.types.lookup_any]
    exact hsingle _
  · obtain ⟨-, _, hl, hf⟩ := hm.form hs.types
    rw [hl]
    cases hf <;> exact hsingle _

/-- Of the primitive types `table` accepts objects besides its own. -/
theorem always_acceptsAsPrimitive {kind : Primitive} (hsource : s.Single ctx source)
    (hne : kind.type ≠ source) : s.Always ctx (fun _ => acceptsAsPrimitive kind source (s.types.lookup source))
      (kind.type == Ty.table && s.types.kind source == .classRef) := by
  have hmem : (s.types.lookup source).kind ∈ _ := hsource.kind_mem hs.types
  have hkind : s.Always ctx (fun _ => Solve.kind source) (s.types.kind source) := .kind (hsource.has hs.types)
  generalize s.types.lookup source = form at hmem
  cases kind with
  | function =>
    have hfunction : (form.kind == .function) = false := by
      rw [beq_eq_false_iff_ne]
      intro h
      rw [h] at hmem
      simp at hmem
    unfold acceptsAsPrimitive
    dsimp only
    rw [hfunction]
    exact .pure false
  | table =>
    have htable : s.Always ctx (fun _ => Solve.kind source >>= fun kind =>
        pure (false || kind == .classRef || decide (source = Ty.table))) (s.types.kind source == .classRef) := by
      refine hkind.after ?_
      rw [decide_eq_false fun h => hne h.symm, Bool.or_false]
      exact .pure _
    cases form with
    | generic => simp at hmem
    | array => simp at hmem
    | _ => exact htable
  | _ => exact .pure false

/-- An atom accepts what the common rule accepts, and `table` objects besides. A literal is strict about `nil`. -/
theorem always_accepts_of_base (mode : Mode) {base : Bool → Bool} (ht : s.Atom ctx target)
    (hsource : s.Single ctx source) (hne : target ≠ source)
    (hbase : ∀ strictNil, s.Always ctx (·.acceptsBase target source { mode with strictNil }) (base strictNil)) :
    s.Always ctx (·.accepts target source mode) (base (mode.strictNil || s.types.kind target == .literal) ||
        (!mode.strictAny && target == Ty.table && s.types.kind source == .classRef)) := by
  have hmode : s.Always ctx (·.acceptsBase target source mode) (base mode.strictNil) := hbase mode.strictNil
  obtain ⟨hhas, form, hl, hf⟩ := ht.form hs.types
  have htable {form : Form} (hl : s.types.lookup target = form) (hform : form ≠ .primitive .table) :
      (target == Ty.table) = false := by
    rw [beq_eq_false_iff_ne]
    rintro rfl
    exact hform (hl.symm.trans (hs.types.lookup_primitive .table))
  have hkind {form : Form} (hl : s.types.lookup target = form) (hform : form.kind ≠ .literal) :
      (mode.strictNil || s.types.kind target == .literal) = mode.strictNil := by
    unfold TypeTable.kind
    rw [hl, beq_eq_false_iff_ne.2 hform, Bool.or_false]
  refine .ask (.ite (fun h => absurd h hne) fun _ => (Always.lookup hhas).after ?_)
  rw [hl]
  cases hf with
  | nil =>
    rw [hkind hl (by simp), htable hl (by simp), Bool.and_false, Bool.false_and, Bool.or_false]
    exact hmode
  | primitive h =>
    rename_i kind
    have hother : ¬ s.types.lookup source = .primitive kind := fun h =>
      hne (hs.types.eq_of_lookup hhas (hsource.has hs.types) (hl.trans h.symm))
    rw [hkind hl (by simp)]
    refine hmode.orElse ((always_resolve hs hsource).after ((Always.lookup (hsource.has hs.types)).after ?_))
    refine .ite (fun h => absurd h hother) fun _ => .ite (fun hstrict => ?_) fun hstrict => ?_
    · rw [hstrict]
      exact .pure false
    · rw [Bool.eq_false_iff.2 hstrict, h]
      exact always_acceptsAsPrimitive hs hsource (h ▸ hne)
  | literal =>
    refine (always_resolve hs hsource).after (.ite (fun h => absurd h.symm hne) fun _ => ?_)
    have hmarks : s.Always ctx (fun _ => pure !mode.strictAny <&&> (return (← classMarks source).unresolved)) false := by
      cases mode.strictAny with
      | true => exact .pure false
      | false => exact .after (f := fun _ marks => pure marks.unresolved) (always_classMarks hs hsource) (.pure _)
    refine hmarks.after ?_
    have hliteral : (mode.strictNil || s.types.kind target == .literal) = true := by
      rw [kind_of hl]
      exact Bool.or_true _
    rw [hliteral, htable hl (by simp), Bool.and_false, Bool.false_and, Bool.or_false]
    exact hbase true
  | undeclared =>
    refine (always_classMarks hs (.atom ht)).after ((always_resolve hs (.atom ht)).after ?_)
    refine .ite (fun _ => ?_) fun h => absurd rfl h
    rw [hkind hl (by simp), htable hl (by simp), Bool.and_false, Bool.false_and, Bool.or_false]
    exact hmode
end

/-! ## Members -/

section
variable {member : Ty}

theorem Context.acceptsMember_iff : ctx.acceptsMember t mode target member = true ↔ target = Ty.any ∨
    ctx.lets mode (t.kind target == .literal) member = true ∨ ∃ y ∈ t.members target, t.takes mode y member = true := by
  simp [acceptsMember, Ty.isAny, or_assoc]

theorem Context.lets_mono {literal : Bool} (h : ctx.lets mode literal member = true) :
    ctx.lets mode false member = true := by
  simp only [lets, Bool.or_eq_true, Bool.and_eq_true] at h ⊢
  refine h.imp_right fun hnil => ⟨hnil.1, ?_⟩
  have hstrict := hnil.2
  simp only [Bool.not_eq_true', Bool.or_eq_false_iff] at hstrict ⊢
  exact ⟨⟨trivial, hstrict.1.2⟩, hstrict.2⟩

theorem Context.lets_primitive (kind : Primitive) (literal : Bool) : ctx.lets mode literal kind.type = false := by
  have hany : kind.type.isAny = false := by cases kind <;> rfl
  have hnil : kind.type.isNil = false := by cases kind <;> rfl
  simp [lets, hany, hnil]

namespace TypeTable

theorem takes_self : t.takes mode member member = true := by simp [takes, literalOf]

theorem WF.takes_primitive (hw : t.WF) (kind : Primitive) : t.takes mode target kind.type = (target == kind.type) := by
  simp [takes, literalOf, TypeTable.kind, hw.lookup_primitive, FormOf.primitive?]

theorem takes_of_primitive {primitive : Ty} (h : (t.lookup member).primitive? = some primitive) :
    t.takes mode primitive member = true := by
  simp [takes, literalOf, h]

end TypeTable

theorem Session.Atom.acceptsMember_iff (h : s.Atom ctx target) (hw : s.types.WF) :
    ctx.acceptsMember s.types mode target member = true ↔
      ctx.lets mode (s.types.kind target == .literal) member = true ∨ s.types.takes mode target member = true := by
  rw [Context.acceptsMember_iff, h.members hw]
  simp [(h.ne hw).1]

theorem Session.Single.acceptsMember_iff (h : s.Single ctx target) (hw : s.types.WF)
    (hform : s.types.lookup target = .union parts) : ctx.acceptsMember s.types mode target member = true ↔
      ctx.lets mode false member = true ∨ ∃ part ∈ parts, s.types.takes mode part member = true := by
  have hkind : (s.types.kind target == .literal) = false := by
    rw [kind_of hform]
    rfl
  have hany : target ≠ Ty.any := by
    rintro rfl
    exact hw.lookup_any_ne_union hform
  rw [Context.acceptsMember_iff, members_of_union hform, hkind]
  simp [hany]

theorem Session.Single.acceptsMember_of_part (h : s.Single ctx target) (hw : s.types.WF)
    (hform : s.types.lookup target = .union parts) {part : Ty} (hpart : part ∈ parts)
    (hp : ctx.acceptsMember s.types mode part member = true) : ctx.acceptsMember s.types mode target member = true := by
  rw [(h.of_union hw hform).2 part hpart |>.acceptsMember_iff hw] at hp
  rw [h.acceptsMember_iff hw hform]
  exact hp.imp lets_mono fun htakes => ⟨part, hpart, htakes⟩

theorem TypeTable.WF.acceptsMember_primitive (hw : t.WF) (hany : target ≠ Ty.any) (ctx : Context) (mode : Mode)
    (kind : Primitive) : ctx.acceptsMember t mode target kind.type = (t.members target).contains kind.type := by
  rw [Bool.eq_iff_iff, acceptsMember_iff, lets_primitive]
  simp [hany, hw.takes_primitive]
end

/-! ## Single members -/

section
variable {member : Ty}

theorem always_accepts_self : s.Always ctx (·.accepts member member mode) true :=
  .ask (.ite (fun _ => .pure true) fun h => absurd rfl h)

section
variable (hs : s.Free ctx room)
include hs

theorem always_acceptsSuper_none (hm : member = Ty.any ∨ s.Atom ctx member)
    (hnone : (s.types.lookup member).primitive? = none) : s.Always ctx (·.acceptsSuper target member mode) false := by
  have hsuper := always_superClass hs hm
  rw [hnone] at hsuper
  exact hsuper.after (.pure false)

theorem always_accepts_atom (ht : s.Atom ctx target) (hm : member = Ty.any ∨ s.Atom ctx member)
    (hsuper : target ≠ member → ∀ strictNil, s.Always ctx (·.acceptsSuper target member { mode with strictNil })
      ((s.types.lookup member).primitive?.any (s.types.members target).contains)) :
    s.Always ctx (·.accepts target member mode) (ctx.acceptsMember s.types mode target member) := by
  have hmembers := ht.members hs.types
  by_cases he : target = member
  · have htrue : ctx.acceptsMember s.types mode target member = true :=
      acceptsMember_iff.2 (.inr (.inr ⟨target, by simp [hmembers], he ▸ takes_self⟩))
    rw [htrue, he]
    exact always_accepts_self
  have hmember : s.Single ctx member := .of_member hm
  have hequal := always_equal_atom hs ht hmember
  rw [decide_eq_false he] at hequal
  have h := always_accepts_of_base hs mode ht hmember he fun strictNil =>
    always_acceptsBase_member hs (.atom ht) hm hequal (hsuper he strictNil)
  have hany : (target == Ty.any) = false := beq_eq_false_iff_ne.2 (ht.ne hs.types).1
  have hother : (target == member) = false := beq_eq_false_iff_ne.2 he
  have hsame : (s.types.lookup member).primitive?.any (s.types.members target).contains =
      ((s.types.lookup member).primitive? == some target) := by
    rw [hmembers]
    cases (s.types.lookup member).primitive? with
    | none => rfl
    | some => simp [Bool.beq_eq_decide_eq, eq_comm]
  rw [hsame] at h
  have hresult : ctx.acceptsMember s.types mode target member =
      ((ctx.lets { mode with strictNil := mode.strictNil || s.types.kind target == .literal } false member ||
        (false || ((s.types.lookup member).primitive? == some target))) ||
        (!mode.strictAny && target == Ty.table && s.types.kind member == .classRef)) := by
    simp [acceptsMember, lets, hmembers, Ty.isAny, hany, takes, literalOf, hother,
      Bool.or_assoc, Bool.or_comm mode.strictNil]
  rwa [hresult]

theorem always_accepts_union (hform : s.types.lookup target = .union parts)
    (ht : s.Single ctx target) (hm : member = Ty.any ∨ s.Atom ctx member)
    (hsuper : s.Always ctx (·.acceptsSuper target member mode)
      ((s.types.lookup member).primitive?.any (s.types.members target).contains))
    (hparts : ∀ part ∈ parts, s.Always ctx (·.accepts part member mode) (ctx.acceptsMember s.types mode part member)) :
    s.Always ctx (·.accepts target member mode) (ctx.acceptsMember s.types mode target member) := by
  have hmember : s.Single ctx member := .of_member hm
  have hsingle := Session.members_member hs.types hm
  have hmembers : s.types.members target = parts := members_of_union hform
  obtain ⟨hne, hatoms⟩ := ht.of_union hs.types hform
  have hother : target ≠ member := by
    rintro rfl
    rcases hm with rfl | hm
    · exact hs.types.lookup_any_ne_union hform
    · exact hm.lookup_ne_union hs.types hform
  have hbase := always_acceptsBase_member hs ht hm (always_equal_union hs hform ht hmember hother) hsuper
  have hresult : ctx.acceptsMember s.types mode target member = ((ctx.lets mode false member ||
      ((decide (parts.length = (s.types.members member).length) && parts.all (s.types.members member).contains) ||
        (s.types.lookup member).primitive?.any (s.types.members target).contains)) ||
      parts.any fun part => ctx.acceptsMember s.types mode part member) := by
    rw [Bool.eq_iff_iff, ht.acceptsMember_iff hs.types hform, hmembers, hsingle]
    simp only [Bool.or_eq_true, Bool.and_eq_true, any_eq_true, all_eq_true, or_assoc]
    constructor
    · rintro (h | ⟨part, hpart, h⟩)
      · exact .inl h
      · exact .inr (.inr (.inr ⟨part, hpart, ((hatoms part hpart).acceptsMember_iff hs.types).2 (.inr h)⟩))
    · rintro (h | ⟨-, h⟩ | h | ⟨part, hpart, h⟩)
      · exact .inl h
      · obtain ⟨part, hpart⟩ := exists_mem_of_ne_nil parts hne
        obtain rfl : part = member := by simpa using h part hpart
        exact .inr ⟨part, hpart, takes_self⟩
      · obtain ⟨primitive, hp, h⟩ := (Option.any_eq_true _ _).1 h
        exact .inr ⟨primitive, contains_iff_mem.1 h, takes_of_primitive hp⟩
      · exact (ht.acceptsMember_iff hs.types hform).1 (ht.acceptsMember_of_part hs.types hform hpart h)
  rw [hresult]
  refine .ask (.ite (fun h => absurd h hother) fun _ => (Always.lookup (ht.has hs.types)).after ?_)
  rw [hform]
  exact hbase.orM (.anyM hparts)

/-- `any` accepts all but lists of values. -/
theorem always_accepts_any (hsource : s.Single ctx source) :
    s.Always ctx (·.accepts Ty.any source mode) true := by
  refine .ask (.ite (fun _ => .pure true) fun _ => (Always.lookup (hs.types.lookup_builtin Ty.any rfl).1).after ?_)
  rw [hs.types.lookup_any]
  refine (Always.kind (hsource.has hs.types)).after ?_
  rw [bne_iff_ne.2 (hsource.kind_ne hs.types)]
  exact .pure true

theorem always_accepts_primitive (ht : s.Single ctx target) (hany : target ≠ Ty.any)
    (kind : Primitive) : s.Always ctx (·.accepts target kind.type mode)
      (ctx.acceptsMember s.types mode target kind.type) := by
  have hkind : s.Atom ctx kind.type := .primitive kind
  have hnone : (s.types.lookup kind.type).primitive? = none := by rw [hs.types.lookup_primitive]; rfl
  have hsuper (y : Ty) (mode : Mode) : s.Always ctx (·.acceptsSuper y kind.type mode)
      ((s.types.lookup kind.type).primitive?.any (s.types.members y).contains) := by
    rw [hnone]
    exact always_acceptsSuper_none hs (.inr hkind) hnone
  have hatom {y : Ty} (hy : s.Atom ctx y) : s.Always ctx (·.accepts y kind.type mode)
      (ctx.acceptsMember s.types mode y kind.type) :=
    always_accepts_atom hs hy (.inr hkind) fun _ _ => hsuper y _
  have ht' := ht
  cases ht' with
  | any => exact absurd rfl hany
  | atom h => exact hatom h
  | union hform hnodup hne hatoms =>
    exact always_accepts_union hs hform ht (.inr hkind) (hsuper target mode) fun part hpart => hatom (hatoms part hpart)
end

variable (hs : s.Free ctx (room + 1)) (hfree : s.Avoids .superClass) (ht : s.Single ctx target)
  (hm : member = Ty.any ∨ s.Atom ctx member)
include hs hfree ht hm

theorem always_acceptsSuper (hany : target ≠ Ty.any) : s.Always ctx (·.acceptsSuper target member mode)
      ((s.types.lookup member).primitive?.any (s.types.members target).contains) := by
  have hclass := always_superClass hs hm
  cases hp : (s.types.lookup member).primitive? with
  | none => exact always_acceptsSuper_none hs hm hp
  | some primitive =>
    obtain ⟨kind, rfl⟩ : ∃ kind : Primitive, primitive = kind.type := by
      unfold FormOf.primitive? at hp
      split at hp
      · exact ⟨_, (Option.some.inj hp).symm⟩
      · cases hp
    rw [hp] at hclass
    rw [Option.any_some, ← hs.types.acceptsMember_primitive hany ctx mode]
    refine hclass.after (.guarded hs hfree.not_active ?_)
    exact always_accepts_primitive (hs.entered hfree.not_active)
      (ht.later hs.types (entered_from hs.types)) hany kind

theorem always_accepts_member (mode : Mode) : s.Always ctx (·.accepts target member mode) (ctx.acceptsMember s.types mode target member) := by
  have hatom {y : Ty} (hy : s.Atom ctx y) : s.Always ctx (·.accepts y member mode)
      (ctx.acceptsMember s.types mode y member) :=
    always_accepts_atom hs hy hm fun _ _ => always_acceptsSuper hs hfree (.atom hy) hm (hy.ne hs.types).1
  have ht' := ht
  cases ht' with
  | any => exact always_accepts_any hs (.of_member hm)
  | atom h => exact hatom h
  | union hform hnodup hne hatoms =>
    refine always_accepts_union hs hform ht hm (always_acceptsSuper hs hfree ht hm ?_) fun part hpart =>
      hatom (hatoms part hpart)
    rintro rfl
    exact hs.types.lookup_any_ne_union hform
end

/-! ## Sources that are unions -/

theorem always_acceptsBase_union (hs : s.Free ctx room) (hform : s.types.lookup source = .union parts)
    (hsource : s.Single ctx source) (hequal : s.Always ctx (·.equal target source) equal)
    (hsame : equal = true → ∀ part ∈ parts, part ∈ s.types.members target)
    (hparts : ∀ part ∈ parts, s.Always ctx (·.accepts target part mode) (ctx.acceptsMember s.types mode target part)) :
    s.Always ctx (·.acceptsBase target source mode) (ctx.acceptsMembers s.types mode target source) := by
  have hhas := hsource.has hs.types
  have hatoms := (hsource.of_union hs.types hform).2
  have hlets : ctx.lets mode false source = false := by
    have hany : source ≠ Ty.any := by
      rintro rfl
      exact hs.types.lookup_any_ne_union hform
    have hnil : source ≠ Ty.nil := by
      rintro rfl
      rw [hs.types.lookup_nil] at hform
      cases hform
    simp [lets, Ty.isAny, Ty.isNil, hany, hnil]
  have hlenient : s.Always ctx (fun _ => isLenient source mode) (ctx.lets mode false source) := always_isLenient source mode
  rw [hlets] at hlenient
  have hcounted : s.Always ctx (fun _ => ofTypes fun t => parts.filter (t.kind · != .snippet)) parts := by
    refine .ofTypes fun u hu => filter_eq_self.2 fun z hz => ?_
    obtain ⟨hhas, _, hl, hf⟩ := (hatoms z hz).form hs.types
    rw [hu.kind hhas, bne_iff_ne]
    rw [kind_of hl]
    cases hf <;> simp
  have hresult : ctx.acceptsMembers s.types mode target source =
      (equal || parts.all fun part => ctx.acceptsMember s.types mode target part) := by
    unfold Context.acceptsMembers
    rw [members_of_union hform]
    cases equal with
    | false => rfl
    | true =>
      rw [Bool.true_or, all_eq_true]
      exact fun part hpart => Context.acceptsMember_iff.2 (.inr (.inr ⟨part, hsame rfl part hpart, takes_self⟩))
  rw [hresult]
  refine hlenient.after ((always_resolve hs hsource).after (hequal.orElse (.ite (fun h => absurd rfl h) fun _ => ?_)))
  refine (Always.lookup hhas).after ?_
  rw [hform]
  exact hcounted.after (.allM hparts)

theorem Context.acceptsMembers_of_subset (h : ∀ part ∈ t.members source, part ∈ t.members target) :
    ctx.acceptsMembers t mode target source = true :=
  all_eq_true.2 fun part hpart =>
    acceptsMember_iff.2 (.inr (.inr ⟨part, h part hpart, takes_self⟩))

section
variable (hs : s.Free ctx (room + 1)) (hfree : s.Avoids .superClass)
include hs hfree

theorem always_accepts_atom_union (hform : s.types.lookup source = .union parts) (hsource : s.Single ctx source)
    (ht : s.Atom ctx target) :
    s.Always ctx (·.accepts target source mode) (ctx.acceptsMembers s.types mode target source) := by
  have hne : target ≠ source := by
    rintro rfl
    exact ht.lookup_ne_union hs.types hform
  have hequal := always_equal_atom hs ht hsource
  rw [decide_eq_false hne] at hequal
  have h := always_accepts_of_base hs mode ht hsource hne fun strictNil =>
    always_acceptsBase_union hs hform hsource hequal (fun h => absurd h Bool.false_ne_true) fun part hpart =>
      always_accepts_member hs hfree (.atom ht) (.inr ((hsource.of_union hs.types hform).2 part hpart)) _
  have hkind : (s.types.kind source == .classRef) = false := by
    rw [kind_of hform]
    rfl
  have hmode : ctx.acceptsMembers s.types { mode with strictNil := mode.strictNil || s.types.kind target == .literal }
      target source = ctx.acceptsMembers s.types mode target source := by
    unfold Context.acceptsMembers
    refine congrArg _ (funext fun _ => ?_)
    unfold Context.acceptsMember lets takes
    cases s.types.kind target == .literal <;> simp
  rwa [hkind, Bool.and_false, Bool.or_false, hmode] at h

theorem always_accepts_union_union (htform : s.types.lookup target = .union own) (ht : s.Single ctx target)
    (htnodup : own.Nodup) (hform : s.types.lookup source = .union parts) (hsource : s.Single ctx source) :
    s.Always ctx (·.accepts target source mode) (ctx.acceptsMembers s.types mode target source) := by
  have hatoms := (hsource.of_union hs.types hform).2
  have hmembers : s.types.members source = parts := members_of_union hform
  have hown : s.types.members target = own := members_of_union htform
  by_cases he : target = source
  · rw [acceptsMembers_of_subset (by rw [he]; exact fun _ h => h), he]
    exact always_accepts_self
  -- what is equal has the same members, as none is listed twice
  have hsame : (decide (own.length = (s.types.members source).length) && own.all (s.types.members source).contains) = true →
      ∀ part ∈ parts, part ∈ s.types.members target := by
    intro h
    rw [hmembers, Bool.and_eq_true, all_eq_true] at h
    have hsub : own ⊆ parts := fun x hx => contains_iff_mem.1 (h.2 x hx)
    have hperm := (subperm_of_subset htnodup hsub).perm_of_length_le (of_decide_eq_true h.1).ge
    rw [hown]
    exact fun part hpart => hperm.mem_iff.2 hpart
  have hbase := always_acceptsBase_union hs hform hsource (always_equal_union hs htform ht hsource he) hsame
    fun part hpart => always_accepts_member hs hfree ht (.inr (hatoms part hpart)) mode
  have hany : s.Always ctx (fun S => own.anyM fun part => S.accepts part source mode)
      (own.any (ctx.acceptsMembers s.types mode · source)) :=
    .anyM fun part hpart => always_accepts_atom_union hs hfree hform hsource ((ht.of_union hs.types htform).2 part hpart)
  have hresult : ctx.acceptsMembers s.types mode target source = (ctx.acceptsMembers s.types mode target source ||
      own.any (ctx.acceptsMembers s.types mode · source)) := by
    rw [Bool.eq_iff_iff, Bool.or_eq_true, any_eq_true]
    refine ⟨.inl, ?_⟩
    rintro (h | ⟨part, hpart, h⟩)
    · exact h
    · exact all_eq_true.2 fun z hz =>
        ht.acceptsMember_of_part hs.types htform hpart (all_eq_true.1 h z hz)
  rw [hresult]
  refine .ask (.ite (fun h => absurd h he) fun _ => (Always.lookup (ht.has hs.types)).after ?_)
  rw [htform]
  exact hbase.orM hany

theorem always_accepts (ht : s.Single ctx target)
    (hsource : s.Single ctx source) :
    s.Always ctx (·.accepts target source mode) (ctx.acceptsMembers s.types mode target source) := by
  have hone (hm : source = Ty.any ∨ s.Atom ctx source) :
      s.Always ctx (·.accepts target source mode) (ctx.acceptsMembers s.types mode target source) := by
    unfold Context.acceptsMembers
    rw [Session.members_member hs.types hm, all_cons, all_nil, Bool.and_true]
    exact always_accepts_member hs hfree ht hm mode
  have hsource' := hsource
  cases hsource' with
  | any => exact hone (.inl rfl)
  | atom h => exact hone (.inr h)
  | union hform =>
    have ht' := ht
    cases ht' with
    | any =>
      have htrue : ctx.acceptsMembers s.types mode Ty.any source = true :=
        all_eq_true.2 fun _ _ => Context.acceptsMember_iff.2 (.inl rfl)
      rw [htrue]
      exact always_accepts_any hs hsource
    | atom h => exact always_accepts_atom_union hs hfree hform hsource h
    | union htform htnodup => exact always_accepts_union_union hs hfree htform ht htnodup hform hsource

theorem always_accepts_subsumption (ht : s.Atom ctx target)
    (hsource : s.Atom ctx source) :
    s.Always ctx (·.accepts target source subsumption) (s.types.literalOf target source) := by
  have hresult : ctx.acceptsMember s.types subsumption target source = s.types.literalOf target source := by
    rw [Bool.eq_iff_iff, ht.acceptsMember_iff hs.types]
    simp [lets, subsumption, takes]
  rw [← hresult]
  exact always_accepts_member hs hfree (.atom ht) (.inr hsource) subsumption
end

theorem always_subsumes (hs : s.Free ctx (room + 2)) (hunion : s.Avoids .union) (hfree : s.Avoids .superClass)
    (ht : s.Atom ctx target) (hsource : s.Atom ctx source) :
    s.Always ctx (·.subsumes target source) (s.types.literalOf target source) := by
  refine .guarded hs hunion.not_active ?_
  have hlater : (s.entered (guardKey ctx s .union (.pair target source))).From ctx s := entered_from hs.types
  exact always_accepts_subsumption (hs.entered hunion.not_active)
    (hfree.entered hs hunion.not_active (by simp [guardKey])) (ht.later hs.types hlater) (hsource.later hs.types hlater)

end AnnotatedLua
