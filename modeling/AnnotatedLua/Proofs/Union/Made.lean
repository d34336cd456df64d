/-
Unions of types that are made of some atoms (`TypeTable.MadeOf`). The union of two such types is one again, and holds
the values of both (`ends_union`).
-/
import AnnotatedLua.Proofs.Union.Accept

namespace AnnotatedLua

open Solve Solver TypeTable List

variable {atoms children types : List Ty} {ctx : Context} {s : Session} {neat : Prop} {z b : Ty} {R : Subsumption}

/-! ## Types made of some atoms -/

namespace TypeTable

/-- A type that is `any`, one of the atoms, or a union of several of them. -/
inductive MadeOf (t : TypeTable) (atoms : List Ty) : Ty → Prop
  | any : MadeOf t atoms Ty.any
  | atom {ty} (h : ty ∈ atoms) : MadeOf t atoms ty
  | union {ty parts} (hform : t.lookup ty = .union parts) (hnodup : parts.Nodup)
      (hlen : 1 < parts.length) (hsub : parts ⊆ atoms) : MadeOf t atoms ty

/-- The values of a type: all of them for `any`. -/
def held (t : TypeTable) (ty : Ty) : Set LuaValue := if ty = Ty.any then Set.univ else t.values [ty]

structure Tidy (t : TypeTable) (ty : Ty) : Prop where
  settled : t.literalOf.Settled (t.members ty)
  sorted : t.sortByName (t.members ty) = t.members ty

/-- The type is made of the atoms, and these are its values. If it is to be neat, it is tidy. -/
structure Denotes (t : TypeTable) (atoms : List Ty) (neat : Prop) (ty : Ty) (values : Set LuaValue) : Prop where
  made : t.MadeOf atoms ty
  held : t.held ty = values
  tidy : neat → t.Tidy ty

variable {t t' : TypeTable} {ty : Ty} {value : LuaValue} {values : Set LuaValue}

theorem held_any : t.held Ty.any = Set.univ := if_pos rfl

theorem mem_held (hne : ty ≠ Ty.any) : value ∈ t.held ty ↔ ∃ z ∈ t.members ty, value ∈ t.valuesOf z := by
  unfold held values
  rw [if_neg hne]
  simp

theorem Extends.settled (hx : t.Extends t') (hw : t.WF) {children' : List Ty}
    (h : t.literalOf.Settled children) (hp : children'.Perm children) (hhas : ∀ z ∈ children, t.Has z) :
    t'.literalOf.Settled children' := by
  have hsame {x y : Ty} (hy : t.Has y) : t'.literalOf x y = t.literalOf x y := by
    unfold literalOf
    rw [hx.lookup hy]
  have hcovered {y : Ty} (hy : t.Has y) : t'.literalOf.Covered children' y ↔ t.literalOf.Covered children y :=
    exists_congr fun x => and_congr hp.mem_iff (by rw [hsame hy])
  refine ⟨hp.nodup_iff.2 h.nodup, fun x hx y hy hxy => ?_, fun htrue hfalse => ?_⟩
  · rw [hsame (hhas y (hp.mem_iff.1 hy))] at hxy
    exact h.apart x (hp.mem_iff.1 hx) y (hp.mem_iff.1 hy) hxy
  · rw [hcovered (hw.lookup_builtin Ty.trueLiteral rfl).1] at htrue
    rw [hcovered (hw.lookup_builtin Ty.falseLiteral rfl).1] at hfalse
    rw [hcovered (hw.lookup_builtin Ty.boolean rfl).1]
    exact h.collapsed htrue hfalse

end TypeTable

/-- A session with atoms that are told apart by their names. Nothing is being compared, and two more activities may be
under way. -/
structure Session.Ready (ctx : Context) (s : Session) (atoms : List Ty) : Prop where
  types : s.types.WF
  room : s.guard.depth + 2 ≤ s.guard.limits.depth
  union : s.Avoids .union
  superClass : s.Avoids .superClass
  isAtom : ∀ z ∈ atoms, s.Atom ctx z
  nil : Ty.nil ∈ atoms
  boolean : Ty.boolean ∈ atoms
  names : s.types.NamesApart atoms

structure Session.Over (ctx : Context) (s : Session) (atoms : List Ty) : Prop extends s.Ready ctx atoms where
  uncancelled : ctx.cancellable = false
  requests : Guard.counterMax ≤ s.guard.limits.iterations

theorem Session.Ready.over (hs : s.Ready ctx atoms) :
    (s.unlimited 0).Over ctx.uncancelled atoms :=
  { hs with isAtom := fun z hz => (hs.isAtom z hz).unlimited, uncancelled := rfl, requests := le_refl _ }

namespace Session.Over

variable {u : Session} {ty : Ty} {values : Set LuaValue}

section
variable (hs : s.Over ctx atoms)
include hs

theorem free : s.Free ctx 2 := ⟨hs.types, hs.uncancelled, hs.requests, hs.room⟩

theorem stored : ∀ z ∈ atoms, s.types.Has z := fun z hz => ((hs.isAtom z hz).form hs.types).1

theorem later (hu : u.Past ctx s) : u.Over ctx atoms where
  types := hu.types
  room := (hs.free.later hu).depth
  union := hs.union.later hu
  superClass := hs.superClass.later hu
  isAtom z hz := (hs.isAtom z hz).later hs.types hu.toFrom
  nil := hs.nil
  boolean := hs.boolean
  names := hs.names.extends hu.grown hs.types hu.types hs.stored
  uncancelled := hs.uncancelled
  requests := (hs.free.later hu).requests

theorem single (h : s.types.MadeOf atoms ty) : s.Single ctx ty := by
  cases h with
  | any => exact .any
  | atom h => exact .atom (hs.isAtom ty h)
  | union hform hnodup hlen hsub =>
    exact .union hform hnodup (by rintro rfl; simp at hlen) fun z hz => hs.isAtom z (hsub hz)

theorem made_later (hu : u.Past ctx s) (h : s.types.MadeOf atoms ty) : u.types.MadeOf atoms ty := by
  have hhas := (hs.single h).has hs.types
  cases h with
  | any => exact .any
  | atom h => exact .atom h
  | union hform hnodup hlen hsub => exact .union ((hu.grown.lookup hhas).trans hform) hnodup hlen hsub

/-- The members of a type made of the atoms are `any` alone or among the atoms. -/
theorem member (h : s.types.MadeOf atoms ty) (hz : z ∈ s.types.members ty) :
    (ty = Ty.any ∧ z = Ty.any) ∨ (ty ≠ Ty.any ∧ z ∈ atoms) := by
  cases h with
  | any =>
    rw [hs.types.members_any] at hz
    exact .inl ⟨rfl, mem_singleton.1 hz⟩
  | atom h =>
    rw [(hs.isAtom ty h).members hs.types, mem_singleton] at hz
    exact .inr ⟨((hs.isAtom ty h).ne hs.types).1, hz ▸ h⟩
  | union hform hnodup hlen hsub =>
    rw [members_of_union hform] at hz
    refine .inr ⟨?_, hsub hz⟩
    rintro rfl
    exact hs.types.lookup_any_ne_union hform

theorem names_members (h : s.types.MadeOf atoms ty) : s.types.NamesApart (s.types.members ty) := by
  intro x hx y hy hname
  rcases hs.member h hx with ⟨rfl, rfl⟩ | ⟨hany, hx⟩
  · exact ((hs.member h hy).resolve_right fun h => h.1 rfl).2.symm
  · exact hs.names x hx y ((hs.member h hy).resolve_left fun h => hany h.1).2 hname

theorem tidy_later (hu : u.Past ctx s) (hm : s.types.MadeOf atoms ty) (h : s.types.Tidy ty) : u.types.Tidy ty := by
  have hhas := (hs.single hm).has hs.types
  have hmember : ∀ z ∈ s.types.members ty, s.types.Has z := fun z hz => hs.types.member_has hhas hz
  constructor <;> rw [hu.grown.members hhas]
  · exact hu.grown.settled hs.types h.settled (.refl _) hmember
  · refine (sortByName_eq_of_perm (hs.names_members hm) (fun z hz => ?_) (.refl _)).symm.trans h.sorted
    exact hu.grown.name hs.types hu.types (hmember z hz)

theorem denotes_later (hu : u.Past ctx s) (h : s.types.Denotes atoms neat ty values) :
    u.types.Denotes atoms neat ty values := by
  refine ⟨hs.made_later hu h.made, ?_, fun hneat => hs.tidy_later hu h.made (h.tidy hneat)⟩
  rw [← h.held]
  by_cases hany : ty = Ty.any
  · rw [hany, held_any, held_any]
  ext value
  rw [mem_held hany, mem_held hany, hu.grown.members ((hs.single h.made).has hs.types)]
  refine exists_congr fun z => and_congr_right fun hz => ?_
  rcases hs.member h.made hz with ⟨h, -⟩ | ⟨-, hz⟩
  · exact absurd h hany
  · rw [hu.grown.valuesOf hs.types (hs.stored z hz)]

theorem orders : s.types.literalOf.Orders (s.Atom ctx) :=
  hs.types.literalOf_orders (.primitive .boolean) .trueLiteral .falseLiteral

theorem tidy_any : s.types.Tidy Ty.any := by
  constructor <;> rw [hs.types.members_any]
  · refine ⟨nodup_singleton _, by simp, ?_⟩
    rintro ⟨_, hother, h⟩
    obtain rfl := mem_singleton.1 hother
    simp [literalOf, hs.types.lookup_trueLiteral, FormOf.primitive?] at h
    exact absurd h (by decide)
  · rfl

theorem tidy_atom (h : ty ∈ atoms) : s.types.Tidy ty := by
  have hsingle : s.types.literalOf.insertAll [ty] = [ty] := by
    unfold Subsumption.insertAll Subsumption.insert Subsumption.covers Subsumption.append
    cases hother : otherBoolean? ty <;> simp [hother]
  have hatoms : ∀ z ∈ [ty], s.Atom ctx z := by simpa using hs.isAtom ty h
  constructor <;> rw [(hs.isAtom ty h).members hs.types]
  · rw [← hsingle]
    exact (hs.orders.settled_insertAll hatoms).1
  · rfl
end

end Session.Over

/-! ## Insertion -/

namespace Subsumption

def BooleanClosed (M : Ty → Prop) : Prop := ∀ z, M z → Solver.otherBoolean? z ≠ none → M Ty.boolean

variable {M : Ty → Prop} {member : Ty}

theorem insertPlain_mem (hc : ∀ z ∈ children, M z) (hm : M member) : ∀ z ∈ R.insertPlain children member, M z := by
  unfold insertPlain
  split
  · exact hc
  · exact append_mem hc hm

theorem insert_mem (hboolean : BooleanClosed M) (hc : ∀ z ∈ children, M z) (hm : M member) :
    ∀ z ∈ R.insert children member, M z := by
  unfold insert
  split
  · exact hc
  · split
    · split
      · exact insertPlain_mem (fun z hz => hc z (mem_of_mem_erase hz)) (hboolean member hm (by simp [*]))
      · exact append_mem hc hm
    · exact append_mem hc hm

theorem insertAll_mem (hboolean : BooleanClosed M) (ht : ∀ z ∈ types, M z) : ∀ z ∈ R.insertAll types, M z := by
  have hfold : ∀ (rest children : List Ty), (∀ z ∈ rest, M z) → (∀ z ∈ children, M z) →
      ∀ z ∈ rest.foldl R.insert children, M z := by
    intro rest
    induction rest with
    | nil => exact fun _ _ hc => hc
    | cons member rest ih =>
      intro _ hrest hc
      obtain ⟨hm, hrest⟩ := forall_mem_cons.1 hrest
      exact ih _ hrest (insert_mem hboolean hc hm)
  exact hfold types [] ht (by simp)

end Subsumption

section
variable {M : Ty → Prop} {member : Ty} (hR : ∀ x y, M x → M y → x ≠ y → s.Always ctx (·.subsumes x y) (R x y))
include hR

section
variable (hc : ∀ z ∈ children, M z) (hm : M member)
include hc hm

theorem always_covers :
    s.Always ctx (·.covers children member) (R.covers children member) := by
  unfold Solver.covers Subsumption.covers
  refine .ite (fun h => ?_) fun h => ?_
  · rw [h]
    exact .pure true
  · rw [Bool.eq_false_iff.2 h, Bool.false_or]
    exact .anyM fun child hchild => hR child member (hc child hchild) hm fun he => h (contains_iff_mem.2 (he ▸ hchild))

theorem always_appendMember (hnew : ¬ R.covers children member = true) :
    s.Always ctx (·.appendMember children member) (R.append children member) := by
  have hkept : s.Always ctx (fun S => children.filterM fun child => return !(← S.subsumes member child))
      (children.filter fun child => !R member child) :=
    .filterM fun child hchild =>
      .after (f := fun _ b => pure !b) (hR member child hm (hc child hchild) fun he =>
        hnew (Subsumption.covers_iff.2 (.of_mem (he ▸ hchild)))) (.pure _)
  exact hkept.after (.pure _)

theorem always_insertPlain :
    s.Always ctx (·.insertPlain children member) (R.insertPlain children member) := by
  unfold Solver.insertPlain Subsumption.insertPlain
  refine (always_covers hR hc hm).after ?_
  split
  · exact .pure children
  · exact always_appendMember hR hc hm ‹_›

theorem always_insertMember (hboolean : Subsumption.BooleanClosed M) :
    s.Always ctx (·.insertMember children member) (R.insert children member) := by
  unfold Solver.insertMember Subsumption.insert
  refine (always_covers hR hc hm).after ?_
  split
  · exact .pure children
  · cases hother : otherBoolean? member with
    | none => exact always_appendMember hR hc hm ‹_›
    | some =>
      dsimp only
      split
      · exact always_insertPlain hR (fun z hz => hc z (mem_of_mem_erase hz)) (hboolean member hm (by simp [hother]))
      · exact always_appendMember hR hc hm ‹_›
end

theorem always_foldlM_insert (hboolean : Subsumption.BooleanClosed M) (hc : ∀ z ∈ children, M z)
    (ht : ∀ z ∈ types, M z) :
    s.Always ctx (fun S => types.foldlM S.insertMember children) (types.foldl R.insert children) := by
  induction types generalizing children with
  | nil => exact .pure children
  | cons member rest ih =>
    obtain ⟨hm, hrest⟩ := forall_mem_cons.1 ht
    exact (always_insertMember hR hc hm hboolean).after (ih (Subsumption.insert_mem hboolean hc hm) hrest)

theorem ends_unionAll_insertAll (hw : s.types.WF) (hboolean : Subsumption.BooleanClosed M)
    (hstored : ∀ z, M z → s.types.Has z) (ht : ∀ z ∈ s.types.flat types, M z)
    (habsorbs : s.types.absorbs (s.types.flat types) = false) :
    s.Ends ctx (·.unionAll types) fun r u => ∃ v : Session, v.Past ctx s ∧
      r = (v.types.unionOf (R.insertAll (s.types.flat types))).1 ∧
      u.types = (v.types.unionOf (R.insertAll (s.types.flat types))).2 := by
  have hinsert : s.Always ctx (fun S => (s.types.flat types).foldlM S.insertMember [])
      (R.insertAll (s.types.flat types)) := always_foldlM_insert hR hboolean (by simp) ht
  have hmem := Subsumption.insertAll_mem (R := R) hboolean ht
  have hall : s.Ends ctx (fun S => (s.types.flat types).foldlM S.insertMember [] >>= unionOf) fun r u =>
      ∃ v : Session, v.Past ctx s ∧ r = (v.types.unionOf (R.insertAll (s.types.flat types))).1 ∧
        u.types = (v.types.unionOf (R.insertAll (s.types.flat types))).2 := by
    refine hinsert.before (f := fun _ => unionOf) hw fun v hv => ?_
    obtain ⟨hw', -⟩ := hv.types.unionOf_stored fun z hz => hv.grown.has (hstored z (hmem z hz))
    rw [unionOf_eq_store]
    exact (ends_store (v.types.unionOf_extends _) hw').imp fun r u _ h => ⟨v, hv, h⟩
  obtain ⟨N, r, u, hr, hu, hQ⟩ := hall
  exact ⟨N, r, u, fun n hn => (unionAll_inserted habsorbs).trans (hr n hn), hu, hQ⟩
end

/-! ## Unions of types made of the atoms -/

namespace Session.Over

section
variable (hs : s.Over ctx atoms)
include hs

theorem denotes_unionOf (hsettled : s.types.literalOf.Settled children)
    (hsub : ∀ z ∈ children, z ∈ atoms) (hne : children ≠ []) :
    (s.types.unionOf children).2.Denotes atoms True (s.types.unionOf children).1
      { value | ∃ z ∈ children, value ∈ s.types.valuesOf z } := by
  have hhas : ∀ z ∈ children, s.types.Has z := fun z hz => hs.stored z (hsub z hz)
  rcases children with _ | ⟨a, _ | ⟨b, rest⟩⟩
  · exact absurd rfl hne
  · have hatom := hs.isAtom a (hsub a (by simp))
    refine ⟨.atom (hsub a (by simp)), ?_, fun _ => hs.tidy_atom (hsub a (by simp))⟩
    ext value
    show value ∈ s.types.held a ↔ _
    rw [mem_held (hatom.ne hs.types).1, hatom.members hs.types]
    rfl
  · obtain ⟨hw', -, hform⟩ := hs.types.unionOf hhas (hs.names.subset hsub) hsettled.nodup (by simp)
    have hperm := s.types.sortByName_perm (a :: b :: rest)
    have hx := unionOf_extends s.types (a :: b :: rest)
    generalize (s.types.unionOf (a :: b :: rest)).1 = r at hform
    generalize (s.types.unionOf (a :: b :: rest)).2 = t at hw' hform hx
    have hmembers := members_of_union hform
    refine ⟨.union hform (hperm.nodup_iff.2 hsettled.nodup) ?_ fun z hz => hsub z (hperm.mem_iff.1 hz), ?_, fun _ => ?_⟩
    · rw [hperm.length_eq]
      simp
    · ext value
      rw [mem_held (by rintro rfl; exact hw'.lookup_any_ne_union hform), hmembers]
      refine exists_congr fun z => ?_
      rw [hperm.mem_iff]
      exact and_congr_right fun hz => by rw [hx.valuesOf hs.types (hhas z hz)]
    · constructor <;> rw [hmembers]
      · exact hx.settled hs.types hsettled hperm hhas
      · exact (sortByName_eq_of_perm (hs.names.subset hsub) (fun z hz => hx.name hs.types hw' (hhas z hz))
          hperm.symm).symm

/-- A type made of the atoms is not `void`. -/
theorem not_void {ty : Ty} (h : s.types.MadeOf atoms ty) : ty.isVoid = false := by
  have hform := (hs.single h).kind_mem hs.types
  refine beq_eq_false_iff_ne.2 ?_
  rintro rfl
  unfold TypeTable.kind at hform
  rw [(hs.types.lookup_builtin Ty.void rfl).2, show TypeTable.initial.lookup Ty.void = .void by decide] at hform
  simp at hform

theorem exists_member {ty : Ty} (h : s.types.MadeOf atoms ty) : ∃ z, z ∈ s.types.members ty := by
  cases h with
  | any => exact ⟨Ty.any, by simp [hs.types.members_any]⟩
  | atom h => exact ⟨ty, by simp [(hs.isAtom ty h).members hs.types]⟩
  | union hform =>
    rw [members_of_union hform]
    exact exists_mem_of_length_pos (by omega)

variable (htypes : ∀ ty ∈ types, s.types.MadeOf atoms ty)
include htypes

theorem mem_flat : z ∈ s.types.flat types ↔ ∃ ty ∈ types, z ∈ s.types.members ty := by
  simp only [flat, mem_filter, mem_flatMap, Bool.not_eq_true']
  refine and_iff_left_of_imp ?_
  rintro ⟨ty, hty, hz⟩
  rcases hs.member (htypes ty hty) hz with ⟨-, rfl⟩ | ⟨-, hz⟩
  · rfl
  · exact hs.not_void (.atom hz)

/-- Types made of the atoms are absorbed just by `any`. -/
theorem absorbs_iff : s.types.absorbs (s.types.flat types) = true ↔ Ty.any ∈ types := by
  have hresults : (s.types.flat types).any (s.types.kind · == .results) = false := by
    rw [any_eq_false]
    intro z hz
    obtain ⟨ty, hty, hz⟩ := (hs.mem_flat htypes).1 hz
    have hsingle : s.Single ctx z := .of_member (((hs.single (htypes ty hty)).member hs.types hz).imp (·.2) id)
    simpa using hsingle.kind_ne hs.types
  unfold absorbs
  rw [hresults, Bool.not_false, Bool.true_and, any_eq_true]
  constructor
  · rintro ⟨z, hz, hany⟩
    obtain rfl : z = Ty.any := by simpa [Ty.isAny] using hany
    obtain ⟨ty, hty, hz⟩ := (hs.mem_flat htypes).1 hz
    rcases hs.member (htypes ty hty) hz with ⟨rfl, -⟩ | ⟨-, hatom⟩
    · exact hty
    · exact absurd rfl ((hs.isAtom _ hatom).ne hs.types).1
  · exact fun hmem => ⟨Ty.any, (hs.mem_flat htypes).2 ⟨_, hmem, by simp [hs.types.members_any]⟩, rfl⟩

theorem ends_unionAll (hne : types ≠ []) : s.Ends ctx (·.unionAll types) fun r u =>
    u.types.Denotes atoms True r { value | ∃ ty ∈ types, value ∈ s.types.held ty } := by
  by_cases hany : Ty.any ∈ types
  · refine ⟨0, Ty.any, s, fun _ _ => unionAll_absorbed ((hs.absorbs_iff htypes).2 hany), .of_wf hs.types,
      .any, ?_, fun _ => hs.tidy_any⟩
    rw [held_any]
    refine (Set.eq_univ_of_forall fun value => ?_).symm
    exact ⟨Ty.any, hany, by rw [held_any]; trivial⟩
  have hmem {z : Ty} := hs.mem_flat htypes (z := z)
  have habsorbs : s.types.absorbs (s.types.flat types) = false := by
    rwa [← Bool.not_eq_true, hs.absorbs_iff htypes]
  have hnot {ty : Ty} (hty : ty ∈ types) : ty ≠ Ty.any := fun h => hany (h ▸ hty)
  have hflat : ∀ z ∈ s.types.flat types, z ∈ atoms := by
    intro z hz
    obtain ⟨ty, hty, hz⟩ := hmem.1 hz
    exact (hs.member (htypes ty hty) hz).elim (fun h => absurd h.1 (hnot hty)) (·.2)
  have hatoms : ∀ z ∈ s.types.flat types, s.Atom ctx z := fun z hz => hs.isAtom z (hflat z hz)
  refine (ends_unionAll_insertAll (M := (· ∈ atoms)) (fun x y hx hy _ =>
    always_subsumes hs.free hs.union hs.superClass (hs.isAtom x hx) (hs.isAtom y hy)) hs.types
    (fun _ _ _ => hs.boolean) hs.stored hflat habsorbs).imp ?_
  rintro r u - ⟨v, hv, rfl, hu⟩
  rw [hu]
  have hchildren := Subsumption.insertAll_mem (R := s.types.literalOf) (M := (· ∈ atoms)) (fun _ _ _ => hs.boolean) hflat
  have hsettled := hv.grown.settled hs.types (hs.orders.settled_insertAll hatoms).1 (.refl _)
    fun z hz => hs.stored z (hchildren z hz)
  have hne : s.types.literalOf.insertAll (s.types.flat types) ≠ [] := by
    obtain ⟨ty, hty⟩ := exists_mem_of_ne_nil _ hne
    obtain ⟨z, hz⟩ := hs.exists_member (htypes ty hty)
    have hz' := hmem.2 ⟨ty, hty, hz⟩
    obtain ⟨y, hy, -⟩ := (hs.orders.covered_insertAll hatoms (hatoms z hz')).2 (.inl (.of_mem hz'))
    exact ne_nil_of_mem hy
  have hdenotes := (hs.later hv).denotes_unionOf hsettled hchildren hne
  have hvalues : { value | ∃ z ∈ s.types.literalOf.insertAll (s.types.flat types), value ∈ v.types.valuesOf z } =
      { value | ∃ ty ∈ types, value ∈ s.types.held ty } := by
    ext value
    have hgrown : (∃ z ∈ s.types.literalOf.insertAll (s.types.flat types), value ∈ v.types.valuesOf z) ↔
        ∃ z ∈ s.types.literalOf.insertAll (s.types.flat types), value ∈ s.types.valuesOf z :=
      exists_congr fun z => and_congr_right fun hz => by rw [hv.grown.valuesOf hs.types (hs.stored z (hchildren z hz))]
    refine (hgrown.trans (values_insertAll hs.types hatoms value)).trans ⟨?_, ?_⟩
    · rintro ⟨z, hz, hvalue⟩
      obtain ⟨ty, hty, hz⟩ := hmem.1 hz
      exact ⟨ty, hty, (mem_held (hnot hty)).2 ⟨z, hz, hvalue⟩⟩
    · rintro ⟨ty, hty, hvalue⟩
      obtain ⟨z, hz, hvalue⟩ := (mem_held (hnot hty)).1 hvalue
      exact ⟨z, hmem.2 ⟨ty, hty, hz⟩, hvalue⟩
  rwa [hvalues] at hdenotes

omit htypes

theorem ends_union {a : Ty} {va vb : Set LuaValue} (ha : s.types.Denotes atoms neat a va)
    (hb : s.types.Denotes atoms neat b vb) :
    s.Ends ctx (·.union a b) fun r u => u.types.Denotes atoms neat r (va ∪ vb) := by
  by_cases he : a = b
  · have hsame : va ∪ vb = va := by rw [← ha.held, ← hb.held, he, Set.union_self]
    refine .early hs.types ?_ fun h => absurd he h
    rwa [hsame]
  refine .ite (fun h => absurd h he) fun _ => ?_
  rw [hs.not_void ha.made, hs.not_void hb.made]
  refine .ite (fun h => absurd h Bool.false_ne_true) fun _ => .ite (fun h => absurd h Bool.false_ne_true) fun _ => ?_
  have htypes : ∀ ty ∈ [a, b], s.types.MadeOf atoms ty := by simp [ha.made, hb.made]
  have hvalues : { value | ∃ ty ∈ [a, b], value ∈ s.types.held ty } = va ∪ vb := by
    ext value
    simp [ha.held, hb.held]
  refine (hs.ends_unionAll htypes (by simp)).imp fun r u _ h => ?_
  exact ⟨h.made, h.held.trans hvalues, fun _ => h.tidy trivial⟩

theorem ends_unionWith {acc : Option Ty} {va : Option (Set LuaValue)} {vb : Set LuaValue}
    (ha : Option.Rel (s.types.Denotes atoms neat) acc va) (hb : s.types.Denotes atoms neat b vb) :
    s.Ends ctx (·.unionWith acc b) fun r u => u.types.Denotes atoms neat r (va.getD ∅ ∪ vb) := by
  cases ha with
  | some ha => exact hs.ends_union ha hb
  | none =>
    refine .pure hs.types ?_
    rwa [Option.getD_none, Set.empty_union]
end

end Session.Over

end AnnotatedLua
