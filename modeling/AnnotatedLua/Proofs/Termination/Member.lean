/-
Walks over members come to an end, if comparisons of indexes do (`ends_visitMembers`). A walk goes up the superclasses
of a type, which may lead back to where they started, since no name is met twice.
-/
import AnnotatedLua.Proofs.Termination.Resolve
import Mathlib.Data.Finset.Card

namespace AnnotatedLua

open Solve Solver List Session

variable {top h k room : Nat} {u : Session} {σ : Type} {decl : ClassDecl} {ty : Ty} {deep : Bool} {seen : List Member}
  {M : Member → Session → Prop}

section
variable {ctx : Context} {c : Heights} {s : Session} (hs : s.Measured ctx c)

include hs in
theorem ends_classNamed (name : String) (marks : Marks) :
    s.Ends ctx (fun _ => store (.classNamed name marks)) fun r u => u.types.Sized c r (c name + 3) := by
  obtain ⟨hsymbol, htext⟩ := s.types.internText_text name
  have hw := hs.types.internText name
  have hx := (s.types.internText name).2.intern_extends (.classRef (s.types.internText name).1 marks)
  have hform : (s.types.internText name).2.Holds (.classRef (s.types.internText name).1 marks) :=
    ⟨nofun, by simpa using hsymbol⟩
  have hact : Interning.classNamed name marks s.types =
      (s.types.internText name).2.intern (.classRef (s.types.internText name).1 marks) := rfl
  refine (ends_store (hact ▸ (s.types.internText_extends name).trans hx) (hact ▸ hw.intern hform)).imp ?_
  rintro r u - ⟨rfl, hu⟩
  rw [hu, hact]
  refine .classRef (TypeTable.lookup_of_form (TypeTable.intern_form _ _)) ?_
  rw [hx.text hsymbol, htext]

/-! ## Superclasses -/

theorem card_sdiff_cons_lt {α : Type} [DecidableEq α] {A : Finset α} {a : α} {seen : List α} (ha : a ∈ A) (hnew : a ∉ seen) :
    (A \ (a :: seen).toFinset).card < (A \ seen.toFinset).card := by
  refine Finset.card_lt_card (Finset.ssubset_iff_of_subset ?_ |>.2 ⟨a, by simp [ha, hnew], by simp⟩)
  exact Finset.sdiff_subset_sdiff (Finset.Subset.refl _) (by simp)

def Session.DeclaredSuper (ctx : Context) (s : Session) (ty : Ty) : Prop :=
  ∃ name decl, s.classOf ctx name = some decl ∧ decl.superClass = some ty

theorem Session.Past.declaredSuper (hu : u.Past ctx s) : u.DeclaredSuper ctx = s.DeclaredSuper ctx := by
  unfold Session.DeclaredSuper
  rw [hu.classes]

variable {name : Symbol}

theorem Session.classOf_of_seen (h : s.classSeen ctx name = some decl) : s.classOf ctx name = some decl := by
  unfold classSeen at h
  split at h
  · cases h
  · exact h

theorem ends_superClass_table (hw : s.types.WF) : s.Ends ctx (·.superClass Ty.table) fun r u => s = u ∧ r = none := by
  refine .ask rfl ((ends_lookup_table hw).bind ?_)
  rintro _ _ - ⟨rfl, rfl⟩
  exact .pure hw ⟨rfl, rfl⟩

include hs in
theorem ends_superClass (hty : s.types.Sized c ty h) :
    s.Ends ctx (·.superClass ty) fun r u => ∀ next, r = some next → u.types.Sized c next h ∧
      (s.DeclaredSuper ctx next ∨ u.types.Sized c next (h - 1)) := by
  refine .ask rfl (.lookup hs.types ty fun form hform => ?_)
  cases form with
  | literal kind =>
    have hle := hty.literal_le hform.symm
    refine .pure hs.types ?_
    rintro next ⟨⟩
    have hsized := hs.types.sized_primitive (c := c) kind
    exact ⟨hsized.mono (by omega), .inr (hsized.mono (by omega))⟩
  | classRef name =>
    have hle := hty.name hform.symm
    refine (ends_classDecl hs.types name).bind fun found u hu hfound => ?_
    cases hb : found.bind ClassDecl.superClass with
    | some super =>
      obtain ⟨decl, rfl, hsuper⟩ := Option.bind_eq_some_iff.1 hb
      have hclass := classOf_of_seen hfound.symm
      refine .pure hu.types ?_
      rintro next ⟨⟩
      have hsized := hs.sized hu ((hs.classes name decl hclass).2.superClass super hsuper)
      exact ⟨hsized.mono hle, .inl ⟨name, decl, hclass, hsuper⟩⟩
    | none =>
      refine (ends_ofTypes hu.types (Q := fun r v => u = v ∧ r = u.types.text name) ⟨rfl, rfl⟩).bind ?_
      rintro _ _ - ⟨rfl, rfl⟩
      have hsymbol : s.types.HasSymbol name := hs.types.hasSymbol (by rw [← hform]; exact mem_singleton.2 rfl)
      rw [hu.grown.text hsymbol]
      cases ho : Text.beforeEnding? selfEnding (s.types.text name) with
      | none => exact .pure hu.types nofun
      | some owner =>
        have hlt := hs.receivers _ _ ho
        refine (ends_classNamed (hs.later hu) owner Marks.none).bind fun r v hv hsized => .pure hv.types ?_
        rintro next ⟨⟩
        exact ⟨hsized.mono (by omega), .inr (hsized.mono (by omega))⟩
  | param =>
    refine .pure hs.types ?_
    rintro next rfl
    have hpart := hty.part (p := next) (by rw [← hform]; simp)
    exact ⟨hpart.mono (by omega), .inr hpart⟩
  | generic base args =>
    obtain rfl := hty.tabular base args hform.symm
    refine (ends_superClass_table hs.types).bind ?_
    rintro _ _ - ⟨rfl, rfl⟩
    exact .pure hs.types nofun
  | _ => exact .pure hs.types nofun

/-! ## What a type is like -/

theorem ends_isShape_table (hw : s.types.WF) : s.Ends ctx (·.isShape Ty.table) fun r _ => r = false := by
  refine .ask rfl ((ends_lookup_table hw).bind ?_)
  rintro _ _ - ⟨rfl, rfl⟩
  exact .pure hw rfl

section
variable (hB : s.Under ctx c room)
include hs hB

theorem ends_isShape (hty : s.types.Sized c ty h) :
    s.Ends ctx (·.isShape ty) fun r _ => r = true → s.types.kind ty = .classRef := by
  induction h using Nat.strong_induction_on generalizing s ty with
  | _ h ih =>
    refine .ask rfl (.lookup hs.types ty fun form hform => ?_)
    have hkind := TypeTable.kind_of hform.symm
    cases form with
    | classRef name =>
      refine (ends_resolve hs hB hty).bind fun r u hu hlower => ?_
      refine .ite (fun _ => ?_) fun hne => ?_
      · exact (ends_classMarks hu.types ty).bind fun _ v hv _ => .pure hv.types fun _ => hkind
      · have := hty.name hform.symm
        refine (ih (h - 1) (by omega) (hs.later hu) (hB.later hu)
          ((hlower.resolve_left hne).sized (by rw [hkind]; nofun))).imp fun _ _ _ _ _ => hkind
    | generic base args =>
      obtain rfl := hty.tabular base args hform.symm
      exact (ends_isShape_table hs.types).imp fun r _ _ hfalse htrue => by simp [hfalse] at htrue
    | _ => exact .pure hs.types nofun

theorem ends_signaturesOf (hty : s.types.Sized c ty h) :
    s.Ends ctx (·.signaturesOf ty) fun r u =>
      ∀ signature ∈ r, 2 ≤ h ∧ ∀ p ∈ signature.parts, u.types.Sized c p (h - 1) := by
  induction h using Nat.strong_induction_on generalizing s ty with
  | _ h ih =>
    refine .ask rfl (.lookup hs.types ty fun form hform => ?_)
    have hkind := TypeTable.kind_of hform.symm
    have hnext {u : Session} (hu : u.Past ctx s) {r : Ty} (h3 : 3 ≤ h) (hr' : u.types.Sized c r (h - 1)) :
        u.Ends ctx (·.signaturesOf r) fun r v =>
          ∀ signature ∈ r, 2 ≤ h ∧ ∀ p ∈ signature.parts, v.types.Sized c p (h - 1) :=
      (ih (h - 1) (by omega) (hs.later hu) (hB.later hu) hr').imp fun r v _ hparts signature hsignature =>
        ⟨by omega, fun p hp => ((hparts signature hsignature).2 p hp).mono (by omega)⟩
    cases form with
    | function =>
      have h2 := hty.two_le (by rw [hkind]; simp)
      refine .pure hs.types fun signature hsignature => ⟨h2, fun p hp => hty.part ?_⟩
      rw [← hform]
      simp only [FormOf.parts, mem_flatMap, mem_cons]
      rcases mem_append.1 hsignature with hm | hm
      · exact ⟨signature, .inr hm, hp⟩
      · exact ⟨signature, .inl (mem_singleton.1 hm), hp⟩
    | classRef name =>
      have hle := hty.name hform.symm
      refine (ends_resolve hs hB hty).bind fun r u hu hlower => ?_
      refine .ite (fun hne => hnext hu (by omega) ((hlower.resolve_left hne).sized (by rw [hkind]; simp))) fun _ => ?_
      refine (ends_classDecl hu.types name).bind fun found v hv hfound => .pure hv.types fun signature hsignature => ?_
      have hv := hu.trans hv
      rw [hu.classSeen] at hfound
      cases found with
      | none => cases hsignature
      | some decl =>
        obtain ⟨k, _, hsized⟩ := (hs.classes name decl (classOf_of_seen hfound.symm)).2.unfolded
        refine ⟨by omega, fun p hp => hs.sized hv ((hsized p ?_).mono (by omega))⟩
        exact mem_append_left _ (mem_flatMap.2 ⟨signature, hsignature, hp⟩)
    | aliasRef name params target =>
      have h2 := hty.two_le (by rw [hkind]; simp)
      refine (ends_resolve hs hB hty).bind fun r u hu hlower => ?_
      refine .early hu.types (by simp) fun hne => hnext hu ?_ ((hlower.resolve_left hne).sized ?_)
      · have := (hty.part_compound (p := target) (by rw [hkind]; simp) (by rw [← hform]; simp)).1.pos
        omega
      · rw [hkind]
        simp
    | _ => exact .pure hs.types (by simp)
end

theorem ends_genericBaseParams_table (hw : s.types.WF) :
    s.Ends ctx (·.genericBaseParams Ty.table) fun r _ => r = [] := by
  refine (ends_lookup_table hw).bind ?_
  rintro _ _ - ⟨rfl, rfl⟩
  refine .ask rfl ((ends_lookup_table hw).bind ?_)
  rintro _ _ - ⟨rfl, rfl⟩
  exact .pure hw rfl

include hs in
/-- `table` has no parameters, so nothing is put in for the members of a type. -/
theorem ends_memberSubstitution (hty : s.types.Sized c ty h) :
    s.Ends ctx (·.memberSubstitution ty) fun r _ => r = none := by
  obtain ⟨room, hroom⟩ : ∃ room, s.room = room := ⟨_, rfl⟩
  induction room using Nat.strong_induction_on generalizing s ty with
  | _ room ih =>
    refine .ask rfl ((ends_withGuard (Q := fun r => r = none) hs.types .memberSubstitution (.type ty) fun g hg => ?_).bind
      fun r u hu hr => .pure hu.types ?_)
    · have hs := hs.setGuard g
      refine .lookup hs.types ty fun form hform => ?_
      refine (ends_superClass hs hty).bind fun super u hu hsuper => ?_
      have hinherited (type : Ty) (htype : super = some type) :
          u.Ends ctx (·.memberSubstitution type) fun r _ => r = none :=
        ih _ (by rw [hu.room, ← hroom]; exact hg) (hs.later hu) (hsuper type htype).1 rfl
      cases form with
      | generic base args =>
        obtain rfl := hty.tabular base args hform.symm
        have hrest {v : Session} (hw : v.types.WF) : v.Ends ctx (fun S => do
            let params ← S.genericBaseParams Ty.table
            if params.isEmpty then return none
            let bindings ← ofTypes (Bindings.ofArgs · params args)
            return some ((none : Option (List Substitution)).getD [] ++ [.params bindings])) fun r _ => r = none := by
          refine (ends_genericBaseParams_table hw).bind ?_
          rintro _ w hw' rfl
          exact .pure hw'.types rfl
        cases super with
        | none => exact hrest hu.types
        | some super =>
          refine (hinherited super rfl).bind ?_
          rintro _ v hv rfl
          exact hrest hv.types
      | _ =>
        cases super with
        | none => exact .pure hu.types rfl
        | some super =>
          refine (hinherited super rfl).bind ?_
          rintro _ v hv rfl
          exact .pure hv.types rfl
    · cases r with
      | none => rfl
      | some r => rw [hr r rfl]; rfl

include hs in
theorem ends_memberType (hty : s.types.Sized c ty h) (member : Member) :
    s.Ends ctx (·.memberType ty member) fun r _ => r = member.type.getD Ty.any := by
  unfold Solver.memberType
  cases member.type with
  | none => exact .pure hs.types rfl
  | some =>
    refine (ends_memberSubstitution hs hty).bind ?_
    rintro _ u hu rfl
    exact .pure hu.types rfl

/-! ## Going up the superclasses -/

def Session.superNames (ctx : Context) (s : Session) : Finset String :=
  ((range s.types.symbols.size).filterMap fun i =>
    ((s.classOf ctx ⟨i⟩).bind ClassDecl.superClass).map s.types.name).toFinset

include hs in
theorem Session.DeclaredSuper.mem_superNames (h : s.DeclaredSuper ctx ty) :
    s.types.Has ty ∧ s.types.name ty ∈ s.superNames ctx := by
  obtain ⟨name, decl, hclass, hsuper⟩ := h
  obtain ⟨hsymbol, hdecl⟩ := hs.classes name decl hclass
  refine ⟨(hdecl.superClass ty hsuper).has, mem_toFinset.2 (mem_filterMap.2 ⟨name.index, ?_, ?_⟩)⟩
  · exact mem_range.2 hsymbol
  · simp [hclass, hsuper]

section
variable {visit : Solver → σ → Ty → Solve (σ × Bool)} {J : σ → Session → Prop} (hJ : s.Lasting ctx J)
  (hvisit : ∀ u : Session, u.Past ctx s → ∀ state next, J state u → u.types.Sized c next top → u.Ends ctx (fun S => visit S state next) fun r v => J r.1 v)
include hs hJ hvisit

theorem ends_visitSupersFrom {n : Nat} (hh : h ≤ top) (hu : u.Past ctx s) {current : Ty}
    (hcurrent : u.types.Sized c current h) {seen : List String} (hn : (s.superNames ctx \ seen.toFinset).card ≤ n)
    {state : σ} (hstate : J state u) (j : Nat) :
    u.Ends ctx (fun S => S.visitSupersFrom (visit S) (S.budget - j) current seen state) fun r v => J r.1 v := by
  induction n using Nat.strong_induction_on generalizing h u current seen state j with
  | _ n ihn =>
    induction h using Nat.strong_induction_on generalizing u current seen state j with
    | _ h ih =>
      refine ends_budget (F := fun S k => S.visitSupersFrom (visit S) k current seen state) ?_
      refine (ends_superClass (hs.later hu) hcurrent).bind fun super u1 hu1 hsuper => ?_
      have hstate1 := hJ state u u1 hu hu1 hstate
      have hu1 := hu.trans hu1
      cases super with
      | none => exact .pure hu1.types hstate1
      | some next =>
        obtain ⟨hnext, hlower⟩ := hsuper next rfl
        refine (ends_isCanceled hu1.types).bind fun _ u2 hu2 _ => ?_
        have hstate2 := hJ state u1 u2 hu1 hu2 hstate1
        have hnext2 := (hs.later hu1).sized hu2 hnext
        have hu2' := hu1.trans hu2
        refine .early hu2'.types hstate2 fun _ => ?_
        refine (ends_name hu2'.types hnext2.has).bind fun _ u3 hu3 hname => ?_
        have hstate3 := hJ state u2 u3 hu2' hu3 hstate2
        have hnext3 := (hs.later hu2').sized hu3 hnext2
        have hu3' := hu2'.trans hu3
        refine .early hu3'.types hstate3 fun hseen => ?_
        refine (hvisit u3 hu3' state next hstate3 (hnext3.mono hh)).bind ?_
        rintro ⟨_, _⟩ u4 hu4 hstate4
        have hu4' := hu3'.trans hu4
        refine .ite (fun _ => ?_) fun _ => .pure hu4'.types hstate4
        have hnext4 := (hs.later hu3').sized hu4 hnext3
        rw [hu.declaredSuper] at hlower
        rcases hlower with hdeclared | hlower
        · -- one name less is left
          obtain ⟨hhas, hmem⟩ := hdeclared.mem_superNames hs
          rw [hu2'.grown.name hs.types hu2'.types hhas] at hname
          have hless := card_sdiff_cons_lt (hname ▸ hmem) (mt contains_iff_mem.2 hseen)
          exact ihn _ (hless.trans_le hn) hh hu4' hnext4 (le_refl _) hstate4 (j + 1)
        · have hpos := hcurrent.pos
          refine ih (h - 1) (by omega) (by omega) hu4' ((hs.later hu1).sized ((hu2.trans hu3).trans hu4) hlower)
            (le_trans (Finset.card_le_card ?_) hn) hstate4 (j + 1)
          exact Finset.sdiff_subset_sdiff (Finset.Subset.refl _) (by simp)

theorem ends_visitSupers (hty : s.types.Sized c ty top) {state : σ} (hstate : J state s) :
    s.Ends ctx (fun S => S.visitSupers (visit S) ty state) fun r v => J r.1 v := by
  refine (ends_name hs.types hty.has).bind fun _ u hu _ => ?_
  exact ends_visitSupersFrom hs hJ hvisit (le_refl _) hu (hs.sized hu hty) (le_refl _)
    (hJ state s u (.of_wf hs.types) hu hstate) 0
end

/-! ## Walks -/

structure Session.Shows (ctx : Context) (c : Heights) (s : Session) (top k : Nat) (M : Member → Session → Prop) :
    Prop where
  lasting : s.Lasting ctx M
  sized : ∀ u : Session, u.Past ctx s → ∀ member, M member u → u.types.SizedMember c k member
  own : ∀ u : Session, u.Past ctx s → ∀ name decl, u.classOf ctx name = some decl → c (u.types.text name) + 3 ≤ top →
    ∀ member ∈ decl.members, M member u

def Session.ShowsTables (ctx : Context) (c : Heights) (s : Session) (top : Nat) (M : Member → Session → Prop) : Prop :=
  ∀ u : Session, u.Past ctx s → ∀ ty key value, u.types.Sized c ty top → u.types.lookup ty = .generic Ty.table [key, value] →
    M (Member.indexed key value) u ∧
      ∀ name, u.types.HasSymbol name → M { Member.indexed key value with key := .field name } u

def Session.Visits (ctx : Context) (s : Session) (M : Member → Session → Prop) {σ : Type} (visit : Solver → Visitor σ)
    (J : σ → Session → Prop) : Prop :=
  ∀ u : Session, u.Past ctx s → ∀ state member, J state u → M member u →
    u.Ends ctx (fun S => visit S state member) fun r v => J r.1 v

def Session.Walks (ctx : Context) (c : Heights) (s : Session) (M : Member → Session → Prop) (deep : Bool) (h : Nat)
    (walk : Solver → Walker) : Prop :=
  ∀ u : Session, u.Past ctx s → ∀ {σ : Type} {visit : Solver → Visitor σ} {J : σ → Session → Prop}, u.Lasting ctx J →
    u.Visits ctx M visit J → ∀ ty, u.types.Sized c ty h → ∀ visited state, J state u →
      u.Ends ctx (fun S => walk S (visit S) deep ty visited state) fun w v => J w.state v

section
variable (hu : u.Past ctx s)
include hu

theorem Session.Shows.later (h : s.Shows ctx c top k M) : u.Shows ctx c top k M :=
  ⟨h.lasting.later hu, fun v hv => h.sized v (hu.trans hv), fun v hv => h.own v (hu.trans hv)⟩

theorem Session.ShowsTables.later (h : s.ShowsTables ctx c top M) :
    u.ShowsTables ctx c top M := fun v hv => h v (hu.trans hv)

theorem Session.Visits.later {visit : Solver → Visitor σ} {J : σ → Session → Prop}
    (h : s.Visits ctx M visit J) : u.Visits ctx M visit J :=
  fun v hv => h v (hu.trans hv)

theorem Session.Walks.later {walk : Solver → Walker} (hw : s.Walks ctx c M deep h walk) : u.Walks ctx c M deep h walk :=
  fun v hv => hw v (hu.trans hv)
end

theorem Session.Measured.shows (hs : s.Measured ctx c) (top : Nat) (hk : (top - 7) / 2 ≤ k) :
    s.Shows ctx c top k fun member u => u.types.SizedMember c k member where
  lasting _ _ _ hu hv h := h.extends hu.types hv.grown
  sized _ _ _ h := h
  own u hu name decl hclass htop member hm := by
    obtain ⟨_, _, hsized⟩ := ((hs.later hu).classes name decl hclass).2.member
    exact (hsized member hm).mono (by omega)

theorem showsTables (hk : top ≤ k) : s.ShowsTables ctx c top fun member u => u.types.SizedMember c k member := by
  intro u _ _ key value hty hl
  have hpart {p : Ty} (hp : p ∈ [key, value]) : u.types.Sized c p k :=
    (hty.part (by rw [hl]; exact .tail _ hp)).mono (by omega)
  have htype : ∀ t, some value = some t → u.types.Sized c t k := by
    rintro _ ⟨⟩
    exact hpart (by simp)
  refine ⟨⟨nofun, fun t ht => ⟨k, htype t ht⟩, ?_⟩, fun _ hname => ⟨?_, fun t ht => ⟨k, htype t ht⟩, nofun⟩⟩
  · rintro _ ⟨⟩
    exact ⟨hpart (by simp), htype⟩
  · rintro _ ⟨⟩
    exact hname

section
variable {M : Member → Session → Prop} (hB : s.Under ctx c room)
  (hC : Compares ctx c room (2 * k + 1)) (hM : s.Shows ctx c top k M) {visit : Solver → Visitor σ}
  {J : σ → Session → Prop} (hJ : s.Lasting ctx J) (hvisit : s.Visits ctx M visit J)

section
variable (hu : u.Past ctx s)
include hM hu

include hJ hvisit in
theorem ends_visitOwn {l : List Member} (hl : ∀ member ∈ l, M member u) {state : σ} (hstate : J state u) :
    u.Ends ctx (fun S => visitOwn (visit S) l state) fun r v => J r.1 v := by
  induction l generalizing u state with
  | nil => exact .pure hu.types hstate
  | cons member rest ih =>
    obtain ⟨hmember, hrest⟩ := forall_mem_cons.1 hl
    refine (ends_isCanceled hu.types).bind fun _ u1 hu1 _ => ?_
    have hstate1 := hJ state u u1 hu hu1 hstate
    have hu1' := hu.trans hu1
    refine .early hu1'.types hstate1 fun _ => ?_
    refine (hvisit u1 hu1' state member hstate1 (hM.lasting member u u1 hu hu1 hmember)).bind ?_
    rintro ⟨_, _⟩ u2 hu2 hstate2
    have hu2' := hu1'.trans hu2
    refine .ite (fun _ => ih hu2' (fun m hm => ?_) hstate2) fun _ => .pure hu2'.types hstate2
    exact hM.lasting m u u2 hu (hu1.trans hu2) (hrest m hm)

include hs in
theorem ends_ownMembers (hclass : u.classOf ctx name = some decl) (htop : c (u.types.text name) + 3 ≤ top) :
    u.Ends ctx (fun _ => ownMembers decl) fun r v => ∀ member ∈ r, M member v := by
  have hown := hM.own u hu name decl hclass htop
  unfold ownMembers
  cases ho : decl.otherName with
  | none => exact .pure hu.types hown
  | some other =>
    refine .early hu.types hown fun hne => ?_
    refine (ends_classDecl hu.types other).bind fun found v hv hfound => ?_
    have hv' := hu.trans hv
    have hown' : ∀ member ∈ decl.members, M member v := fun m hm => hM.lasting m u v hu hv (hown m hm)
    cases found with
    | none => exact .pure hv'.types hown'
    | some otherDecl =>
      obtain ⟨hsymbol, _⟩ := ((hs.later hu).classes name decl hclass).2.shared other ho hne
      refine .pure hv'.types (forall_mem_append.2 ⟨hown', hM.own v hv' other otherDecl ?_ ?_⟩)
      · rw [hv.classes]
        exact classOf_of_seen hfound.symm
      · rw [hv.grown.text hsymbol]
        omega

include hs hB hC in
theorem ends_isOverridden (hseen : ∀ m ∈ seen, M m u) {member : Member} (hmember : M member u) :
    u.Stops ctx (·.isOverridden seen member) := by
  refine ends_anyM hu.types fun earlier hearlier v hv => ?_
  have hv' := hu.trans hv
  have hsized := hM.sized v hv' earlier (hM.lasting earlier u v hu hv (hseen earlier hearlier))
  have hsized' := hM.sized v hv' member (hM.lasting member u v hu hv hmember)
  match hkey : earlier.key, hkey' : member.key with
  | .field a, .field b => exact .pure hv'.types trivial
  | .field a, .index b => exact .pure hv'.types trivial
  | .index a, .field b => exact .pure hv'.types trivial
  | .index a, .index b =>
    refine .early hv'.types trivial fun _ => ?_
    exact hC v (hs.later hv') (hB.later hv').le a b k k (hsized.index a hkey).1 (hsized'.index b hkey').1 (by omega) _
      fun _ => ⟨rfl, rfl⟩
end

def Keeping (M : Member → Session → Prop) (J : σ → Session → Prop) (state : σ × List Member) (u : Session) : Prop :=
  J state.1 u ∧ ∀ member ∈ state.2, M member u

include hM hJ in
theorem lasting_keeping : s.Lasting ctx (Keeping M J) := fun a u v hu hv h =>
  ⟨hJ a.1 u v hu hv h.1, fun m hm => hM.lasting m u v hu hv (h.2 m hm)⟩

include hM hvisit in
theorem visits_keeping : s.Visits ctx M (fun S => keeping (visit S)) (Keeping M J) := by
  rintro u hu ⟨state, kept⟩ member ⟨hstate, hkept⟩ hmember
  refine (hvisit u hu state member hstate hmember).bind fun r v hv hr => .pure (hu.trans hv).types ⟨hr, ?_⟩
  refine forall_mem_append.2 ⟨fun m hm => hM.lasting m u v hu hv (hkept m hm), fun m hm => ?_⟩
  obtain rfl := mem_singleton.1 hm
  exact hM.lasting m u v hu hv hmember

include hs hB hC hM hJ hvisit in
theorem visits_inheriting (hseen : ∀ m ∈ seen, M m s) :
    s.Visits ctx M (fun S => S.inheriting seen (visit S)) (Keeping M J) := by
  rintro u hu ⟨state, kept⟩ member hstate hmember
  have hseen' : ∀ m ∈ seen, M m u := fun m hm => hM.lasting m s u (.of_wf hs.types) hu (hseen m hm)
  refine (ends_isOverridden hs hB hC hM hu hseen' hmember).bind fun b v hv _ => ?_
  have hstate' := lasting_keeping hM hJ (state, kept) u v hu hv hstate
  refine .early (hu.trans hv).types hstate' fun _ => ?_
  exact visits_keeping hM hvisit v (hu.trans hv) (state, kept) member hstate' (hM.lasting member u v hu hv hmember)

section
variable {walk : Solver → Walker} {visited : List Ty} {state : σ} (hstate : J state s)
include hs hB hC hM hJ hvisit hstate

theorem ends_walkSupers (hty : s.types.Sized c ty h) (hwalk : s.Walks ctx c M false h walk) {own : List Member}
    (hown : ∀ m ∈ own, M m s) :
    s.Ends ctx (fun S => S.walkSupers (walk S) (visit S) ty own visited state) fun w v => J w.state v := by
  have hlasting : s.Lasting ctx fun (a : σ × List Ty × List Member) u => J a.1 u ∧ ∀ m ∈ a.2.2, M m u :=
    fun a u v hu hv h => ⟨hJ a.1 u v hu hv h.1, fun m hm => hM.lasting m u v hu hv (h.2 m hm)⟩
  refine (ends_visitSupers hs hlasting ?_ hty ⟨hstate, hown⟩).bind ?_
  · rintro u hu ⟨state, visited, seen⟩ super ⟨hstate, hseen⟩ hsuper
    refine (hwalk u hu (lasting_keeping (hM.later hu) (hJ.later hu)) (visits_inheriting (hs.later hu)
      (hB.later hu) hC (hM.later hu) (hJ.later hu) (hvisit.later hu) hseen) super hsuper visited (state, [])
      ⟨hstate, nofun⟩).bind ?_
    rintro w v hv ⟨hstate', hkept⟩
    refine .pure (hu.trans hv).types ⟨hstate', forall_mem_append.2 ⟨fun m hm => ?_, hkept⟩⟩
    exact hM.lasting m u v hu hv (hseen m hm)
  · rintro ⟨⟨_, _, _⟩, _⟩ u hu ⟨hstate, -⟩
    exact .pure hu.types hstate

variable (hty : s.types.Sized c ty h) (hwalk : deep = true → s.Walks ctx c M false h walk)
include hty hwalk

theorem ends_walkClass {marks : Marks} (htop : h ≤ top) (hl : s.types.lookup ty = .classRef name marks) :
    s.Ends ctx (fun S => S.walkClass (walk S) (visit S) deep ty name visited state) fun w v => J w.state v := by
  refine (ends_classDecl hs.types name).bind fun found u hu hfound => ?_
  have hstate' := hJ state s u (.of_wf hs.types) hu hstate
  have hsupers {v : Session} (hv : v.Past ctx s) {own : List Member} (hown : ∀ m ∈ own, M m v) {state : σ}
      (hstate : J state v) (hdeep : deep = true) :
      v.Ends ctx (fun S => S.walkSupers (walk S) (visit S) ty own visited state) fun w v => J w.state v :=
    ends_walkSupers (hs.later hv) (hB.later hv) hC (hM.later hv) (hJ.later hv) (hvisit.later hv) hstate
      (hs.sized hv hty) ((hwalk hdeep).later hv) hown
  cases found with
  | none => exact .ite (hsupers hu (by simp) hstate') fun _ => .pure hu.types hstate'
  | some decl =>
    have hsymbol : s.types.HasSymbol name := hs.types.hasSymbol (by rw [hl]; exact mem_singleton.2 rfl)
    have hclass : u.classOf ctx name = some decl := by
      rw [hu.classes]
      exact classOf_of_seen hfound.symm
    refine (ends_ownMembers hs hM hu hclass (by rw [hu.grown.text hsymbol]; have := hty.name hl; omega)).bind
      fun own v hv hown => ?_
    have hv' := hu.trans hv
    refine (ends_visitOwn hM hJ hvisit hv' hown (hJ state u v hu hv hstate')).bind ?_
    rintro ⟨_, outcome⟩ w hw hstate
    have hw' := hv'.trans hw
    cases outcome with
    | some => exact .pure hw'.types hstate
    | none =>
      refine .ite (hsupers hw' (fun m hm => ?_) hstate) fun _ => .pure hw'.types hstate
      exact hM.lasting m v w hv' hw (hown m hm)

/-- The walk over a `table<K, V>` goes to what is declared for `table`. -/
theorem ends_walkInstance {base : Ty} {h' : Nat} (hbase : s.types.Sized c base h') (hgo : s.Walks ctx c M false h' walk) :
    s.Ends ctx (fun S => S.walkInstance (walk S) (visit S) deep ty base visited state) fun w v => J w.state v := by
  refine (hgo s (.of_wf hs.types) (lasting_keeping hM hJ) (visits_keeping hM hvisit) base hbase visited (state, [])
    ⟨hstate, nofun⟩).bind ?_
  rintro w u hu ⟨hstate', hkept⟩
  refine .ite (fun hdeep => ?_) fun _ => .pure hu.types hstate'
  exact ends_walkSupers (hs.later hu) (hB.later hu) hC (hM.later hu) (hJ.later hu) (hvisit.later hu) hstate'
    (hs.sized hu hty) ((hwalk (Bool.and_eq_true_iff.1 hdeep).2).later hu) hkept

theorem ends_walkForm (htop : h ≤ top) (hlower : ∀ h' < h, s.Walks ctx c M deep h' walk) :
    s.Ends ctx (fun S => S.walkForm (walk S) (visit S) deep ty visited state) fun w v => J w.state v := by
  have hgo {u : Session} (hu : u.Past ctx s) {r : Ty} {h' : Nat} (hh : h' < h) (hr : u.types.Sized c r h') :
      u.Ends ctx (fun S => walk S (visit S) deep r visited state) fun w v => J w.state v :=
    hlower h' hh u hu (hJ.later hu) (hvisit.later hu) r hr visited state (hJ state s u (.of_wf hs.types) hu hstate)
  refine .lookup hs.types ty fun form hform => ?_
  have hkind := TypeTable.kind_of hform.symm
  cases form with
  | classRef name =>
    have := hty.name hform.symm
    refine (ends_resolve hs hB hty).bind fun r u hu hlower => ?_
    refine .ite (fun _ => ?_) fun hne => hgo hu (by omega) ((hlower.resolve_left hne).sized (by rw [hkind]; simp))
    exact ends_walkClass (hs.later hu) (hB.later hu) hC (hM.later hu) (hJ.later hu) (hvisit.later hu)
      (hJ state s u (.of_wf hs.types) hu hstate) (hs.sized hu hty) (fun hdeep => (hwalk hdeep).later hu) htop
      ((hu.grown.lookup hty.has).trans hform.symm)
  | param name written bound =>
    cases bound with
    | none => exact .pure hs.types hstate
    | some bound =>
      have hpart := hty.part (p := bound) (by rw [← hform]; simp)
      have := hty.pos
      exact hgo (.of_wf hs.types) (by omega) hpart
  | generic base =>
    have hbase := hty.part (p := base) (by rw [← hform]; simp)
    have := hty.pos
    cases deep with
    | false => exact ends_walkInstance hs hB hC hM hJ hvisit hstate hty (by simp) hbase (hlower (h - 1) (by omega))
    | true =>
      exact ends_walkInstance hs hB hC hM hJ hvisit hstate hty hwalk (hbase.mono (by omega)) (hwalk rfl)
  | primitive kind =>
    have := hty.primitive_le hform.symm
    exact (ends_classNamed hs kind.name Marks.none).bind fun r u hu hr => hgo hu (by omega) hr
  | literal kind =>
    have := hty.literal_le hform.symm
    exact hgo (.of_wf hs.types) (by omega) (hs.types.sized_primitive kind)
  | aliasRef =>
    have := hty.pos
    refine (ends_resolve hs hB hty).bind fun r u hu hlower => ?_
    refine .early hu.types (hJ state s u (.of_wf hs.types) hu hstate) fun hne => ?_
    exact hgo hu (by omega) ((hlower.resolve_left hne).sized (by rw [hkind]; simp))
  | _ => exact .pure hs.types hstate
end

include hs hB hC hM in
theorem walks_walkWithin (htop : h ≤ top) (deep : Bool) (j : Nat) :
    s.Walks ctx c M deep h fun S => S.walkWithin (S.budget - j) := by
  induction h using Nat.strong_induction_on generalizing deep j with
  | _ h ih =>
    have hstep (deep : Bool) (j : Nat) (hwalk : deep = true → s.Walks ctx c M false h fun S => S.walkWithin (S.budget - (j + 1))) :
        s.Walks ctx c M deep h fun S => S.walkWithin (S.budget - j) := by
      intro u hu σ visit J hJ hvisit ty hty visited state hstate
      refine ends_budget (F := fun S k => S.walkWithin k (visit S) deep ty visited state) ?_
      refine .early hu.types hstate fun _ => ?_
      exact ends_walkForm (hs.later hu) (hB.later hu) hC (hM.later hu) hJ hvisit hstate hty
        (fun hdeep => (hwalk hdeep).later hu) htop fun h' hh => (ih h' hh (by omega) deep (j + 1)).later hu
    exact hstep deep j fun _ => hstep false (j + 1) nofun

include hs hB hC hM hJ hvisit in
theorem ends_visitMembers (hty : s.types.Sized c ty top) {state : σ} (hstate : J state s) (deep : Bool) :
    s.Ends ctx (fun S => S.visitMembers (visit S) deep ty state) fun r v => J r.1 v := by
  refine (walks_walkWithin hs hB hC hM (le_refl _) deep 0 s (.of_wf hs.types) hJ hvisit ty hty [] state hstate).bind ?_
  exact fun w u hu hw => .pure hu.types hw
end

end

end AnnotatedLua
