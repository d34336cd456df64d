/-
What names stand for. A class or an alias is resolved in one step (`Session.next`). Resolving types one after the other
ends if finitely many of them lead to others (`Session.Unfolds.resolvePending`).
-/
import AnnotatedLua.Proofs.Termination.Union
import Mathlib.Data.Set.Card

namespace AnnotatedLua

open Solve Solver List Session

/-- If the type is an instance, it is one of `table`. -/
def TypeTable.Tabular (t : TypeTable) (ty : Ty) : Prop := ∀ base args, t.lookup ty = .generic base args → base = Ty.table

variable {t : TypeTable}
variable {ty : Ty}

theorem TypeTable.tabular_of_kind (h : t.kind ty ≠ .generic) : t.Tabular ty :=
  fun _ _ hl => absurd (TypeTable.kind_of hl) h

theorem TypeTable.WF.lookup_table (hw : t.WF) : t.lookup Ty.table = .primitive .table :=
  hw.lookup_primitive .table

theorem TypeTable.WF.members_table (hw : t.WF) : t.members Ty.table = [Ty.table] :=
  members_eq_self (by unfold kind; rw [hw.lookup_table]; nofun)

section
variable (ctx : Context) (s : Session)

def Session.marksSeen (name : Symbol) (marks : Marks) : Marks :=
  match s.classSeen ctx name with
  | some decl => marks.merge decl.marks
  | none => marks

def Session.standsFor (name : Symbol) (marks : Marks) : Option Ty :=
  if (s.marksSeen ctx name marks).isVariable then none else s.aliasSeen ctx name

def Session.next (ty : Ty) : Ty :=
  match s.types.lookup ty with
  | .classRef name marks => (s.standsFor ctx name marks).getD ty
  | .aliasRef _ _ target => target
  | _ => ty

def Session.resolves (ty : Ty) : Bool :=
  match s.types.lookup ty with
  | .classRef name marks => !(s.marksSeen ctx name marks).isVariable
  | .aliasRef _ _ _ => true
  | _ => false

variable {ctx s} {u : Session} {ty : Ty}

theorem Session.Past.marksSeen (hu : u.Past ctx s) : u.marksSeen ctx = s.marksSeen ctx := by
  funext name marks
  unfold Session.marksSeen
  rw [hu.classSeen]

theorem Session.Past.standsFor (hu : u.Past ctx s) : u.standsFor ctx = s.standsFor ctx := by
  funext name marks
  unfold Session.standsFor
  rw [hu.marksSeen, hu.aliasSeen]

theorem Session.Past.next (hu : u.Past ctx s) (hty : s.types.Has ty) : u.next ctx ty = s.next ctx ty := by
  unfold Session.next
  rw [hu.grown.lookup hty, hu.standsFor]

theorem Session.Past.tabular (hu : u.Past ctx s) (hty : s.types.Has ty) (h : s.types.Tabular ty) : u.types.Tabular ty :=
  fun base args _ => h base args (by rwa [← hu.grown.lookup hty])

theorem Session.aliasSeen_of_standsFor {name : Symbol} {marks : Marks} {target : Ty}
    (h : s.standsFor ctx name marks = some target) : s.aliasSeen ctx name = some target := by
  unfold standsFor at h
  split at h
  · cases h
  · exact h

theorem Session.next_has (hw : s.types.WF) (halias : ∀ name ty, s.aliasSeen ctx name = some ty → s.types.Has ty)
    (hty : s.types.Has ty) : s.types.Has (s.next ctx ty) := by
  unfold next
  split
  · rename_i name marks hform
    cases hstands : s.standsFor ctx name marks with
    | none => exact hty
    | some target => exact halias name target (aliasSeen_of_standsFor hstands)
  · rename_i hform
    exact hw.part_has hform (by simp)
  · exact hty

section
variable [Solvers] (hw : s.types.WF)
include hw

theorem ends_classMarks (ty : Ty) : s.Ends ctx (fun _ => classMarks ty) fun r _ =>
    ∀ name marks, s.types.lookup ty = .classRef name marks → r = s.marksSeen ctx name marks := by
  refine .lookup hw ty fun form hform => ?_
  cases form with
  | classRef name =>
    refine (ends_classDecl hw name).bind fun found u hu hfound => ?_
    cases found <;>
    · refine .pure hu.types fun _ _ hl => ?_
      cases hform.trans hl
      unfold marksSeen
      rw [← hfound]
  | _ =>
    refine .pure hw fun _ _ hl => ?_
    cases hform.trans hl

theorem ends_lookup_table : s.Ends ctx (fun _ => lookup Ty.table) fun form u => s = u ∧ form = .primitive .table :=
  ends_ofTypes hw ⟨rfl, hw.lookup_table⟩

theorem ends_willResolve_table : s.Ends ctx (·.willResolve Ty.table) fun r u => s = u ∧ r = false := by
  refine .ask rfl ((ends_lookup_table hw).bind ?_)
  rintro _ _ - ⟨rfl, rfl⟩
  exact .pure hw ⟨rfl, rfl⟩

theorem ends_willResolve (hty : s.types.Tabular ty) :
    s.Ends ctx (·.willResolve ty) fun r _ => r = s.resolves ctx ty := by
  refine .ask rfl (.lookup hw ty fun form hform => ?_)
  unfold resolves
  rw [← hform]
  cases form with
  | classRef name marks =>
    refine (ends_classMarks hw ty).bind fun r u hu hr => .pure hu.types ?_
    rw [hr name marks hform.symm]
  | generic base args =>
    obtain rfl := hty base args hform.symm
    refine (ends_members hw Ty.table).bind ?_
    rintro _ _ - ⟨rfl, rfl⟩
    rw [hw.members_table]
    refine (ends_willResolve_table hw).bind ?_
    rintro _ _ - ⟨rfl, rfl⟩
    exact .pure hw rfl
  | _ => exact .pure hw rfl

theorem ends_resolveOne (hty : s.types.Tabular ty) : s.Ends ctx (·.resolveOne ty) fun r _ => r = s.next ctx ty := by
  refine .lookup hw ty fun form hform => ?_
  unfold Session.next
  rw [← hform]
  cases form with
  | classRef name marks =>
    refine (ends_willResolve hw hty).bind fun b u hu hb => ?_
    unfold resolves at hb
    rw [← hform] at hb
    dsimp only at hb ⊢
    unfold standsFor
    cases hv : (s.marksSeen ctx name marks).isVariable with
    | true =>
      rw [hv] at hb
      subst hb
      exact .pure hu.types (by rw [if_pos rfl]; rfl)
    | false =>
      rw [hv] at hb
      subst hb
      refine (ends_aliasType hu.types name).bind fun _ v hv hfound => ?_
      rw [hfound, hu.aliasSeen]
      exact .pure hv.types (by rw [if_neg nofun])
  | generic base args =>
    obtain rfl := hty base args hform.symm
    refine Session.Ends.bind (Q := fun r u => s = u ∧ r = Ty.table) ((ends_lookup_table hw).bind ?_) ?_
    · rintro _ _ - ⟨rfl, rfl⟩
      exact .pure hw ⟨rfl, rfl⟩
    · rintro _ _ - ⟨rfl, rfl⟩
      exact .pure hw (if_pos rfl)
  | _ => exact .pure hw rfl

theorem ends_willResolve_has (hty : s.types.Has ty) : s.Stops ctx (·.willResolve ty) := by
  induction hn : ty.index using Nat.strong_induction_on generalizing ty s with
  | _ n ih =>
    by_cases hgeneric : s.types.kind ty = .generic
    · refine .ask rfl (.lookup hw ty fun form hform => ?_)
      rw [TypeTable.kind_of hform.symm] at hgeneric
      cases form with
      | generic base =>
        obtain ⟨hlt, hbase⟩ := hw.part_lt (show base ∈ (s.types.lookup ty).parts by rw [← hform]; exact .head _)
        refine (ends_members hw base).bind ?_
        rintro _ _ - ⟨rfl, rfl⟩
        refine ends_anyM hw fun z hz u hu => ih z.index ?_ hu.types (hu.grown.has (hw.member_has hbase hz)) rfl
        exact (hw.member_le hz).trans_lt (hn ▸ hlt)
      | _ => cases hgeneric
    · exact (ends_willResolve hw (TypeTable.tabular_of_kind hgeneric)).stops
end

end

/-! ## Pending types -/

section
def TypeTable.left (t : TypeTable) (F : Set Tree) (visited : List Ty) : Set Tree := F \ {x | ∃ z ∈ visited, t.tree z = x}

variable {ctx : Context} {s u v : Session} {F : Set Tree} {visited : List Ty} {z : Ty}

theorem Session.left_later (hu : u.types.WF) (hv : v.Past ctx u) (hvisited : ∀ z ∈ visited, u.types.Has z) :
    v.types.left F visited = u.types.left F visited := by
  unfold TypeTable.left
  congr 1
  ext x
  refine exists_congr fun z => and_congr_right fun hz => ?_
  rw [hv.grown.tree_eq hu hv.types (hvisited z hz)]

theorem TypeTable.left_cons_le (hF : F.Finite) (z : Ty) (visited : List Ty) :
    (t.left F (z :: visited)).ncard ≤ (t.left F visited).ncard := by
  refine Set.ncard_le_ncard ?_ (hF.subset Set.sdiff_subset)
  exact Set.sdiff_subset_sdiff_right fun x ⟨y, hy, he⟩ => ⟨y, .tail _ hy, he⟩

theorem TypeTable.WF.left_cons_lt (hw : t.WF) (hF : F.Finite) (hz : t.Has z)
    (hvisited : ∀ z ∈ visited, t.Has z) (hnew : z ∉ visited) (h : t.tree z ∈ F) :
    (t.left F (z :: visited)).ncard < (t.left F visited).ncard := by
  refine Set.ncard_lt_ncard ⟨Set.sdiff_subset_sdiff_right fun x ⟨y, hy, he⟩ => ⟨y, .tail _ hy, he⟩, fun hsub => ?_⟩
    (hF.subset Set.sdiff_subset)
  refine (hsub (a := t.tree z) ⟨h, ?_⟩).2 ⟨z, .head _, rfl⟩
  rintro ⟨y, hy, he⟩
  exact hnew (hw.eq_of_tree (hvisited y hy) hz he ▸ hy)

structure Session.Unfolds [Solvers] (ctx : Context) (s : Session) (P D : TypeTable → Ty → Prop) (F : Set Tree) : Prop where
  types : s.types.WF
  finite : F.Finite
  later : ∀ u v : Session, u.Past ctx s → v.Past ctx u → ∀ z, (P u.types z → P v.types z) ∧ (D u.types z → D v.types z)
  has : ∀ u : Session, u.Past ctx s → ∀ z, P u.types z → u.types.Has z
  step : ∀ u : Session, u.Past ctx s → ∀ z, P u.types z → u.Ends ctx (·.resolveOne z) fun r v =>
    r = z ∧ D v.types z ∨ r ≠ z ∧ u.types.tree z ∈ F ∧ ∀ p ∈ v.types.members r, P v.types p

namespace Session.Unfolds

variable [Solvers] {P D : TypeTable → Ty → Prop} (h : s.Unfolds ctx P D F)
include h

theorem resolvePending {pending out : List Ty} (hu : u.Past ctx s) (hvisited : ∀ z ∈ visited, u.types.Has z) (hpending : ∀ z ∈ pending, P u.types z)
    (hout : ∀ z ∈ out, D u.types z) (hnodup : out.Nodup) (j : Nat) :
    u.Ends ctx (fun S => S.resolvePending (S.budget - j) pending visited out) fun r v =>
      r.Nodup ∧ ∀ z ∈ r, D v.types z := by
  -- on the number of types that are left to unfold, then on the pending ones
  obtain ⟨n, hn⟩ : ∃ n, (u.types.left F visited).ncard ≤ n := ⟨_, le_rfl⟩
  induction n using Nat.strong_induction_on generalizing pending visited out u j with
  | _ n ihn =>
    induction pending generalizing visited out u j with
    | nil =>
      refine ends_budget (F := fun S k => S.resolvePending k [] visited out) ?_
      exact .pure hu.types ⟨hnodup, hout⟩
    | cons current pending ih =>
      refine ends_budget (F := fun S k => S.resolvePending k (current :: pending) visited out) ?_
      refine (ends_isCanceled hu.types).bind fun _ v hv _ => ?_
      have hleft := left_later (F := F) hu.types hv hvisited
      have hv' := hu.trans hv
      replace hvisited : ∀ z ∈ visited, v.types.Has z := fun z hz => hv.grown.has (hvisited z hz)
      replace hout : ∀ z ∈ out, D v.types z := fun z hz => (h.later u v hu hv z).2 (hout z hz)
      obtain ⟨hcurrent, hpending⟩ := forall_mem_cons.1 fun z hz => (h.later u v hu hv z).1 (hpending z hz)
      rw [← hleft] at hn
      refine .early hv.types ⟨hnodup, hout⟩ fun _ => .ite (fun _ => ?_) fun hseen => ?_
      · exact ih hv' hvisited hpending hout hnodup (j + 1) hn
      have hhas := h.has v hv' current hcurrent
      refine (h.step v hv' current hcurrent).bind fun r w hw hr => ?_
      have hw' := hv'.trans hw
      have hvisited' : ∀ z ∈ current :: visited, v.types.Has z := forall_mem_cons.2 ⟨hhas, hvisited⟩
      have hleft' := left_later (F := F) hv.types hw hvisited'
      replace hvisited' : ∀ z ∈ current :: visited, w.types.Has z := fun z hz => hw.grown.has (hvisited' z hz)
      replace hout : ∀ z ∈ out, D w.types z := fun z hz => (h.later v w hv' hw z).2 (hout z hz)
      replace hpending : ∀ z ∈ pending, P w.types z := fun z hz => (h.later v w hv' hw z).1 (hpending z hz)
      refine .ite (fun hsame => ?_) fun hne => ?_
      · have hdone := (hr.resolve_right fun hr => hr.1 hsame).2
        refine ih hw' hvisited' hpending ?_ ?_ (j + 1) (by rw [hleft']; exact (TypeTable.left_cons_le h.finite _ _).trans hn)
        · split
          · exact hout
          · exact forall_mem_append.2 ⟨hout, by simpa using hdone⟩
        · split
          · exact hnodup
          · rename_i hnew
            exact nodup_append.2 ⟨hnodup, nodup_singleton _, fun a ha b hb hab =>
              hnew (contains_iff_mem.2 (mem_singleton.1 hb ▸ hab ▸ ha))⟩
      · obtain ⟨-, htree, hmembers⟩ := hr.resolve_left fun hr => hne hr.1
        refine (ends_members hw.types r).bind ?_
        rintro _ _ - ⟨rfl, rfl⟩
        have hlt := hv.types.left_cons_lt h.finite hhas hvisited (fun hmem => hseen (contains_iff_mem.2 hmem)) htree
        exact ihn _ (hlt.trans_le hn) hw' hvisited' (forall_mem_append.2 ⟨hmembers, hpending⟩) hout hnodup (j + 1)
          (by rw [hleft'])

theorem resolvedMembers (hu : u.Past ctx s) (hty : s.types.Has ty) (hparts : ∀ z ∈ s.types.members ty, P s.types z) :
    u.Ends ctx (·.resolvedMembers ty) fun r v => r = s.types.members ty ∨ r.Nodup ∧ ∀ z ∈ r, D v.types z := by
  refine (ends_members hu.types ty).bind ?_
  rintro parts _ - ⟨rfl, rfl⟩
  rw [hu.grown.members hty]
  refine (ends_anyM hu.types fun z hz v hv =>
    ends_willResolve_has hv.types ((hu.trans hv).grown.has (h.types.member_has hty hz))).bind fun any v hv _ => ?_
  have hv' := hu.trans hv
  refine .early hv.types (.inl rfl) fun _ => ?_
  refine (h.resolvePending hv' ?_ (fun z hz => (h.later s v (.of_wf h.types) hv' z).1 (hparts z hz)) (by simp)
    nodup_nil 0).imp fun r _ _ hr => .inr hr
  split
  · simpa using hv'.grown.has hty
  · simp

end Session.Unfolds
end

end AnnotatedLua
