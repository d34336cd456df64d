/-
What resolution comes to. It lists each type at which steps of resolution stop (`Session.Rests`), and no other one
(`resolvedMembers_exact`). So the members of what it comes to are at rest (`resolve_rests`), and resolving once more
gives it back (`resolve_of_rests`), if unions are canonical. Then resolution is exact (`resolution_exact`). A limit of
the guard makes it list more (`resolvedMembers_limited`).
-/
import AnnotatedLua.Proofs.Alias.Resolution
import AnnotatedLua.Proofs.Query.Free
import AnnotatedLua.Proofs.Union.Canonical
import Mathlib.Logic.Relation

namespace AnnotatedLua

open Solve Solver Relation Session List
open TypeTable (canonical_downward lookup_of_union members_eq_self sameTypes_iff)

/-! ## Canonical tables -/

variable {ctx : Context} {s u v x : Session} {z r : Ty} {n : Nat} {l : List Ty} {S : Solver} {ty : Ty} {t : TypeTable}

theorem TypeTable.kind_of_several (h : 1 < (t.members ty).length) : t.kind ty = .union := by
  by_contra hkind
  rw [members_eq_self hkind] at h
  exact absurd h (lt_irrefl 1)

namespace TypeTable.Canonical

variable (hc : t.Canonical)
include hc

theorem member_noUnion (hz : z ∈ t.members ty) : t.kind z ≠ .union := by
  by_cases hk : t.kind ty = .union
  · exact (hc ty _ (lookup_of_union hk)).noUnion z hz
  · rw [members_eq_self hk, mem_singleton] at hz
    rwa [hz]

theorem members_nodup : (t.members ty).Nodup ∧ t.members ty ≠ [] := by
  by_cases hk : t.kind ty = .union
  · have hm := hc ty _ (lookup_of_union hk)
    exact ⟨hm.ordered.imp fun {a b} (hlt : t.name a < t.name b) he => hlt.ne (congrArg t.name he), ne_nil_of_length_pos (by have := hm.several; omega)⟩
  · simp [members_eq_self hk]

end TypeTable.Canonical

/-! ## Steps of resolution -/

/-- A step of resolution leaves the type as it is. -/
def Session.Rests (ctx : Context) (u : Session) (ty : Ty) : Prop := u.Answers ctx (·.resolveOne ty) ty

/-- A step of resolution leads from a type to the members of another one. -/
def Session.Steps (ctx : Context) (u : Session) (ty z : Ty) : Prop :=
  ∃ r, u.Answers ctx (·.resolveOne ty) r ∧ r ≠ ty ∧ z ∈ u.types.members r

/-- Steps of resolution lead from a member of a type to another type. -/
def Session.StepsTo (ctx : Context) (u : Session) (ty z : Ty) : Prop :=
  ∃ x ∈ u.types.members ty, ReflTransGen (u.Steps ctx) x z

def Session.Stays (ctx : Context) (u : Session) (ty : Ty) : Prop :=
  (u.unlimited 0).Always ctx.uncancelled (·.resolveOne ty) ty

namespace Session.Rests

theorem eq_of_reaches (h : u.Rests ctx ty) (hz : ReflTransGen (u.Steps ctx) ty z) : z = ty := by
  rcases hz.cases_head with rfl | ⟨y, ⟨r, hr, hne, -⟩, -⟩
  · rfl
  · exact absurd (hr.unique regular_resolveOne h) hne

theorem stepsTo_iff (h : ∀ z ∈ u.types.members ty, u.Rests ctx z) :
    u.StepsTo ctx ty z ∧ u.Rests ctx z ↔ z ∈ u.types.members ty := by
  refine ⟨?_, fun hz => ⟨⟨z, hz, .refl⟩, h z hz⟩⟩
  rintro ⟨⟨x, hx, hreach⟩, -⟩
  rwa [(h x hx).eq_of_reaches hreach]

theorem later (h : u.Rests ctx ty) (hu : u.Sound ctx) (hty : u.types.Has ty) (hv : v.Since ctx u) : v.Rests ctx ty :=
  hv.answers_later regular_resolveOne hu (hu.stores_type hty) h hty

end Session.Rests

theorem Session.Stays.of_kind (hty : u.types.Has ty)
    (hkind : u.types.kind ty ∉ [Kind.classRef, .aliasRef, .generic]) : u.Stays ctx ty := by
  unfold Session.Stays Solver.resolveOne TypeTable.kind at *
  refine (Always.lookup (s := u.unlimited 0) hty).after ?_
  dsimp only [Session.unlimited]
  cases hl : u.types.lookup ty with
  | classRef | aliasRef | generic => simp [hl] at hkind
  | _ => exact .pure ty

section
variable {base : Ty}

theorem willResolve_ne_false {name : Symbol} {params : List Ty} {target : Ty}
    (hl : s.types.lookup ty = .aliasRef name params target) : (ofBudget n).willResolve ty ctx s ≠ some (false, u) := by
  intro h
  cases n with
  | zero => cases h
  | succ n =>
    have hrule : Rule.willResolve (ofBudget n) ty ctx s = some (false, u) := h
    unfold Rule.willResolve at hrule
    rw [run_bind (a := s.types.lookup ty) rfl, hl] at hrule
    cases hrule

theorem resolveWithArgs_of_willResolve (args : List Ty) (h : (s.types.members base).anyM (ofBudget n).willResolve ctx s = some (false, u)) :
    ∃ w, (ofBudget (n + 1)).resolveWithArgs base args ctx s = some (base, w) := by
  have hone (hkind : s.types.kind base ≠ .union) : ∃ w, (ofBudget n).willResolve base ctx s = some (false, w) := by
    rw [members_eq_self hkind] at h
    obtain ⟨b, w, hw, hb⟩ := bind_eq_some h
    cases b with
    | true => cases hb
    | false => exact ⟨w, hw⟩
  unfold TypeTable.kind at hone
  unfold Solver.resolveWithArgs
  rw [run_bind (a := s.types.lookup base) rfl]
  cases hl : s.types.lookup base with
  | classRef =>
    obtain ⟨w, hw⟩ := hone (by rw [hl]; nofun)
    exact ⟨w, (run_bind (regular_willResolve.below (Nat.le_succ n) base ctx s _ hw)).trans rfl⟩
  | aliasRef =>
    obtain ⟨w, hw⟩ := hone (by rw [hl]; nofun)
    exact absurd hw (willResolve_ne_false hl)
  | _ => exact ⟨_, rfl⟩

theorem resolveOne_of_willResolve (h : (ofBudget n).willResolve ty ctx s = some (false, u)) :
    ∃ w, (ofBudget n).resolveOne ty ctx s = some (ty, w) := by
  unfold Solver.resolveOne
  rw [run_bind (a := s.types.lookup ty) rfl]
  cases hl : s.types.lookup ty with
  | classRef => exact ⟨u, (run_bind h).trans rfl⟩
  | aliasRef => exact absurd h (willResolve_ne_false hl)
  | generic base args =>
    cases n with
    | zero => cases h
    | succ n =>
      have hrule : Rule.willResolve (ofBudget n) ty ctx s = some (false, u) := h
      unfold Rule.willResolve at hrule
      rw [run_bind (a := s.types.lookup ty) rfl, hl] at hrule
      obtain ⟨w, hw⟩ := resolveWithArgs_of_willResolve args hrule
      exact ⟨w, (run_bind hw).trans (by rw [if_pos rfl]; rfl)⟩
  | _ => exact ⟨_, rfl⟩

theorem Session.Rests.of_willResolve (h : s.Answers ctx (·.willResolve ty) false) : s.Rests ctx ty := by
  obtain ⟨n, u, hr⟩ := h
  obtain ⟨w, hw⟩ := resolveOne_of_willResolve hr
  exact ⟨n, w, hw⟩
end

/-! ## Pending types -/

section
variable {k : Nat} {current : Ty} {pending visited out : List Ty} {seen : Set Ty}

theorem keeps_resolvePending : Keeps ((ofBudget n).resolvePending k pending visited out) :=
  keeps_of_agree (keeps_closed.logic.resolvePending (keeps_respects n) rfl)

structure Session.Explores (ctx : Context) (v : Session) (pending visited out l : List Ty) (seen : Set Ty) : Prop where
  covered : ∀ z ∈ pending, z ∈ visited ∨ z ∈ seen
  closed : ∀ z ∈ seen, v.Rests ctx z ∧ z ∈ l ∨
    ∃ r, v.Answers ctx (·.resolveOne z) r ∧ r ≠ z ∧ ∀ p ∈ v.types.members r, p ∈ visited ∨ p ∈ seen
  kept : out ⊆ l
  nodup : out.Nodup → l.Nodup
  reached : ∀ z ∈ l, z ∈ out ∨ (v.types.Has z ∧ v.types.kind z ≠ .union) ∧ v.Stays ctx z ∧
    ∃ x ∈ pending, ReflTransGen (v.Steps ctx) x z

namespace Session.Explores

theorem nil : v.Explores ctx [] visited out out ∅ := ⟨nofun, nofun, fun _ => id, id, fun _ => .inl⟩

theorem cons {before out' : List Ty} (h : v.Explores ctx (before ++ pending) (current :: visited) out' l seen)
    (hcurrent : v.types.Has current ∧ v.types.kind current ≠ .union)
    (hw : v.types.WF) (hcase : v.Stays ctx current ∧ before = [] ∧ out' = (if out.contains current then out else out ++ [current]) ∨
      out' = out ∧ ∃ r, v.Answers ctx (·.resolveOne current) r ∧ r ≠ current ∧ v.types.members r = before) :
    v.Explores ctx (current :: pending) visited out l (insert current seen) := by
  have hwide {p : Ty} (hp : p ∈ current :: visited ∨ p ∈ seen) : p ∈ visited ∨ p ∈ insert current seen := by
    rcases hp with hp | hp
    · exact (mem_cons.1 hp).elim (fun h => .inr (.inl h)) .inl
    · exact .inr (.inr hp)
  have hout : out ⊆ out' ∧ (out.Nodup → out'.Nodup) ∧ ∀ z ∈ out', z ∈ out ∨ z = current ∧ v.Stays ctx current := by
    rcases hcase with ⟨hstays, -, rfl⟩ | ⟨rfl, -⟩
    · split
      · exact ⟨fun _ => id, id, fun _ => .inl⟩
      · rename_i hnew
        refine ⟨subset_append_left _ _, fun hnodup => ?_, fun z hz => ?_⟩
        · exact hnodup.append (nodup_singleton _) (by simpa using hnew)
        · simpa [hstays] using hz
    · exact ⟨fun _ => id, id, fun _ => .inl⟩
  refine ⟨forall_mem_cons.2 ⟨.inr (.inl rfl), fun z hz => hwide (h.covered z (mem_append_right _ hz))⟩, ?_,
    fun _ hz => h.kept (hout.1 hz), h.nodup ∘ hout.2.1, fun z hz => ?_⟩
  · rintro z (rfl | hz)
    · rcases hcase with ⟨hstays, -, rfl⟩ | ⟨-, r, hr, hne, rfl⟩
      · exact .inl ⟨hstays.answers hw, h.kept (by split <;> simp_all)⟩
      · exact .inr ⟨r, hr, hne, fun p hp => hwide (h.covered p (mem_append_left _ hp))⟩
    · exact (h.closed z hz).imp_right fun ⟨r, hr, hne, hp⟩ => ⟨r, hr, hne, fun p hpm => hwide (hp p hpm)⟩
  · rcases h.reached z hz with hz | ⟨hhas, hstays, y, hy, hreach⟩
    · refine (hout.2.2 z hz).imp_right ?_
      rintro ⟨rfl, hstays⟩
      exact ⟨hcurrent, hstays, z, .head _, .refl⟩
    · refine .inr ⟨hhas, hstays, ?_⟩
      rcases mem_append.1 hy with hy | hy
      · rcases hcase with ⟨-, rfl, -⟩ | ⟨-, r, hr, hne, rfl⟩
        · cases hy
        · exact ⟨current, .head _, .head ⟨r, hr, hne, hy⟩ hreach⟩
      · exact ⟨y, .tail _ hy, hreach⟩

theorem mem (h : v.Explores ctx pending visited out l seen) (hc : v.types.Canonical)
    (hvisited : ∀ z ∈ visited, v.types.kind z = .union) {y : Ty} (hy : y ∈ pending) (hkind : v.types.kind y ≠ .union)
    (hreach : ReflTransGen (v.Steps ctx) y z) (hz : v.Rests ctx z) : z ∈ l := by
  have hseen : z ∈ seen := by
    clear hz
    induction hreach with
    | refl => exact (h.covered y hy).resolve_left fun hmem => hkind (hvisited y hmem)
    | tail _ hstep ih =>
      obtain ⟨r, hr, hne, hmem⟩ := hstep
      rcases h.closed _ ih with ⟨hrests, -⟩ | ⟨r', hr', -, hparts⟩
      · exact absurd (hr.unique regular_resolveOne hrests) hne
      · cases hr.unique regular_resolveOne hr'
        exact (hparts _ hmem).resolve_left fun h => hc.member_noUnion hmem (hvisited _ h)
  rcases h.closed z hseen with ⟨-, hmem⟩ | ⟨r, hr, hne, -⟩
  · exact hmem
  · exact absurd (hr.unique regular_resolveOne hz) hne

end Session.Explores

theorem resolvePending_explores (hx : x.Sound ctx) (hpending : ∀ z ∈ pending, x.types.Has z ∧ x.types.kind z ≠ .union)
    (hr : (ofBudget n).resolvePending k pending visited out ctx x = some (l, u)) (hv : v.Since ctx u)
    (hc : v.types.Canonical) : u.Since ctx x ∧ ∃ seen, v.Explores ctx pending visited out l seen := by
  have hu : u.Clear ctx := hv.kept.clear hv.clear
  induction k generalizing x pending visited out with
  | zero =>
    cases pending with
    | nil =>
      cases hr
      exact ⟨hx.since hu, ∅, .nil⟩
    | cons => cases hr
  | succ k ih =>
    cases pending with
    | nil =>
      cases hr
      exact ⟨hx.since hu, ∅, .nil⟩
    | cons current pending =>
      obtain ⟨hcurrent, hrest⟩ := forall_mem_cons.1 hpending
      rcases resolvePending_cases hr with ⟨hcanceled, -, rfl⟩ | ⟨hseen, hr⟩ | ⟨r, y, hone, hcase⟩
      · rw [hu.canceled] at hcanceled
        cases hcanceled
      · obtain ⟨hsince, seen, h⟩ := ih hx hrest hr
        refine ⟨hsince, seen, forall_mem_cons.2 ⟨.inl (contains_iff_mem.1 hseen), h.covered⟩, h.closed, h.kept,
          h.nodup, fun z hz => (h.reached z hz).imp_right ?_⟩
        rintro ⟨hhas, hstays, y, hy, hreach⟩
        exact ⟨hhas, hstays, y, .tail _ hy, hreach⟩
      · have hy : y.Kept u := hcase.elim (fun h => keeps_resolvePending ctx y l u h.2) fun h => keeps_resolvePending ctx y l u h.2
        obtain ⟨hpast, hstored⟩ := hx.goes regular_resolveOne (hx.stores_type hcurrent.1) hone
        have hys := hpast.sound hx
        have hsince := hpast.since (hy.clear hu)
        have hgrown {z : Ty} (hz : x.types.Has z ∧ x.types.kind z ≠ .union) : y.types.Has z ∧ y.types.kind z ≠ .union :=
          ⟨hpast.grown.has hz.1, by rw [hpast.grown.kind hz.1]; exact hz.2⟩
        have hfound (hu' : u.Since ctx y) : (v.unlimited 0).Always ctx.uncancelled (·.resolveOne current) r ∧
            v.types.Has current ∧ v.types.kind current ≠ .union := by
          have hvx := hv.trans (hu'.trans hsince)
          refine ⟨Always.of_found regular_resolveOne hx (hx.stores_type hcurrent.1) hone (hv.trans hu'), ?_⟩
          exact ⟨hvx.grown.has hcurrent.1, by rw [hvx.grown.kind hcurrent.1]; exact hcurrent.2⟩
        rcases hcase with ⟨rfl, hr⟩ | ⟨hne, hr⟩
        · obtain ⟨hu', seen, h⟩ := ih hys (fun z hz => hgrown (hrest z hz)) hr
          obtain ⟨hstays, hfacts⟩ := hfound hu'
          exact ⟨hu'.trans hsince, _, .cons (show v.Explores ctx ([] ++ pending) _ _ _ _ from h) hfacts hv.types
            (.inl ⟨hstays, rfl, rfl⟩)⟩
        · have hhas : y.types.Has r := (TypeTable.sameType_iff.1 hstored).1
          have hcy := canonical_downward _ _ hpast.types hv.types (hy.types.trans hv.grown) hc
          obtain ⟨hu', _, h⟩ := ih hys (forall_mem_append.2 ⟨fun z hz =>
            ⟨hpast.types.member_has hhas hz, hcy.member_noUnion hz⟩, fun z hz => hgrown (hrest z hz)⟩) hr
          obtain ⟨hanswers, hfacts⟩ := hfound hu'
          exact ⟨hu'.trans hsince, _, h.cons hfacts hv.types (.inr ⟨rfl, r, hanswers.answers hv.types, hne, (hv.trans hu').grown.members hhas⟩)⟩
end

/-! ## Members -/

theorem regular_anyWillResolve : Regular fun (S : Solver) (l : List Ty) => l.anyM S.willResolve :=
  fun L _ _ hS _ _ _ _ => L.anyM hS.willResolve

theorem regular_resolvedMembers : Regular fun (S : Solver) (ty : Ty) => S.resolvedMembers ty :=
  fun L _ _ hS _ _ _ _ => L.resolvedMembers hS

section
variable (hs : s.Sound ctx)
include hs

theorem Session.Sound.stores_types (hl : ∀ z ∈ l, s.types.Has z) : hs.types.Stores l :=
  ⟨forall₂_same.2 fun z hz => hs.stores_type (hl z hz)⟩

theorem anyWillResolve_false (hx : x.Past ctx s) (hl : ∀ z ∈ l, s.types.Has z)
    (hr : l.anyM (ofBudget n).willResolve ctx x = some (false, v)) (hv : v.Clear ctx) :
    ∀ z ∈ l, s.Answers ctx (·.willResolve z) false := by
  induction l generalizing x with
  | nil => nofun
  | cons z rest ih =>
    obtain ⟨hz, hrest⟩ := forall_mem_cons.1 hl
    obtain ⟨b, y, hwill, hr⟩ := bind_eq_some hr
    cases b with
    | true => cases hr
    | false =>
      obtain ⟨hy, -⟩ := hx.step regular_willResolve hs (hs.stores_type hz) hwill
      have hkept : y.Kept v := regular_anyWillResolve.keeps rest ctx y false v hr
      have hclear := hkept.clear hv
      refine forall_mem_cons.2 ⟨?_, ih hy hrest hr⟩
      have hx' : x.Clear ctx := (ask_keeps n (.willResolve z) rfl ctx x _ y hwill).clear hclear
      exact (hx.since hx').truth regular_willResolve hs (hs.stores_type hz) hwill hclear

variable (hty : s.types.Has ty)
include hty

theorem rests_of_anyWillResolve (hr : (s.types.members ty).anyM (ofBudget n).willResolve ctx s = some (false, u))
    (hv : v.Since ctx u) : u.Since ctx s ∧ ∀ z ∈ s.types.members ty, v.Rests ctx z := by
  have hparts : ∀ z ∈ s.types.members ty, s.types.Has z := fun z hz => hs.types.member_has hty hz
  have hu : u.Clear ctx := hv.kept.clear hv.clear
  obtain ⟨hpast, -⟩ := hs.goes regular_anyWillResolve (hs.stores_types hparts) hr
  have hsince := hpast.since hu
  exact ⟨hsince, fun z hz => (Rests.of_willResolve (anyWillResolve_false hs (.refl hs) hparts hr hu z hz)).later hs
    (hparts z hz) (hv.trans hsince)⟩

variable (hr : (ofBudget n).resolvedMembers ty ctx s = some (l, u)) (hv : v.Since ctx u) (hc : v.types.Canonical)
include hr hv hc

theorem resolvedMembers_explores : u.Since ctx s ∧ ((l = s.types.members ty ∧ ∀ z ∈ l, v.Rests ctx z) ∨
    ∃ visited seen, (∀ z ∈ visited, v.types.kind z = .union) ∧ v.Explores ctx (s.types.members ty) visited [] l seen) := by
  obtain ⟨_, _, hparts, hr⟩ := bind_eq_some hr
  cases hparts
  obtain ⟨b, w, hany, hr⟩ := bind_eq_some hr
  cases b with
  | false =>
    cases hr
    obtain ⟨hu, hrests⟩ := rests_of_anyWillResolve hs hty hany hv
    exact ⟨hu, .inl ⟨rfl, hrests⟩⟩
  | true =>
    have hparts : ∀ z ∈ s.types.members ty, s.types.Has z := fun z hz => hs.types.member_has hty hz
    obtain ⟨hw, -⟩ := hs.goes regular_anyWillResolve (hs.stores_types hparts) hany
    have hk : w.Kept u := keeps_resolvePending ctx w l u hr
    have hcw := canonical_downward _ _ hw.types hv.types (hk.types.trans hv.grown) hc
    have hmembers := hw.grown.members hty
    obtain ⟨hu, seen, h⟩ := resolvePending_explores (hw.sound hs)
      (fun z hz => ⟨hw.grown.has (hparts z hz), hcw.member_noUnion (hmembers ▸ hz)⟩) hr hv hc
    have hu' := hu.trans (hw.since (hk.clear (hv.kept.clear hv.clear)))
    refine ⟨hu', .inr ⟨_, seen, fun z hz => ?_, h⟩⟩
    -- only a type with several members is left out
    split at hz
    · rename_i hlength
      rw [mem_singleton.1 hz, (hv.trans hu').grown.kind hty]
      exact TypeTable.kind_of_several hlength
    · cases hz

theorem resolvedMembers_exact : u.Since ctx s ∧ l.Nodup ∧ (∀ z ∈ l, v.types.Has z ∧ v.types.kind z ≠ .union) ∧
    ∀ z, z ∈ l ↔ v.StepsTo ctx ty z ∧ v.Rests ctx z := by
  obtain ⟨hu, hcase⟩ := resolvedMembers_explores hs hty hr hv hc
  have hvs := hv.trans hu
  have hmembers := hvs.grown.members hty
  refine ⟨hu, ?_⟩
  rcases hcase with ⟨rfl, hrests⟩ | ⟨visited, seen, hvisited, h⟩
  · rw [← hmembers] at hrests ⊢
    exact ⟨hc.members_nodup.1, fun z hz => ⟨hvs.types.member_has (hvs.grown.has hty) hz, hc.member_noUnion hz⟩,
      fun z => (Rests.stepsTo_iff hrests).symm⟩
  · rw [← hmembers] at h
    have hlisted (z : Ty) (hz : z ∈ l) := (h.reached z hz).resolve_left not_mem_nil
    refine ⟨h.nodup .nil, fun z hz => (hlisted z hz).1, fun z => ⟨fun hz => ?_, ?_⟩⟩
    · obtain ⟨-, hstays, hreach⟩ := hlisted z hz
      exact ⟨hreach, hstays.answers hvs.types⟩
    · rintro ⟨⟨x, hx, hreach⟩, hrests⟩
      exact h.mem hc hvisited hx (hc.member_noUnion hx) hreach hrests
end

/-! ## Unions -/

theorem TypeTable.WF.kind_builtin (h : t.WF) (hty : ty.isBuiltin = true) :
    t.kind ty ∉ [Kind.classRef, .aliasRef, .generic] ∧ t.kind ty ≠ .union := by
  have hall : ∀ i < 10, initial.kind ⟨i⟩ ∉ [Kind.classRef, .aliasRef, .generic] ∧ initial.kind ⟨i⟩ ≠ .union := by decide
  rw [kind_of (h.lookup_builtin ty hty).2]
  exact hall ty.index (of_decide_eq_true hty)

section
variable {M : Ty → Prop} {children : List Ty} {member : Ty}

theorem appendMember_all (hc : ∀ z ∈ children, M z) (hm : M member) :
    (S.appendMember children member).Gives (∀ z ∈ ·, M z) := by
  refine Gives.bind (Gives.filterM children) fun _ hsub => .pure fun z hz => ?_
  rcases mem_append.1 hz with hz | hz
  · exact hc z (hsub.subset hz)
  · rwa [mem_singleton.1 hz]

/-- A member that is put in is one of those that were there, the new one, or `boolean` for its two literals. -/
theorem insertMember_all (hboolean : ∀ literal other, M literal → M other → otherBoolean? literal = some other → M Ty.boolean)
    (hc : ∀ z ∈ children, M z) (hm : M member) : (S.insertMember children member).Gives (∀ z ∈ ·, M z) := by
  refine .after fun covered => .ite (fun _ => .pure hc) fun _ => ?_
  split
  · rename_i other hother
    have herase : ∀ z ∈ children.erase other, M z := fun z hz => hc z (erase_subset hz)
    refine .ite (fun hmem => .after fun _ => .ite (fun _ => .pure herase) fun _ => ?_) fun _ => appendMember_all hc hm
    exact appendMember_all herase (hboolean member other hm (hc other (contains_iff_mem.1 hmem)) hother)
  · exact appendMember_all hc hm

theorem appendMember_ne_nil : (S.appendMember children member).Gives (· ≠ []) :=
  .after fun _ => .pure (append_ne_nil_of_right_ne_nil _ (cons_ne_nil _ _))

theorem insertPlain_ne_nil : (S.insertPlain children member).Gives (· ≠ []) := by
  cases children with
  | nil =>
    have happend : S.insertPlain [] member = S.appendMember [] member := rfl
    rw [happend]
    exact appendMember_ne_nil
  | cons => exact .after fun _ => .ite (fun _ => .pure (cons_ne_nil _ _)) fun _ => appendMember_ne_nil

theorem insertMember_ne_nil : (S.insertMember children member).Gives (· ≠ []) := by
  have hinsert (h : children ≠ []) : (S.insertMember children member).Gives (· ≠ []) := by
    refine .after fun _ => .ite (fun _ => .pure h) fun _ => ?_
    split
    · exact .ite (fun _ => insertPlain_ne_nil) fun _ => appendMember_ne_nil
    · exact appendMember_ne_nil
  cases children with
  | nil =>
    -- nothing covers it, and nothing is there to make it `boolean`
    have happend : S.insertMember [] member = S.appendMember [] member := by
      unfold Solver.insertMember
      cases otherBoolean? member <;> rfl
    rw [happend]
    exact appendMember_ne_nil
  | cons => exact hinsert (cons_ne_nil _ _)

theorem insertAll_ne_nil {flat : List Ty} (hne : flat ≠ []) : (flat.foldlM S.insertMember []).Gives (· ≠ []) := by
  obtain ⟨z, rest, rfl⟩ := exists_cons_of_ne_nil hne
  rw [foldlM_cons]
  exact .bind insertMember_ne_nil fun _ h => .foldlM h fun _ _ _ _ => insertMember_ne_nil

theorem regular_insertAll : Regular fun (S : Solver) (l : List Ty) => l.foldlM S.insertMember [] :=
  fun L _ _ hS _ _ _ _ => L.foldlM fun q _ _ _ _ _ _ _ => L.insertMember (hS.comparing q)

theorem regular_unionAll : Regular fun (S : Solver) (types : List Ty) => S.unionAll types :=
  fun L _ _ hS _ _ _ _ => L.unionAll hS

/-- The members of a union have what the members of its parts have and `boolean` has if both its literals do. -/
theorem unionAll_all (hs : s.Sound ctx) {types : List Ty} (htypes : ∀ ty ∈ types, s.types.Has ty)
    (hboolean : ∀ literal other, M literal → M other → otherBoolean? literal = some other → M Ty.boolean)
    (hflat : ∀ z ∈ s.types.flat types, M z ∧ s.types.kind z ≠ .union)
    (hr : (ofBudget n).unionAll types ctx s = some (r, u)) (hz : z ∈ u.types.members r) :
    M z ∨ z = Ty.void ∧ s.types.flat types = [] := by
  obtain ⟨hpast, -⟩ := hs.goes regular_unionAll (hs.stores_types htypes) hr
  have hbuiltin {r : Ty} (h : r.isBuiltin = true) (hz : z ∈ u.types.members r) : z = r := by
    rwa [members_eq_self (hpast.types.kind_builtin h).2, mem_singleton] at hz
  have hhas : ∀ z ∈ s.types.flat types, s.types.Has z := by
    intro z hz
    obtain ⟨ty, hty, hz⟩ := mem_flatMap.1 (mem_filter.1 hz).1
    exact hs.types.member_has (htypes ty hty) hz
  cases habsorbs : s.types.absorbs (s.types.flat types) with
  | true =>
    cases (unionAll_absorbed habsorbs).symm.trans hr
    obtain ⟨x, hx, hany⟩ := any_eq_true.1 (Bool.and_eq_true_iff.1 habsorbs).2
    obtain rfl : x = Ty.any := by simpa [Ty.isAny] using hany
    rw [hbuiltin rfl hz]
    exact .inl (hflat _ hx).1
  | false =>
    rw [unionAll_inserted habsorbs] at hr
    obtain ⟨children, v, hfold, hunion⟩ := bind_eq_some hr
    rw [run_unionOf] at hunion
    cases hunion
    have hall : ∀ z ∈ children, M z ∧ (z ∈ s.types.flat types ∨ z = Ty.boolean) :=
      Gives.foldlM (Q := fun l => ∀ z ∈ l, M z ∧ (z ∈ s.types.flat types ∨ z = Ty.boolean)) (by simp)
        (fun l z hz hl => insertMember_all (fun _ _ h h' hother => ⟨hboolean _ _ h.1 h'.1 hother, .inr rfl⟩) hl
          ⟨(hflat z hz).1, .inl hz⟩) ctx s children v hfold
    obtain ⟨hv, hstored⟩ := hs.goes regular_insertAll (hs.stores_types hhas) hfold
    obtain ⟨-, ⟨hvoid, rfl⟩ | hmem | ⟨l, hl, hsub⟩⟩ := hv.types.unionOf_cases (sameTypes_iff.1 hstored).1
    · refine .inr ⟨?_, by_contra fun hne => insertAll_ne_nil hne ctx s [] v hfold rfl⟩
      rw [hvoid] at hz
      exact hbuiltin rfl hz
    · refine .inl ?_
      obtain ⟨hr, hfrom⟩ := hall _ hmem
      suffices h : z = (v.types.unionOf children).1 by rwa [h]
      rcases hfrom with hflat' | hb
      · have hkind := (hflat _ hflat').2
        rw [← hpast.grown.kind (hhas _ hflat')] at hkind
        rwa [members_eq_self hkind, mem_singleton] at hz
      · rw [hb] at hz ⊢
        exact hbuiltin rfl hz
    · unfold TypeTable.members at hz
      rw [hl] at hz
      exact .inl (hall z (hsub.subset hz)).1

theorem unionAll_members (hs : s.Sound ctx) {types : List Ty}
    (htypes : ∀ ty ∈ types, s.types.Has ty ∧ s.types.kind ty ≠ .union)
    (hr : (ofBudget n).unionAll types ctx s = some (r, u)) (hz : z ∈ u.types.members r) :
    z ∈ types ∨ z.isBuiltin = true := by
  have hflat : ∀ z ∈ s.types.flat types, (z ∈ types ∨ z.isBuiltin = true) ∧ s.types.kind z ≠ .union := by
    intro z hz
    obtain ⟨ty, hty, hz⟩ := mem_flatMap.1 (mem_filter.1 hz).1
    rw [members_eq_self (htypes ty hty).2, mem_singleton] at hz
    exact hz ▸ ⟨.inl hty, (htypes ty hty).2⟩
  rcases unionAll_all hs (fun ty hty => (htypes ty hty).1) (fun _ _ _ _ _ => .inr rfl) hflat hr hz with h | ⟨rfl, -⟩
  · exact h
  · exact .inr rfl
end

/-! ## Resolution -/

theorem resolve_cases (hr : S.resolve ty ctx s = some (r, u)) :
    (r = ty ∧ (s.types.members ty).anyM S.willResolve ctx s = some (false, u)) ∨
    ∃ v l w, (s.types.members ty).anyM S.willResolve ctx s = some (true, v) ∧ S.resolvedMembers ty ctx v = some (l, w) ∧
      ((l.length = (s.types.members ty).length ∧ l ⊆ s.types.members ty) ∧ r = ty ∧ w = u ∨
      ¬ (l.length = (s.types.members ty).length ∧ l ⊆ s.types.members ty) ∧
        ((l = [] ∧ r = Ty.void ∨ l = [r]) ∧ w = u ∨ S.unionAll l ctx w = some (r, u))) := by
  obtain ⟨_, _, hparts, hr⟩ := bind_eq_some hr
  cases hparts
  obtain ⟨b, v, hany, hr⟩ := bind_eq_some hr
  cases b with
  | false =>
    cases hr
    exact .inl ⟨rfl, hany⟩
  | true =>
    obtain ⟨l, w, hmembers, hr⟩ := bind_eq_some hr
    refine .inr ⟨v, l, w, hany, hmembers, ?_⟩
    have hsame : (l.length = (s.types.members ty).length && l.all (s.types.members ty).contains) = true ↔
        l.length = (s.types.members ty).length ∧ l ⊆ s.types.members ty := by simp [subset_def]
    split at hr
    · obtain ⟨rfl, rfl⟩ := pure_eq_some hr
      exact .inl ⟨hsame.1 ‹_›, rfl, rfl⟩
    · refine .inr ⟨fun h => absurd (hsame.2 h) ‹_›, ?_⟩
      match l with
      | [] =>
        obtain ⟨rfl, rfl⟩ := pure_eq_some hr
        exact .inl ⟨.inl ⟨rfl, rfl⟩, rfl⟩
      | [single] =>
        obtain ⟨rfl, rfl⟩ := pure_eq_some hr
        exact .inl ⟨.inr rfl, rfl⟩
      | a :: b :: rest => exact .inr hr
section
variable (hs : s.Sound ctx) (hty : s.types.Has ty) (hr : (ofBudget n).resolve ty ctx s = some (r, u)) (hu : u.Clear ctx)
  (hc : u.types.Canonical)
include hs hty hr hu hc

theorem resolve_lists : (r = ty ∧ ∀ z ∈ u.types.members ty, u.Rests ctx z) ∨
    ∃ l : List Ty, l.Nodup ∧ (∀ z, z ∈ l ↔ u.StepsTo ctx ty z ∧ u.Rests ctx z) ∧ ¬ l.Perm (u.types.members ty) ∧
      (l = [] → r = Ty.void) ∧ ∀ z ∈ u.types.members r, u.Stays ctx z := by
  obtain ⟨hpast, -⟩ := hs.goes regular_resolve (hs.stores_type hty) hr
  rw [hpast.grown.members hty]
  have hparts : ∀ z ∈ s.types.members ty, s.types.Has z := fun z hz => hs.types.member_has hty hz
  rcases resolve_cases hr with ⟨rfl, hany⟩ | ⟨v, l, w, hany, hmembers, hcase⟩
  · exact .inl ⟨rfl, (rests_of_anyWillResolve hs hty hany ((hpast.sound hs).since hu)).2⟩
  · obtain ⟨hv, -⟩ := hs.goes regular_anyWillResolve (hs.stores_types hparts) hany
    have hvs := hv.sound hs
    obtain ⟨hw, hl⟩ := hvs.goes regular_resolvedMembers (hvs.stores_type (hv.grown.has hty)) hmembers
    have hws := hw.sound hvs
    have hsince : u.Since ctx w := by
      rcases hcase with ⟨-, -, rfl⟩ | ⟨-, ⟨-, rfl⟩ | hunion⟩
      · exact hws.since hu
      · exact hws.since hu
      · exact (hws.goes regular_unionAll hl hunion).1.since hu
    obtain ⟨-, hexplores⟩ := resolvedMembers_explores hvs (hv.grown.has hty) hmembers hsince hc
    obtain ⟨-, hnodup, hlisted, hexact⟩ := resolvedMembers_exact hvs (hv.grown.has hty) hmembers hsince hc
    rw [hv.grown.members hty] at hexplores
    have hperm : l.Perm (s.types.members ty) ↔ l.length = (s.types.members ty).length ∧ l ⊆ s.types.members ty :=
      ⟨fun h => ⟨h.length_eq, h.subset⟩, fun h => (subperm_of_subset hnodup h.2).perm_of_length_le h.1.ge⟩
    rw [← hperm] at hcase
    rcases hcase with ⟨hsame, hty, -⟩ | ⟨hother, hcase⟩
    · exact .inl ⟨hty, fun z hz => ((hexact z).1 (hsame.mem_iff.2 hz)).2⟩
    · have hstays : ∀ z ∈ l, u.Stays ctx z := by
        rcases hexplores with ⟨rfl, -⟩ | ⟨visited, seen, -, h⟩
        · exact absurd (.refl _) hother
        · exact fun z hz => ((h.reached z hz).resolve_left not_mem_nil).2.1
      have hmembers : ∀ z ∈ u.types.members r, z ∈ l ∨ z.isBuiltin = true := by
        rcases hcase with ⟨⟨-, rfl⟩ | rfl, -⟩ | hunion
        · intro z hz
          rw [members_eq_self (hpast.types.kind_builtin rfl).2, mem_singleton] at hz
          exact .inr (by rw [hz]; rfl)
        · rw [members_eq_self (hlisted r mem_cons_self).2]
          exact fun z => .inl
        · refine fun z => unionAll_members hws (fun z hz => ?_) hunion
          have hhas := (sameTypes_iff.1 hl).1 z hz
          exact ⟨hhas, by rw [← hsince.grown.kind hhas]; exact (hlisted z hz).2⟩
      refine .inr ⟨l, hnodup, hexact, hother, ?_, fun z hz => ?_⟩
      · rintro rfl
        rcases hcase with ⟨⟨-, hvoid⟩ | hsingle, -⟩ | hunion
        · exact hvoid
        · cases hsingle
        · cases hunion
          rfl
      · rcases hmembers z hz with hz | hbuiltin
        · exact hstays z hz
        · exact .of_kind (hpast.types.lookup_builtin z hbuiltin).1 (hpast.types.kind_builtin hbuiltin).1

theorem resolve_rests : ∀ z ∈ u.types.members r, u.Rests ctx z := by
  rcases resolve_lists hs hty hr hu hc with ⟨rfl, hrests⟩ | ⟨l, -, -, -, -, hstays⟩
  · exact hrests
  · exact fun z hz => (hstays z hz).answers (hs.goes regular_resolve (hs.stores_type hty) hr).1.types

theorem resolve_of_rests (h : ∀ z ∈ u.types.members ty, u.Rests ctx z) : r = ty := by
  rcases resolve_lists hs hty hr hu hc with ⟨hsame, -⟩ | ⟨l, hnodup, hexact, hother, -⟩
  · exact hsame
  · refine absurd ((perm_ext_iff_of_nodup hnodup hc.members_nodup.1).2 fun z => ?_) hother
    exact (hexact z).trans (Rests.stepsTo_iff h)
end

/-! ## Exact resolution -/

section
variable (hw : s.types.WF) (halias : ∀ name ty, s.aliasSeen ctx name = some ty → s.types.Has ty)
include hw halias

theorem unfolds_named (hgeneric : ∀ z, s.StepsTo ctx ty z → s.types.kind z ≠ .generic) :
    s.Unfolds ctx (fun _ z => s.types.Has z ∧ s.StepsTo ctx ty z) (fun _ _ => True) (s.types.made 0) where
  types := hw
  finite := s.types.made_finite 0
  later _ _ _ _ _ := ⟨id, id⟩
  has u hu z hz := hu.grown.has hz.1
  step u hu z hz := by
    obtain ⟨hhas, x, hx, hreach⟩ := hz
    have htabular := TypeTable.tabular_of_kind (hgeneric z ⟨x, hx, hreach⟩)
    refine (ends_resolveOne hu.types (hu.tabular hhas htabular)).imp fun r v hv hr => ?_
    rw [hu.next hhas] at hr
    by_cases he : s.next ctx z = z
    · exact .inl ⟨hr.trans he, trivial⟩
    · refine .inr ⟨hr ▸ he, TypeTable.tree_old hw hu.types hu.grown hhas, fun p hp => ?_⟩
      have hnext := Session.next_has hw halias hhas
      rw [hr, (hu.trans hv).grown.members hnext] at hp
      refine ⟨hw.member_has hnext hp, x, hx, hreach.tail ⟨_, ?_, he, hp⟩⟩
      have hends : (s.unlimited 0).Ends ctx.uncancelled (·.resolveOne z) fun r _ => r = s.next ctx z :=
        ends_resolveOne (s := s.unlimited 0) hw htabular
      obtain ⟨N, _, w, hrun, -, rfl⟩ := hends
      exact ⟨N, w, hrun N le_rfl⟩
end

/-- What comes to nothing is resolved to `void`. -/
theorem Session.Always.resolve_void (hw : s.types.WF) (hty : s.types.Has ty)
    (hne : s.types.members ty ≠ []) (h : s.Always ctx (·.resolvedMembers ty) []) :
    s.Always ctx (·.resolve ty) Ty.void := by
  refine (Always.members hty).after fun u hu => ?_
  have hwill : u.Stops ctx fun S => (s.types.members ty).anyM S.willResolve := ends_anyM hu.types fun z hz v hv =>
    ends_willResolve_has hv.types ((hu.trans hv).grown.has (hw.member_has hty hz))
  obtain ⟨N, any, v, hany, hv, -⟩ := hwill
  cases any with
  | true =>
    refine Ends.bind (Q := fun b _ => b = true) ⟨N, true, v, hany, hv, rfl⟩ ?_
    rintro _ v hv rfl
    refine (h v (hu.trans hv)).bind ?_
    rintro _ w hw rfl
    exact .ite (fun hall => absurd hall (by simp [eq_comm (a := 0), hne])) fun _ => .pure hw.types rfl
  | false =>
    -- the members would be listed
    obtain ⟨N', _, w, hl, -, rfl⟩ := h u hu
    have hparts : Solve.members ty ctx u = some (s.types.members ty, u) :=
      congrArg (fun l => some (l, u)) (hu.grown.members hty)
    replace hl := of_read (hl _ (le_max_right N N')) hparts
    obtain ⟨_, _, hany', hl⟩ := bind_eq_some hl
    cases (hany _ (le_max_left N N')).symm.trans hany'
    exact absurd (congrArg Prod.fst (Option.some.inj hl)) hne

section
variable (hs : s.Sound ctx) (hc : s.types.Canonical) {ty : Ty} (hty : s.types.Has ty)
include hs hc hty

/-- Each type at rest that steps lead to is listed once and nothing else is, if nothing stops the query; it comes to an
end if no instance is met. What a type is resolved to is resolved to itself, and it is `void` where no type is at rest. -/
theorem resolution_exact :
    (∀ n l u, (ofBudget n).resolvedMembers ty ctx s = some (l, u) → u.Clear ctx →
      l.Nodup ∧ (∀ z, z ∈ l ↔ u.StepsTo ctx ty z ∧ u.Rests ctx z) ∧
        ((∀ z, u.StepsTo ctx ty z → ¬ u.Rests ctx z) → u.Answers ctx (·.resolve ty) Ty.void)) ∧
    ((∀ z, s.StepsTo ctx ty z → s.types.kind z ≠ .generic) →
      ∃ N l u, ∀ n, N ≤ n → (ofBudget n).resolvedMembers ty ctx s = some (l, u)) ∧
    ∀ n r u, (ofBudget n).resolve ty ctx s = some (r, u) → u.Clear ctx →
      ((∀ z, u.StepsTo ctx ty z → ¬ u.Rests ctx z) → r = Ty.void) ∧ u.Answers ctx (·.resolve r) r := by
  have hstored := hs.stores_type hty
  refine ⟨fun n l u hr hu => ?_, fun hgeneric => ?_, fun n r u hr hu => ?_⟩
  · obtain ⟨hpast, -⟩ := hs.goes regular_resolvedMembers hstored hr
    have hsince := (hpast.sound hs).since hu
    have hc := (Session.Past.grows regular_resolvedMembers hs (.refl hs) hstored hr).canonical hc
    obtain ⟨-, hnodup, -, hexact⟩ := resolvedMembers_exact hs hty hr hsince hc
    refine ⟨hnodup, hexact, fun hnone => ?_⟩
    obtain rfl : l = [] := List.eq_nil_iff_forall_not_mem.2 fun z hz => hnone z ((hexact z).1 hz).1 ((hexact z).1 hz).2
    have hfound := Session.Always.of_found regular_resolvedMembers hs hstored hr hsince
    refine Session.Always.answers ?_ hpast.types
    exact .resolve_void (s := u.unlimited 0) hpast.types (hpast.grown.has hty) hc.members_nodup.2 hfound
  · have hunfolds := unfolds_named hs.types (fun name ty => hs.alias_has) hgeneric
    obtain ⟨N, l, u, hr, -⟩ := hunfolds.resolvedMembers (.of_wf hs.types) hty fun z hz =>
      ⟨hs.types.member_has hty hz, z, hz, .refl⟩
    exact ⟨N, l, u, hr⟩
  · obtain ⟨hpast, hresult⟩ := hs.goes regular_resolve hstored hr
    have hsince := (hpast.sound hs).since hu
    have hc := (Session.Past.grows regular_resolve hs (.refl hs) hstored hr).canonical hc
    rcases resolve_lists hs hty hr hu hc with ⟨rfl, hrests⟩ | ⟨l, -, hexact, -, hvoid, hstays⟩
    · refine ⟨fun hnone => ?_, (Session.Always.of_found regular_resolve hs hstored hr hsince).answers hpast.types⟩
      obtain ⟨z, hz⟩ := List.exists_mem_of_ne_nil _ hc.members_nodup.2
      exact absurd (hrests z hz) (hnone z ⟨z, hz, .refl⟩)
    · refine ⟨fun hnone => hvoid (List.eq_nil_iff_forall_not_mem.2 fun z hz => ?_), ?_⟩
      · exact hnone z ((hexact z).1 hz).1 ((hexact z).1 hz).2
      · refine Session.Always.answers ?_ hpast.types
        exact .resolve (s := u.unlimited 0) rfl hpast.types (TypeTable.sameType_iff.1 hresult).1 hstays
          hc.members_nodup.1 fun hseveral hmem => hc.member_noUnion hmem (TypeTable.kind_of_several hseveral)
end

/-- `A<string>` is resolved, though the aliases lead back to each other; nothing is at rest, and it is `void`. -/
theorem resolution_exact_entwined : entwinedStart.types.Canonical ∧ ∃ u,
    (ofBudget 12).resolvedMembers ⟨21⟩ entwined.context entwinedStart = some ([], u) ∧ u.Clear entwined.context ∧
    (∀ z, ¬ (u.StepsTo entwined.context ⟨21⟩ z ∧ u.Rests entwined.context z)) ∧
    u.Answers entwined.context (·.resolve ⟨21⟩) Ty.void := by
  have hc : entwinedStart.types.Canonical := by decide +kernel
  have hrun : ((ofBudget 12).resolvedMembers ⟨21⟩ entwined.context entwinedStart).map
      (fun r => (r.1, r.2.guard.exceeded, r.2.canceled)) = some ([], false, false) := by decide +kernel
  obtain ⟨⟨l, u⟩, hr, hfacts⟩ := Option.map_eq_some_iff.1 hrun
  obtain ⟨rfl, hexceeded, hcanceled⟩ : l = [] ∧ u.guard.exceeded = false ∧ u.canceled = false := by simpa using hfacts
  have hu : u.Clear entwined.context := ⟨hexceeded, by simp [hcanceled]⟩
  obtain ⟨-, hexact, hvoid⟩ := (resolution_exact entwinedStart_sound hc (by decide +kernel)).1 12 [] u hr hu
  have hnone (z : Ty) : ¬ (u.StepsTo entwined.context ⟨21⟩ z ∧ u.Rests entwined.context z) := by simp [← hexact z]
  exact ⟨hc, u, hr, hu, hnone, hvoid fun z hz hrests => hnone z ⟨hz, hrests⟩⟩

/-- The string `a`, `⟨10⟩`, the number `1`, `⟨11⟩`, the type parameter `T`, `⟨12⟩`, the aliases `A<T> = T | string`,
`⟨14⟩`, and `B<T> = T | number`, `⟨16⟩`, and the union of `A<"a">`, `⟨17⟩`, and `B<1>`, `⟨18⟩`. -/
def cutTypes : TypeTable :=
  .ofForms ["a", "1", "T", "A", "B"] [.literal .string ⟨3⟩, .literal .number ⟨4⟩, .param ⟨5⟩ ⟨5⟩ none,
    .union [⟨12⟩, Ty.string], .aliasRef ⟨6⟩ [⟨12⟩] ⟨13⟩, .union [⟨12⟩, Ty.number], .aliasRef ⟨7⟩ [⟨12⟩] ⟨15⟩,
    .generic ⟨14⟩ [⟨10⟩], .generic ⟨16⟩ [⟨11⟩], .union [⟨17⟩, ⟨18⟩]]

/-- Three steps of the guard are enough for `A<"a">` or for `B<1>`, which are `string` and `number`. They are not for both,
so `1` is listed too. -/
theorem resolvedMembers_limited : ∃ s : Session, s = .start cutTypes ⟨256, 3⟩ ∧ s.types.Canonical ∧
    (∀ step ∈ [((⟨17⟩ : Ty), Ty.string), (⟨18⟩, Ty.number), (Ty.string, Ty.string), (Ty.number, Ty.number)],
      ((ofBudget 9).resolveOne step.1 Declarations.empty.context s).map (fun r => (r.1, r.2.guard.exceeded)) =
        some (step.2, false)) ∧
    ((ofBudget 9).resolvedMembers ⟨19⟩ Declarations.empty.context s).map (·.1) = some [Ty.string, ⟨11⟩, Ty.number] :=
  ⟨_, rfl, by decide +kernel, by decide +kernel, by decide +kernel⟩

end AnnotatedLua
