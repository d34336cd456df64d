/-
Queries keep sessions sound. A query that starts from stored handles leads to no handle that was not given out
(`Session.Past.step`) and keeps unions canonical (`Session.Past.grows`), even if something stopped it: what members are
left where they are put together or taken away may stand in one union (`insertAll_joinable`, `removeMember_joinable`). A
query that may ask other questions repeats it, unless something stopped it (`Alone.Agree`).
-/
import AnnotatedLua.Proofs.Union.Members

namespace AnnotatedLua

open Solve TypeTable List Solver Pairing.After

variable {s u : Session} {t : TypeTable} {p : Pairing} {S : Solver} {types : List Ty}

theorem TypeTable.pairing_eq (h : t.WF) : h.self.After .eq :=
  ⟨fun e => h.eq_of_tree e.1 e.2.1 e.2.2, fun e => h.eq_of_text e.1 e.2.1 e.2.2⟩

structure Session.Fine (ctx : Context) (I : TypeTable → Prop) (s : Session) : Prop extends s.Clear ctx where
  known : I s.types

variable {ctx : Context}

theorem Session.Kept.fine {I : TypeTable → Prop} (hI : Downward I) (h : s.Kept u)
    (hs : s.types.WF) (hu : u.types.WF) (hf : u.Fine ctx I) : s.Fine ctx I :=
  ⟨h.clear hf.toClear, hI _ _ hs hu h.types hf.known⟩

/-! ## A run beside itself -/

abbrev Lone (ctx : Context) (base s : Session) : Prop := Twins ctx base (fun _ => True) s s

namespace Alone

variable {ctx : Context} {base : Session} {I : TypeTable → Prop}

/-- All handles are stored, and unions are canonical if they were. -/
def Leads (h : Lone ctx base s) {α : Type} [Value α] (a : α) (u : Session) : Prop :=
  ∃ k : Lone ctx base u, h.pairing.After k.pairing ∧ Same k.pairing a a ∧ (s.types.Canonical → u.types.Canonical)

variable (ctx base I) in
structure Agree (p : Pairing) {α : Type} [Value α] (m m' : Solve α) : Prop where
  keeps : p.After .eq → Keeps m
  leads (s : Session) (h : Lone ctx base s) [p.After h.pairing] (a : α) (u : Session) : m ctx s = some (a, u) →
    Leads h a u ∧ (u.Fine ctx I → m' ctx s = some (a, u))

variable {α β : Type} [Value α] [Value β] {m m' : Solve α}

theorem eq_of_same (h : Lone ctx base s) [p.After h.pairing] {a a' : α} [hs : Same p a a'] : a = a' :=
  hs.eq_of_after (trans inferInstance (pairing_eq h.left.types))

theorem leads_of_inStep {h : Lone ctx base s} {a : α} (hi : h.InStep (m ctx s) (m ctx s))
    (hr : m ctx s = some (a, u)) (hc : s.types.Canonical → u.types.Canonical) : Leads h a u := by
  obtain ⟨_, _, hr', k, hk, hs⟩ := hi.left hr
  cases hr'.symm.trans hr
  exact ⟨k, hk, hs, hc⟩

theorem of_twins {f : β → Solve α} {b c : β} [hs : Same p b c]
    (hm : Twins.Agree ctx base (fun _ => True) p (f b) (f c)) (hk : Keeps (f b))
    (hc : ∀ (s : Session) (h : Lone ctx base s) [p.After h.pairing] (a : α) (u : Session), f b ctx s = some (a, u) →
      s.types.Canonical → u.types.Canonical) : Agree ctx base I p (f b) (f c) := by
  refine ⟨fun _ => hk, fun s h _ a u hr => ?_⟩
  obtain rfl : b = c := eq_of_same h
  exact ⟨leads_of_inStep (hm s s h) hr (hc s h a u hr), fun _ => hr⟩

theorem agree_silent {g g' : Context → Session → α} (hm : ∀ ctx s, m ctx s = some (g ctx s, s))
    (hm' : ∀ ctx s, m' ctx s = some (g' ctx s, s)) (hg : ∀ (s : Session) (h : Lone ctx base s) [p.After h.pairing],
      g ctx s = g' ctx s ∧ Same h.pairing (g ctx s) (g ctx s)) : Agree ctx base I p m m' := by
  refine ⟨fun _ => keeps_of_id fun ctx s => ⟨_, hm ctx s⟩, fun s h _ a u hr => ?_⟩
  cases (hm ctx s).symm.trans hr
  obtain ⟨he, hs⟩ := hg s h
  exact ⟨⟨h, .refl _, hs, id⟩, fun _ => by rw [hm', he]⟩

theorem agree_bind (hI : Downward I) {f f' : α → Solve β} (hm : Agree ctx base I p m m')
    (hf : ∀ (q : Pairing) [p.After q] (a a' : α) [Same q a a'], Agree ctx base I q (f a) (f' a')) :
    Agree ctx base I p (m >>= f) (m' >>= f') := by
  refine ⟨fun hp => keeps_closed.bind (hm.keeps hp) fun a => (hf .eq a a).keeps (.refl _), fun s h hp b u hr => ?_⟩
  obtain ⟨a, v, hma, hfa⟩ := bind_eq_some hr
  obtain ⟨⟨k, hk, hs, hc⟩, hma'⟩ := hm.leads s h a v hma
  have hnext := @hf k.pairing (hp.trans hk) a a hs
  have hself := Pairing.After.refl k.pairing
  obtain ⟨⟨l, hl, hb, hc'⟩, hfa'⟩ := hnext.leads v k b u hfa
  refine ⟨⟨l, hk.trans hl, hb, hc' ∘ hc⟩, fun hu => ?_⟩
  have hv := (hnext.keeps (pairing_eq k.left.types) ctx v b u hfa).fine hI k.left.types l.left.types hu
  rw [run_bind (hma' hv), hfa' hu]

theorem agree_withGuard (activity : Activity) {subject subject' : Subject} [hs : Same p subject subject']
    (hm : Agree ctx base I p m m') :
    Agree ctx base I p (withGuard activity subject m) (withGuard activity subject' m') := by
  refine ⟨fun hp => keeps_closed.withGuard activity subject (hm.keeps hp), fun s h _ a u hr => ?_⟩
  obtain rfl : subject = subject' := eq_of_same h
  have hsubject := hs.upTo h.pairing
  have hguard := h.guard
  have hkey : Same h.pairing (guardKey ctx s activity subject) (guardKey ctx s activity subject) := by
    unfold guardKey
    infer_instance
  have he : Same h.pairing (s.guard.enter (guardKey ctx s activity subject))
      (s.guard.enter (guardKey ctx s activity subject)) := inferInstance
  rw [run_withGuard] at hr ⊢
  generalize s.guard.enter (guardKey ctx s activity subject) = e at he hr ⊢
  obtain ⟨admission, g⟩ := e
  have k := h.setGuard he.out.2
  cases admission with
  | entered =>
    obtain ⟨⟨b, v⟩, hb, hv⟩ := Option.map_eq_some_iff.1 hr
    cases hv
    obtain ⟨⟨l, hl, _, hc⟩, hm'⟩ := hm.leads _ k b v hb
    have := l.guard
    have := hkey.upTo l.pairing
    refine ⟨⟨l.setGuard (Same.get l.pairing (v.guard.leave _) (v.guard.leave _)), hl,
      Same.get l.pairing (some b) (some b), hc⟩, fun hu => ?_⟩
    have hv : v.Fine ctx I := ⟨⟨hu.exceeded, hu.canceled⟩, hu.known⟩
    simp only [hm' hv, Option.map_some]
  | _ =>
    cases hr
    exact ⟨⟨k, .refl _, inferInstance, id⟩, fun _ => rfl⟩

theorem agree_withExpansion {name name' : Symbol} [hn : Same p name name'] (hm : Agree ctx base I p m m') :
    Agree ctx base I p (withExpansion name m) (withExpansion name' m') := by
  refine ⟨fun hp => keeps_closed.withExpansion name (hm.keeps hp), fun s h _ a u hr => ?_⟩
  obtain rfl : name = name' := eq_of_same h
  have := h.expanding
  rw [run_withExpansion] at hr ⊢
  split at hr
  · rename_i hc
    cases hr
    exact ⟨⟨h, .refl _, inferInstance, id⟩, fun _ => if_pos hc⟩
  · rename_i hc
    obtain ⟨⟨b, v⟩, hb, hv⟩ := Option.map_eq_some_iff.1 hr
    cases hv
    have k := h.setExpanding (Same.get h.pairing (name :: s.expanding) (name :: s.expanding))
    obtain ⟨⟨l, hl, _, hcanonical⟩, hm'⟩ := hm.leads _ k b v hb
    have := l.expanding
    have : Same l.pairing name name := (hn.upTo h.pairing).upTo l.pairing
    refine ⟨⟨l.setExpanding (Same.get l.pairing (v.expanding.erase name) (v.expanding.erase name)), hl,
      Same.get l.pairing (some b) (some b), hcanonical⟩, fun hu => ?_⟩
    rw [if_neg hc, hm' ⟨⟨hu.exceeded, hu.canceled⟩, hu.known⟩]
    rfl

theorem agree_store {F : β → Interning α} {b c : β} [Same p b c] (hF : ∀ b, (F b).Grows)
    (hs : ∀ (t t' : TypeTable) (h : t.WF) (h' : t'.WF) [p.After (pairing h h')],
      ∃ (k : (F b t).2.WF) (k' : (F c t').2.WF), Same (pairing k k') (F b t).1 (F c t').1)
    (hc : ∀ (t : TypeTable) (h : t.WF) [p.After h.self], t.Canonical → (F b t).2.Canonical) :
    Agree ctx base I p (store (F b)) (store (F c)) := by
  refine of_twins (f := fun b => store (F b)) (Twins.agree_store (hF b) (hF c) hs)
    (keeps_closed.store (hF b)) fun s h _ a u hr => ?_
  cases hr
  exact hc s.types h.left.types

def steps (hI : Downward I) (hb : base.Sound ctx) : Steps where
  Agree := Agree ctx base I
  later {_ _ _ _ _ _ hq} hm := ⟨fun hp => hm.keeps (hq.trans hp), fun s h hp => @hm.leads s h (hq.trans hp)⟩
  pure {_ _ _ a a' _} := agree_silent (fun _ _ => rfl) (fun _ _ => rfl) fun _ h _ => by
    obtain rfl : a = a' := eq_of_same h
    exact ⟨rfl, inferInstance⟩
  bind := agree_bind hI
  exhausted := ⟨fun _ => keeps_closed.exhausted, fun _ _ _ _ _ hr => nomatch hr⟩
  Budgets := Eq
  same_budget _ := rfl
  budget_pred := @Steps.eq_budget_pred
  spent h := nomatch h
  ofTypes {_ _ _ f f'} hf := agree_silent (fun _ _ => rfl) (fun _ _ => rfl) fun s h _ => by
    have hs : Same h.pairing (f s.types) (f' s.types) := hf
    have := Pairing.After.refl h.pairing
    have he : f s.types = f' s.types := eq_of_same (p := h.pairing) h
    rw [← he] at hs
    exact ⟨he, hs⟩
  internText text := agree_store (F := fun _ : Unit => .symbol text) (b := ()) (c := ())
    (fun _ t => t.internText_extends text)
    (fun t t' h h' _ => ⟨h.internText text, h'.internText text, internText_same h h' text⟩)
    fun t h _ hc => hc.of_forms (t.internText_extends text) h (h.internText text) rfl
  internForm {_ _ _ hf} hform := agree_store (F := .form) (fun form t => t.intern_extends form)
    (fun _ _ _ _ _ => intern_same (hf.upTo _)) fun t h _ hc => by
      have hholds := (holds_of_same (hf.upTo (pairing h h))).1
      exact hc.intern h hholds fun members he => absurd (congrArg FormOf.kind he) hform
  keepName {_ ty _ hty} := agree_store (F := .nameOf) (fun ty t => t.keepName_extends ty)
    (fun _ _ h h' _ => by
      obtain ⟨k, k', e⟩ := keepName_same (hty.upTo (pairing h h'))
      exact ⟨k, k', ⟨e⟩⟩) fun t h _ hc => by
      have hhas := (sameType_iff.1 (hty.upTo (pairing h h))).1
      exact hc.of_forms (t.keepName_extends ty) h (h.keepName hhas) (t.keepName_forms ty)
  settings := agree_silent (fun _ _ => rfl) (fun _ _ => rfl) fun _ _ _ => ⟨rfl, inferInstance⟩
  isCanceled := agree_silent (fun _ _ => rfl) (fun _ _ => rfl) fun _ _ _ => ⟨rfl, inferInstance⟩
  parent _ _ := agree_silent (fun _ _ => rfl) (fun _ _ => rfl) fun _ _ _ => ⟨rfl, inferInstance⟩
  classDecl {_ name _ _} := of_twins (f := classDecl) (Twins.agree_classDecl hb) (keeps_classDecl name)
    fun s _ _ a u hr hc => by
      rw [classDecl_eq_look] at hr
      split at hr <;> cases hr
      · exact hc
      · obtain ⟨classes, canceled, he, -⟩ := s.lookClass_eq ctx name
        rwa [he]
  aliasType {_ name _ _} := of_twins (f := aliasType) (Twins.agree_aliasType hb) (keeps_aliasType name)
    fun s _ _ a u hr hc => by
      rw [aliasType_eq_look] at hr
      split at hr <;> cases hr
      · exact hc
      · obtain ⟨aliases, he⟩ := s.lookAlias_eq ctx name
        rwa [he]
  scopedType {_} node {name _ _} := of_twins (f := scopedType node) (Twins.agree_scopedType hb node)
    (keeps_scopedType node name) fun s _ _ a u hr hc => by
      rw [run_scopedType] at hr
      cases hr
      exact hc
  withGuard {_ _ _ _ _} activity {_ _ _} hm := agree_withGuard activity hm
  withExpansion hm := agree_withExpansion hm

end Alone

/-! ## Members -/

section
variable {children : List Ty} {member removed other : Ty}

theorem TypeTable.WF.single_builtin (h : t.WF) {ty : Ty} (hty : ty.isBuiltin = true)
    (hk : (initial.kind ty ≠ .void ∧ initial.kind ty ≠ .union)) : t.Single ty := by
  obtain ⟨hhas, hl⟩ := h.lookup_builtin ty hty
  rw [kind_of hl.symm] at hk
  exact ⟨hhas, hk.1, hk.2⟩

section
variable (h : t.Joinable children) (hm : t.Single member)
  (hb : ∀ other, Solver.otherBoolean? member = some other → other ∉ children)
include h hm hb

theorem TypeTable.Joinable.append : t.Joinable (children ++ [member]) := by
  refine ⟨fun ty hty => ?_, fun ⟨htrue, hfalse⟩ => ?_⟩
  · rcases mem_append.1 hty with hty | hty
    · exact h.single ty hty
    · rwa [mem_singleton.1 hty]
  · rw [mem_append, mem_singleton] at htrue hfalse
    rcases htrue with htrue | rfl <;> rcases hfalse with hfalse | hfalse
    · exact h.booleans ⟨htrue, hfalse⟩
    · subst hfalse
      exact hb _ rfl htrue
    · exact hb _ rfl hfalse
    · cases hfalse

theorem appendMember_joinable : (S.appendMember children member).Gives t.Joinable := by
  refine Gives.bind (Gives.filterM children) fun _ hsub => .pure ?_
  exact (h.of_subset hsub.subset).append hm fun other ho hmem => hb other ho (hsub.subset hmem)
end

theorem insertMember_joinable (hboolean : t.Single Ty.boolean) (h : t.Joinable children) (hm : t.Single member) :
    (S.insertMember children member).Gives t.Joinable := by
  refine .after fun covered => .ite (fun _ => .pure h) fun _ => ?_
  split
  · rename_i other ho
    refine .ite (fun _ => ?_) fun hno => appendMember_joinable h hm fun _ ho' hmem => ?_
    · -- `true` and `false` have met
      refine .after fun _ => .ite (fun _ => .pure ?_) fun _ => appendMember_joinable ?_ hboolean nofun
      all_goals exact h.of_subset erase_subset
    · cases ho.symm.trans ho'
      exact hno (contains_iff_mem.2 hmem)
  · rename_i hnone
    exact appendMember_joinable h hm fun _ ho => by cases hnone.symm.trans ho

theorem insertAll_joinable (hboolean : t.Single Ty.boolean) (ht : ∀ ty ∈ types, t.Single ty) :
    (types.foldlM S.insertMember []).Gives t.Joinable :=
  .foldlM ⟨by simp, by simp⟩ fun _ ty hty h => insertMember_joinable hboolean h (ht ty hty)

theorem removeMember_joinable (htrue : t.Single Ty.trueLiteral) (hfalse : t.Single Ty.falseLiteral)
    (h : t.Joinable children) : (S.removeMember children removed).Gives t.Joinable := by
  refine .ite (fun _ => .pure (h.of_subset erase_subset)) fun hno => ?_
  split
  · rename_i other ho
    refine .ite (fun _ => .pure ?_) fun _ => .pure h
    have hrest := h.of_subset (erase_subset (a := Ty.boolean))
    split
    · exact hrest
    · -- the literal that is left does not meet the one that was taken away
      have hother : removed ∉ children.erase Ty.boolean := fun hmem =>
        hno (contains_iff_mem.2 (erase_subset hmem))
      rcases Subsumption.otherBoolean?_eq_some ho with ⟨rfl, rfl⟩ | ⟨rfl, rfl⟩
      · exact hrest.append hfalse fun _ ho' => by cases ho'; exact hother
      · exact hrest.append htrue fun _ ho' => by cases ho'; exact hother
  · refine .ite (fun _ => .pure (h.of_subset filter_sublist.subset)) fun _ => ?_
    exact (Gives.filterM children).imp fun _ hsub => h.of_subset hsub.subset

/-- Without `boolean` there is nothing to put in. -/
theorem removeMember_sublist (h : Ty.boolean ∉ children) :
    (S.removeMember children removed).Gives (·.Sublist children) := by
  refine .ite (fun _ => .pure erase_sublist) fun _ => ?_
  split
  · refine .ite (fun hb => absurd (contains_iff_mem.1 hb) h) fun _ => .pure (.refl _)
  · exact .ite (fun _ => .pure filter_sublist) fun _ => Gives.filterM children
end

/-! ## Unions and differences -/

namespace Alone

variable {ctx : Context} {base : Session} {I : TypeTable → Prop} (hI : Downward I)
include hI

theorem leads_unionOf {m m' : Solve (List Ty)} (hm : Agree ctx base I p m m') (h : Lone ctx base s)
    [p.After h.pairing] {r : Ty} (hr : (m >>= Solver.unionOf) ctx s = some (r, u))
    (hc : ∀ children v, m ctx s = some (children, v) → s.types.Canonical → v.types.WF → s.types.Extends v.types →
      v.types.Canonical → (v.types.unionOf children).2.Canonical) :
    Leads h r u ∧ (u.Fine ctx I → (m' >>= Solver.unionOf) ctx s = some (r, u)) := by
  obtain ⟨children, v, hfold, hunion⟩ := bind_eq_some hr
  obtain ⟨⟨k, hk, hs, hcv⟩, hm'⟩ := hm.leads s h children v hfold
  have hkept := hm.keeps (trans inferInstance (pairing_eq h.left.types)) ctx s children v hfold
  rw [run_unionOf] at hunion
  cases hunion
  have hself := refl k.pairing
  have hstep : Twins.Agree ctx base (fun _ => True) k.pairing (store (.unionOf children))
      (store (.unionOf children)) :=
    Twins.agree_store (fun t => t.unionOf_extends children) (fun t => t.unionOf_extends children)
      fun _ _ _ _ _ => unionOf_same (hs.upTo _)
  obtain ⟨l, hl, hty, hcu⟩ := leads_of_inStep (hstep v v k) rfl fun hc' =>
    hc children v hfold (canonical_downward _ _ h.left.types k.left.types hkept.types hc') k.left.types hkept.types hc'
  refine ⟨⟨l, hk.trans hl, hty, hcu ∘ hcv⟩, fun hu => ?_⟩
  have hv := (keeps_closed.store (fun t => t.unionOf_extends children) ctx v _ _ rfl).fine hI k.left.types l.left.types hu
  rw [run_bind (hm' hv), run_unionOf]

section
variable {S' : Solver} (hb : base.Sound ctx) (hS : (steps hI hb).Comparing p S S')
include hS

theorem comparing_keeps [hp : p.After .eq] : keeps_closed.steps.Comparing .eq S S := by
  intro q _ a a' b b' ha hb mode hq
  rw [ha.eq_of_after hq, hb.eq_of_after hq]
  exact ⟨rfl, (@hS .eq hp a' a' b' b' _ _ mode).keeps (refl _)⟩

theorem agree_unionAll {types' : List Ty} [ht : Same p types types'] :
    Agree ctx base I p (S.unionAll types) (S'.unionAll types') := by
  refine ⟨fun _ => keeps_of_agree (keeps_closed.logic.unions (comparing_keeps hI hb hS)), fun s h hp r u hr => ?_⟩
  obtain rfl : types = types' := eq_of_same h
  have htypes : Same h.pairing types types := ht.upTo h.pairing
  cases habsorbs : s.types.absorbs (s.types.flat types) with
  | true =>
    cases (unionAll_absorbed habsorbs).symm.trans hr
    exact ⟨⟨h, refl _, inferInstance, id⟩, fun _ => unionAll_absorbed habsorbs⟩
  | false =>
    rw [unionAll_inserted habsorbs] at hr ⊢
    have hflat : Same h.pairing (s.types.flat types) (s.types.flat types) := by
      have : Same h.pairing (types.flatMap s.types.members) (types.flatMap s.types.members) :=
        Same.flatMap fun _ _ _ => inferInstance
      exact Same.filter fun _ _ _ => inferInstance
    have hself := refl h.pairing
    have hagree : Agree ctx base I h.pairing ((s.types.flat types).foldlM S.insertMember [])
        ((s.types.flat types).foldlM S'.insertMember []) :=
      (steps hI hb).foldlM fun q hq _ _ _ _ _ _ => (steps hI hb).insertMember (hS.later (hp.trans hq))
    refine leads_unionOf hI hagree h hr fun children v hfold hc hv hx hcv => hcv.unionOf hv ?_
    refine insertAll_joinable (hv.single_builtin rfl (by decide)) (fun z hz => ?_) ctx s children v hfold
    exact (hc.single_flat h.left.types (sameTypes_iff.1 htypes).1 z hz).later hx

theorem agree_subtract {a a' b b' : Ty} [ha : Same p a a'] [hb' : Same p b b'] :
    Agree ctx base I p (S.subtract a b) (S'.subtract a' b') := by
  refine ⟨fun _ => keeps_of_agree (keeps_closed.logic.differences (comparing_keeps hI hb hS)), fun s h hp r u hr => ?_⟩
  obtain rfl : a = a' := eq_of_same h
  obtain rfl : b = b' := eq_of_same h
  have ha : Same h.pairing a a := ha.upTo h.pairing
  have hb' : Same h.pairing b b := hb'.upTo h.pairing
  have hself := refl h.pairing
  have hagree : Agree ctx base I h.pairing ((s.types.members b).foldlM S.removeMember (s.types.members a))
      ((s.types.members b).foldlM S'.removeMember (s.types.members a)) :=
    (steps hI hb).foldlM fun q hq _ _ _ _ _ _ => (steps hI hb).removeMember (hS.later (hp.trans hq))
  have hw := h.left.types
  refine leads_unionOf hI hagree h hr fun children v hfold hc hv hx hcv => ?_
  by_cases hvoid : a = Ty.void
  · -- nothing is left of `void` but itself, so there is no union to store
    have hmembers : s.types.members a = [Ty.void] := by rw [hvoid, hw.members_void]
    have hsub : children.Sublist [Ty.void] := by
      rw [hmembers] at hfold
      refine Gives.foldlM (Q := (·.Sublist [Ty.void])) (.refl _) (fun l _ _ hl => ?_) ctx s children v hfold
      have hno : Ty.boolean ∉ l := fun hmem => absurd (hl.subset hmem) (by decide)
      exact (removeMember_sublist hno).imp fun _ hr => hr.trans hl
    rcases sublist_singleton.1 hsub with rfl | rfl <;> exact hcv
  · have hmembers := (hc.members hw (sameType_iff.1 ha).1 hvoid).later hx
    refine hcv.unionOf hv (Gives.foldlM hmembers (fun l _ _ hl => ?_) ctx s children v hfold)
    exact removeMember_joinable (hv.single_builtin rfl (by decide)) (hv.single_builtin rfl (by decide)) hl
end

def logic (hI : Downward I) (hb : base.Sound ctx) : Logic where
  toSteps := steps hI hb
  unions hS := agree_unionAll hI hb hS
  differences hS := agree_subtract hI hb hS
  tables hl := absurd trivial hl

end Alone

/-! ## Sessions that queries lead to -/

theorem Session.Past.twins {base : Session} (h : s.Past ctx base) (hb : base.Sound ctx) : Lone ctx base s :=
  ⟨h.toFrom, h.toFrom, (h.sound hb).guard, (h.sound hb).expanding, rfl, rfl, fun _ _ _ => .inr trivial⟩

/-- The table has grown, and is canonical if it was. -/
structure Session.Grows (s u : Session) : Prop where
  grown : s.types.Extends u.types
  canonical : s.types.Canonical → u.types.Canonical

namespace Session

theorem Grows.refl (s : Session) : s.Grows s := ⟨.refl _, id⟩

theorem Grows.of_eq (h : u.types = s.types) : s.Grows u := by
  constructor <;> rw [h]
  · exact .refl _
  · exact id

theorem Grows.trans {v : Session} (h : s.Grows u) (h' : u.Grows v) : s.Grows v :=
  ⟨h.grown.trans h'.grown, fun hc => h'.canonical (h.canonical hc)⟩

variable {ctx : Context} {base : Session} {ξ α : Type} [Value ξ] [Value α] {m : Solver → ξ → Solve α} (hm : Regular m)
  (hb : base.Sound ctx) (h : s.Past ctx base) {x : ξ} (hx : hb.types.Stores x) {n : Nat} {a : α}
  (hr : m (Solver.ofBudget n) x ctx s = some (a, u))
include hm hb h hx hr

theorem Past.leads : Alone.Leads (h.twins hb) a u ∧ s.Kept u := by
  have : Same (h.twins hb).pairing x x := h.toFrom.stores hb hx
  have hself := Pairing.After.refl (h.twins hb).pairing
  have hrespects := (Alone.logic downward_true hb).respects_ofBudget n
  have hag := hm ⟨Alone.logic downward_true hb, trivial⟩ _ _ hrespects (h.twins hb).pairing x x
  exact ⟨(hag.leads s (h.twins hb) a u hr).1, hag.keeps (pairing_eq h.types) ctx s a u hr⟩

theorem Past.step : ∃ k : u.Past ctx base, k.types.Stores a := by
  obtain ⟨⟨k, -, ha, -⟩, hkept⟩ := h.leads hm hb hx hr
  exact ⟨⟨k.left, h.kept.trans hkept⟩, ha⟩

theorem Past.grows : s.Grows u := by
  obtain ⟨⟨-, -, -, hc⟩, hkept⟩ := h.leads hm hb hx hr
  exact ⟨hkept.types, hc⟩

omit h hr in
theorem Sound.goes (hr : m (Solver.ofBudget n) x ctx base = some (a, u)) : ∃ k : u.Past ctx base, k.types.Stores a :=
  (Past.refl hb).step hm hb hx hr

end Session

open Std.TreeMap in
theorem Session.Sound.declared {d : Declarations} (hctx : ctx.provider = d.provider) {types : TypeTable}
    (h : types.WF) (limits : Limits) (hclass : ∀ e ∈ d.classes.toList, types.HasSymbol e.1 ∧ h.Stores e.2)
    (halias : ∀ e ∈ d.aliases.toList, types.HasSymbol e.1 ∧ types.Has e.2)
    (hlocal : d.localNames = ∅) (hparents : d.parents = ∅) : (Session.start types limits).Sound ctx := by
  refine .start h limits (fun name decl hd => ?_) (fun name ty ht => ?_) fun node name ty ht => ?_
  · rw [hctx] at hd
    exact hclass (name, decl) (mem_toList_iff_getElem?_eq_some.2 hd)
  · rw [hctx] at ht
    obtain ⟨hname, hty⟩ := halias (name, ty) (mem_toList_iff_getElem?_eq_some.2 ht)
    exact ⟨hname, sameType_iff.2 ⟨hty, hty, rfl⟩⟩
  · rw [hctx] at ht
    have hnone : d.scopedType node name = none := by
      unfold Declarations.scopedType Declarations.scopedWithin
      rw [hlocal, hparents, getElem?_emptyc, getElem?_emptyc]
    cases hnone.symm.trans ht

variable {n : Nat} {x y : Ty} {base v : Session}

theorem Session.Sound.stores_type (hb : base.Sound ctx) (hx : base.types.Has x) : hb.types.Stores x :=
  sameType_iff.2 ⟨hx, hx, rfl⟩

theorem Session.Sound.stores_pair (hb : base.Sound ctx) (hx : base.types.Has x)
    (hy : base.types.Has y) : hb.types.Stores (x, y) := by
  have : Same hb.types.self x x := hb.stores_type hx
  have : Same hb.types.self y y := hb.stores_type hy
  exact Same.get _ (x, y) (x, y)

theorem Session.Kept.storing (h : s.Kept v) (hx : v.types.Extends t) : s.Kept { v with types := t } :=
  { h with types := h.types.trans hx }

theorem Session.Past.storing (h : v.Past ctx base) (hw : t.WF) (hx : v.types.Extends t) :
    Session.Past ctx { v with types := t } base :=
  ⟨⟨hw, h.grown.trans hx, h.classes, h.aliases⟩, h.kept.storing hx⟩

/-! ## Truth values -/

open Classical in
/-- The truth value that is the answer, or `false` if there is none. -/
noncomputable def Session.truth (ctx : Context) (s : Session) (m : Solver → Solve Bool) : Bool :=
  decide (s.Answers ctx m true)

open Classical in
theorem Session.truth_iff {m : Solver → Solve Bool} : s.truth ctx m = true ↔ s.Answers ctx m true := decide_eq_true_iff

section
variable {ξ : Type} [Value ξ] {m : Solver → ξ → Solve Bool} (hm : Regular m) {x : ξ}
include hm

theorem Session.truth_eq {b : Bool} (h : s.Answers ctx (m · x) b) : s.truth ctx (m · x) = b := by
  rw [Bool.eq_iff_iff, Session.truth_iff]
  exact ⟨fun htrue => h.unique hm htrue, fun hb => hb ▸ h⟩

theorem finds_truth (hb : base.Sound ctx) (hx : hb.types.Stores x) {total : Prop}
    (hends : total → ∀ w, w.Past ctx base → ∃ answer, m (ofBudget n) x ctx w = some answer) :
    Finds.Truth total ctx (Session.Past ctx · base) (m (ofBudget n) x) (base.truth ctx (m · x)) where
  ends := hends
  run s b u hs hr := by
    have hk : s.Kept u := hm.keeps x ctx s b u hr
    refine ⟨(hs.step hm hb hx hr).1, hk, trivial, fun hclear => ?_⟩
    exact (Session.truth_eq hm ((hs.since (hk.clear hclear)).truth hm hb hx hr hclear)).symm
end

/-! ## What queries lead to -/

variable {α : Type} {ty : Ty}

/-- Later on, the answer has `A` unless something stops the query. -/
def Session.Leads (ctx : Context) (base : Session) {α : Type} (m : Solve α) (A : α → Prop) : Prop :=
  ∀ s a u, s.Since ctx base → m ctx s = some (a, u) → u.Clear ctx → u.Since ctx base ∧ A a

theorem regular_subsumes : Regular fun (S : Solver) (x : Ty × Ty) => S.subsumes x.1 x.2 :=
  fun L _ _ hS p _ _ _ => L.subsumes (hS.comparing p)

theorem regular_accepts (mode : Mode) : Regular fun (S : Solver) (x : Ty × Ty) => S.accepts x.1 x.2 mode :=
  fun _ _ _ hS _ _ _ _ => hS.accepts

theorem regular_equal : Regular fun (S : Solver) (x : Ty × Ty) => S.equal x.1 x.2 := fun _ _ _ hS _ _ _ _ => hS.equal

theorem regular_resolve : Regular fun (S : Solver) (x : Ty) => S.resolve x := fun L _ _ hS _ _ _ _ => L.resolve hS

theorem regular_classMarks : Regular fun (_ : Solver) (x : Ty) => classMarks x := fun L _ _ _ _ _ _ _ => L.classMarks

theorem keeps_resolve (n : Nat) (ty : Ty) : Keeps ((ofBudget n).resolve ty) :=
  regular_resolve.keeps ty

theorem run_lookup {f : Form → Solve α} :
    (lookup ty >>= f) ctx s = f (s.types.lookup ty) ctx s := rfl

section
variable {β : Type} {A : α → Prop}

theorem Session.Leads.bind {m : Solve α} {f : α → Solve β} {B : β → Prop} (hm : base.Leads ctx m A)
    (hk : ∀ a, Keeps (f a)) (hf : ∀ a, A a → base.Leads ctx (f a) B) : base.Leads ctx (m >>= f) B := by
  intro s b u hs hr hu
  obtain ⟨a, v, hma, hfa⟩ := bind_eq_some hr
  obtain ⟨hv, ha⟩ := hm s a v hs hma ((hk a ctx v b u hfa).clear hu)
  exact hf a ha v b u hv hfa hu

theorem leads_pure {a : α} (h : A a) : base.Leads ctx (pure a) A := by
  intro s b u hs hr _
  obtain ⟨rfl, rfl⟩ := pure_eq_some hr
  exact ⟨hs, h⟩

end

section
variable {f : α → Solve Bool} {l : List α}

theorem keeps_anyM (hk : ∀ x ∈ l, Keeps (f x)) : Keeps (l.anyM f) := by
  induction l with
  | nil => exact keeps_closed.pure false
  | cons x rest ih =>
    obtain ⟨hx, hrest⟩ := forall_mem_cons.1 hk
    refine keeps_closed.bind hx fun b => ?_
    cases b with
    | true => exact keeps_closed.pure true
    | false => exact ih hrest

variable {P : α → Bool → Prop} (hk : ∀ x ∈ l, Keeps (f x)) (hf : ∀ x ∈ l, base.Leads ctx (f x) (P x))
include hk hf

theorem leads_anyM : base.Leads ctx (l.anyM f) fun v =>
    (v = true → ∃ x ∈ l, P x true) ∧ (v = false → ∀ x ∈ l, P x false) := by
  induction l with
  | nil => exact leads_pure ⟨nofun, fun _ => nofun⟩
  | cons y rest ih =>
    obtain ⟨-, hkrest⟩ := forall_mem_cons.1 hk
    obtain ⟨hfy, hfrest⟩ := forall_mem_cons.1 hf
    intro s v w hs hr hw
    obtain ⟨b, u, hb, hr⟩ := bind_eq_some hr
    cases b with
    | true =>
      obtain ⟨rfl, rfl⟩ := pure_eq_some hr
      obtain ⟨hw', hp⟩ := hfy s true w hs hb hw
      exact ⟨hw', fun _ => ⟨y, .head _, hp⟩, nofun⟩
    | false =>
      obtain ⟨hu, hp⟩ := hfy s false u hs hb ((keeps_anyM hkrest _ _ _ _ hr).clear hw)
      obtain ⟨hw', hyes, hno⟩ := ih hkrest hfrest u v w hu hr hw
      exact ⟨hw', fun hv => (hyes hv).imp fun x hx => ⟨.tail _ hx.1, hx.2⟩, fun hv => forall_mem_cons.2 ⟨hp, hno hv⟩⟩

theorem leads_allM : base.Leads ctx (l.allM f) fun v =>
    (v = true → ∀ x ∈ l, P x true) ∧ (v = false → ∃ x ∈ l, P x false) := by
  simp only [allM_eq_not_anyM_not, map_eq_pure_bind]
  refine (leads_anyM (P := fun x b => P x !b) (fun x hx => keeps_closed.bind (hk x hx) fun _ => keeps_closed.pure _)
    fun x hx => (hf x hx).bind (fun _ => keeps_closed.pure _) fun b hb => leads_pure (by simpa using hb)).bind
    (fun _ => keeps_closed.pure _) fun b hb => leads_pure ?_
  simpa [and_comm] using hb
end

end AnnotatedLua
