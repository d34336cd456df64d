/-
Two runs in step. What their common start stores, both still store, and both are told the same about the names in it. As
long as the guards stand alike the same queries have the same answers (`Twins.logic`).
-/
import AnnotatedLua.Proofs.Pair.Tables
import AnnotatedLua.Proofs.Query.Frame

namespace AnnotatedLua

open Same
open Solve (aliasType classDecl guardKey scopedType store withGuard)

variable {p : Pairing} {α : Type} {name name' : Symbol}

/-! ## Sessions -/

/-- Every handle in the value was given out by the table. -/
def TypeTable.WF.Stores {t : TypeTable} (h : t.WF) {α : Type} [Value α] (a : α) : Prop :=
  Same (TypeTable.pairing h h) a a

instance : Value Activity := .discrete _
instance : Value Limits := .discrete _
instance : Value Admission := .discrete _

instance : Discrete Activity := ⟨Iff.rfl⟩
instance : Discrete Limits := ⟨Iff.rfl⟩
instance : Discrete Admission := ⟨Iff.rfl⟩

instance : Value GuardKey :=
  .via (fun k => (k.activity, k.blind, k.subject)) (by rintro ⟨_, _, _⟩ ⟨_, _, _⟩ h; simp_all)

instance : Faithful GuardKey := .of_parts (fun k => (k.activity, k.blind, k.subject)) Iff.rfl

instance {p : Pairing} {activity : Activity} {blind : Bool} {subject subject' : Subject}
    [Same p subject subject'] :
    Same p (GuardKey.mk activity blind subject) (GuardKey.mk activity blind subject') :=
  ⟨(inferInstance : Same p (activity, blind, subject) (activity, blind, subject')).out⟩

instance : Value (Guard GuardKey) :=
  .via (fun g => (g.limits, g.active, g.depth, g.iterations, g.exceeded))
    (by rintro ⟨_, _, _, _, _⟩ ⟨_, _, _, _, _⟩ h; simp_all)

section
variable {g g' : Guard GuardKey} [h : Same p g g']

instance : Same p g.limits g'.limits := h.out.1
instance : Same p g.active g'.active := h.out.2.out.1
instance : Same p g.depth g'.depth := h.out.2.out.2.out.1
instance : Same p g.iterations g'.iterations := h.out.2.out.2.out.2.out.1
instance : Same p g.exceeded g'.exceeded := h.out.2.out.2.out.2.out.2

instance {l l' : Limits} {a a' : List GuardKey} {d d' i i' : Nat} {e e' : Bool} [Same p l l'] [Same p a a']
    [Same p d d'] [Same p i i'] [Same p e e'] : Same p (Guard.mk l a d i e) (Guard.mk l' a' d' i' e') :=
  ⟨(inferInstance : Same p (l, a, d, i, e) (l', a', d', i', e')).out⟩

instance : Same p g.count g'.count := by
  unfold Guard.count
  rw [(get p g.iterations g'.iterations).eq]
  infer_instance

instance {l l' : Limits} [h : Same p l l'] : Same p l.depth l'.depth := ⟨congrArg _ h.eq⟩
instance {l l' : Limits} [h : Same p l l'] : Same p l.iterations l'.iterations := ⟨congrArg _ h.eq⟩

/-- Guards that stand alike answer a request alike. -/
instance {key key' : GuardKey} [Same p key key'] : Same p (g.enter key) (g'.enter key') := by
  unfold Guard.enter Guard.isActive
  infer_instance

instance {key key' : GuardKey} [Same p key key'] : Same p (g.leave key) (g'.leave key') := by
  unfold Guard.leave
  infer_instance
end

namespace Session

variable (ctx : Context)

/-- All that the session and the declarations speak of is stored in the table. -/
structure Sound (s : Session) : Prop where
  types : s.types.WF
  classes : ∀ name decl, s.classOf ctx name = some decl → s.types.HasSymbol name ∧ types.Stores decl
  aliases : ∀ name ty, s.aliasOf ctx name = some ty → s.types.HasSymbol name ∧ types.Stores ty
  scopes : ∀ node name ty, ctx.provider.scopedType node name = some ty →
    s.types.HasSymbol name ∧ types.Stores ty
  guard : types.Stores s.guard
  expanding : types.Stores s.expanding

variable {ctx} in
theorem Sound.start {types : TypeTable} (h : types.WF) (limits : Limits)
    (hclass : ∀ name decl, ctx.provider.classDecl name = some decl → types.HasSymbol name ∧ h.Stores decl)
    (halias : ∀ name ty, ctx.provider.aliasType name = some ty → types.HasSymbol name ∧ h.Stores ty)
    (hscope : ∀ node name ty, ctx.provider.scopedType node name = some ty → types.HasSymbol name ∧ h.Stores ty) :
    (Session.start types limits).Sound ctx := by
  refine ⟨h, fun name decl hd => ?_, fun name ty ht => ?_, hscope, ?_, ?_⟩
  · unfold classOf at hd
    rw [show (Session.start types limits).classes[name]? = none from Std.TreeMap.getElem?_emptyc] at hd
    exact hclass name decl hd
  · unfold aliasOf at ht
    rw [show (Session.start types limits).aliases[name]? = none from Std.TreeMap.getElem?_emptyc] at ht
    exact halias name ty ht
  · exact get _ (Guard.mk limits [] 0 0 false) (Guard.mk limits [] 0 0 false)
  · exact get _ ([] : List Symbol) []

/-- The session goes on from `base`: what was stored is stored, and names are declared as before. -/
structure From (s base : Session) : Prop where
  types : s.types.WF
  grown : base.types.Extends s.types
  classes : s.classOf ctx = base.classOf ctx
  aliases : s.aliasOf ctx = base.aliasOf ctx

variable {ctx}

theorem getD_insert {known : Std.TreeMap Symbol α} {answer : Symbol → α} (h : known[name]? = none) (other : Symbol) :
    ((known.insert name (answer name))[other]?).getD (answer other) = (known[other]?).getD (answer other) := by
  rw [Std.TreeMap.getElem?_insert]
  split
  · rename_i he
    obtain rfl : name = other := by simpa using he
    rw [h]
    rfl
  · rfl

theorem From.lookClass {s base : Session} (h : s.From ctx base) (name : Symbol) :
    (s.lookClass ctx name).From ctx base := by
  unfold Session.lookClass
  split
  · exact h
  · rename_i hn
    refine ⟨h.types, h.grown, Eq.trans (funext fun other => ?_) h.classes, h.aliases⟩
    exact getD_insert hn other

theorem From.lookAlias {s base : Session} (h : s.From ctx base) (name : Symbol) :
    (s.lookAlias ctx name).From ctx base := by
  unfold Session.lookAlias
  split
  · exact h
  · rename_i hn
    refine ⟨h.types, h.grown, h.classes, Eq.trans (funext fun other => ?_) h.aliases⟩
    exact getD_insert hn other

end Session

/-- Two sessions that came from one and agree up to their handles. -/
structure Twins (ctx : Context) (base : Session) (K : Symbol → Prop) (s s' : Session) : Prop where
  left : s.From ctx base
  right : s'.From ctx base
  guard : Same (TypeTable.pairing left.types right.types) s.guard s'.guard
  expanding : Same (TypeTable.pairing left.types right.types) s.expanding s'.expanding
  position : s'.position = s.position
  blind : s'.blind = s.blind
  looked : ∀ name, base.types.HasSymbol name → name ∈ s'.classes → name ∈ s.classes ∨ K name

namespace Twins

variable {ctx : Context} {base : Session} {K : Symbol → Prop} {s s' u u' : Session}

/-- The handles of the two sessions that stand for the same. -/
abbrev pairing (h : Twins ctx base K s s') : Pairing := TypeTable.pairing h.left.types h.right.types

def InStep (h : Twins ctx base K s s') {α : Type} [Value α] (r r' : Option (α × Session)) : Prop :=
  (r = none ∧ r' = none) ∨ ∃ (a a' : α) (u u' : Session), r = some (a, u) ∧ r' = some (a', u') ∧
    ∃ k : Twins ctx base K u u', h.pairing.After k.pairing ∧ Same k.pairing a a'

theorem InStep.left {h : Twins ctx base K s s'} [Value α] {r r' : Option (α × Session)} {a : α}
    (hi : h.InStep r r') (hr : r = some (a, u)) : ∃ a' u', r' = some (a', u') ∧
      ∃ k : Twins ctx base K u u', h.pairing.After k.pairing ∧ Same k.pairing a a' := by
  rcases hi with ⟨hn, -⟩ | ⟨_, a', _, u', hv, hv', k⟩
  · cases hn.symm.trans hr
  · cases hv.symm.trans hr
    exact ⟨a', u', hv', k⟩

variable (ctx base K) in
def Agree (p : Pairing) {α : Type} [Value α] (m m' : Solve α) : Prop :=
  ∀ (s s' : Session) (h : Twins ctx base K s s') [p.After h.pairing], h.InStep (m ctx s) (m' ctx s')

section
variable {β : Type} [Value α] [Value β] {m m' : Solve α}

theorem agree_bind {f f' : α → Solve β} (hm : Agree ctx base K p m m')
    (hf : ∀ (q : Pairing) [p.After q] (a a' : α) [Same q a a'], Agree ctx base K q (f a) (f' a')) :
    Agree ctx base K p (m >>= f) (m' >>= f') := by
  intro s s' h hp
  show h.InStep ((m ctx s).bind fun r => f r.1 ctx r.2) ((m' ctx s').bind fun r => f' r.1 ctx r.2)
  rcases hm s s' h with ⟨hr, hr'⟩ | ⟨a, a', u, u', hr, hr', k, hk, hs⟩
  · rw [hr, hr']
    exact .inl ⟨rfl, rfl⟩
  · rw [hr, hr']
    rcases @hf k.pairing (hp.trans hk) a a' hs u u' k (.refl _) with hn | ⟨b, b', v, v', hr, hr', l, hl, hs⟩
    · exact .inl hn
    · exact .inr ⟨b, b', v, v', hr, hr', l, hk.trans hl, hs⟩

theorem agree_silent {g g' : Session → α} (hm : ∀ s, m ctx s = some (g s, s)) (hm' : ∀ s, m' ctx s = some (g' s, s))
    (hg : ∀ (s s' : Session) (h : Twins ctx base K s s') [p.After h.pairing], Same h.pairing (g s) (g' s')) :
    Agree ctx base K p m m' := by
  intro s s' h _
  rw [hm, hm']
  exact .inr ⟨_, _, s, s', rfl, rfl, h, .refl _, hg s s' h⟩

theorem agree_store {act act' : Interning α} (hact : act.Grows) (hact' : act'.Grows)
    (hs : ∀ (t t' : TypeTable) (h : t.WF) (h' : t'.WF) [p.After (TypeTable.pairing h h')],
      ∃ (k : (act t).2.WF) (k' : (act' t').2.WF), Same (TypeTable.pairing k k') (act t).1 (act' t').1) :
    Agree ctx base K p (store act) (store act') := by
  intro s s' h _
  obtain ⟨k, k', hs⟩ := hs s.types s'.types h.left.types h.right.types
  have hx := hact s.types
  have hx' := hact' s'.types
  have ha : h.pairing.After (TypeTable.pairing k k') := TypeTable.pairing_after hx hx'
  have hl : Session.From ctx { s with types := (act s.types).2 } base :=
    ⟨k, h.left.grown.trans hx, h.left.classes, h.left.aliases⟩
  have hr : Session.From ctx { s' with types := (act' s'.types).2 } base :=
    ⟨k', h.right.grown.trans hx', h.right.classes, h.right.aliases⟩
  have ht : Twins ctx base K { s with types := (act s.types).2 } { s' with types := (act' s'.types).2 } :=
    ⟨hl, hr, h.guard.upTo _, h.expanding.upTo _, h.position, h.blind, h.looked⟩
  exact .inr ⟨_, _, _, _, rfl, rfl, ht, ha, hs⟩

theorem setGuard (h : Twins ctx base K s s') {g g' : Guard GuardKey} (hg : Same h.pairing g g') :
    Twins ctx base K { s with guard := g } { s' with guard := g' } :=
  { h with left := { h.left with }, right := { h.right with }, guard := hg }

theorem setExpanding (h : Twins ctx base K s s') {l l' : List Symbol} (hl : Same h.pairing l l') :
    Twins ctx base K { s with expanding := l } { s' with expanding := l' } :=
  { h with left := { h.left with }, right := { h.right with }, expanding := hl }

theorem agree_withGuard (activity : Activity) {subject subject' : Subject} [Same p subject subject']
    (hm : Agree ctx base K p m m') :
    Agree ctx base K p (withGuard activity subject m) (withGuard activity subject' m') := by
  intro s s' h _
  have := h.guard
  have hkey : Same h.pairing (guardKey ctx s activity subject) (guardKey ctx s' activity subject') := by
    unfold guardKey
    rw [h.blind]
    infer_instance
  have he := get h.pairing (s.guard.enter (guardKey ctx s activity subject))
    (s'.guard.enter (guardKey ctx s' activity subject'))
  rw [Solve.run_withGuard, Solve.run_withGuard]
  generalize s.guard.enter _ = e at he
  generalize s'.guard.enter _ = e' at he
  obtain ⟨admission, g⟩ := e
  obtain ⟨admission', _⟩ := e'
  obtain rfl : admission = admission' := he.out.1.eq
  have k := h.setGuard he.out.2
  cases admission with
  | entered =>
    rcases hm _ _ k with ⟨hr, hr'⟩ | ⟨a, a', u, u', hr, hr', l, hl, hs⟩
    · simp only [hr, hr']
      exact .inl ⟨rfl, rfl⟩
    · simp only [hr, hr']
      have hg := l.guard
      have : Same l.pairing (guardKey ctx s activity subject) (guardKey ctx s' activity subject') :=
        hkey.upTo l.pairing
      exact .inr ⟨_, _, _, _, rfl, rfl, l.setGuard (get l.pairing (u.guard.leave _) (u'.guard.leave _)), hl,
        get l.pairing (some a) (some a')⟩
  | _ => exact .inr ⟨_, _, _, _, rfl, rfl, k, .refl _, inferInstance⟩

theorem agree_withExpansion [hn : Same p name name'] (hm : Agree ctx base K p m m') :
    Agree ctx base K p (Solve.withExpansion name m) (Solve.withExpansion name' m') := by
  intro s s' h _
  have hx := h.expanding
  have hc := (get h.pairing (s.expanding.contains name) (s'.expanding.contains name')).eq
  rw [Solve.run_withExpansion, Solve.run_withExpansion, hc]
  split
  · exact .inr ⟨_, _, _, _, rfl, rfl, h, .refl _, inferInstance⟩
  · have k := h.setExpanding (get h.pairing (name :: s.expanding) (name' :: s'.expanding))
    rcases hm _ _ k with ⟨hr, hr'⟩ | ⟨a, a', u, u', hr, hr', l, hl, hs⟩
    · rw [hr, hr']
      exact .inl ⟨rfl, rfl⟩
    · rw [hr, hr']
      have hx := l.expanding
      have : Same l.pairing name name' := (hn.upTo h.pairing).upTo l.pairing
      exact .inr ⟨_, _, _, _, rfl, rfl,
        l.setExpanding (get l.pairing (u.expanding.erase name) (u'.expanding.erase name')), hl,
        get l.pairing (some a) (some a')⟩
end

/-! ## Declarations -/

section
variable (hb : base.Sound ctx) [hn : Same p name name']
include hb

theorem agree_classDecl : Agree ctx base K p (classDecl name) (classDecl name') := by
  intro s s' h _
  rw [Solve.classDecl_eq_look, Solve.classDecl_eq_look, h.blind]
  split
  · exact .inr ⟨_, _, _, _, rfl, rfl, h, .refl _, inferInstance⟩
  · have hn := hn.upTo h.pairing
    have hdecl : Same h.pairing (s.classOf ctx name) (s'.classOf ctx name') := by
      rw [h.left.classes, h.right.classes]
      exact TypeTable.same_of_base hb.types h.left.grown h.right.grown hb.classes hn.out
    have hl := h.left.lookClass name
    have hr := h.right.lookClass name'
    obtain ⟨_, _, he, hmem⟩ := s.lookClass_eq ctx name
    obtain ⟨_, _, he', hmem'⟩ := s'.lookClass_eq ctx name'
    rw [he] at hl ⊢
    rw [he'] at hr ⊢
    refine .inr ⟨_, _, _, _, rfl, rfl, ⟨hl, hr, h.guard, h.expanding, h.position, h.blind, ?_⟩, .refl _, hdecl⟩
    intro other hs ho
    rw [hmem']  at ho
    rw [hmem]
    rcases ho with ho | rfl
    · exact (h.looked other hs ho).imp .inl id
    · exact .inl (.inr (TypeTable.symbol_of_base h.left.grown h.right.grown hn.out (.inr hs)))

theorem agree_aliasType : Agree ctx base K p (aliasType name) (aliasType name') := by
  intro s s' h _
  rw [Solve.aliasType_eq_look, Solve.aliasType_eq_look, h.blind]
  split
  · exact .inr ⟨_, _, _, _, rfl, rfl, h, .refl _, inferInstance⟩
  · have hn := hn.upTo h.pairing
    have hty : Same h.pairing (s.aliasOf ctx name) (s'.aliasOf ctx name') := by
      rw [h.left.aliases, h.right.aliases]
      exact TypeTable.same_of_base hb.types h.left.grown h.right.grown hb.aliases hn.out
    have hl := h.left.lookAlias name
    have hr := h.right.lookAlias name'
    obtain ⟨_, he⟩ := s.lookAlias_eq ctx name
    obtain ⟨_, he'⟩ := s'.lookAlias_eq ctx name'
    rw [he] at hl ⊢
    rw [he'] at hr ⊢
    exact .inr ⟨_, _, _, _, rfl, rfl, ⟨hl, hr, h.guard, h.expanding, h.position, h.blind, h.looked⟩, .refl _, hty⟩

theorem agree_scopedType (node : Node) :
    Agree ctx base K p (scopedType node name) (scopedType node name') := by
  refine agree_silent (fun _ => Solve.run_scopedType node name) (fun _ => Solve.run_scopedType node name')
    fun s _ h _ => ?_
  rw [h.blind]
  split
  · infer_instance
  · exact TypeTable.same_of_base hb.types h.left.grown h.right.grown (hb.scopes node) (hn.upTo h.pairing).out
end

/-! ## The logic -/

def steps (hb : base.Sound ctx) (hc : ctx.cancellable = false) (K : Symbol → Prop) : Steps where
  Agree := Agree ctx base K
  later {p q α _ m m' hq} hm s s' h hp := @hm s s' h (hq.trans hp)
  pure := agree_silent (fun _ => rfl) (fun _ => rfl) fun _ _ _ _ => inferInstance
  bind := agree_bind
  exhausted _ _ _ _ := .inl ⟨rfl, rfl⟩
  Budgets := Eq
  same_budget _ := rfl
  budget_pred := @Steps.eq_budget_pred
  spent h := nomatch h
  ofTypes {p α _ f f'} hf := agree_silent (fun _ => rfl) (fun _ => rfl) fun _ _ _ _ => hf
  internText text := agree_store (fun t => t.internText_extends text) (fun t => t.internText_extends text)
    fun t t' h h' _ => ⟨h.internText text, h'.internText text, TypeTable.internText_same h h' text⟩
  internForm {p form form' hf} _ := agree_store (fun t => t.intern_extends form) (fun t => t.intern_extends form')
    fun t t' h h' _ => TypeTable.intern_same (hf.upTo _)
  keepName {p ty ty' hty} := agree_store (fun t => t.keepName_extends ty) (fun t => t.keepName_extends ty')
    fun t t' h h' _ => by
      obtain ⟨k, k', e⟩ := TypeTable.keepName_same (hty.upTo (TypeTable.pairing h h'))
      exact ⟨k, k', ⟨e⟩⟩
  settings := agree_silent (fun _ => rfl) (fun _ => rfl) fun _ _ _ _ => inferInstance
  isCanceled := agree_silent (fun _ => rfl) (fun _ => rfl) fun s s' _ _ => by
    rw [hc, Bool.false_and, Bool.false_and]
    infer_instance
  parent _ _ := agree_silent (fun _ => rfl) (fun _ => rfl) fun _ _ _ _ => inferInstance
  classDecl := agree_classDecl hb
  aliasType := agree_aliasType hb
  scopedType node := agree_scopedType hb node
  withGuard {p α _ m m'} activity {subject subject' _} hm := agree_withGuard activity hm
  withExpansion hm := agree_withExpansion hm

def logic (hb : base.Sound ctx) (hc : ctx.cancellable = false) (K : Symbol → Prop) : Logic :=
  (steps hb hc K).withUnions trivial fun {_ l l' hl} =>
    agree_store (fun t => t.unionOf_extends l) (fun t => t.unionOf_extends l')
      fun _ _ _ _ _ => TypeTable.unionOf_same (hl.upTo _)

end Twins

end AnnotatedLua
