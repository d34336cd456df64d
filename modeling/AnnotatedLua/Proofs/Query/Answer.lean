/-
Queries that nothing stopped. They are answered in the same way where requests are not limited and nothing can be
canceled (`unhindered_ask`). Sessions that queries have led to from one sound session. From any two of them the same
question has the same answer, if nothing stopped the queries (`Session.Since.step`). That does not depend on the budget
(`Session.Since.answers`).
-/
import AnnotatedLua.Proofs.Pair.Runs

namespace AnnotatedLua

open Guard

variable {ctx : Context} {s : Session} {α : Type}

def Context.uncancelled (ctx : Context) : Context := { ctx with cancellable := false }

/-! ## Sessions without a limit -/

namespace Guard

variable {κ : Type}

/-- The guard after `k` requests, of which any number may be made. -/
def unlimited (g : Guard κ) (k : Nat) : Guard κ :=
  { g with limits := { g.limits with iterations := counterMax }, iterations := min k counterMax }

def eased (g : Guard κ) (i d : Nat) (exceeded : Bool) : Guard κ :=
  { g with limits := ⟨g.limits.depth + d, counterMax⟩, iterations := i, exceeded }

variable [DecidableEq κ] {g : Guard κ} {key : κ}

theorem enter_eased (h : (g.enter key).2.exceeded = false) (i d : Nat) (e : Bool) :
    (g.eased i d e).enter key = ((g.enter key).1, (g.enter key).2.eased (min (i + 1) counterMax) d e) := by
  have hle : ¬ counterMax < min (i + 1) counterMax := by omega
  unfold enter count isActive eased at *
  dsimp only at *
  rw [if_neg hle]
  have hdepth (hd : ¬ g.limits.depth ≤ g.depth) : ¬ g.limits.depth + d ≤ g.depth := by omega
  split_ifs at h ⊢ <;> simp_all

theorem used_enter (h : (g.enter key).2.exceeded = false) (hl : g.limits.iterations < counterMax) :
    (g.enter key).2.used = g.used + 1 := by
  unfold enter count used at *
  dsimp only at *
  split_ifs at h ⊢ <;> first | cases h | (dsimp only; omega)

end Guard

namespace Session

structure Clear (ctx : Context) (s : Session) : Prop where
  exceeded : s.guard.exceeded = false
  canceled : (ctx.cancellable && s.canceled) = false

theorem Kept.clear {s' : Session} (h : s.Kept s') (hc : s'.Clear ctx) : s.Clear ctx := by
  refine ⟨h.unexceeded hc.exceeded, ?_⟩
  have := hc.canceled
  have := h.canceled
  cases hs : s.canceled <;> simp_all

/-- The session after `k` requests, of which any number may be made. -/
def unlimited (s : Session) (k : Nat) : Session := { s with guard := s.guard.unlimited k }

def eased (s : Session) (i d : Nat) (exceeded : Bool) : Session := { s with guard := s.guard.eased i d exceeded }

theorem Clear.eased (h : s.Clear ctx) (k : Nat) : s.eased (min k Guard.counterMax) 0 false = s.unlimited k := by
  unfold Session.eased Guard.eased
  rw [← h.exceeded]
  rfl

end Session

/-! ## Queries -/

structure Unhindered {α : Type} (m : Solve α) : Prop where
  keeps : Keeps m
  eased : ∀ ctx s a u, m ctx s = some (a, u) → u.Clear ctx →
    ∃ n, (s.guard.limits.iterations < counterMax → u.guard.used = s.guard.used + n) ∧
      ∀ i d e, ∃ j, m ctx.uncancelled (s.eased i d e) = some (a, u.eased j d e) ∧
        ∀ k, i = min k counterMax → j = min (k + n) counterMax

namespace Unhindered

open Solve

variable {m : Solve α}

theorem run (hm : Unhindered m) (ctx : Context) (s : Session) (a : α) (u : Session)
    (h : m ctx s = some (a, u)) (hu : u.Clear ctx) :
    ∃ n, (s.guard.limits.iterations < counterMax → u.guard.used = s.guard.used + n) ∧
      ∀ k, m ctx.uncancelled (s.unlimited k) = some (a, u.unlimited (k + n)) := by
  obtain ⟨n, hn, hrun⟩ := hm.eased ctx s a u h hu
  refine ⟨n, hn, fun k => ?_⟩
  obtain ⟨j, hj, hcount⟩ := hrun (min k counterMax) 0 false
  rwa [hcount k rfl, ((hm.keeps ctx s a u h).clear hu).eased, hu.eased] at hj

theorem of_step (hk : Keeps m) {f : Context → Session → α × Session}
    (hm : ∀ ctx s, m ctx s = some (f ctx s)) (hg : ∀ ctx s, (f ctx s).2.guard = s.guard)
    (hf : ∀ ctx s i d e, (f ctx s).2.Clear ctx →
      f ctx.uncancelled (s.eased i d e) = ((f ctx s).1, (f ctx s).2.eased i d e)) : Unhindered m where
  keeps := hk
  eased ctx s a u h hc := by
    rw [hm] at h
    have he := Option.some.inj h
    obtain rfl : a = (f ctx s).1 := by rw [he]
    obtain rfl : u = (f ctx s).2 := by rw [he]
    refine ⟨0, fun _ => by rw [hg]; rfl, fun i d e => ⟨i, ?_, fun k => id⟩⟩
    rw [hm, hf ctx s i d e hc]

theorem bind {β : Type} {m : Solve α} {f : α → Solve β} (hm : Unhindered m) (hf : ∀ a, Unhindered (f a)) :
    Unhindered (m >>= f) where
  keeps := keeps_closed.bind hm.keeps fun a => (hf a).keeps
  eased ctx s b v h hv := by
    obtain ⟨a, u, hma, hfa⟩ := bind_eq_some h
    have hk := (hf a).keeps ctx u b v hfa
    obtain ⟨n, hn, hrun⟩ := hm.eased ctx s a u hma (hk.clear hv)
    obtain ⟨n', hn', hrun'⟩ := (hf a).eased ctx u b v hfa hv
    refine ⟨n + n', fun hl => ?_, fun i d e => ?_⟩
    · rw [hn' (by rw [(hm.keeps ctx s a u hma).limits]; exact hl), hn hl, Nat.add_assoc]
    · obtain ⟨j, hj, hcount⟩ := hrun i d e
      obtain ⟨j', hj', hcount'⟩ := hrun' j d e
      exact ⟨j', (run_bind hj).trans hj', fun k hk => by rw [← Nat.add_assoc]; exact hcount' _ (hcount k hk)⟩

theorem withGuard (activity : Activity) (subject : Subject) (hm : Unhindered m) :
    Unhindered (Solve.withGuard activity subject m) where
  keeps := keeps_withGuard activity subject hm.keeps
  eased ctx s r v h hv := by
    have hcounted (i k : Nat) (hi : i = min k counterMax) :
        min (i + 1) counterMax = min (k + 1) counterMax := by omega
    by_cases he : (s.guard.enter (guardKey ctx s activity subject)).1 = .entered
    · rw [withGuard_entered (Prod.ext he rfl)] at h
      obtain ⟨⟨a, u⟩, hrun, hu⟩ := Option.map_eq_some_iff.1 h
      cases hu
      have hu : u.Clear ctx := ⟨hv.exceeded, hv.canceled⟩
      have hex := (hm.keeps ctx _ a u hrun).unexceeded hu.exceeded
      obtain ⟨n, hn, hrun'⟩ := hm.eased ctx _ a u hrun hu
      refine ⟨n + 1, fun hl => ?_, fun i d e => ?_⟩
      · have hused := used_enter hex hl
        have hlim : (s.guard.enter (guardKey ctx s activity subject)).2.limits = s.guard.limits := by
          unfold enter count
          dsimp only
          split_ifs <;> rfl
        have := hn (by rw [hlim]; exact hl)
        show u.guard.used = _
        rw [this, hused, Nat.add_assoc, Nat.add_comm 1]
      · have hent : (s.eased i d e).guard.enter (guardKey ctx.uncancelled (s.eased i d e) activity subject) =
            (.entered, (s.guard.enter (guardKey ctx s activity subject)).2.eased (min (i + 1) counterMax) d e) :=
          (enter_eased hex i d e).trans (by rw [he])
        obtain ⟨j, hj, hcount⟩ := hrun' (min (i + 1) counterMax) d e
        have hr : m ctx.uncancelled { s.eased i d e with
            guard := (s.guard.enter (guardKey ctx s activity subject)).2.eased (min (i + 1) counterMax) d e } =
            some (a, u.eased j d e) := hj
        refine ⟨j, by rw [withGuard_entered hent, hr]; rfl, fun k hi => ?_⟩
        rw [hcount _ (hcounted i k hi), Nat.add_assoc, Nat.add_comm 1]
    · rw [withGuard_refused he] at h
      cases h
      have hex : (s.guard.enter (guardKey ctx s activity subject)).2.exceeded = false := hv.exceeded
      refine ⟨1, used_enter hex, fun i d e => ⟨_, ?_, hcounted i⟩⟩
      have hent : (s.eased i d e).guard.enter (guardKey ctx.uncancelled (s.eased i d e) activity subject) = _ :=
        enter_eased hex i d e
      rw [withGuard_refused (by rw [hent]; exact he), hent]
      rfl

theorem withExpansion (name : Symbol) (hm : Unhindered m) :
    Unhindered (Solve.withExpansion name m) where
  keeps := keeps_withExpansion name hm.keeps
  eased ctx s r v h hv := by
    rw [run_withExpansion] at h
    simp only [run_withExpansion]
    split at h
    · rename_i hc
      cases h
      exact ⟨0, fun _ => rfl, fun i d e => ⟨i, if_pos hc, fun k => id⟩⟩
    · rename_i hc
      obtain ⟨⟨a, u⟩, hrun, hu⟩ := Option.map_eq_some_iff.1 h
      cases hu
      obtain ⟨n, hn, hrun'⟩ := hm.eased ctx _ a u hrun ⟨hv.exceeded, hv.canceled⟩
      refine ⟨n, hn, fun i d e => ?_⟩
      obtain ⟨j, hj, hcount⟩ := hrun' i d e
      have hr : m ctx.uncancelled { s.eased i d e with expanding := name :: s.expanding } = some (a, u.eased j d e) := hj
      exact ⟨j, (if_neg hc).trans (by rw [show (s.eased i d e).expanding = s.expanding from rfl, hr]; rfl), hcount⟩

theorem classDecl (name : Symbol) : Unhindered (Solve.classDecl name) := by
  refine of_step (keeps_closed.classDecl name) (fun _ _ => classDecl_eq_look name) (fun ctx s => ?_) fun ctx s i d e _ => ?_
  · obtain ⟨_, _, he, -⟩ := s.lookClass_eq ctx name
    rw [he]
    split <;> rfl
  · have hlook : (s.eased i d e).lookClass ctx.uncancelled name = (s.lookClass ctx name).eased i d e := by
      unfold Session.lookClass
      have hclasses : (s.eased i d e).classes = s.classes := rfl
      rw [hclasses]
      cases s.classes[name]? <;> rfl
    rw [hlook]
    show (if s.blind || ctx.provider.blind then _ else _) = _
    split <;> rfl

theorem aliasType (name : Symbol) : Unhindered (Solve.aliasType name) := by
  refine of_step (keeps_closed.aliasType name) (fun _ _ => aliasType_eq_look name) (fun ctx s => ?_) fun ctx s i d e _ => ?_
  · obtain ⟨_, he⟩ := s.lookAlias_eq ctx name
    rw [he]
    split <;> rfl
  · have hlook : (s.eased i d e).lookAlias ctx.uncancelled name = (s.lookAlias ctx name).eased i d e := by
      unfold Session.lookAlias
      have haliases : (s.eased i d e).aliases = s.aliases := rfl
      rw [haliases]
      cases s.aliases[name]? <;> rfl
    rw [hlook]
    show (if s.blind || ctx.provider.blind then _ else _) = _
    split <;> rfl

end Unhindered

theorem unhindered_closed : Closed True Unhindered where
  pure a := .of_step (keeps_closed.pure a) (fun _ _ => rfl) (fun _ _ => rfl) fun _ _ _ _ _ _ => rfl
  bind := .bind
  exhausted := ⟨keeps_closed.exhausted, fun _ _ _ _ h => by cases h⟩
  ofTypes f := .of_step (keeps_closed.ofTypes f) (fun _ _ => rfl) (fun _ _ => rfl) fun _ _ _ _ _ _ => rfl
  store hact := .of_step (keeps_closed.store hact) (fun _ _ => rfl) (fun _ _ => rfl) fun _ _ _ _ _ _ => rfl
  settings := .of_step keeps_closed.settings (fun _ _ => rfl) (fun _ _ => rfl) fun _ _ _ _ _ _ => rfl
  isCanceled := .of_step keeps_closed.isCanceled (fun _ _ => rfl) (fun _ _ => rfl) fun ctx s _ _ _ hc => by
    have : (ctx.cancellable && s.canceled) = false := hc.canceled
    show (false && s.canceled, _) = (ctx.cancellable && s.canceled, _)
    rw [this]
    rfl
  parent _ node := .of_step (keeps_closed.parent trivial node) (fun _ _ => rfl) (fun _ _ => rfl) fun _ _ _ _ _ _ => rfl
  tables hl := absurd trivial hl
  classDecl := .classDecl
  aliasType := .aliasType
  scopedType node name := .of_step (keeps_closed.scopedType node name) (fun _ _ => Solve.run_scopedType node name)
    (fun _ _ => rfl) fun _ _ _ _ _ _ => rfl
  withGuard := .withGuard
  withExpansion := .withExpansion

open Solve Solver
open TypeTable (pairing_after)

variable {n n' : Nat} {ξ : Type} {base u : Session} {a : Ty}

def Uniform (S : Solver) {ξ α : Type} [Value ξ] [Value α] (m : ξ → Solve α) : Prop :=
  ∀ L : FullLogic, S.Respects S L.toLogic → ∀ (p : Pairing) (x x' : ξ) [Same p x x'], L.Agree p (m x) (m x')

theorem Uniform.unhindered [Value ξ] [Value α] {m : ξ → Solve α}
    (hm : Uniform (ofBudget n) m) (x : ξ) : Unhindered (m x) :=
  unhindered_closed.of_agree (hm ⟨unhindered_closed.logic, trivial⟩ (unhindered_closed.logic.respects_ofBudget n) .eq x x)

/-! ## Sessions that come from another -/

namespace Session

variable {s' u' : Session}

theorem From.stores (h : s.From ctx base) (hb : base.Sound ctx) [Value α] {a : α} (ha : hb.types.Stores a) :
    h.types.Stores a := by
  have : hb.types.self.After h.types.self := pairing_after h.grown h.grown
  exact Same.upTo ha _

theorem From.sound (h : s.From ctx base) (hb : base.Sound ctx) (hg : h.types.Stores s.guard)
    (he : h.types.Stores s.expanding) : s.Sound ctx where
  types := h.types
  classes name decl hd := by
    rw [h.classes] at hd
    exact ⟨h.grown.hasSymbol (hb.classes name decl hd).1, h.stores hb (hb.classes name decl hd).2⟩
  aliases name ty ht := by
    rw [h.aliases] at ht
    exact ⟨h.grown.hasSymbol (hb.aliases name ty ht).1, h.stores hb (hb.aliases name ty ht).2⟩
  scopes node name ty ht := ⟨h.grown.hasSymbol (hb.scopes node name ty ht).1, h.stores hb (hb.scopes node name ty ht).2⟩
  guard := hg
  expanding := he

variable (ctx) in
/-- The session comes from `base` by queries, stopped or not. -/
structure Past (s base : Session) : Prop extends s.From ctx base where
  kept : base.Kept s

theorem Past.refl (hb : base.Sound ctx) : base.Past ctx base := ⟨⟨hb.types, .refl _, rfl, rfl⟩, .refl _⟩

theorem Past.sound (h : s.Past ctx base) (hb : base.Sound ctx) : s.Sound ctx := by
  refine h.toFrom.sound hb ?_ ?_
  · have : hb.types.self.After h.types.self := pairing_after h.grown h.grown
    have hg : Same hb.types.self base.guard base.guard := hb.guard
    have : Same h.types.self s.guard.active s.guard.active := by
      rw [h.kept.active]
      infer_instance
    exact Same.get _ (Guard.mk _ _ _ _ _) (Guard.mk _ _ _ _ _)
  · rw [TypeTable.WF.Stores, h.kept.expanding]
    exact h.toFrom.stores hb hb.expanding

variable (ctx) in
/-- The session came from `base`, and no limit was met. -/
structure Since (s base : Session) : Prop extends s.From ctx base where
  kept : base.Kept s
  clear : s.Clear ctx

theorem Past.since (h : s.Past ctx base) (hc : s.Clear ctx) : s.Since ctx base := ⟨h.toFrom, h.kept, hc⟩

theorem Sound.since (hb : base.Sound ctx) (hc : base.Clear ctx) : base.Since ctx base := (Past.refl hb).since hc

namespace Since

theorem past (h : s.Since ctx base) : s.Past ctx base := ⟨h.toFrom, h.kept⟩

theorem sound (h : s.Since ctx base) (hb : base.Sound ctx) : s.Sound ctx := h.past.sound hb

/-- The handles of two sessions that stand for the same. -/
abbrev pairing (h : s.Since ctx base) (h' : s'.Since ctx base) : Pairing := TypeTable.pairing h.types h'.types

theorem after_base (hb : base.Sound ctx) (h : s.Since ctx base) (h' : s'.Since ctx base) :
    hb.types.self.After (h.pairing h') :=
  pairing_after h.grown h'.grown

theorem twins (hb : base.Sound ctx) (h : s.Since ctx base) (h' : s'.Since ctx base) (k : Nat) :
    Twins ctx.uncancelled base (fun _ => True) (s.unlimited k) (s'.unlimited k) := by
  have := h.after_base hb h'
  have hguard : Same (h.pairing h') (s.unlimited k).guard (s'.unlimited k).guard := by
    have : Same hb.types.self base.guard base.guard := hb.guard
    unfold unlimited Guard.unlimited
    dsimp only
    rw [h.kept.limits, h'.kept.limits, h.kept.active, h'.kept.active, h.kept.depth, h'.kept.depth, h.clear.exceeded,
      h'.clear.exceeded]
    infer_instance
  have hexpanding : Same (h.pairing h') s.expanding s'.expanding := by
    rw [h.kept.expanding, h'.kept.expanding]
    exact hb.expanding.upTo _
  exact ⟨{ h with }, { h' with }, hguard, hexpanding, h'.kept.position.trans h.kept.position.symm,
    h'.kept.blind.trans h.kept.blind.symm, fun _ _ _ => .inr trivial⟩

theorem inStep [Value ξ] [Value α] {m : ξ → Solve α} (hm : Uniform (ofBudget n) m) (hb : base.Sound ctx) {x x' : ξ}
    (h : s.Since ctx base) (h' : s'.Since ctx base) (hx : Same (h.pairing h') x x') :
    (h.twins hb h' 0).InStep (m x ctx.uncancelled (s.unlimited 0)) (m x' ctx.uncancelled (s'.unlimited 0)) := by
  have hb' : base.Sound ctx.uncancelled := { hb with }
  have hrespects := (Twins.logic hb' rfl fun _ => True).respects_ofBudget n
  have hag := hm ⟨Twins.logic hb' rfl fun _ => True, trivial⟩ hrespects (h.pairing h') x x'
  exact @hag _ _ (h.twins hb h' 0) (.refl _)

section
variable [Value ξ] [Value α] {m : ξ → Solve α} (hm : Uniform (ofBudget n) m) (hb : base.Sound ctx) {x x' : ξ} {a a' : α}
  (h : s.Since ctx base) (h' : s'.Since ctx base) (hx : Same (h.pairing h') x x')
include hm hb h h' hx

theorem goes_left (hr : m x ctx s = some (a, u)) (hu : u.Clear ctx) : u.Since ctx base := by
  have hun := hm.unhindered x
  obtain ⟨i, -, hi⟩ := hun.run ctx s a u hr hu
  obtain ⟨_, _, -, k, -⟩ := (inStep hm hb h h' hx).left (hi 0)
  exact ⟨{ k.left with }, h.kept.trans (hun.keeps ctx s a u hr), hu⟩

theorem goes_right (hr : m x' ctx s' = some (a', u')) (hu : u'.Clear ctx) : u'.Since ctx base := by
  have hun := hm.unhindered x'
  obtain ⟨i, -, hi⟩ := hun.run ctx s' a' u' hr hu
  rcases inStep hm hb h h' hx with ⟨-, hn⟩ | ⟨b, b', v, v', hv, hv', k, hk, hs⟩
  · rw [hi] at hn
    cases hn
  · rw [hi] at hv'
    cases hv'
    exact ⟨{ k.right with }, h'.kept.trans (hun.keeps ctx s' a' u' hr), hu⟩

theorem step (hr : m x ctx s = some (a, u)) (hr' : m x' ctx s' = some (a', u')) (hu : u.Clear ctx) (hu' : u'.Clear ctx) :
    ∃ (k : u.Since ctx base) (k' : u'.Since ctx base),
      (h.pairing h').After (k.pairing k') ∧ Same (k.pairing k') a a' := by
  refine ⟨goes_left hm hb h h' hx hr hu, goes_right hm hb h h' hx hr' hu', ?_⟩
  obtain ⟨i, -, hi⟩ := (hm.unhindered x).run ctx s a u hr hu
  obtain ⟨j, -, hj⟩ := (hm.unhindered x').run ctx s' a' u' hr' hu'
  obtain ⟨_, _, hv', k, hk⟩ := (inStep hm hb h h' hx).left (hi 0)
  cases (hj 0).symm.trans hv'
  exact hk
end

theorem later (h : s.Since ctx base) (h' : s'.Since ctx base) (k : u.Since ctx base) (k' : u'.Since ctx base)
    (hx : s.types.Extends u.types) (hx' : s'.types.Extends u'.types) : (h.pairing h').After (k.pairing k') :=
  pairing_after hx hx'

theorem trans {mid : Session} (h : s.Since ctx mid) (hm : mid.Since ctx base) : s.Since ctx base :=
  ⟨⟨h.types, hm.grown.trans h.grown, h.classes.trans hm.classes, h.aliases.trans hm.aliases⟩,
    hm.kept.trans h.kept, h.clear⟩

end Since

end Session

/-! ## A larger budget keeps every answer -/

/-- Every answer of the first query is an answer of the second one, in the same session. -/
def Solve.Below {α : Type} (m m' : Solve α) : Prop := ∀ ctx s r, m ctx s = some r → m' ctx s = some r

namespace Solve.Below

variable {β : Type} {m m' : Solve α}

theorem refl (m : Solve α) : m.Below m := fun _ _ _ h => h

theorem bind {f f' : α → Solve β} (hm : m.Below m') (hf : ∀ a, (f a).Below (f' a)) : (m >>= f).Below (m' >>= f') := by
  rintro ctx s ⟨b, u⟩ h
  obtain ⟨a, v, hma, hfa⟩ := bind_eq_some h
  rw [run_bind (hm ctx s _ hma)]
  exact hf a ctx v _ hfa

theorem withGuard (activity : Activity) (subject : Subject) (hm : m.Below m') :
    (withGuard activity subject m).Below (withGuard activity subject m') := by
  rintro ctx s ⟨r, u⟩ h
  rw [run_withGuard] at h ⊢
  generalize s.guard.enter (guardKey ctx s activity subject) = e at h
  obtain ⟨admission, g⟩ := e
  cases admission with
  | entered =>
    -- the guarded query is the only part that depends on the budget
    obtain ⟨⟨a, v⟩, hrun, hv⟩ := Option.map_eq_some_iff.1 h
    exact Option.map_eq_some_iff.2 ⟨(a, v), hm ctx _ _ hrun, hv⟩
  | _ => exact h

theorem withExpansion (name : Symbol) (hm : m.Below m') : (withExpansion name m).Below (withExpansion name m') := by
  rintro ctx s ⟨r, u⟩ h
  rw [run_withExpansion] at h ⊢
  split at h
  · rename_i hc
    rw [if_pos hc]
    exact h
  · rename_i hc
    rw [if_neg hc]
    obtain ⟨⟨a, v⟩, hrun, hv⟩ := Option.map_eq_some_iff.1 h
    exact Option.map_eq_some_iff.2 ⟨(a, v), hm ctx _ _ hrun, hv⟩

end Solve.Below

def belowSteps : Steps where
  Agree p _ _ m m' := p.After .eq → m.Below m'
  later h hq := h (Pairing.After.trans inferInstance hq)
  pure {p α _ a a' h} hp := by rw [h.eq_of_after hp]; exact .refl _
  bind {p α β _ _ m m' f f'} hm hf hp := .bind (hm hp) fun a => hf (q := .eq) (.refl _)
  exhausted _ := .refl _
  Budgets n n' := n ≤ n'
  same_budget n := le_refl n
  budget_pred {n n'} h := ⟨n' - 1, by omega, by omega⟩
  spent _ _ _ _ _ h := nomatch h
  ofTypes {p α _ f f'} h hp := by
    have : f = f' := funext fun t => same_eq_iff.1 (h (q := .eq))
    rw [this]
    exact .refl _
  internText text _ := .refl _
  internForm {p form form' h} _ hp := by rw [h.eq_of_after hp]; exact .refl _
  keepName {p ty ty' h} hp := by rw [h.eq_of_after hp]; exact .refl _
  settings _ := .refl _
  isCanceled _ := .refl _
  parent _ node _ := .refl _
  classDecl {p name name' h} hp := by rw [h.eq_of_after hp]; exact .refl _
  aliasType {p name name' h} hp := by rw [h.eq_of_after hp]; exact .refl _
  scopedType {p} node {name name' h} hp := by rw [h.eq_of_after hp]; exact .refl _
  withGuard {p α _ m m'} activity {subject subject' h} hm hp := by
    rw [h.eq_of_after hp]
    exact .withGuard activity subject' (hm hp)
  withExpansion {p α _ m m' name name' h} hm hp := by
    rw [h.eq_of_after hp]
    exact .withExpansion name' (hm hp)

def belowLogic : Logic :=
  belowSteps.withUnions trivial fun {p types types' h} hp => by rw [h.eq_of_after hp]; exact .refl _

theorem respects_below (h : n ≤ n') : (ofBudget n).Respects (ofBudget n') belowLogic :=
  belowLogic.respects h

theorem Solve.Below.of_agree [Value α] {m m' : Solve α} (h : belowLogic.Agree .eq m m') : m.Below m' :=
  h (.refl _)

/-! ## Answers -/

/-- Questions on which the runs of two solvers agree in every logic when they are about the same. -/
def Regular {ξ α : Type} [Value ξ] [Value α] (m : Solver → ξ → Solve α) : Prop :=
  ∀ (L : FullLogic) (S S' : Solver), S.Respects S' L.toLogic → ∀ (p : Pairing) (x x' : ξ) [Same p x x'],
    L.Agree p (m S x) (m S' x')

/-- Where nothing limits the query, some budget suffices for the answer `a`. -/
def Session.Answers (ctx : Context) (s : Session) {α : Type} (m : Solver → Solve α) (a : α) : Prop :=
  ∃ n u, m (ofBudget n) ctx.uncancelled (s.unlimited 0) = some (a, u)

section
variable [Value ξ] [Value α] {m : Solver → ξ → Solve α} (hm : Regular m)
include hm

theorem Regular.uniform (S : Solver) : Uniform S (m S) := fun L hS p x x' _ => hm L S S hS p x x'

theorem Regular.keeps (x : ξ) : Keeps (m (ofBudget n) x) := ((hm.uniform _).unhindered x).keeps

theorem Regular.below (h : n ≤ n') (x : ξ) : (m (ofBudget n) x).Below (m (ofBudget n') x) :=
  .of_agree (hm ⟨belowLogic, trivial⟩ _ _ (respects_below h) .eq x x)

variable {x : ξ} {a : α}

theorem Session.Answers.unique {a' : α} (h : s.Answers ctx (m · x) a) (h' : s.Answers ctx (m · x) a') : a = a' := by
  obtain ⟨n, u, hn⟩ := h
  obtain ⟨n', _, hn'⟩ := h'
  rcases le_total n n' with hle | hle
  · cases (hm.below hle x _ _ _ hn).symm.trans hn'
    rfl
  · cases hn.symm.trans (hm.below hle x _ _ _ hn')
    rfl

variable (hb : base.Sound ctx) (hx : hb.types.Stores x) (h : s.Since ctx base)
  (hr : m (ofBudget n) x ctx s = some (a, u)) (hu : u.Clear ctx)
include hb hx h hr hu

theorem Session.Since.goes : u.Since ctx base := by
  have := h.after_base hb h
  exact goes_left (hm.uniform _) hb h h (Same.upTo hx (h.pairing h)) hr hu

theorem Session.Since.answers : ∃ a0, base.Answers ctx (m · x) a0 ∧
    ∃ (hw : u.types.WF) (u0 : Session) (hw0 : u0.types.WF), base.types.Extends u.types ∧
      base.types.Extends u0.types ∧ Same (TypeTable.pairing hw hw0) a a0 := by
  have hbase : base.Since ctx base := hb.since (h.kept.clear h.clear)
  have := h.after_base hb hbase
  obtain ⟨i, -, hi⟩ := ((hm.uniform _).unhindered x).run ctx s a u hr hu
  obtain ⟨a0, u0, hv0, k, -, hs⟩ := (inStep (hm.uniform _) hb h hbase (Same.upTo hx (h.pairing hbase))).left (hi 0)
  exact ⟨a0, ⟨n, u0, hv0⟩, k.left.types, u0, k.right.types, k.left.grown, k.right.grown, hs⟩
end

namespace Session.Since

variable [Value ξ] {x : ξ}

theorem truth {m : Solver → ξ → Solve Bool} (hm : Regular m) (hb : base.Sound ctx) (hx : hb.types.Stores x)
    (h : s.Since ctx base) {a : Bool} (hr : m (ofBudget n) x ctx s = some (a, u)) (hu : u.Clear ctx) :
    base.Answers ctx (m · x) a := by
  obtain ⟨_, ha, _, _, _, -, -, hs⟩ := h.answers hm hb hx hr hu
  obtain rfl := hs.eq
  exact ha

variable {m : Solver → ξ → Solve Ty} (hm : Regular m) (hb : base.Sound ctx) (hx : hb.types.Stores x) (h : s.Since ctx base)
include hm hb hx h

theorem answers_later (ha : base.Answers ctx (m · x) a) (hstored : base.types.Has a) :
    s.Answers ctx (m · x) a := by
  have hbase : base.Since ctx base := hb.since (h.kept.clear h.clear)
  have := hbase.after_base hb h
  obtain ⟨n, _, hn⟩ := ha
  obtain ⟨_, v', hv', k, -, hs⟩ := (inStep (hm.uniform _) hb hbase h (Same.upTo hx (hbase.pairing h))).left hn
  obtain ⟨-, hhas, ht⟩ := TypeTable.sameType_iff.1 hs
  rw [k.left.grown.tree_eq hb.types k.left.types hstored,
    ← k.right.grown.tree_eq hb.types k.right.types hstored] at ht
  obtain rfl := k.right.types.eq_of_tree (k.right.grown.has hstored) hhas ht
  exact ⟨n, v', hv'⟩

end Session.Since

end AnnotatedLua
