/-
Properties of single queries. If the steps of queries have a property and it is kept when they are put together, it
holds of the answer to every question about types (`Closed.ask`) and of other operations (`Closed.operation`). What a
question about types leaves as it was: the activities that are guarded, the scopes, the types and texts, and the types
of expressions that were kept (`ask_keeps`).
-/
import AnnotatedLua.Proofs.Pair.Calls
import AnnotatedLua.Proofs.Type.Intern

namespace AnnotatedLua

variable {α : Type} {p : Pairing} {parents : Prop} {S : Solver}

/-- The action stores types and texts, and drops none. -/
def Interning.Grows {α : Type} (act : Interning α) : Prop := ∀ t : TypeTable, t.Extends (act t).2

/-- A property that the steps of queries have and that is kept when they are put together. Queries that do not look at
the syntax are enough, if `parents` is false. -/
structure Closed (parents : Prop) (P : {α : Type} → Solve α → Prop) : Prop where
  pure {α : Type} (a : α) : P (Pure.pure a : Solve α)
  bind {α β : Type} {m : Solve α} {f : α → Solve β} : P m → (∀ a, P (f a)) → P (m >>= f)
  exhausted {α : Type} : P (Solve.exhausted : Solve α)
  ofTypes {α : Type} (f : TypeTable → α) : P (Solve.ofTypes f)
  store {α : Type} {act : Interning α} : act.Grows → P (Solve.store act)
  settings : P Solve.settings
  isCanceled : P Solve.isCanceled
  parent : parents → ∀ node : Node, P (Solve.parent node)
  tables : ¬ parents → ∀ (search : Search) (ty : Ty), P (Solver.isArgumentTable search ty)
  classDecl (name : Symbol) : P (Solve.classDecl name)
  aliasType (name : Symbol) : P (Solve.aliasType name)
  scopedType (node : Node) (name : Symbol) : P (Solve.scopedType node name)
  withGuard {α : Type} {m : Solve α} (activity : Activity) (subject : Subject) :
    P m → P (Solve.withGuard activity subject m)
  withExpansion {α : Type} {m : Solve α} (name : Symbol) : P m → P (Solve.withExpansion name m)

instance {t : TypeTable} : Pairing.eq.Reads t t where
  lookup h := by obtain rfl := same_eq_iff.1 h; infer_instance
  text h := by obtain rfl := same_eq_iff.1 h; rfl

theorem Same.eq_of_after [Value α] {a a' : α} (h : Same p a a') (hp : p.After .eq) : a = a' :=
  same_eq_iff.1 (h.upTo .eq)

namespace Closed

variable {P : {α : Type} → Solve α → Prop} (hP : Closed parents P)

def steps : Steps where
  Agree p _ _ m m' := p.After .eq → m = m' ∧ P m
  later h hq := h (Pairing.After.trans inferInstance hq)
  pure {p α _ a a' h} hp := ⟨by rw [h.eq_of_after hp], hP.pure a⟩
  bind {p α β _ _ m m' f f'} hm hf hp := by
    obtain ⟨rfl, h⟩ := hm hp
    have hf a : f a = f' a ∧ P (f a) := hf (q := .eq) (.refl _)
    exact ⟨by rw [funext fun a => (hf a).1], hP.bind h fun a => (hf a).2⟩
  exhausted _ := ⟨rfl, hP.exhausted⟩
  Budgets := Eq
  same_budget _ := rfl
  budget_pred := @Steps.eq_budget_pred
  spent h := nomatch h
  ofTypes {p α _ f f'} h hp := by
    have : f = f' := funext fun t => same_eq_iff.1 (h (q := .eq))
    exact ⟨by rw [this], hP.ofTypes f⟩
  internText text _ := ⟨rfl, hP.store fun t => t.internText_extends text⟩
  internForm {p form form' h} _ hp := ⟨by rw [h.eq_of_after hp], hP.store fun t => t.intern_extends form⟩
  keepName {p ty ty' h} hp := ⟨by rw [h.eq_of_after hp], hP.store fun t => t.keepName_extends ty⟩
  settings _ := ⟨rfl, hP.settings⟩
  isCanceled _ := ⟨rfl, hP.isCanceled⟩
  Parents := parents
  parent hl node _ := ⟨rfl, hP.parent hl node⟩
  classDecl {p name name' h} hp := ⟨by rw [h.eq_of_after hp], hP.classDecl name⟩
  aliasType {p name name' h} hp := ⟨by rw [h.eq_of_after hp], hP.aliasType name⟩
  scopedType {p} node {name name' h} hp := ⟨by rw [h.eq_of_after hp], hP.scopedType node name⟩
  withGuard {p α _ m m'} activity {subject subject' h} hm hp := by
    obtain ⟨rfl, hm'⟩ := hm hp
    exact ⟨by rw [h.eq_of_after hp], hP.withGuard activity subject hm'⟩
  withExpansion {p α _ m m' name name' h} hm hp := by
    obtain ⟨rfl, hm'⟩ := hm hp
    exact ⟨by rw [h.eq_of_after hp], hP.withExpansion name hm'⟩

theorem agree_unionOf {types types' : List Ty} [h : Same p types types'] :
    hP.steps.Agree p (Solve.store (.unionOf types)) (Solve.store (.unionOf types')) :=
  fun hp => ⟨by rw [h.eq_of_after hp], hP.store fun t => t.unionOf_extends types⟩

def logic : Logic where
  toSteps := hP.steps
  unions hS := hP.steps.unionAll hP.agree_unionOf hS
  differences hS := hP.steps.subtract hP.agree_unionOf hS
  tables {p search search' ty ty' hs ht} hl hp := by
    obtain rfl := hs.eq_of_after hp
    obtain rfl := ht.eq_of_after hp
    exact ⟨rfl, hP.tables hl search ty⟩

include hP

theorem of_agree [Value α] {m : Solve α} (h : hP.logic.Agree .eq m m) : P m := (h (.refl _)).2

theorem ask (hS : S.Respects S hP.logic) (q : Query α) (hq : q.isInference = false)
    (hl : q.isCheck = true → parents) : P (S.ask q) := by
  cases q with
  | accepts => exact hP.of_agree hS.accepts
  | equal => exact hP.of_agree hS.equal
  | check => exact hP.of_agree (hS.check (hl rfl))
  | willResolve => exact hP.of_agree hS.willResolve
  | isShape => exact hP.of_agree hS.isShape
  | paramsOf => exact hP.of_agree hS.paramsOf
  | superClass => exact hP.of_agree hS.superClass
  | resultAt => exact hP.of_agree hS.resultAt
  | substitute => exact hP.of_agree hS.substitute
  | memberSubstitution => exact hP.of_agree hS.memberSubstitution
  | fieldType => exact hP.of_agree hS.fieldType
  | indexedType ty index exact => exact hP.of_agree hS.indexedType
  | signaturesOf => exact hP.of_agree hS.signaturesOf
  | infer => cases hq
  | bind => exact hP.of_agree hS.bind

end Closed

/-! ## Operations -/

open Solve Solver

inductive Operation : Type → Type 1 where
  | ask {α : Type} (q : Query α) : Operation α
  | union (a b : Ty) : Operation Ty
  | unionAll (types : List Ty) : Operation Ty
  | subtract (a b : Ty) : Operation Ty
  | resolve (ty : Ty) : Operation Ty
  | mergeResults (ty : Ty) : Operation Ty
  | member (ty : Ty) (name : Symbol) : Operation (Option Member)
  | indexer (ty index : Ty) (exact : Bool) : Operation (Option Member)
  | memberType (owner : Ty) (found : Member) : Operation Ty
  | tableOfMembers (ty : Ty) : Operation Ty
  | isArray (ty : Ty) : Operation Bool
  | truth (ty : Ty) : Operation Ty
  | analyze (search : Search) (bindings : Bindings) (arg declared : Ty) : Operation Bindings
  | inferCallSite (node : Node) (args : List Node) : Operation CallSite
  | matchCall (wanted : Bool) (callable : Ty) (call : CallSite) : Operation CallAnswer

namespace Operation

def run (S : Solver) : {α : Type} → Operation α → Solve α
  | _, .ask q => S.ask q
  | _, .union a b => S.union a b
  | _, .unionAll types => S.unionAll types
  | _, .subtract a b => S.subtract a b
  | _, .resolve ty => S.resolve ty
  | _, .mergeResults ty => S.mergeResults ty
  | _, .member ty name => S.member? ty name
  | _, .indexer ty index exact => S.indexer? ty index exact
  | _, .memberType owner found => S.memberType owner found
  | _, .tableOfMembers ty => S.tableOfMembers ty
  | _, .isArray ty => S.isArray ty
  | _, .truth ty => S.truth ty
  | _, .analyze search bindings arg declared => S.analyze search bindings arg declared
  | _, .inferCallSite node args => S.inferCallSite node args
  | _, .matchCall wanted callable call => S.matchCall wanted callable call

/-- Whether the operation is about expressions and not about types. -/
def isInference {α : Type} : Operation α → Bool
  | .ask q => q.isInference
  | .inferCallSite _ _ => true
  | _ => false

/-- Whether the operation may say what is wrong. Problems are ranked by where they show in the syntax. -/
def reports {α : Type} : Operation α → Bool
  | .ask q => q.isCheck
  | .matchCall wanted _ _ => wanted
  | _ => false

end Operation

namespace Closed

variable {P : {α : Type} → Solve α → Prop} (hP : Closed parents P) (hS : S.Respects S hP.logic)
include hP hS

theorem truth (ty : Ty) : P (S.truth ty) := by
  refine hP.bind (hP.of_agree (hP.logic.resolvedMembers hS)) fun _ => hP.bind (hP.ofTypes _) fun _ => ?_
  split
  · exact hP.pure _
  · exact hP.pure _

/-! ## Calls -/

theorem trySignatures {m : Matching} (hl : m.wanted = true → parents) (several : Bool) (signatures : List Signature)
    (refusals : List Refusal) (fallback : Option Ty) : P (S.trySignatures m several signatures refusals fallback) := by
  induction signatures generalizing refusals fallback with
  | nil => exact hP.bind (hP.ofTypes _) fun _ => hP.pure _
  | cons signature rest ih =>
    refine hP.bind hP.isCanceled fun canceled => ?_
    split
    · exact hP.pure _
    refine hP.bind (hP.of_agree (hP.logic.trySignature hS hl)) fun _ => ?_
    refine hP.bind hP.isCanceled fun _ => ?_
    split
    · exact hP.pure _
    split
    · exact hP.bind (hP.of_agree hP.logic.returnType) fun _ => hP.pure _
    · exact hP.bind (hP.of_agree hP.logic.fallbackAfter) fun _ => ih _ _

theorem matchCall {wanted : Bool} (hl : wanted = true → parents) (callable : Ty) (call : CallSite) :
    P (S.matchCall wanted callable call) := by
  refine hP.bind hP.isCanceled fun _ => ?_
  split
  · exact hP.pure _
  refine hP.bind (hP.of_agree (hP.logic.passedValues hS)) fun _ => ?_
  refine hP.bind (hP.of_agree (hP.logic.candidates hS)) fun _ => ?_
  split
  · exact hP.pure _
  · exact hP.trySignatures hS hl _ _ _ _

/-! ## All operations -/

theorem operation (op : Operation α) (hop : op.isInference = false) (hl : op.reports = true → parents) :
    P (op.run S) := by
  cases op with
  | ask q => exact hP.ask hS q hop hl
  | union => exact hP.of_agree (hP.logic.union hS)
  | unionAll => exact hP.of_agree (hP.logic.unionAll hS)
  | subtract => exact hP.of_agree (hP.logic.differences (hS.comparing .eq))
  | resolve => exact hP.of_agree (hP.logic.resolve hS)
  | mergeResults => exact hP.of_agree (hP.logic.mergeResults hS)
  | member => exact hP.of_agree (hP.logic.member? hS)
  | indexer => exact hP.of_agree (hP.logic.indexer? hS)
  | memberType => exact hP.of_agree (hP.logic.memberType hS)
  | tableOfMembers => exact hP.of_agree (hP.logic.tableOfMembers hS)
  | isArray => exact hP.of_agree (hP.logic.isArray hS)
  | truth ty => exact hP.truth hS ty
  | analyze => exact hP.of_agree (hP.logic.analyze hS)
  | inferCallSite => cases hop
  | matchCall wanted callable call => exact hP.matchCall hS hl callable call

end Closed

variable {s s' : Session} {β : Type} {ctx : Context} {activity : Activity} {subject : Subject}

/-! ## Runs -/

namespace Solve

variable {m : Solve α} {f : α → Solve β} {a : α}

theorem run_bind (h : m ctx s = some (a, s')) : (m >>= f) ctx s = f a ctx s' := by
  show (m ctx s).bind (fun r => f r.1 ctx r.2) = _
  rw [h]
  rfl

theorem of_read {r : Option (β × Session)} (h : (m >>= f) ctx s = r)
    (hm : m ctx s = some (a, s)) : f a ctx s = r := (run_bind hm).symm.trans h

theorem bind_eq_some {b : β} (h : (m >>= f) ctx s = some (b, s')) :
    ∃ a s1, m ctx s = some (a, s1) ∧ f a ctx s1 = some (b, s') := by
  have h' : (m ctx s).bind (fun r => f r.1 ctx r.2) = some (b, s') := h
  obtain ⟨⟨a, s1⟩, hm, hf⟩ := Option.bind_eq_some_iff.1 h'
  exact ⟨a, s1, hm, hf⟩

theorem pure_eq_some {b : α} (h : (pure a : Solve α) ctx s = some (b, s')) : b = a ∧ s' = s := by
  cases h
  exact ⟨rfl, rfl⟩

theorem run_classDecl (name : Symbol) : classDecl name ctx s =
    if s.blind || ctx.provider.blind then some (none, s)
    else match s.classes[name]? with
      | some decl => some (decl, s)
      | none => some (ctx.provider.classDecl name, { s with
          classes := s.classes.insert name (ctx.provider.classDecl name)
          canceled := s.canceled || ctx.provider.cancels name }) := by
  show (if s.blind || ctx.provider.blind then _ else _ : Solve (Option ClassDecl)) ctx s = _
  split
  · rfl
  · show (match s.classes[name]? with
      | some decl => pure decl
      | none => _ : Solve (Option ClassDecl)) ctx s = _
    cases s.classes[name]? <;> rfl

theorem run_aliasType (name : Symbol) : aliasType name ctx s =
    if s.blind || ctx.provider.blind then some (none, s)
    else match s.aliases[name]? with
      | some type => some (type, s)
      | none => some (ctx.provider.aliasType name,
        { s with aliases := s.aliases.insert name (ctx.provider.aliasType name) }) := by
  show (if s.blind || ctx.provider.blind then _ else _ : Solve (Option Ty)) ctx s = _
  split
  · rfl
  · show (match s.aliases[name]? with
      | some type => pure type
      | none => _ : Solve (Option Ty)) ctx s = _
    cases s.aliases[name]? <;> rfl

def guardKey (ctx : Context) (s : Session) (activity : Activity) (subject : Subject) : GuardKey :=
  ⟨activity, s.blind || ctx.provider.blind, subject⟩

theorem withGuard_eq_enter (activity : Activity) (subject : Subject) (m : Solve α) :
    withGuard activity subject m ctx s =
      (match (s.guard.enter (guardKey ctx s activity subject)).1 with
        | .entered => (do
          let a ← m
          modify fun s1 : Session => { s1 with guard := s1.guard.leave (guardKey ctx s activity subject) }
          return some a : Solve (Option α))
        | _ => return none) ctx { s with guard := (s.guard.enter (guardKey ctx s activity subject)).2 } :=
  rfl

theorem run_withGuard (activity : Activity) (subject : Subject) (m : Solve α) :
    withGuard activity subject m ctx s =
      match s.guard.enter (guardKey ctx s activity subject) with
      | (.entered, g) => (m ctx { s with guard := g }).map fun (a, s1) =>
        (some a, { s1 with guard := s1.guard.leave (guardKey ctx s activity subject) })
      | (_, g) => some (none, { s with guard := g }) := by
  rw [withGuard_eq_enter]
  generalize s.guard.enter (guardKey ctx s activity subject) = e
  obtain ⟨admission, g⟩ := e
  cases admission with
  | entered =>
    show Option.bind (m ctx { s with guard := g }) _ = Option.map _ (m ctx { s with guard := g })
    cases m ctx { s with guard := g } <;> rfl
  | _ => rfl

theorem withGuard_entered {g : Guard GuardKey} (he : s.guard.enter (guardKey ctx s activity subject) = (.entered, g)) :
    withGuard activity subject m ctx s = (m ctx { s with guard := g }).map fun (a, s1) =>
      (some a, { s1 with guard := s1.guard.leave (guardKey ctx s activity subject) }) := by
  rw [run_withGuard, he]

theorem withGuard_refused (he : (s.guard.enter (guardKey ctx s activity subject)).1 ≠ .entered) :
    withGuard activity subject m ctx s =
      some (none, { s with guard := (s.guard.enter (guardKey ctx s activity subject)).2 }) := by
  rw [run_withGuard]
  generalize s.guard.enter (guardKey ctx s activity subject) = e at he
  obtain ⟨admission, g⟩ := e
  cases admission with
  | entered => exact absurd rfl he
  | _ => rfl

theorem run_withExpansion (name : Symbol) (m : Solve α) : withExpansion name m ctx s =
    if s.expanding.contains name then some (none, s)
    else (m ctx { s with expanding := name :: s.expanding }).map fun (a, s1) =>
      (some a, { s1 with expanding := s1.expanding.erase name }) := by
  show (if s.expanding.contains name then _ else _ : Solve (Option α)) ctx s = _
  split
  · rfl
  · show Option.bind (m ctx { s with expanding := name :: s.expanding }) _ =
      Option.map _ (m ctx { s with expanding := name :: s.expanding })
    cases m ctx { s with expanding := name :: s.expanding } <;> rfl

end Solve

/-! ## Look-ups -/

namespace Session

variable (ctx : Context)

/-- What a class is declared as: what was found when it was looked up, or what would be found now. -/
def classOf (s : Session) (name : Symbol) : Option ClassDecl :=
  (s.classes[name]?).getD (ctx.provider.classDecl name)

def aliasOf (s : Session) (name : Symbol) : Option Ty :=
  (s.aliases[name]?).getD (ctx.provider.aliasType name)

def lookClass (s : Session) (name : Symbol) : Session :=
  match s.classes[name]? with
  | some _ => s
  | none =>
    { s with
      classes := s.classes.insert name (ctx.provider.classDecl name)
      canceled := s.canceled || ctx.provider.cancels name }

def lookAlias (s : Session) (name : Symbol) : Session :=
  match s.aliases[name]? with
  | some _ => s
  | none => { s with aliases := s.aliases.insert name (ctx.provider.aliasType name) }

theorem lookClass_eq (s : Session) (name : Symbol) :
    ∃ classes canceled, s.lookClass ctx name = { s with classes, canceled } ∧
      ∀ other, other ∈ classes ↔ other ∈ s.classes ∨ other = name := by
  unfold lookClass
  split
  · rename_i hn
    refine ⟨s.classes, s.canceled, rfl, fun other => ⟨.inl, ?_⟩⟩
    rintro (h | rfl)
    · exact h
    · rw [Std.TreeMap.mem_iff_isSome_getElem?, hn]
      rfl
  · refine ⟨_, _, rfl, fun _ => ?_⟩
    rw [Std.TreeMap.mem_insert, Std.LawfulEqOrd.compare_eq_iff_eq, or_comm, eq_comm]

theorem lookAlias_eq (s : Session) (name : Symbol) : ∃ aliases, s.lookAlias ctx name = { s with aliases } := by
  unfold lookAlias
  split
  · exact ⟨s.aliases, rfl⟩
  · exact ⟨_, rfl⟩

end Session

namespace Solve

theorem classDecl_eq_look (name : Symbol) : classDecl name ctx s =
    some (if s.blind || ctx.provider.blind then (none, s) else (s.classOf ctx name, s.lookClass ctx name)) := by
  rw [run_classDecl]
  unfold Session.classOf Session.lookClass
  split
  · rfl
  · cases s.classes[name]? <;> rfl

theorem aliasType_eq_look (name : Symbol) : aliasType name ctx s =
    some (if s.blind || ctx.provider.blind then (none, s) else (s.aliasOf ctx name, s.lookAlias ctx name)) := by
  rw [run_aliasType]
  unfold Session.aliasOf Session.lookAlias
  split
  · rfl
  · cases s.aliases[name]? <;> rfl

theorem run_scopedType (node : Node) (name : Symbol) : scopedType node name ctx s =
    some (if s.blind || ctx.provider.blind then none else ctx.provider.scopedType node name, s) := by
  show (if s.blind || ctx.provider.blind then _ else _ : Solve (Option Ty)) ctx s = _
  split <;> rfl

end Solve

/-! ## The guard -/

namespace Guard

variable {κ : Type}

/-- The number of requests that counts: the counter stops at its greatest value. -/
def used (g : Guard κ) : Nat := min g.iterations counterMax

theorem enter_cases [DecidableEq κ] (g : Guard κ) (key : κ) :
    ((g.enter key).1 = .entered ∧ g.isActive key = false ∧ g.depth < g.limits.depth ∧
      (g.enter key).2 = { g.count with active := key :: g.active, depth := g.depth + 1 }) ∨
    ((g.enter key).1 ≠ .entered ∧ (g.enter key).2.exceeded = true ∧
      (g.enter key).2 = { g.count with exceeded := true }) ∨
    ((g.enter key).1 ≠ .entered ∧ g.isActive key = true ∧ (g.enter key).2 = g.count) := by
  unfold enter
  dsimp only
  split_ifs with h1 h2 h3
  · exact .inr (.inl ⟨by simp, rfl, rfl⟩)
  · exact .inr (.inl ⟨by simp, rfl, rfl⟩)
  · exact .inr (.inr ⟨by simp, by simpa [isActive, count] using h3, rfl⟩)
  · exact .inl ⟨rfl, by simpa [isActive, count] using h3, by simpa [count] using h2, rfl⟩

theorem enter_entered [DecidableEq κ] {g : Guard κ} {key : κ} (h : (g.enter key).1 = .entered) : g.isActive key = false ∧
    (g.enter key).2 = { g.count with active := key :: g.active, depth := g.depth + 1 } := by
  rcases g.enter_cases key with ⟨-, hno, -, hg⟩ | ⟨hne, -⟩ | ⟨hne, -⟩
  · exact ⟨hno, hg⟩
  · exact absurd h hne
  · exact absurd h hne

theorem used_count (g : Guard κ) : g.used ≤ g.count.used := by
  unfold used count
  simp only
  omega

/-- A guard after some activities, compared with the one before: it watches over the same ones, the requests that were
counted are still counted, and a limit that was exceeded still is. -/
structure Restored (g g' : Guard κ) : Prop where
  limits : g'.limits = g.limits
  active : g'.active = g.active
  depth : g'.depth = g.depth
  used : g.used ≤ g'.used
  exceeded : g.exceeded = true → g'.exceeded = true

namespace Restored

theorem refl (g : Guard κ) : g.Restored g := ⟨rfl, rfl, rfl, le_refl _, id⟩

theorem trans {g g1 g2 : Guard κ} (h : g.Restored g1) (h' : g1.Restored g2) : g.Restored g2 :=
  ⟨h'.limits.trans h.limits, h'.active.trans h.active, h'.depth.trans h.depth, h.used.trans h'.used,
    h'.exceeded ∘ h.exceeded⟩

variable [DecidableEq κ] {g g' : Guard κ} {key : κ}

theorem of_refused (h : (g.enter key).1 ≠ .entered) : g.Restored (g.enter key).2 := by
  have hused := g.used_count
  rcases g.enter_cases key with ⟨h1, -⟩ | ⟨-, -, h2⟩ | ⟨-, -, h2⟩
  · exact absurd h1 h
  · rw [h2]
    exact ⟨rfl, rfl, rfl, hused, fun _ => rfl⟩
  · rw [h2]
    exact ⟨rfl, rfl, rfl, hused, id⟩

theorem of_entered (h : Restored { g.count with active := key :: g.active, depth := g.depth + 1 } g') :
    g.Restored (g'.leave key) where
  limits := h.limits
  active := by
    show g'.active.erase key = g.active
    rw [h.active]
    exact List.erase_cons_head ..
  depth := by
    show g'.depth - 1 = g.depth
    rw [h.depth]
    rfl
  used := g.used_count.trans h.used
  exceeded := h.exceeded

end Restored

end Guard

variable {m : Solve α}

theorem Solve.withGuard_cases {a : Option α} (h : withGuard activity subject m ctx s = some (a, s')) :
    (∃ g, s.guard.Restored g ∧ s' = { s with guard := g }) ∨
    ∃ key b s1, m ctx { s with guard := { s.guard.count with
      active := key :: s.guard.active, depth := s.guard.depth + 1 } } = some (b, s1) ∧
      s' = { s1 with guard := s1.guard.leave key } := by
  by_cases he : (s.guard.enter (guardKey ctx s activity subject)).1 = .entered
  · rw [withGuard_entered (Prod.ext he (Guard.enter_entered he).2)] at h
    obtain ⟨⟨b, s1⟩, hrun, hs⟩ := Option.map_eq_some_iff.1 h
    cases hs
    exact .inr ⟨_, b, s1, hrun, rfl⟩
  · rw [withGuard_refused he] at h
    cases h
    exact .inl ⟨_, .of_refused he, rfl⟩

/-! ## What is kept -/

/-- The session after an answer, compared with the one before. -/
structure Session.Kept (s s' : Session) : Prop where
  types : s.types.Extends s'.types
  limits : s'.guard.limits = s.guard.limits
  active : s'.guard.active = s.guard.active
  depth : s'.guard.depth = s.guard.depth
  used : s.guard.used ≤ s'.guard.used
  expanding : s'.expanding = s.expanding
  position : s'.position = s.position
  several : s'.several = s.several
  blind : s'.blind = s.blind
  inferred : s'.inferred = s.inferred
  exceeded : s.guard.exceeded = true → s'.guard.exceeded = true
  canceled : s.canceled = true → s'.canceled = true

namespace Session.Kept

theorem refl (s : Session) : s.Kept s :=
  ⟨.refl _, rfl, rfl, rfl, le_refl _, rfl, rfl, rfl, rfl, rfl, id, id⟩

theorem trans {s1 s2 : Session} (h : s.Kept s1) (h' : s1.Kept s2) : s.Kept s2 where
  types := h.types.trans h'.types
  limits := h'.limits.trans h.limits
  active := h'.active.trans h.active
  depth := h'.depth.trans h.depth
  used := h.used.trans h'.used
  expanding := h'.expanding.trans h.expanding
  position := h'.position.trans h.position
  several := h'.several.trans h.several
  blind := h'.blind.trans h.blind
  inferred := h'.inferred.trans h.inferred
  exceeded := h'.exceeded ∘ h.exceeded
  canceled := h'.canceled ∘ h.canceled

theorem unexceeded (h : s.Kept s') (hex : s'.guard.exceeded = false) : s.guard.exceeded = false := by
  cases he : s.guard.exceeded with
  | false => rfl
  | true => rw [h.exceeded he] at hex; cases hex

end Session.Kept

def Keeps {α : Type} (m : Solve α) : Prop := ∀ ctx s a s', m ctx s = some (a, s') → s.Kept s'

theorem keeps_of_id (h : ∀ ctx s, ∃ a, m ctx s = some (a, s)) : Keeps m := by
  intro ctx s a _ hm
  obtain ⟨b, hb⟩ := h ctx s
  rw [hb] at hm
  cases hm
  exact .refl s

theorem keeps_withGuard (activity : Activity) (subject : Subject) (hm : Keeps m) :
    Keeps (withGuard activity subject m) := by
  intro ctx s a _ h
  rcases withGuard_cases h with ⟨g, hg, rfl⟩ | ⟨key, b, s1, hrun, rfl⟩
  · exact { hg, Session.Kept.refl s with }
  · have hk := hm ctx _ b s1 hrun
    have hg := Guard.Restored.of_entered { hk with }
    exact { hg, hk with }

theorem keeps_withExpansion (name : Symbol) (hm : Keeps m) : Keeps (withExpansion name m) := by
  intro ctx s a _ h
  rw [run_withExpansion] at h
  split at h
  · cases h; exact .refl s
  · obtain ⟨⟨b, s1⟩, hrun, hs⟩ := Option.map_eq_some_iff.1 h
    cases hs
    have hk := hm ctx _ b s1 hrun
    refine { hk with expanding := ?_ }
    show s1.expanding.erase name = _
    rw [hk.expanding]
    exact List.erase_cons_head ..

theorem keeps_classDecl (name : Symbol) : Keeps (classDecl name) := by
  intro _ s a _ h
  rw [run_classDecl] at h
  split at h
  · cases h; exact .refl s
  · split at h
    · cases h; exact .refl s
    · cases h; exact ⟨.refl _, rfl, rfl, rfl, le_refl _, rfl, rfl, rfl, rfl, rfl, id, by simp_all⟩

theorem keeps_aliasType (name : Symbol) : Keeps (aliasType name) := by
  intro _ s a _ h
  rw [run_aliasType] at h
  split at h
  · cases h; exact .refl s
  · split at h
    · cases h; exact .refl s
    · cases h; exact ⟨.refl _, rfl, rfl, rfl, le_refl _, rfl, rfl, rfl, rfl, rfl, id, id⟩

theorem keeps_scopedType (node : Node) (name : Symbol) : Keeps (scopedType node name) :=
  keeps_of_id fun _ _ => ⟨_, run_scopedType node name⟩

theorem keeps_closed : Closed True Keeps where
  pure a := keeps_of_id fun _ _ => ⟨a, rfl⟩
  bind hm hf := by
    intro ctx s b s' h
    obtain ⟨a, s1, h1, h2⟩ := bind_eq_some h
    exact (hm ctx s a s1 h1).trans (hf a ctx s1 b s' h2)
  exhausted := by
    intro α ctx s a s' h
    cases h
  ofTypes f := keeps_of_id fun _ s => ⟨f s.types, rfl⟩
  store {α act} hact := by
    intro ctx s a _ h
    have hrun : store act ctx s = some ((act s.types).1, { s with types := (act s.types).2 }) := rfl
    rw [hrun] at h
    cases h
    exact ⟨hact s.types, rfl, rfl, rfl, le_refl _, rfl, rfl, rfl, rfl, rfl, id, id⟩
  settings := keeps_of_id fun ctx _ => ⟨ctx.settings, rfl⟩
  isCanceled := keeps_of_id fun ctx s => ⟨ctx.cancellable && s.canceled, rfl⟩
  parent _ node := keeps_of_id fun ctx _ => ⟨ctx.provider.parent node, rfl⟩
  tables hl := absurd trivial hl
  classDecl := keeps_classDecl
  aliasType := keeps_aliasType
  scopedType := keeps_scopedType
  withGuard := keeps_withGuard
  withExpansion := keeps_withExpansion

theorem keeps_of_agree [Value α] {m : Solve α} (h : keeps_closed.logic.Agree .eq m m) : Keeps m :=
  keeps_closed.of_agree h

theorem keeps_respects (n : Nat) : (Solver.ofBudget n).Respects (Solver.ofBudget n) keeps_closed.logic :=
  keeps_closed.logic.respects_ofBudget n

theorem ask_keeps (n : Nat) (q : Query α) (hq : q.isInference = false) :
    Keeps ((Solver.ofBudget n).ask q) := keeps_closed.ask (keeps_respects n) q hq fun _ => trivial

/-! ## What is known of an answer from the query alone -/

def Solve.Gives {α : Type} (m : Solve α) (Q : α → Prop) : Prop := ∀ ctx s a u, m ctx s = some (a, u) → Q a

namespace Solve.Gives

variable {m : Solve α} {P : α → Prop} {Q : β → Prop}

theorem pure {a : α} (h : P a) : (Pure.pure a : Solve α).Gives P := by
  intro _ s b u hr
  cases hr
  exact h

variable {f : α → Solve β}

theorem bind (hm : m.Gives P) (hf : ∀ a, P a → (f a).Gives Q) : (m >>= f).Gives Q := by
  intro ctx s b u hr
  obtain ⟨a, v, hma, hfa⟩ := bind_eq_some hr
  exact hf a (hm ctx s a v hma) ctx v b u hfa

theorem after (hf : ∀ a, (f a).Gives Q) : (m >>= f).Gives Q :=
  bind (P := fun _ => True) (fun _ _ _ _ _ => trivial) fun a _ => hf a

theorem imp {R : α → Prop} (hm : m.Gives P) (h : ∀ a, P a → R a) : m.Gives R :=
  fun ctx s a u hr => h a (hm ctx s a u hr)

theorem ite {c : Prop} [Decidable c] {n : Solve α} (hm : c → m.Gives P) (hn : ¬ c → n.Gives P) :
    (if c then m else n).Gives P := by
  split
  · exact hm ‹_›
  · exact hn ‹_›

theorem filterM {f : α → Solve Bool} (l : List α) : (l.filterM f).Gives (·.Sublist l) := by
  induction l with
  | nil => exact pure .slnil
  | cons a l ih =>
    rw [filterM_cons]
    refine after fun keep => bind ih fun _ h => pure ?_
    cases keep with
    | true => exact h.cons_cons a
    | false => exact h.cons a

theorem foldlM {f : β → α → Solve β} {l : List α} {b : β} (hb : Q b)
    (hf : ∀ b, ∀ a ∈ l, Q b → (f b a).Gives Q) : (l.foldlM f b).Gives Q := by
  induction l generalizing b with
  | nil => exact pure hb
  | cons a l ih =>
    rw [List.foldlM_cons]
    exact bind (hf b a List.mem_cons_self hb) fun b hb => ih hb fun b x hx => hf b x (List.mem_cons_of_mem _ hx)

theorem mapM {f : α → Solve β} {R : α → β → Prop} (hf : ∀ a, (f a).Gives (R a)) (l : List α) :
    (l.mapM f).Gives fun r => r.length = l.length ∧ ∀ b ∈ r, ∃ a ∈ l, R a b := by
  induction l with
  | nil => exact pure ⟨rfl, nofun⟩
  | cons a l ih =>
    rw [List.mapM_cons]
    refine bind (hf a) fun b hb => bind ih fun rest ⟨hlength, hrest⟩ => pure ⟨congrArg (· + 1) hlength, ?_⟩
    rintro c (_ | ⟨_, hc⟩)
    · exact ⟨a, List.mem_cons_self, hb⟩
    · obtain ⟨a', ha', hR⟩ := hrest c hc
      exact ⟨a', List.mem_cons_of_mem a ha', hR⟩

end Solve.Gives

end AnnotatedLua
