/-
Sessions in which every handle was given out by the table. Every question leads from such a session to such a session,
and its answer holds stored handles only. Unions stay canonical on the way.
-/
import AnnotatedLua.Proofs.Call.Match
import AnnotatedLua.Proofs.Inference
import AnnotatedLua.Proofs.Union.Canonical

namespace AnnotatedLua

open Solve Solver Same

variable {s u : Session} {n : Nat} {ξ : Type} {a : Option Ty} {node : Node} {t : TypeTable} {α : Type}

def Inference.types : Inference → List Ty
  | .unknown => []
  | .known type => [type]
  | .follow _ otherwise => otherwise.toList
  | .project type => [type]

theorem TypeTable.WF.Stores.later {t' : TypeTable} {h : t.WF} [Value α] {a : α} (ha : h.Stores a)
    (hx : t.Extends t') (h' : t'.WF) : h'.Stores a := by
  have : h.self.After h'.self := TypeTable.pairing_after hx hx
  exact upTo ha _

/-- The handles that a table gave out, each of which stands for itself. -/
def TypeTable.given (t : TypeTable) : Pairing where
  type a a' := a = a' ∧ (t.Has a ∨ a.isBuiltin = true)
  symbol s s' := s = s' ∧ t.HasSymbol s
  builtin ty hty := ⟨rfl, .inr hty⟩
  type_iff := by rintro a _ b _ ⟨rfl, -⟩ ⟨rfl, -⟩; rfl
  symbol_iff := by rintro a _ b _ ⟨rfl, -⟩ ⟨rfl, -⟩; rfl

theorem TypeTable.WF.stores_given (h : t.WF) [Value α] {a : α} (ha : Same t.given a a) : h.Stores a := by
  have : t.given.After h.self := by
    constructor
    · rintro a _ ⟨rfl, ha⟩
      have : t.Has a := ha.elim id fun hb => (h.lookup_builtin a hb).1
      exact ⟨this, this, rfl⟩
    · rintro a _ ⟨rfl, ha⟩
      exact ⟨ha, ha, rfl⟩
  exact upTo ha _

theorem TypeTable.WF.stores_type (h : t.WF) {ty : Ty} : h.Stores ty ↔ t.Has ty :=
  TypeTable.sameType_iff.trans ⟨fun h => h.1, fun hty => ⟨hty, hty, rfl⟩⟩

namespace Session

variable (ctx : Context)

/-- Every handle that the session and the declarations speak of was given out by the table. -/
structure Settled (s : Session) : Prop extends s.Sound ctx where
  inferences : ∀ inference node, ctx.provider.inference = some inference →
    ∀ ty ∈ (inference node).types, s.types.Has ty
  inferred : ∀ (node : Node) ty, s.inferred[node]? = some ty → s.types.Has ty

variable {ctx}

theorem Settled.turn (h : s.Settled ctx) {guard : Guard GuardKey} {expanding : List Symbol} (position : Int)
    (several blind canceled : Bool) (inferences : Nat) (hg : h.types.Stores guard) (he : h.types.Stores expanding) :
    Settled ctx { s with guard, expanding, position, several, blind, canceled, inferences } :=
  { h with guard := hg, expanding := he }

theorem Settled.grow (h : s.Settled ctx) (hx : s.types.Extends t) (ht : t.WF) :
    Settled ctx { s with types := t } where
  types := ht
  classes name decl hd := ⟨hx.hasSymbol (h.classes name decl hd).1, (h.classes name decl hd).2.later hx ht⟩
  aliases name ty hty := ⟨hx.hasSymbol (h.aliases name ty hty).1, (h.aliases name ty hty).2.later hx ht⟩
  scopes node name ty hty := ⟨hx.hasSymbol (h.scopes node name ty hty).1, (h.scopes node name ty hty).2.later hx ht⟩
  guard := h.guard.later hx ht
  expanding := h.expanding.later hx ht
  inferences inference node hi ty hty := hx.has (h.inferences inference node hi ty hty)
  inferred node ty hty := hx.has (h.inferred node ty hty)

variable (ctx) in
/-- From the one session a query led to the other. -/
structure Reaches (s u : Session) : Prop where
  settled : u.Settled ctx
  grows : s.Grows u

namespace Reaches

theorem refl (h : s.Settled ctx) : s.Reaches ctx s := ⟨h, .refl s⟩

theorem trans {v : Session} (h : s.Reaches ctx u) (h' : u.Reaches ctx v) : s.Reaches ctx v :=
  ⟨h'.settled, h.grows.trans h'.grows⟩

theorem stores (h : s.Reaches ctx u) (hs : s.Settled ctx) [Value α] {a : α} (ha : hs.types.Stores a) :
    h.settled.types.Stores a :=
  ha.later h.grows.grown h.settled.types

end Reaches

theorem Settled.step [Value ξ] [Value α] {m : Solver → ξ → Solve α} (hm : Regular m) (h : s.Settled ctx)
    {x : ξ} (hx : h.types.Stores x) {a : α} (hr : m (Solver.ofBudget n) x ctx s = some (a, u)) :
    ∃ k : s.Reaches ctx u, k.settled.types.Stores a := by
  have hpast := Past.refl h.toSound
  obtain ⟨k, ha⟩ := hpast.step hm h.toSound hx hr
  refine ⟨⟨⟨k.sound h.toSound, fun inference node hi ty hty => ?_, fun node ty hty => ?_⟩, hpast.grows hm h.toSound hx hr⟩, ha⟩
  · exact k.grown.has (h.inferences inference node hi ty hty)
  · rw [k.kept.inferred] at hty
    exact k.grown.has (h.inferred node ty hty)

end Session

/-! ## Declarations -/

/-- All that the declarations speak of was given out by the table. -/
structure Context.Declared (ctx : Context) (t : TypeTable) : Prop where
  classes : ∀ name decl, ctx.provider.classDecl name = some decl → t.HasSymbol name ∧ Same t.given decl decl
  aliases : ∀ name ty, ctx.provider.aliasType name = some ty → t.HasSymbol name ∧ Same t.given ty ty
  scopes : ∀ node name ty, ctx.provider.scopedType node name = some ty → t.HasSymbol name ∧ Same t.given ty ty
  inferences : ∀ inference node, ctx.provider.inference = some inference → ∀ ty ∈ (inference node).types, t.Has ty

theorem undeclared_declared (t : TypeTable) : undeclared.Declared t where
  classes _ _ h := by cases h
  aliases _ _ h := by cases h
  scopes _ _ _ h := by cases h
  inferences _ _ h := by cases h

namespace Session

variable {ctx ctx' : Context}

theorem Settled.start (h : t.WF) (hd : ctx.Declared t) (limits : Limits) :
    (Session.start t limits).Settled ctx where
  toSound := .start h limits (fun name decl hc => ⟨(hd.classes name decl hc).1, h.stores_given (hd.classes name decl hc).2⟩)
    (fun name ty ha => ⟨(hd.aliases name ty ha).1, h.stores_given (hd.aliases name ty ha).2⟩)
    fun node name ty hs => ⟨(hd.scopes node name ty hs).1, h.stores_given (hd.scopes node name ty hs).2⟩
  inferences := hd.inferences
  inferred node ty hty := by
    rw [show (Session.start t limits).inferred[node]? = none from Std.TreeMap.getElem?_emptyc] at hty
    cases hty

theorem Settled.redeclare (h : s.Settled ctx) (hd : ctx'.Declared s.types) : s.Settled ctx' where
  types := h.types
  classes name decl hc := by
    unfold classOf at hc
    cases hknown : s.classes[name]? with
    | some =>
      rw [hknown] at hc
      refine h.classes name decl ?_
      rw [classOf, hknown]
      exact hc
    | none =>
      rw [hknown] at hc
      obtain ⟨hname, hdecl⟩ := hd.classes name decl hc
      exact ⟨hname, h.types.stores_given hdecl⟩
  aliases name ty ha := by
    unfold aliasOf at ha
    cases hknown : s.aliases[name]? with
    | some =>
      rw [hknown] at ha
      refine h.aliases name ty ?_
      rw [aliasOf, hknown]
      exact ha
    | none =>
      rw [hknown] at ha
      obtain ⟨hname, hty⟩ := hd.aliases name ty ha
      exact ⟨hname, h.types.stores_given hty⟩
  scopes node name ty hs := ⟨(hd.scopes node name ty hs).1, h.types.stores_given (hd.scopes node name ty hs).2⟩
  guard := h.guard
  expanding := h.expanding
  inferences := hd.inferences
  inferred := h.inferred

end Session

/-! ## Inference -/

section
variable {ctx : Context}

theorem regular_resultAt (position : Nat) : Regular fun (S : Solver) (ty : Ty) => S.resultAt ty position :=
  fun _ _ _ hS _ _ _ _ => hS.resultAt

theorem regular_substitute : Regular fun (S : Solver) (x : Ty × Substitution) => S.substitute x.1 x.2 :=
  fun _ _ _ hS _ _ _ _ => hS.substitute

theorem withGuard_reaches {m : Solve α} {activity : Activity} {subject : Subject} {Q : Session → α → Prop}
    (hm : ∀ s a u, s.Settled ctx → m ctx s = some (a, u) → s.Reaches ctx u ∧ Q u a)
    (hQ : ∀ (s : Session) g a, Q s a → Q { s with guard := g } a)
    (hs : s.Settled ctx) (hsub : hs.types.Stores subject) {r : Option α}
    (hr : withGuard activity subject m ctx s = some (r, u)) : s.Reaches ctx u ∧ ∀ a ∈ r, Q u a := by
  have : Same hs.types.self s.guard s.guard := hs.guard
  have : Same hs.types.self subject subject := hsub
  have hkey : hs.types.Stores (guardKey ctx s activity subject) :=
    get hs.types.self (GuardKey.mk _ _ _) (GuardKey.mk _ _ _)
  have : Same hs.types.self (guardKey ctx s activity subject) (guardKey ctx s activity subject) :=
    hkey
  have henter := get hs.types.self (s.guard.enter (guardKey ctx s activity subject))
    (s.guard.enter (guardKey ctx s activity subject))
  rw [run_withGuard] at hr
  generalize s.guard.enter (guardKey ctx s activity subject) = e at henter hr
  obtain ⟨admission, g⟩ := e
  have hentered := hs.turn s.position s.several s.blind s.canceled s.inferences henter.out.2 hs.expanding
  cases admission with
  | entered =>
    obtain ⟨⟨a, v⟩, hrun, hv⟩ := Option.map_eq_some_iff.1 hr
    cases hv
    obtain ⟨k, ha⟩ := hm _ a v hentered hrun
    have : Same k.settled.types.self v.guard v.guard := k.settled.guard
    have : Same k.settled.types.self (guardKey ctx s activity subject)
        (guardKey ctx s activity subject) := hkey.later k.grows.grown k.settled.types
    have hleft := k.settled.turn v.position v.several v.blind v.canceled v.inferences
      (get k.settled.types.self (v.guard.leave (guardKey ctx s activity subject))
        (v.guard.leave (guardKey ctx s activity subject))) k.settled.expanding
    refine ⟨⟨hleft, ⟨k.grows.grown, k.grows.canonical⟩⟩, fun b hb => ?_⟩
    cases hb
    exact hQ _ _ _ ha
  | _ =>
    cases hr
    exact ⟨⟨hentered, .of_eq rfl⟩, nofun⟩

def Solver.InfersStored (ctx : Context) (S : Solver) : Prop :=
  ∀ node s a u, s.Settled ctx → S.infer node ctx s = some (a, u) → s.Reaches ctx u ∧ ∀ ty ∈ a, u.types.Has ty

theorem runInference_reaches (hS : (ofBudget n).InfersStored ctx) (hs : s.Settled ctx) {inference : Inference}
    (hi : ∀ ty ∈ inference.types, s.types.Has ty) (hr : Rule.runInference (ofBudget n) inference ctx s = some (a, u)) :
    s.Reaches ctx u ∧ ∀ ty ∈ a, u.types.Has ty := by
  cases inference with
  | unknown =>
    cases hr
    exact ⟨.refl hs, nofun⟩
  | known =>
    cases hr
    exact ⟨.refl hs, by simpa [Inference.types] using hi⟩
  | follow node =>
    obtain ⟨found, v, hfound, hr⟩ := bind_eq_some hr
    cases hr
    obtain ⟨k, hty⟩ := hS node s found _ hs hfound
    refine ⟨k, fun ty ha => ?_⟩
    cases found with
    | some => exact hty ty ha
    | none => exact k.grows.grown.has (hi ty (by simpa [Inference.types] using ha))
  | project type =>
    have htype : s.types.Has type := hi type (by simp [Inference.types])
    have hrun : (if s.position < 0 then (return some type : Solve (Option Ty)) else do
        return some (← (ofBudget n).resultAt type s.position.toNat)) ctx s = some (a, u) := hr
    split at hrun
    · cases hrun
      exact ⟨.refl hs, by simpa using htype⟩
    · obtain ⟨_, v, hfound, hrun⟩ := bind_eq_some hrun
      cases hrun
      obtain ⟨k, hty⟩ := hs.step (regular_resultAt _) (hs.types.stores_type.2 htype) hfound
      exact ⟨k, by simpa using k.settled.types.stores_type.1 hty⟩

theorem infersStored_ofBudget (ctx : Context) (n : Nat) : (ofBudget n).InfersStored ctx := by
  induction n with
  | zero => exact fun _ _ _ _ _ hr => by cases hr
  | succ n ih =>
    intro node s a u hs hr
    have hr : Rule.infer (ofBudget n) node ctx s = some (a, u) := hr
    rw [Rule.run_infer] at hr
    split at hr
    · rename_i type hfound
      cases hr
      refine ⟨.refl hs, fun ty hty => ?_⟩
      cases hty
      split at hfound
      · exact hs.inferred node _ hfound
      · cases hfound
    · obtain ⟨r, v, hguard, hr⟩ := Rule.inferFresh_cases hr
      have hrequest : ∀ s a u, s.Settled ctx → Rule.requestInference (ofBudget n) node ctx s = some (a, u) →
          s.Reaches ctx u ∧ ∀ ty ∈ a, u.types.Has ty := by
        intro s a u hs hr
        rw [Rule.run_requestInference] at hr
        split at hr
        · cases hr
          exact ⟨.refl hs, nofun⟩
        · rename_i inference hi
          have hcount := hs.turn s.position s.several s.blind s.canceled (s.inferences + 1) hs.guard hs.expanding
          obtain ⟨k, hty⟩ := runInference_reaches ih hcount (hs.inferences inference node hi) hr
          exact ⟨⟨k.settled, ⟨k.grows.grown, k.grows.canonical⟩⟩, hty⟩
      obtain ⟨k, hk⟩ := withGuard_reaches hrequest (fun _ _ _ h => h) hs ⟨.node node⟩ hguard
      rcases hr with ⟨-, rfl, rfl⟩ | ⟨type, bound, hjoin, rfl, hsubst⟩
      · exact ⟨k, nofun⟩
      · have htype : v.types.Has type := by
          cases r with
          | none => cases hjoin
          | some found => exact hk found rfl type hjoin
        have hrecord : Session.Settled ctx (Rule.record (s.records ctx) node type v) := by
          unfold Rule.record
          split
          · refine ⟨⟨k.settled.types, k.settled.classes, k.settled.aliases, k.settled.scopes, k.settled.guard,
              k.settled.expanding⟩, k.settled.inferences, fun other ty hty => ?_⟩
            rw [Std.TreeMap.getElem?_insert] at hty
            split at hty
            · cases hty
              exact htype
            · exact k.settled.inferred other ty hty
          · exact k.settled
        have htypes : (Rule.record (s.records ctx) node type v).types = v.types := by
          unfold Rule.record
          split <;> rfl
        have : Same hrecord.types.self type type :=
          hrecord.types.stores_type.2 (by rw [htypes]; exact htype)
        have hx : hrecord.types.Stores (type, Substitution.scope node) :=
          get hrecord.types.self (type, Substitution.scope node) (type, Substitution.scope node)
        obtain ⟨l, hl⟩ := hrecord.step regular_substitute hx hsubst
        refine ⟨⟨l.settled, (k.grows.trans (.of_eq htypes)).trans l.grows⟩, ?_⟩
        simpa using l.settled.types.stores_type.1 hl
end

/-! ## Calls -/

section
variable {ctx : Context}

theorem regular_isInlineTable (node : Node) : Regular fun (_ : Solver) (ty : Ty) => isInlineTable ty node :=
  fun L _ _ _ _ _ _ _ => L.isInlineTable

theorem run_withPosition (position : Int) (several : Bool) (m : Solve α) :
    withPosition position several m ctx s = (m ctx { s with position, several }).map fun r =>
      (r.1, { r.2 with position := s.position, several := s.several }) := by
  show Option.bind (m ctx { s with position, several }) _ = _
  cases m ctx { s with position, several } <;> rfl

theorem withListEntry_reaches {last : Bool} (hs : s.Settled ctx)
    (hr : withListEntry last ((ofBudget n).infer node) ctx s = some (a, u)) :
    s.Reaches ctx u ∧ ∀ ty ∈ a, u.types.Has ty := by
  have hposition : ∀ position several, withPosition position several ((ofBudget n).infer node) ctx s = some (a, u) →
      s.Reaches ctx u ∧ ∀ ty ∈ a, u.types.Has ty := by
    intro position several hr
    rw [run_withPosition] at hr
    obtain ⟨⟨b, v⟩, hrun, hv⟩ := Option.map_eq_some_iff.1 hr
    cases hv
    have hturned := hs.turn position several s.blind s.canceled s.inferences hs.guard hs.expanding
    obtain ⟨k, hty⟩ := infersStored_ofBudget ctx n node _ b v hturned hrun
    have hback := k.settled.turn s.position s.several v.blind v.canceled v.inferences k.settled.guard k.settled.expanding
    exact ⟨⟨hback, ⟨k.grows.grown, k.grows.canonical⟩⟩, hty⟩
  cases last with
  | true => exact hposition _ _ hr
  | false => exact hposition _ _ hr

theorem mapM_reaches {β : Type} {f : α → Solve β} {l : List α} {r : List β}
    (hf : ∀ a s b u, s.Settled ctx → f a ctx s = some (b, u) → s.Reaches ctx u) (hs : s.Settled ctx)
    (hr : l.mapM f ctx s = some (r, u)) : s.Reaches ctx u := by
  induction l generalizing s r with
  | nil =>
    cases hr
    exact .refl hs
  | cons a l ih =>
    rw [List.mapM_cons] at hr
    obtain ⟨b, v, hb, hr⟩ := bind_eq_some hr
    obtain ⟨_, w, hbs, hr⟩ := bind_eq_some hr
    cases hr
    have k := hf a s b v hs hb
    exact k.trans (ih k.settled hbs)

theorem inferCallSite_reaches {args : List Node} {site : CallSite} (hs : s.Settled ctx)
    (hr : (ofBudget n).inferCallSite node args ctx s = some (site, u)) : s.Reaches ctx u := by
  obtain ⟨_, v, hfound, hr⟩ := bind_eq_some hr
  cases hr
  refine mapM_reaches (fun _ s b u hs hr => ?_) hs hfound
  obtain ⟨inferred, v, hinferred, hr⟩ := bind_eq_some hr
  obtain ⟨_, w, hinline, hr⟩ := bind_eq_some hr
  cases hr
  obtain ⟨k, hty⟩ := withListEntry_reaches hs hinferred
  have htype : k.settled.types.Stores (inferred.getD Ty.any) := by
    refine k.settled.types.stores_type.2 ?_
    cases inferred with
    | none => exact (k.settled.types.lookup_builtin Ty.any rfl).1
    | some ty => exact hty ty rfl
  exact k.trans (k.settled.step (n := n) (regular_isInlineTable _) htype hinline).1

theorem regular_trySignature : Regular fun (S : Solver) (x : Matching × Signature) => S.trySignature x.1 x.2 :=
  fun L _ _ hS _ _ _ _ => L.trySignature hS fun _ => L.parents

theorem regular_returnType : Regular fun (_ : Solver) (signature : Signature) => returnType signature :=
  fun L _ _ _ _ _ _ _ => L.returnType

theorem regular_fallbackAfter : Regular fun (_ : Solver) (x : Option Ty × Signature) => fallbackAfter x.1 x.2 :=
  fun L _ _ _ _ _ _ _ => L.fallbackAfter

theorem regular_passedValues : Regular fun (S : Solver) (call : CallSite) => S.passedValues call :=
  fun L _ _ hS _ _ _ _ => L.passedValues hS

theorem regular_candidates (count : Nat) (colon : Bool) :
    Regular fun (S : Solver) (callable : Ty) => S.candidates callable count colon :=
  fun L _ _ hS _ _ _ _ => L.candidates hS

variable {answer : CallAnswer}

theorem trySignatures_reaches {m : Matching} {several : Bool} {signatures : List Signature} {refusals : List Refusal}
    {fallback : Option Ty} (hs : s.Settled ctx) (hm : hs.types.Stores m)
    (hl : hs.types.Stores signatures) (hf : hs.types.Stores fallback)
    (hr : (ofBudget n).trySignatures m several signatures refusals fallback ctx s = some (answer, u)) :
    s.Reaches ctx u := by
  induction signatures generalizing s refusals fallback with
  | nil =>
    have hr := of_read hr rfl
    cases hr
    exact .refl hs
  | cons signature rest ih =>
    obtain ⟨_ | ⟨hsignature, hrest⟩⟩ := hl
    have hr := of_read hr rfl
    split at hr
    · cases hr
      exact .refl hs
    obtain ⟨trial, _, htrial, hr⟩ := bind_eq_some hr
    have hx : hs.types.Stores (m, signature) := ⟨hm, hsignature⟩
    obtain ⟨k, ht⟩ := hs.step regular_trySignature hx htrial
    have : Same k.settled.types.self trial trial := ht
    have hinst : k.settled.types.Stores trial.instantiated :=
      get k.settled.types.self trial.instantiated trial.instantiated
    have hr := of_read hr rfl
    split at hr
    · cases hr
      exact k
    split at hr
    · obtain ⟨_, s3, hreturns, hr⟩ := bind_eq_some hr
      cases hr
      obtain ⟨l, -⟩ := k.settled.step (n := n) regular_returnType hinst hreturns
      exact k.trans l
    · obtain ⟨_, s3, hfallback, hr⟩ := bind_eq_some hr
      obtain ⟨l, hf'⟩ := k.settled.step (n := n) regular_fallbackAfter (x := (fallback, trial.instantiated))
        ⟨k.stores hs hf, hinst⟩ hfallback
      have hl : s.Reaches ctx s3 := k.trans l
      exact hl.trans (ih l.settled (hl.stores hs hm) (hl.stores hs (a := rest) ⟨hrest⟩) hf' hr)

theorem matchCall_reaches {wanted : Bool} {callable : Ty} {call : CallSite} (hs : s.Settled ctx)
    (hcallable : hs.types.Stores callable) (hcall : hs.types.Stores call)
    (hr : (ofBudget n).matchCall wanted callable call ctx s = some (answer, u)) : s.Reaches ctx u := by
  have hr := of_read hr rfl
  split at hr
  · cases hr
    exact .refl hs
  obtain ⟨passed, _, hpassed, hr⟩ := bind_eq_some hr
  obtain ⟨k, hp⟩ := hs.step regular_passedValues hcall hpassed
  obtain ⟨_, s2, hsignatures, hr⟩ := bind_eq_some hr
  obtain ⟨l, hl⟩ := k.settled.step (regular_candidates _ _) (k.stores hs hcallable) hsignatures
  split at hr
  · cases hr
    exact k.trans l
  · have hkl : s.Reaches ctx s2 := k.trans l
    have : Same l.settled.types.self call call := hkl.stores hs hcall
    have : Same l.settled.types.self passed passed := l.stores k.settled hp
    have hm : l.settled.types.Stores (Matching.mk wanted call passed) :=
      get l.settled.types.self (Matching.mk wanted call passed) (Matching.mk wanted call passed)
    have hnone : l.settled.types.Stores (none : Option Ty) :=
      get l.settled.types.self (none : Option Ty) none
    exact hkl.trans (trySignatures_reaches l.settled hm hl hnone hr)
end

/-! ## Requests -/

inductive Request where
  | union (a b : Ty)
  | unionAll (types : List Ty)
  | subtract (a b : Ty)
  | resolve (ty : Ty)
  | substitute (ty : Ty) (substitution : Substitution)
  | mergeResults (ty : Ty)
  | resultAt (ty : Ty) (position : Nat)
  | member (ty : Ty) (name : Symbol)
  | indexer (ty index : Ty) (exact : Bool)
  | fieldType (ty : Ty) (name : Symbol)
  | indexedType (ty index : Ty) (exact : Bool)
  | tableOfMembers (ty : Ty)
  | accepts (target source : Ty) (mode : Mode)
  | equal (a b : Ty)
  | check (wanted : Bool) (target source : Ty) (mode : Mode) (targetNode : Option Node) (sourceNode : Node)
  | infer (node : Node)
  | inferCallSite (node : Node) (args : List Node)
  | matchCall (wanted : Bool) (callable : Ty) (call : CallSite)

namespace Request

/-- Every handle in the request was given out by the table. -/
def Given (t : TypeTable) : Request → Prop
  | .union a b => Same t.given (a, b) (a, b)
  | .unionAll types => Same t.given types types
  | .subtract a b => Same t.given (a, b) (a, b)
  | .resolve ty => Same t.given ty ty
  | .substitute ty substitution => Same t.given (ty, substitution) (ty, substitution)
  | .mergeResults ty => Same t.given ty ty
  | .resultAt ty _ => Same t.given ty ty
  | .member ty name => Same t.given (ty, name) (ty, name)
  | .indexer ty index _ => Same t.given (ty, index) (ty, index)
  | .fieldType ty name => Same t.given (ty, name) (ty, name)
  | .indexedType ty index _ => Same t.given (ty, index) (ty, index)
  | .tableOfMembers ty => Same t.given ty ty
  | .accepts target source _ => Same t.given (target, source) (target, source)
  | .equal a b => Same t.given (a, b) (a, b)
  | .check _ target source _ _ _ => Same t.given (target, source) (target, source)
  | .infer _ => True
  | .inferCallSite _ _ => True
  | .matchCall _ callable call => Same t.given (callable, call) (callable, call)

/-- The solver answers the request, and leaves the session `u`. -/
def Answered (S : Solver) (ctx : Context) (s u : Session) : Request → Prop
  | .union a b => ∃ r, S.union a b ctx s = some (r, u)
  | .unionAll types => ∃ r, S.unionAll types ctx s = some (r, u)
  | .subtract a b => ∃ r, S.subtract a b ctx s = some (r, u)
  | .resolve ty => ∃ r, S.resolve ty ctx s = some (r, u)
  | .substitute ty substitution => ∃ r, S.substitute ty substitution ctx s = some (r, u)
  | .mergeResults ty => ∃ r, S.mergeResults ty ctx s = some (r, u)
  | .resultAt ty position => ∃ r, S.resultAt ty position ctx s = some (r, u)
  | .member ty name => ∃ r, S.member? ty name ctx s = some (r, u)
  | .indexer ty index exact => ∃ r, S.indexer? ty index exact ctx s = some (r, u)
  | .fieldType ty name => ∃ r, S.fieldType ty name ctx s = some (r, u)
  | .indexedType ty index exact => ∃ r, S.indexedType ty index exact ctx s = some (r, u)
  | .tableOfMembers ty => ∃ r, S.tableOfMembers ty ctx s = some (r, u)
  | .accepts target source mode => ∃ r, S.accepts target source mode ctx s = some (r, u)
  | .equal a b => ∃ r, S.equal a b ctx s = some (r, u)
  | .check wanted target source mode targetNode sourceNode =>
    ∃ r, S.check wanted target source mode targetNode sourceNode ctx s = some (r, u)
  | .infer node => ∃ r, S.infer node ctx s = some (r, u)
  | .inferCallSite node args => ∃ r, S.inferCallSite node args ctx s = some (r, u)
  | .matchCall wanted callable call => ∃ r, S.matchCall wanted callable call ctx s = some (r, u)

variable {ctx : Context} {s u : Session} {n : Nat}

/-- A regular question, as it is asked. -/
private theorem reaches_regular [Value ξ] [Value α] {m : Solver → ξ → Solve α} (hm : Regular m)
    (hs : s.Settled ctx) {x : ξ} (hx : Same s.types.given x x) (hr : ∃ r, m (ofBudget n) x ctx s = some (r, u)) :
    s.Reaches ctx u := by
  obtain ⟨r, hr⟩ := hr
  exact (hs.step hm (hs.types.stores_given hx) hr).1

theorem reaches (request : Request) (hs : s.Settled ctx) (hgiven : request.Given s.types)
    (hr : request.Answered (ofBudget n) ctx s u) : s.Reaches ctx u := by
  cases request with
  | union =>
    exact reaches_regular (m := fun S (x : Ty × Ty) => S.union x.1 x.2) (fun L _ _ hS _ _ _ _ => L.union hS) hs hgiven hr
  | unionAll types =>
    exact reaches_regular (m := fun S types => S.unionAll types) (fun L _ _ hS _ _ _ _ => L.unionAll hS) hs hgiven hr
  | subtract =>
    exact reaches_regular (m := fun S (x : Ty × Ty) => S.subtract x.1 x.2)
      (fun L _ _ hS p _ _ _ => L.differences (hS.comparing p)) hs hgiven hr
  | resolve ty =>
    exact reaches_regular (m := fun S ty => S.resolve ty) (fun L _ _ hS _ _ _ _ => L.resolve hS) hs hgiven hr
  | substitute => exact reaches_regular regular_substitute hs hgiven hr
  | mergeResults ty =>
    exact reaches_regular (m := fun S ty => S.mergeResults ty) (fun L _ _ hS _ _ _ _ => L.mergeResults hS) hs hgiven hr
  | resultAt ty position => exact reaches_regular (regular_resultAt position) hs hgiven hr
  | member =>
    exact reaches_regular (m := fun S (x : Ty × Symbol) => S.member? x.1 x.2) (fun L _ _ hS _ _ _ _ => L.member? hS) hs
      hgiven hr
  | indexer ty index only =>
    exact reaches_regular (m := fun S (x : Ty × Ty) => S.indexer? x.1 x.2 only) (fun L _ _ hS _ _ _ _ => L.indexer? hS) hs
      hgiven hr
  | fieldType =>
    exact reaches_regular (m := fun S (x : Ty × Symbol) => S.fieldType x.1 x.2) (fun _ _ _ hS _ _ _ _ => hS.fieldType) hs
      hgiven hr
  | indexedType ty index only =>
    exact reaches_regular (m := fun S (x : Ty × Ty) => S.indexedType x.1 x.2 only)
      (fun _ _ _ hS _ _ _ _ => hS.indexedType) hs hgiven hr
  | tableOfMembers ty =>
    exact reaches_regular (m := fun S ty => S.tableOfMembers ty) (fun L _ _ hS _ _ _ _ => L.tableOfMembers hS) hs hgiven hr
  | accepts target source mode =>
    exact reaches_regular (m := fun S (x : Ty × Ty) => S.accepts x.1 x.2 mode) (fun _ _ _ hS _ _ _ _ => hS.accepts) hs
      hgiven hr
  | equal =>
    exact reaches_regular (m := fun S (x : Ty × Ty) => S.equal x.1 x.2) (fun _ _ _ hS _ _ _ _ => hS.equal) hs hgiven hr
  | check wanted target source mode targetNode sourceNode =>
    exact reaches_regular (m := fun S (x : Ty × Ty) => S.check wanted x.1 x.2 mode targetNode sourceNode)
      (fun L _ _ hS _ _ _ _ => hS.check L.parents) hs hgiven hr
  | infer node =>
    obtain ⟨r, hr⟩ := hr
    exact (infersStored_ofBudget ctx n node s r u hs hr).1
  | inferCallSite =>
    obtain ⟨r, hr⟩ := hr
    exact inferCallSite_reaches hs hr
  | matchCall =>
    obtain ⟨r, hr⟩ := hr
    exact matchCall_reaches hs (hs.types.stores_given hgiven.out.1) (hs.types.stores_given hgiven.out.2) hr

/-- The union of `number` and `string`, `⟨10⟩`. -/
def besideTypes : TypeTable := (TypeTable.initial.unionOf [Ty.string, Ty.number]).2

def besideStart : Session := .start besideTypes Limits.standard

/-- The results `string, number`, `⟨10⟩`, and their union with a handle that was not given out, `⟨11⟩`. -/
def strayTypes : TypeTable :=
  ((TypeTable.initial.intern (.results [Ty.string, Ty.number] false)).2.unionOf [⟨12⟩, ⟨10⟩]).2

/-- A request about handles that were all given out keeps every union in canonical form, whatever the state of the
guard and whether or not declarations are consulted. -/
theorem keeps_canonical (request : Request) (hs : s.Settled ctx) (hgiven : request.Given s.types)
    (hr : request.Answered (ofBudget n) ctx s u) (hc : s.types.Canonical) : u.types.Canonical ∧ u.Settled ctx :=
  ⟨(request.reaches hs hgiven hr).grows.canonical hc, (request.reaches hs hgiven hr).settled⟩

/-- A query of `nil` and `number` makes their union beside that of `number` and `string`. -/
theorem keeps_canonical_beside : ∃ u, (Request.union Ty.nil Ty.number).Answered (ofBudget 4) undeclared besideStart u ∧
    u.types.lookup ⟨11⟩ = .union [Ty.nil, Ty.number] ∧ u.types.Canonical := by
  have hasked : (((ofBudget 4).union Ty.nil Ty.number undeclared besideStart).map fun r => r.2.types.lookup ⟨11⟩) =
      some (.union [Ty.nil, Ty.number]) := by decide
  obtain ⟨⟨r, u⟩, hr, hnew⟩ := Option.map_eq_some_iff.1 hasked
  have hwf : besideTypes.WF := (TypeTable.initial_wf.unionOf_stored (by decide)).1
  have hsettled : besideStart.Settled undeclared := .start hwf (undeclared_declared _) _
  have hgiven : (Request.union Ty.nil Ty.number).Given besideTypes := ⟨⟨rfl, .inr rfl⟩, ⟨rfl, .inr rfl⟩⟩
  exact ⟨u, ⟨r, hr⟩, hnew, (keeps_canonical _ hsettled hgiven ⟨r, hr⟩ (by decide)).1⟩

/-- A handle that was not given out reads as `any`, and may stand in a union. When it comes to be given out to another
union, the one union is a member of the other. -/
theorem canonical_lost_stray : ∃ u, strayTypes.Canonical ∧
    (Request.union Ty.nil Ty.number).Answered (ofBudget 4) undeclared (.start strayTypes Limits.standard) u ∧
    u.types.lookup ⟨11⟩ = .union [⟨12⟩, ⟨10⟩] ∧ u.types.lookup ⟨12⟩ = .union [Ty.nil, Ty.number] ∧
    ¬ u.types.Canonical := by
  have hasked : (((ofBudget 4).union Ty.nil Ty.number undeclared (.start strayTypes Limits.standard)).map fun r =>
      (r.2.types.lookup ⟨11⟩, r.2.types.lookup ⟨12⟩, decide r.2.types.Canonical)) =
        some (.union [⟨12⟩, ⟨10⟩], .union [Ty.nil, Ty.number], false) := by decide
  obtain ⟨⟨r, u⟩, hr, hnew⟩ := Option.map_eq_some_iff.1 hasked
  simp only [Prod.mk.injEq, decide_eq_false_iff_not] at hnew
  exact ⟨u, by decide, ⟨r, hr⟩, hnew⟩

end Request

end AnnotatedLua
