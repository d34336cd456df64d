/-
The signature that a call binds to, with problems and without. The two answers are the same, unless a limit of the guard
was exceeded or acceptance and the check differ about a value that the call passes (`matchCall_same_or_disputed`).
A call that is canceled while it is matched is answered as such (`matchCall_canceled`).
-/
import AnnotatedLua.Proofs.Call.Judge
import AnnotatedLua.Proofs.Query.Sound
import AnnotatedLua.Proofs.Shape.Plain

namespace AnnotatedLua

open Solve Solver TypeTable Session.Since Same
open Option (isSome_map map_eq_some_iff map_some)

variable {S : Solver} {n : Nat} {ctx : Context} {s u base s' u' : Session} {answer : CallAnswer} {callable : Ty}
  {call : CallSite} {several wanted : Bool} {passed : PassedValues} {m : Matching} {o : Option CallMatch}
  {trial : Trial} {found : CallMatch} {signature : Signature} {fallback' fallback : Option Ty}
  {signatures : List Signature} {refusals : List Refusal} {problems : List Problem}

/-! ## One signature -/

theorem uniform_callSubstitution : Uniform S fun x : Signature × CallSite => S.callSubstitution x.1 x.2 :=
  fun L hS _ _ _ _ => L.callSubstitution hS

theorem uniform_substituteSignature : Uniform S fun x : Substitution × Signature => S.substituteSignature x.1 x.2 :=
  fun L hS _ _ _ _ => L.substituteSignature hS

theorem uniform_checkCandidate : Uniform S S.checkCandidate := fun L hS _ _ _ _ => L.checkCandidate hS fun _ => L.parents

theorem uniform_trySignature : Uniform S fun x : Matching × Signature => S.trySignature x.1 x.2 :=
  fun L hS _ _ _ _ => L.trySignature hS fun _ => L.parents

theorem uniform_returnType : Uniform S returnType := fun L _ _ _ _ _ => L.returnType

theorem uniform_fallbackAfter : Uniform S fun x : Option Ty × Signature => fallbackAfter x.1 x.2 :=
  fun L _ _ _ _ _ => L.fallbackAfter

theorem uniform_passedValues : Uniform S S.passedValues := fun L hS _ _ _ _ => L.passedValues hS

theorem uniform_candidates (count : Nat) (colon : Bool) :
    Uniform S fun callable : Ty => S.candidates callable count colon :=
  fun L hS _ _ _ _ => L.candidates hS

section
variable (hb : base.Sound ctx) (hcall : hb.types.Stores call) (hpassed : hb.types.Stores passed)
include hcall hpassed

theorem trySignature_judged (h : s.Since ctx base) (h' : s'.Since ctx base) {trial' : Trial}
    (hsig : hb.types.Stores signature)
    (hr : (ofBudget n).trySignature ⟨false, call, passed⟩ signature ctx s = some (trial, u))
    (hr' : (ofBudget n).trySignature ⟨true, call, passed⟩ signature ctx s' = some (trial', u'))
    (hu : u.Clear ctx) (hu' : u'.Clear ctx) :
    ∃ j : Verdicts n passed (trial.instantiated.comparedWith call.receiver)
      (trial'.instantiated.comparedWith call.receiver) h h' trial.verdict trial'.verdict u u',
      Same (j.left.pairing j.right) trial.instantiated trial'.instantiated := by
  have hbase := h.after_base hb h'
  have hc : Same (h.pairing h') call call := upTo hcall _
  have hs : Same (h.pairing h') signature signature := upTo hsig _
  obtain ⟨sub, _, hsub, hr⟩ := bind_eq_some hr
  obtain ⟨sub', _, hsub', hr'⟩ := bind_eq_some hr'
  obtain ⟨_, _, hinst, hr⟩ := bind_eq_some hr
  obtain ⟨_, _, hinst', hr'⟩ := bind_eq_some hr'
  obtain ⟨_, _, hverdict, hr⟩ := bind_eq_some hr
  obtain ⟨_, _, hverdict', hr'⟩ := bind_eq_some hr'
  cases hr
  cases hr'
  have hs2 := (uniform_checkCandidate.unhindered _).keeps ctx _ _ _ hverdict |>.clear hu
  have hs2' := (uniform_checkCandidate.unhindered _).keeps ctx _ _ _ hverdict' |>.clear hu'
  have hs1 := (uniform_substituteSignature.unhindered (sub, signature)).keeps ctx _ _ _ hinst |>.clear hs2
  have hs1' := (uniform_substituteSignature.unhindered (sub', signature)).keeps ctx _ _ _ hinst' |>.clear hs2'
  obtain ⟨k1, k1', hk1, _⟩ := step uniform_callSubstitution hb h h'
    (get (h.pairing h') (signature, call) (signature, call)) hsub hsub' hs1 hs1'
  obtain ⟨_, _, hk2, hinsts⟩ := step uniform_substituteSignature hb k1 k1'
    (get (k1.pairing k1') (sub, signature) (sub', signature)) hinst hinst' hs2 hs2'
  have j := checkCandidate_judged hb hcall hpassed hinsts hverdict hverdict' hu hu'
  have := j.after
  exact ⟨⟨j.left, j.right, (hk1.trans hk2).trans j.after, j.verdict⟩, hinsts.upTo (j.left.pairing j.right)⟩
end

/-! ## The signatures in order -/

theorem keeps_returnType (signature : Signature) : Keeps (returnType signature) :=
  ((uniform_returnType (S := ofBudget 0)).unhindered signature).keeps

theorem keeps_fallbackAfter (fallback : Option Ty) (signature : Signature) : Keeps (fallbackAfter fallback signature) :=
  ((uniform_fallbackAfter (S := ofBudget 0)).unhindered (fallback, signature)).keeps

theorem keeps_trySignatures (signatures : List Signature) :
    Keeps ((ofBudget n).trySignatures m several signatures refusals fallback) :=
  keeps_closed.trySignatures (keeps_closed.logic.respects_ofBudget n) (fun _ => trivial) several signatures refusals
    fallback

theorem returnType_canceled {returns : Ty} (h : returnType signature ctx s = some (returns, u)) :
    u.canceled = s.canceled := by
  unfold returnType at h
  cases hr : signature.returns with
  | some => rw [hr] at h; cases h; rfl
  | none => rw [hr] at h; cases h; rfl

theorem fallbackAfter_canceled
    (h : fallbackAfter fallback signature ctx s = some (fallback', u)) : u.canceled = s.canceled := by
  unfold fallbackAfter at h
  split at h
  · cases h; rfl
  · obtain ⟨_, _, hreturns, h⟩ := bind_eq_some h
    cases h
    exact returnType_canceled hreturns

theorem trySignatures_nil
    (h : (ofBudget n).trySignatures m several [] refusals fallback ctx s = some (⟨.ok o, problems⟩, u)) :
    o = some ⟨none, fallback.getD Ty.void⟩ ∧ u = s := by
  have h := of_read h rfl
  cases h
  exact ⟨rfl, rfl⟩

theorem trySignatures_cons (h : (ofBudget n).trySignatures m several (signature :: signatures) refusals fallback ctx s =
      some (⟨.ok o, problems⟩, u)) (hu : u.guard.exceeded = false) :
    ∃ trial s1, (ofBudget n).trySignature m signature ctx s = some (trial, s1) ∧ s1.Clear ctx ∧
      ((trial.verdict.accepted = true ∧ u.Clear ctx ∧ ∃ returns,
          returnType trial.instantiated ctx s1 = some (returns, u) ∧
          o = some ⟨some ⟨signature, trial.instantiated⟩, returns⟩) ∨
        (trial.verdict.accepted = false ∧ ∃ fallback' s2, s2.Clear ctx ∧
          fallbackAfter fallback trial.instantiated ctx s1 = some (fallback', s2) ∧
          (ofBudget n).trySignatures m several signatures (refusals ++ [⟨signature, trial.verdict.problems⟩]) fallback' ctx
            s2 = some (⟨.ok o, problems⟩, u))) := by
  have h := of_read h rfl
  split at h
  · cases h
  obtain ⟨trial, s1, htrial, h⟩ := bind_eq_some h
  have h := of_read h rfl
  split at h
  · cases h
  rename_i hc
  have hc : (ctx.cancellable && s1.canceled) = false := by simpa using hc
  refine ⟨trial, s1, htrial, ?_⟩
  split at h
  · rename_i ha
    obtain ⟨returns, s3, hreturns, h⟩ := bind_eq_some h
    cases h
    refine ⟨⟨(keeps_returnType _ ctx _ _ _ hreturns).unexceeded hu, hc⟩, .inl ⟨ha, ⟨hu, ?_⟩, returns, hreturns, rfl⟩⟩
    rw [returnType_canceled hreturns, hc]
  · rename_i ha
    obtain ⟨fallback', s3, hfallback, h⟩ := bind_eq_some h
    have hs3 : s3.Clear ctx := by
      refine ⟨(keeps_trySignatures _ ctx _ _ _ h).unexceeded hu, ?_⟩
      rw [fallbackAfter_canceled hfallback, hc]
    exact ⟨(keeps_fallbackAfter _ _ ctx _ _ _ hfallback).clear hs3,
      .inr ⟨by simpa using ha, fallback', s3, hs3, hfallback, h⟩⟩

/-! ## Whole calls -/

/-- What the outcome of a call says, written out: the signature as it is declared, the types that were put
in, and the type of the results. -/
def CallMatch.written (t : TypeTable) (m : CallMatch) : Option (Signature × SignatureOf String Tree) × Tree :=
  (m.accepted.map fun a => (a.signature, a.instantiated.map t.text t.tree), t.tree m.returns)

/-- The signature that was chosen, as it is declared. -/
def CallMatch.signature? (m : CallMatch) : Option Signature := m.accepted.map Accepted.signature

section
variable (hb : base.Sound ctx) (hcall : hb.types.Stores call) (hpassed : hb.types.Stores passed)
include hcall hpassed

omit hcall hpassed in
include hb in
theorem fallbackAfter_since (h : s.Since ctx base) (hsig : Same (h.pairing h) signature signature)
    (hr : fallbackAfter fallback signature ctx s = some (fallback', u)) (hu : u.Clear ctx) : u.Since ctx base := by
  unfold fallbackAfter at hr
  split at hr
  · cases hr; exact h
  · obtain ⟨_, _, hreturns, hr⟩ := bind_eq_some hr
    cases hr
    exact goes_left (n := 0) uniform_returnType hb h h hsig hreturns hu

theorem accepted_of_chosen {s0 u0 : Session} (h0 : s0.Since ctx base) (hsig : hb.types.Stores signature)
    (hr0 : (ofBudget n).trySignature ⟨wanted, call, passed⟩ signature ctx s0 = some (trial, u0)) (hu0 : u0.Clear ctx)
    (h : s.Since ctx base) (hall : ∀ x ∈ signatures, hb.types.Stores x)
    (hr : (ofBudget n).trySignatures ⟨wanted, call, passed⟩ several signatures refusals fallback ctx s =
      some (⟨.ok (some found), problems⟩, u)) (hu : u.guard.exceeded = false)
    (hc : found.signature? = some signature) : trial.verdict.accepted = true := by
  have hx {t t' : Session} {x : Signature} (k : t.Since ctx base) (k' : t'.Since ctx base) (hx : hb.types.Stores x) :
      Same (k.pairing k') ((⟨wanted, call, passed⟩, x) : Matching × Signature) (⟨wanted, call, passed⟩, x) := by
    have := k.after_base hb k'
    have : Same (k.pairing k') call call := upTo hcall _
    have : Same (k.pairing k') passed passed := upTo hpassed _
    have : Same (k.pairing k') x x := upTo hx _
    infer_instance
  induction signatures generalizing s refusals fallback with
  | nil =>
    obtain ⟨he, -⟩ := trySignatures_nil hr
    cases he
    cases hc
  | cons first rest ih =>
    obtain ⟨next, _, hnext, hs1, hr⟩ := trySignatures_cons hr hu
    rcases hr with ⟨ha, -, _, -, he⟩ | ⟨-, fallback', s2, hs2, hfall, hr⟩
    · cases he
      obtain rfl : first = signature := Option.some.inj hc
      obtain ⟨k, k', -, hsame⟩ := step uniform_trySignature hb h0 h (hx h0 h hsig) hr0 hnext hu0 hs1
      rw [(get (k.pairing k') trial.verdict next.verdict).eq, ha]
    · obtain ⟨k, k', -, _⟩ := step uniform_trySignature hb h h
        (hx h h (hall first (List.mem_cons_self ..))) hnext hnext hs1 hs1
      have hinst : Same (k.pairing k) next.instantiated next.instantiated :=
        get (k.pairing k') next.instantiated next.instantiated
      exact ih (fallbackAfter_since hb k hinst hfall hs2) (fun x hx => hall x (List.mem_cons_of_mem _ hx)) hr

omit hcall hpassed in
theorem trySignatures_found
    (hr : (ofBudget n).trySignatures m several signatures refusals fallback ctx s = some (⟨.ok o, problems⟩, u))
    (hu : u.guard.exceeded = false) : ∃ found, o = some found := by
  induction signatures generalizing s refusals fallback with
  | nil => exact ⟨_, (trySignatures_nil hr).1⟩
  | cons first rest ih =>
    obtain ⟨_, _, _, _, hr⟩ := trySignatures_cons hr hu
    rcases hr with ⟨-, -, _, -, he⟩ | ⟨-, fallback', s2, -, -, hr⟩
    · exact ⟨_, he⟩
    · exact ih hr
end

/-- A signature that one of the two outcomes names was tried in both ways, and a value is in dispute that
the call passes: acceptance takes it and the check does not, or the other way round. -/
inductive CallMatch.Divided (S : Solver) (ctx : Context) (base : Session) (call : CallSite) (passed : PassedValues)
    (found found' : CallMatch) : Prop where
  | accepted {a : Accepted} {other : Signature} (chosen : found.accepted = some a)
    (dispute : Disputed S ctx base passed (a.instantiated.comparedWith call.receiver) (other.comparedWith call.receiver) true)
  | checked {a : Accepted} {other : Signature} (chosen : found'.accepted = some a)
    (dispute : Disputed S ctx base passed (other.comparedWith call.receiver) (a.instantiated.comparedWith call.receiver) false)

section
variable (hb : base.Sound ctx) (hcall : hb.types.Stores call) (hpassed : hb.types.Stores passed)
include hcall hpassed

theorem trySignatures_same_or_divided {refusals' : List Refusal} {problems' : List Problem} {o' : Option CallMatch}
    (h : s.Since ctx base) (h' : s'.Since ctx base) (hf : Same (h.pairing h') fallback fallback')
    (hall : ∀ x ∈ signatures, hb.types.Stores x)
    (hr : (ofBudget n).trySignatures ⟨false, call, passed⟩ several signatures refusals fallback ctx s =
      some (⟨.ok o, problems⟩, u))
    (hr' : (ofBudget n).trySignatures ⟨true, call, passed⟩ several signatures refusals' fallback' ctx s' =
      some (⟨.ok o', problems'⟩, u')) (hu : u.guard.exceeded = false) (hu' : u'.guard.exceeded = false) :
    ∃ found found', o = some found ∧ o' = some found' ∧ (found.written u.types = found'.written u'.types ∨
      (found.signature? ≠ found'.signature? ∧ found.Divided (ofBudget n) ctx base call passed found')) := by
  induction signatures generalizing s s' refusals refusals' fallback fallback' with
  | nil =>
    obtain ⟨rfl, rfl⟩ := trySignatures_nil hr
    obtain ⟨rfl, rfl⟩ := trySignatures_nil hr'
    refine ⟨_, _, rfl, rfl, .inl ?_⟩
    have := (get (h.pairing h') (fallback.getD Ty.void) (fallback'.getD Ty.void)).out.2.2
    simp only [CallMatch.written, this, Option.map_none]
  | cons first rest ih =>
    obtain ⟨trial, _, htrial, hs1, hr⟩ := trySignatures_cons hr hu
    obtain ⟨trial', _, htrial', hs1', hr'⟩ := trySignatures_cons hr' hu'
    have hfirst := hall first (List.mem_cons_self ..)
    have hrest : ∀ x ∈ rest, hb.types.Stores x := fun x hx => hall x (List.mem_cons_of_mem _ hx)
    obtain ⟨j, hinst⟩ := trySignature_judged hb hcall hpassed h h' hfirst htrial htrial' hs1 hs1'
    have := j.after
    have hfalls : Same (j.left.pairing j.right) (fallback, trial.instantiated) (fallback', trial'.instantiated) :=
      inferInstance
    rcases hr with ⟨ha, hu, _, hreturns, rfl⟩ | ⟨ha, next, s2, hs2, hnext, hr⟩ <;>
      rcases hr' with ⟨ha', hu', _, hreturns', rfl⟩ | ⟨ha', next', s2', hs2', hnext', hr'⟩
    · refine ⟨_, _, rfl, rfl, .inl ?_⟩
      obtain ⟨k, k', _, hsame⟩ := step (n := n) uniform_returnType hb j.left j.right hinst hreturns
        hreturns' hu hu'
      have hinsts := sameSignature_iff.1 (hinst.upTo (k.pairing k'))
      simp only [CallMatch.written, map_some, hinsts.2.2, hsame.out.2.2]
    · obtain ⟨found', rfl⟩ := trySignatures_found hr' hu'
      have hdispute := j.verdict.resolve_left (by simp [ha, ha'])
      rw [ha] at hdispute
      refine ⟨_, found', rfl, rfl, .inr ⟨fun hc => ?_, .accepted rfl hdispute⟩⟩
      have k := goes_right (n := n) uniform_fallbackAfter hb j.left j.right hfalls hnext' hs2'
      have := accepted_of_chosen hb hcall hpassed h' hfirst htrial' hs1' k hrest hr' hu' hc.symm
      exact Bool.false_ne_true (ha'.symm.trans this)
    · obtain ⟨found, rfl⟩ := trySignatures_found hr hu
      have hdispute := j.verdict.resolve_left (by simp [ha, ha'])
      rw [ha] at hdispute
      refine ⟨found, _, rfl, rfl, .inr ⟨fun hc => ?_, .checked rfl hdispute⟩⟩
      have k := goes_left (n := n) uniform_fallbackAfter hb j.left j.right hfalls hnext hs2
      have := accepted_of_chosen hb hcall hpassed h hfirst htrial hs1 k hrest hr hu hc
      exact Bool.false_ne_true (ha.symm.trans this)
    · obtain ⟨k, k', -, hsame⟩ := step (n := n) uniform_fallbackAfter hb j.left j.right hfalls hnext hnext'
        hs2 hs2'
      exact ih k k' hsame hrest hr hr'
end

/-! ## From the start -/

variable {mid : Session}

theorem Disputed.mono {types types' : List Ty}
    {accepted : Bool} (hm : mid.Since ctx base) (d : Disputed S ctx mid passed types types' accepted) :
    Disputed S ctx base passed types types' accepted := by
  obtain ⟨h, h', hp, hp', hv, hg, hg', hsame, hsame', ha, hc, hne⟩ := d
  exact .intro (h.trans hm) (h'.trans hm) hp hp' hv hg hg' hsame hsame' ha hc hne

theorem CallMatch.Divided.mono
    {found' : CallMatch} (hm : mid.Since ctx base) (d : found.Divided S ctx mid call passed found') :
    found.Divided S ctx base call passed found' := by
  cases d with
  | accepted chosen dispute => exact .accepted chosen (dispute.mono hm)
  | checked chosen dispute => exact .checked chosen (dispute.mono hm)

theorem trySignatures_error {e : CallError}
    (h : (ofBudget n).trySignatures m several signatures refusals fallback ctx s = some (⟨.error e, problems⟩, u)) :
    (ctx.cancellable && u.canceled) = true := by
  induction signatures generalizing s refusals fallback with
  | nil =>
    obtain ⟨_, s1, -, h⟩ := bind_eq_some h
    cases h
  | cons signature rest ih =>
    have h := of_read h rfl
    split at h
    · cases h; assumption
    obtain ⟨_, _, _, h⟩ := bind_eq_some h
    have h := of_read h rfl
    split at h
    · cases h; assumption
    split at h
    · obtain ⟨_, s3, _, h⟩ := bind_eq_some h
      cases h
    · obtain ⟨_, _, _, h⟩ := bind_eq_some h
      exact ih h

theorem trySignatures_starts
    (h : (ofBudget n).trySignatures m several (signature :: signatures) refusals fallback ctx s = some (answer, u))
    (hc : (ctx.cancellable && u.canceled) = false) : (ctx.cancellable && s.canceled) = false := by
  have h := of_read h rfl
  split at h
  · rename_i hs
    cases h
    cases hs.symm.trans hc
  · rename_i hs
    exact Bool.eq_false_of_not_eq_true hs

theorem matchCall_cases
    (h : (ofBudget n).matchCall wanted callable call ctx s = some (answer, u)) (hc : (ctx.cancellable && u.canceled) = false) :
    (ctx.cancellable && s.canceled) = false ∧ ∃ passed s1 signatures s2,
      (ofBudget n).passedValues call ctx s = some (passed, s1) ∧
      (ofBudget n).candidates callable call.args.length call.colon ctx s1 = some (signatures, s2) ∧
      ((signatures = [] ∧ answer.outcome = .ok none) ∨ (signatures ≠ [] ∧ (ctx.cancellable && s2.canceled) = false ∧
        ∃ o, answer.outcome = .ok o ∧ (ofBudget n).trySignatures ⟨wanted, call, passed⟩ (1 < signatures.length) signatures [] none
          ctx s2 = some (⟨.ok o, answer.problems⟩, u))) := by
  have h := of_read h rfl
  split at h
  · rename_i hs
    cases h
    cases hs.symm.trans hc
  rename_i hs
  obtain ⟨passed, s1, hpassed, h⟩ := bind_eq_some h
  obtain ⟨signatures, s2, hsignatures, h⟩ := bind_eq_some h
  refine ⟨Bool.eq_false_of_not_eq_true hs, passed, s1, signatures, s2, hpassed, hsignatures, ?_⟩
  cases signatures with
  | nil => cases h; exact .inl ⟨rfl, rfl⟩
  | cons =>
    refine .inr ⟨nofun, trySignatures_starts h hc, ?_⟩
    obtain ⟨outcome, _⟩ := answer
    cases outcome with
    | error => cases (trySignatures_error h).symm.trans hc
    | ok o => exact ⟨o, rfl, h⟩

/-- Whether problems are wanted or not, a call that is not canceled binds to the same signature, with the
same types put in and the same type of the results, but for two cases: a limit of the guard was exceeded, or
the signatures differ. If they differ, then acceptance and the check differ about a value that is passed. -/
theorem matchCall_same_or_disputed {u' : Session} {answer answer' : CallAnswer} (hs : s.Sound ctx)
    (hcallable : hs.types.Stores callable) (hcall : hs.types.Stores call)
    (hr : (ofBudget n).matchCall false callable call ctx s = some (answer, u))
    (hr' : (ofBudget n).matchCall true callable call ctx s = some (answer', u'))
    (hc : (ctx.cancellable && u.canceled) = false) (hc' : (ctx.cancellable && u'.canceled) = false) :
    ∃ o o', answer.outcome = .ok o ∧ answer'.outcome = .ok o' ∧
      (u.guard.exceeded = true ∨ u'.guard.exceeded = true ∨
        o.map (·.written u.types) = o'.map (·.written u'.types) ∨
        ∃ passed t found found', (ofBudget n).passedValues call ctx s = some (passed, t) ∧
          o = some found ∧ o' = some found' ∧ found.signature? ≠ found'.signature? ∧
          found.Divided (ofBudget n) ctx s call passed found') := by
  obtain ⟨hsc, passed, s₁, signatures, s₂, hpassed, hsignatures, h⟩ := matchCall_cases hr hc
  obtain ⟨-, passed', s₁', signatures', s₂', hpassed', hsignatures', h'⟩ := matchCall_cases hr' hc'
  cases hpassed.symm.trans hpassed'
  cases hsignatures.symm.trans hsignatures'
  rcases h with ⟨rfl, ho⟩ | ⟨hne, hs₂, o, ho, htry⟩
  · obtain ⟨-, ho'⟩ := h'.resolve_right fun h => h.1 rfl
    exact ⟨none, none, ho, ho', .inr (.inr (.inl rfl))⟩
  · obtain ⟨-, -, o', ho', htry'⟩ := h'.resolve_left fun h => hne h.1
    refine ⟨o, o', ho, ho', ?_⟩
    cases hu : u.guard.exceeded with
    | true => exact .inl rfl
    | false =>
    cases hu' : u'.guard.exceeded with
    | true => exact .inr (.inl rfl)
    | false =>
    have hs₂ : s₂.Clear ctx := ⟨(keeps_trySignatures _ ctx _ _ _ htry).unexceeded hu, hs₂⟩
    have hs₁ : s₁.Clear ctx := ((uniform_candidates _ _).unhindered callable).keeps ctx _ _ _ hsignatures |>.clear hs₂
    have hs₀ : s.Clear ctx := (uniform_passedValues.unhindered call).keeps ctx _ _ _ hpassed |>.clear hs₁
    have k := hs.since hs₀
    obtain ⟨k₁, k₁', hk₁, hpassed₁⟩ := k.step uniform_passedValues hs k hcall hpassed hpassed hs₁ hs₁
    obtain ⟨k₂, k₂', hk₂, hsignatures₂⟩ := k₁.step (uniform_candidates _ _) hs k₁'
      (Same.upTo hcallable (k₁.pairing k₁')) hsignatures hsignatures hs₂ hs₂
    have hb := k₂.sound hs
    have hcall₂ : hb.types.Stores call := (Same.upTo hcall (k₁.pairing k₁')).upTo (k₂.pairing k₂')
    have hall : ∀ x ∈ signatures, hb.types.Stores x := fun x hx =>
      have := (TypeTable.sameSignatures_iff.1 hsignatures₂).1 x hx
      TypeTable.sameSignature_iff.2 ⟨this, this, rfl⟩
    obtain ⟨found, found', rfl, rfl, hsame | ⟨hne, hdivided⟩⟩ := trySignatures_same_or_divided hb hcall₂
      (hpassed₁.upTo (k₂.pairing k₂')) (hb.since hs₂) (hb.since hs₂) inferInstance hall htry htry' hu hu'
    · exact .inr (.inr (.inl (congrArg some hsame)))
    · exact .inr (.inr (.inr ⟨passed, s₁, found, found', hpassed, rfl, rfl, hne, hdivided.mono k₂⟩))

/-- A shape `Row`, `⟨10⟩`, the index `1`, `⟨11⟩`, and a function of a list of strings and numbers, `⟨14⟩`. -/
def rowTypes : TypeTable :=
  .ofForms ["Row", "1", "a"] [.classRef ⟨3⟩ Marks.shape, .literal .number ⟨4⟩, .union [Ty.number, Ty.string],
    .array ⟨12⟩, .function ⟨false, [], [⟨⟨5⟩, some ⟨13⟩, false⟩], none, some Ty.string⟩ [] {}]

/-- What is a `Row` has a string under the index `1`. -/
def rows : Declarations :=
  Declarations.empty.addClass { name := ⟨3⟩, marks := Marks.shape, members := [.indexed ⟨11⟩ Ty.string] }

def rowsStart : Session := .start rowTypes Limits.standard

/-- The function is called with a `Row`. -/
def rowCall : CallSite := { node := ⟨1⟩, args := [⟨⟨2⟩, ⟨10⟩, false⟩], colon := false, receiver := none }

theorem rowTypes_wf : rowTypes.WF := Orderly.wf (by decide)

theorem rowsStart_sound : rowsStart.Sound rows.context := by
  have : Same rowTypes_wf.self (⟨11⟩ : Ty) ⟨11⟩ :=
    sameType_iff.2 ⟨by decide, by decide, rfl⟩
  have : Same rowTypes_wf.self (⟨3⟩ : Symbol) ⟨3⟩ :=
    sameSymbol_iff.2 ⟨by decide, by decide, rfl⟩
  refine .declared (d := rows) rfl rowTypes_wf _ (List.forall_mem_singleton.2 ?_) (List.forall_mem_nil _) rfl rfl
  exact ⟨by decide, get _ (ClassDecl.mk ..) (ClassDecl.mk ..)⟩

example : ((ofBudget 9).accepts ⟨13⟩ ⟨10⟩ {} rows.context rowsStart).map Prod.fst = some false := by decide +kernel

/-- A `Row` is no list of strings and numbers, since its values are only strings; but the check takes it for
one. So the call has no signature as long as no problems are wanted, and has one otherwise. -/
theorem matchCall_row_disputed : ∃ (hs : rowsStart.Sound rows.context) (answer answer' : CallAnswer) (u u' : Session),
    hs.types.Stores (⟨14⟩ : Ty) ∧ hs.types.Stores rowCall ∧
    (ofBudget 20).matchCall false ⟨14⟩ rowCall rows.context rowsStart = some (answer, u) ∧
    (ofBudget 20).matchCall true ⟨14⟩ rowCall rows.context rowsStart = some (answer', u') ∧
    u.guard.exceeded = false ∧ u'.guard.exceeded = false ∧ ∃ passed t found found',
      (ofBudget 20).passedValues rowCall rows.context rowsStart = some (passed, t) ∧
      answer.outcome = .ok (some found) ∧ answer'.outcome = .ok (some found') ∧
      found.signature? = none ∧ found'.signature?.isSome ∧
      found.Divided (ofBudget 20) rows.context rowsStart rowCall passed found' := by
  have hf : Same rowTypes_wf.self (⟨14⟩ : Ty) ⟨14⟩ :=
    TypeTable.sameType_iff.2 ⟨by decide, by decide, rfl⟩
  have hrow : Same rowTypes_wf.self (⟨10⟩ : Ty) ⟨10⟩ :=
    TypeTable.sameType_iff.2 ⟨by decide, by decide, rfl⟩
  have hcall : Same rowTypes_wf.self rowCall rowCall :=
    inferInstanceAs (Same _ (CallSite.mk ..) (CallSite.mk ..))
  have hplain : ((ofBudget 20).matchCall false ⟨14⟩ rowCall rows.context rowsStart).map (fun r =>
      (r.1.outcome.toOption.map (·.map (·.signature?)), r.2.guard.exceeded, r.2.canceled)) =
        some (some (some none), false, false) := by decide +kernel
  have hcollect : ((ofBudget 20).matchCall true ⟨14⟩ rowCall rows.context rowsStart).map (fun r =>
      (r.1.outcome.toOption.map (·.map (·.signature?.isSome)), r.2.guard.exceeded, r.2.canceled)) =
        some (some (some true), false, false) := by decide +kernel
  obtain ⟨⟨answer, u⟩, hr, he⟩ := map_eq_some_iff.1 hplain
  obtain ⟨⟨answer', u'⟩, hr', he'⟩ := map_eq_some_iff.1 hcollect
  simp only [Prod.mk.injEq] at he he'
  obtain ⟨o, o', ho, ho', h⟩ := matchCall_same_or_disputed rowsStart_sound hf hcall hr hr' (by simp [he.2.2])
    (by simp [he'.2.2])
  simp only [ho, ho', Except.toOption, map_some, Option.some.injEq] at he he'
  obtain ⟨ho₁, hu, -⟩ := he
  obtain ⟨ho₁', hu', -⟩ := he'
  refine ⟨rowsStart_sound, answer, answer', u, u', hf, hcall, hr, hr', hu, hu', ?_⟩
  obtain ⟨found, rfl, hfound⟩ := map_eq_some_iff.1 ho₁
  obtain ⟨found', rfl, hfound'⟩ := map_eq_some_iff.1 ho₁'
  rcases h with h | h | h | ⟨passed, t, _, _, hpassed, ho₂, ho₂', -, hdivided⟩
  · exact absurd (h.symm.trans hu) (by decide)
  · exact absurd (h.symm.trans hu') (by decide)
  · -- Answers that read alike would name a signature in both cases.
    have hwritten := congrArg (fun w => (w.map (·.1.isSome)).getD false) h
    simp only [CallMatch.written, map_some, isSome_map, Option.getD_some] at hwritten
    simp only [CallMatch.signature?, isSome_map, Option.map_eq_none_iff] at hfound hfound'
    simp [hfound, hfound'] at hwritten
  · cases ho₂
    cases ho₂'
    exact ⟨passed, t, found, found', hpassed, ho, ho', hfound, hfound', hdivided⟩

/-! ## Calls that are canceled -/

/-- The query was canceled, and takes notice of it. -/
def Session.Canceled (ctx : Context) (s : Session) : Prop := (ctx.cancellable && s.canceled) = true

def CallAnswer.canceled : CallAnswer := ⟨.error .canceled, []⟩

theorem trySignatures_canceled (h : S.trySignatures m several signatures refusals fallback ctx s = some (answer, u))
    (hs : signatures = [] → ¬ s.Canceled ctx) (hu : u.Canceled ctx) : answer = .canceled := by
  induction signatures generalizing s refusals fallback with
  | nil =>
    have h := of_read h rfl
    cases h
    exact absurd hu (hs rfl)
  | cons signature rest ih =>
    have h := of_read h rfl
    split at h
    · cases h
      rfl
    obtain ⟨_, _, -, h⟩ := bind_eq_some h
    have h := of_read h rfl
    split at h
    · cases h
      rfl
    rename_i hs1
    split at h
    · obtain ⟨_, s3, hreturns, h⟩ := bind_eq_some h
      cases h
      unfold Session.Canceled at hu
      rw [returnType_canceled hreturns] at hu
      exact absurd hu hs1
    · obtain ⟨_, _, hfallback, h⟩ := bind_eq_some h
      refine ih h fun _ hs3 => hs1 ?_
      unfold Session.Canceled at hs3
      rwa [fallbackAfter_canceled hfallback] at hs3

theorem candidates_eq_nil {count : Nat} {colon : Bool}
    (h : S.candidates callable count colon ctx s = some ([], u)) : S.signaturesOf callable ctx s = some ([], u) := by
  have h := of_read h rfl
  obtain ⟨signatures, _, hsignatures, h⟩ := bind_eq_some h
  rw [hsignatures]
  dsimp only at h
  split at h
  · obtain ⟨he, rfl⟩ := pure_eq_some h
    have hlast : signatures.getLast? = none := by simpa using he.symm
    rw [List.getLast?_eq_none_iff.1 hlast]
  · rename_i hable
    obtain ⟨he, rfl⟩ := pure_eq_some h
    exact absurd (by rw [← he]; rfl) hable

/-- A call that was canceled by the time it is answered is answered as canceled, and nothing is reported, whoever
answers the questions and whichever of them was canceled. A callee that has no signatures is the exception: it is
found after the only look at the cancellation, and is answered as such. -/
theorem matchCall_canceled {wanted : Bool} {callable : Ty} {call : CallSite}
    (h : S.matchCall wanted callable call ctx s = some (answer, u)) (hu : u.Canceled ctx) :
    answer = .canceled ∨ ¬ s.Canceled ctx ∧ answer = ⟨.ok none, []⟩ ∧ ∃ passed s₁,
      S.passedValues call ctx s = some (passed, s₁) ∧ S.signaturesOf callable ctx s₁ = some ([], u) := by
  have h := of_read h rfl
  split at h
  · cases h
    exact .inl rfl
  rename_i hs
  obtain ⟨passed, s₁, hpassed, h⟩ := bind_eq_some h
  obtain ⟨signatures, s₂, hsignatures, h⟩ := bind_eq_some h
  cases signatures with
  | nil =>
    cases h
    exact .inr ⟨hs, rfl, passed, s₁, hpassed, candidates_eq_nil hsignatures⟩
  | cons signature rest => exact .inl (trySignatures_canceled h nofun hu)

/-! ## A class whose look-up cancels the query -/

/-- A class `C`, `⟨10⟩`, and a function of a `C`, `⟨11⟩`. -/
def haltingTypes : TypeTable :=
  .ofForms ["C", "a"] [.classRef ⟨3⟩ Marks.none,
    .function ⟨false, [], [⟨⟨4⟩, some ⟨10⟩, false⟩], none, some Ty.string⟩ [] {}]

/-- A `C` can be called. Looking it up cancels the query. -/
def halting : Declarations :=
  { Declarations.empty.addClass
      { name := ⟨3⟩, marks := Marks.none, signatures := [⟨false, [], [], none, some Ty.string⟩] } with
    cancelling := some ⟨3⟩ }

def haltingStart : Session := .start haltingTypes Limits.standard

def haltingCall : CallSite := { node := ⟨1⟩, args := [⟨⟨2⟩, Ty.number, false⟩], colon := false, receiver := none }

/-- The query is canceled where the number is compared with `C`, so it is not said that the call has no match. -/
theorem matchCall_canceled_argument : ∃ answer u,
    standard.matchCall true ⟨11⟩ haltingCall halting.context haltingStart = some (answer, u) ∧
    u.Canceled halting.context ∧ answer = .canceled := by
  have hrun : (standard.matchCall true ⟨11⟩ haltingCall halting.context haltingStart).map (fun r =>
      (r.1.outcome.toOption.isSome, r.2.canceled)) = some (false, true) := by decide +kernel
  obtain ⟨⟨answer, u⟩, hr, he⟩ := map_eq_some_iff.1 hrun
  obtain ⟨hout, hu⟩ := Prod.mk.inj he
  refine ⟨answer, u, hr, hu, (matchCall_canceled hr hu).resolve_right ?_⟩
  rintro ⟨-, rfl, -⟩
  cases hout

/-- The query is canceled where the signatures of `C` are looked for. None are found, and the call is answered as that
of a callee that cannot be called. -/
theorem matchCall_canceled_callee : ∃ answer u,
    standard.matchCall true ⟨10⟩ haltingCall halting.context haltingStart = some (answer, u) ∧
    u.Canceled halting.context ∧ answer.outcome = .ok none := by
  have hrun : (standard.matchCall true ⟨10⟩ haltingCall halting.context haltingStart).map (fun r =>
      (r.1.outcome.toOption.map Option.isNone, r.2.canceled)) = some (some true, true) := by decide +kernel
  obtain ⟨⟨⟨outcome, problems⟩, u⟩, hr, he⟩ := map_eq_some_iff.1 hrun
  obtain ⟨hout, hu⟩ := Prod.mk.inj he
  refine ⟨_, u, hr, hu, ?_⟩
  match outcome, hout with
  | .ok none, _ => rfl

end AnnotatedLua
