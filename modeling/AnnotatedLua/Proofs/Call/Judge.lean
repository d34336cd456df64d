/-
A call and one signature, tried twice: once to find out whether it is accepted, and once to collect the problems. If the
verdicts differ, acceptance and the check differ about a value that the call passes (`checkCandidate_judged`).
-/
import AnnotatedLua.Proofs.Query.Answer

namespace AnnotatedLua

open Solve Solver List Session.Since Same

variable {v v' before : Verdict} {ctx : Context} {base : Session} {n : Nat} {self : Symbol} {colon : Bool} {S : Solver}
  {param : Parameter} {signature : Signature} {receiver : Option Ty}

/-- The types that the values of a call are compared with: that of the receiver, those of the parameters
and the variadic one. -/
def SignatureOf.comparedWith (signature : Signature) (receiver : Option Ty) : List Ty :=
  receiver.getD Ty.any :: (signature.params.map ParameterOf.typeOrAny ++ signature.variadic.toList)

def Solver.PassedValues.all (passed : PassedValues) : List Passed := passed.values ++ passed.variadic.toList

/-- How the values of an argument are compared: a table constructor may be narrower than required. -/
def Argument.mode (arg : Argument) : Mode := { widenTables := arg.isTable }

/-! ## Verdicts -/

section
variable {s s' u u' t t' : Session} {D : Bool → Prop} {w w' : Verdict}

structure Judged (D : Bool → Prop) (h : s.Since ctx base) (h' : s'.Since ctx base) (v v' : Verdict)
    (u u' : Session) : Prop where
  left : u.Since ctx base
  right : u'.Since ctx base
  after : (h.pairing h').After (left.pairing right)
  verdict : v.accepted = v'.accepted ∨ D v.accepted

variable {h : s.Since ctx base} {h' : s'.Since ctx base}

theorem Judged.and (j : Judged D h h' v v' u u')
    (k : Judged D j.left j.right w w' t t') : Judged D h h' (v.and w) (v'.and w') t t' := by
  refine ⟨k.left, k.right, j.after.trans k.after, ?_⟩
  have hj := j.verdict
  have hk := k.verdict
  unfold Verdict.and
  dsimp only
  revert hj hk
  cases v.accepted <;> cases v'.accepted <;> cases w.accepted <;> cases w'.accepted <;> simp

theorem Judged.refused (j : Judged D h h' v v' u u')
    (k' : t'.Since ctx base) (hx : u'.types.Extends t'.types) (hv : v.accepted = false)
    (hw : w.accepted = true → v'.accepted = true) : Judged D h h' v w u t' := by
  refine ⟨j.left, k', j.after.trans (j.left.later j.right j.left k' (.refl _) hx), ?_⟩
  have hj := j.verdict
  revert hj hw
  rw [hv]
  cases v'.accepted <;> cases w.accepted <;> simp
end

/-! ## Single values -/

theorem uniform_accepts (mode : Mode) : Uniform S fun x : Ty × Ty => S.accepts x.1 x.2 mode :=
  fun _ hS _ _ _ _ => hS.accepts

theorem uniform_check (wanted : Bool) (mode : Mode) (targetNode : Option Node) (sourceNode : Node) :
    Uniform S fun x : Ty × Ty => S.check wanted x.1 x.2 mode targetNode sourceNode :=
  fun L hS _ _ _ _ => hS.check L.parents

theorem uniform_checkArgument (wanted : Bool) (wider : Reason → Reason) :
    Uniform S fun x : Ty × Passed => S.checkArgument wanted x.1 x.2 wider :=
  fun L hS _ _ _ _ => L.checkArgument hS fun _ => L.parents

section
variable {s s' u u' : Session} {D : Bool → Prop}

theorem checkArgument_judged (hb : base.Sound ctx) {h : s.Since ctx base} {h' : s'.Since ctx base}
    {param param' type type' : Ty} {arg : Argument} {wider wider' : Reason → Reason}
    (hp : Same (h.pairing h') param param') (ht : Same (h.pairing h') type type')
    (hD : ∀ {accepted : Bool} {verdict : Verdict} {t t' : Session},
      (ofBudget n).accepts param type arg.mode ctx s = some (accepted, t) →
      (ofBudget n).check true param' type' arg.mode none arg.node ctx s' = some (verdict, t') →
      verdict.accepted = !accepted → D accepted)
    (hr : (ofBudget n).checkArgument false param ⟨type, arg⟩ wider ctx s = some (v, u))
    (hr' : (ofBudget n).checkArgument true param' ⟨type', arg⟩ wider' ctx s' = some (v', u'))
    (hu : u.Clear ctx) (hu' : u'.Clear ctx) : Judged D h h' v v' u u' := by
  obtain ⟨accepted, _, ha, hr⟩ := bind_eq_some hr
  cases hr
  obtain ⟨verdict, _, hc, hr'⟩ := bind_eq_some hr'
  cases hr'
  have hx : Same (h.pairing h') (param, type) (param', type') := inferInstance
  refine ⟨goes_left (uniform_accepts arg.mode) hb h h' hx ha hu,
    goes_right (uniform_check true arg.mode none arg.node) hb h h' hx hc hu', ?_, ?_⟩
  · have hk := ((uniform_accepts arg.mode).unhindered (param, type)).keeps ctx s _ _ ha
    have hk' := ((uniform_check true arg.mode none arg.node).unhindered (param', type')).keeps ctx s' _ _ hc
    exact TypeTable.pairing_after hk.types hk'.types
  · show accepted = verdict.accepted ∨ D accepted
    by_cases he : accepted = verdict.accepted
    · exact .inl he
    · exact .inr (hD ha hc (by revert he; cases accepted <;> cases verdict.accepted <;> simp))
end

def Solver.Passed.Gives (S : Solver) (ctx : Context) (value : Passed) (type : Ty) (s : Session) : Prop :=
  type = value.type ∨ ∃ s0, S.resultAt value.type 0 ctx s0 = some (type, s)

/-- Acceptance and the check differ about a value that the call passes and one of the types that it is
compared with; `accepted` is what acceptance says. -/
inductive Disputed (S : Solver) (ctx : Context) (base : Session) (passed : PassedValues) (types types' : List Ty)
    (accepted : Bool) : Prop where
  | intro {s s' u u'} (h : s.Since ctx base) (h' : s'.Since ctx base) {param param' type type'}
    {value verdict} (param_mem : param ∈ types) (param'_mem : param' ∈ types')
    (value_mem : value ∈ passed.all) (gives : value.Gives S ctx type s) (gives' : value.Gives S ctx type' s')
    (same_param : Same (h.pairing h') param param') (same_type : Same (h.pairing h') type type')
    (accepts : S.accepts param type value.arg.mode ctx s = some (accepted, u))
    (check : S.check true param' type' value.arg.mode none value.arg.node ctx s' = some (verdict, u'))
    (differ : verdict.accepted = !accepted)

/-! ## Parameters -/

theorem uniform_missingArgument (isSelf : Bool) :
    Uniform S fun x : Attempt × Parameter => missingArgument x.1 x.2 isSelf :=
  fun L _ _ _ _ _ => L.missingArgument

variable {s u : Session} {a : Attempt}

theorem missingArgument_refuses {isSelf : Bool}
    (h : missingArgument a param isSelf ctx s = some (v, u)) : v.accepted = false := by
  unfold missingArgument at h
  split at h
  · cases h; rfl
  · split at h
    · cases h; rfl
    · obtain ⟨_, _, -, h⟩ := bind_eq_some h
      obtain ⟨_, _, -, h⟩ := bind_eq_some h
      cases h; rfl

theorem uniform_checkParameters (before : Verdict) :
    Uniform S fun x : Attempt × Symbol × List (Parameter × Nat) => S.checkParameters x.1 x.2.1 x.2.2 before :=
  fun L hS _ _ _ _ => L.checkParameters hS fun _ => L.parents

theorem checkParameters_accepted {params : List (Parameter × Nat)}
    (h : S.checkParameters a self params before ctx s = some (v, u)) (hv : v.accepted = true) :
    before.accepted = true := by
  induction params generalizing before s with
  | nil => cases h; exact hv
  | cons x rest ih =>
    obtain ⟨part, _, -, h⟩ := bind_eq_some h
    have hand : (before.and part).accepted = true := by
      dsimp only at h
      split at h
      · cases h; exact hv
      · exact ih h
    exact (Bool.and_eq_true_iff.1 hand).1

/-! ## What comes after the parameters -/

theorem uniform_resultAt (position : Nat) : Uniform S fun x : Ty => S.resultAt x position :=
  fun _ hS _ _ _ _ => hS.resultAt

theorem uniform_checkRepeated (wanted : Bool) :
    Uniform S fun x : Ty × Verdict × List Passed => x.2.2.foldlM (S.checkRepeated wanted x.1) x.2.1 :=
  fun L hS _ _ _ _ => L.foldlM (L.checkRepeated hS fun _ => L.parents)

theorem uniform_checkRest (count : Nat) : Uniform S fun x : Attempt => S.checkRest x count :=
  fun L hS _ _ _ _ => L.checkRest hS fun _ => L.parents

/-! ## Candidates -/

theorem uniform_selfSymbol : Uniform S fun _ : Unit => store (.symbol selfName) :=
  fun L _ _ _ _ _ => L.internText _

theorem uniform_callParameters (colon : Bool) :
    Uniform S fun x : Signature × Option Ty => store (callParameters x.1 x.2 colon) :=
  fun L _ _ _ _ _ => L.callParameters

theorem callParameters_comparedWith {t : TypeTable} (h : param ∈ (callParameters signature receiver colon t).1) :
    param.typeOrAny ∈ signature.comparedWith receiver := by
  have declared (hp : param ∈ signature.params) : param.typeOrAny ∈ signature.comparedWith receiver :=
    mem_cons_of_mem _ (mem_append_left _ (mem_map_of_mem hp))
  unfold callParameters at h
  split at h
  · exact declared (mem_of_mem_drop h)
  · split at h
    · rcases mem_cons.1 h with rfl | hp
      · exact mem_cons_self ..
      · exact declared hp
    · exact declared h

theorem store_callParameters_comparedWith
    {params : List Parameter} (h : store (callParameters signature receiver colon) ctx s = some (params, u))
    (x : Parameter × Nat) (hx : x ∈ params.zipIdx) : x.1.typeOrAny ∈ signature.comparedWith receiver := by
  have hrun : some ((callParameters signature receiver colon s.types).1, _) = some (params, u) := h
  have hparam := fst_mem_of_mem_zipIdx hx
  rw [← (Prod.mk.inj (Option.some.inj hrun)).1] at hparam
  exact callParameters_comparedWith hparam

theorem variadic_comparedWith (ty : Ty) (h : ty ∈ signature.variadic) : ty ∈ signature.comparedWith receiver :=
  mem_cons_of_mem _ (mem_append_right _ (Option.mem_toList.2 h))

section
variable (hb : base.Sound ctx) {call : CallSite} {passed : PassedValues} (hcall : hb.types.Stores call)
  (hpassed : hb.types.Stores passed) {signature' : Signature} {types types' : List Ty} {s s' u u' : Session}

/-- The verdicts on a call, without problems and with them. -/
abbrev Verdicts (n : Nat) (passed : PassedValues) (types types' : List Ty) (h : s.Since ctx base)
    (h' : s'.Since ctx base) (v v' : Verdict) (u u' : Session) : Prop :=
  Judged (Disputed (ofBudget n) ctx base passed types types') h h' v v' u u'

include hcall hpassed

variable {h' : s'.Since ctx base} {self' : Symbol} {h : s.Since ctx base}

theorem checkParameter_judged {position : Nat} {param' : Parameter} (hsig : Same (h.pairing h') signature signature')
    (hp : Same (h.pairing h') param param') (hmem : param.typeOrAny ∈ types) (hmem' : param'.typeOrAny ∈ types')
    (hr : (ofBudget n).checkParameter ⟨false, signature, call, passed⟩ self position param ctx s = some (v, u))
    (hr' : (ofBudget n).checkParameter ⟨true, signature', call, passed⟩ self' position param' ctx s' = some (v', u'))
    (hu : u.Clear ctx) (hu' : u'.Clear ctx) : Verdicts n passed types types' h h' v v' u u' := by
  have hafter := h.after_base hb h'
  have hpass : Same (h.pairing h') passed passed := upTo hpassed _
  have hcall : Same (h.pairing h') call call := upTo hcall _
  unfold Solver.checkParameter at hr hr'
  dsimp only at hr hr'
  cases hv : passed.values[position]? with
  | some value =>
    rw [hv] at hr hr'
    have hmemv : value ∈ passed.all := mem_append_left _ (mem_of_getElem? hv)
    have hvalue : Same (h.pairing h') value value :=
      (hv ▸ get (h.pairing h') passed.values[position]? passed.values[position]?).of_some
    exact checkArgument_judged hb inferInstance (get (h.pairing h') value.type value.type)
      (fun ha hc he => .intro h h' hmem hmem' hmemv (.inl rfl) (.inl rfl) inferInstance inferInstance ha hc he)
      hr hr' hu hu'
  | none =>
    rw [hv] at hr hr'
    dsimp only at hr hr'
    rw [← (get (h.pairing h') param.optional param'.optional).eq] at hr'
    by_cases ho : param.optional = true
    · rw [if_pos ho] at hr hr'
      cases hr
      cases hr'
      exact ⟨h, h', .refl _, .inl rfl⟩
    · rw [if_neg ho] at hr hr'
      -- The first way has nothing to say about a missing argument, and does not touch the session.
      have hr := of_read hr rfl
      obtain ⟨missing', s1', hmiss', hr'⟩ := bind_eq_some hr'
      have huni := uniform_missingArgument (S := ofBudget n) (!call.colon && position == 0 && param'.name == self')
      have hk := (huni.unhindered (⟨true, signature', call, passed⟩, param')).keeps ctx s' _ _ hmiss'
      have judged (hs : s1'.Clear ctx) : Verdicts n passed types types' h h' .rejectSilently missing' s s1' := by
        have hx : Same (h.pairing h') ((⟨true, signature, call, passed⟩, param) : Attempt × Parameter)
            (⟨true, signature', call, passed⟩, param') := inferInstance
        exact ⟨h, goes_right huni hb h h' hx hmiss' hs, TypeTable.pairing_after (.refl _) hk.types,
          .inl (missingArgument_refuses hmiss').symm⟩
      cases hvar : passed.variadic with
      | none =>
        rw [hvar] at hr hr'
        cases hr
        cases hr'
        exact judged hu'
      | some value =>
        rw [hvar] at hr hr'
        have hmemv : value ∈ passed.all := mem_append_right _ (by simp [hvar])
        have hvalue : Same (h.pairing h') value value :=
          (hvar ▸ get (h.pairing h') passed.variadic passed.variadic).of_some
        obtain ⟨_, _, hpart, hr⟩ := bind_eq_some hr
        obtain ⟨_, _, hpart', hr'⟩ := bind_eq_some hr'
        cases hr
        cases hr'
        have hk := ((uniform_checkArgument true _).unhindered (param'.typeOrAny, value)).keeps ctx _ _ _ hpart'
        have j := judged (hk.clear hu')
        have := j.after
        exact j.and (checkArgument_judged hb inferInstance (get (j.left.pairing j.right) value.type value.type)
          (fun ha hc he => .intro j.left j.right hmem hmem' hmemv (.inl rfl) (.inl rfl) inferInstance inferInstance ha hc he)
          hpart hpart' hu hu')

variable {before' : Verdict}

theorem checkParameters_judged {params params' : List (Parameter × Nat)} {h' : s'.Since ctx base}
    (hsig : Same (h.pairing h') signature signature') (hself : Same (h.pairing h') self self')
    (hparams : Same (h.pairing h') params params') (hmem : ∀ x ∈ params, x.1.typeOrAny ∈ types)
    (hmem' : ∀ x ∈ params', x.1.typeOrAny ∈ types') (hbefore : Verdicts n passed types types' h h' before before' s s')
    (hr : (ofBudget n).checkParameters ⟨false, signature, call, passed⟩ self params before ctx s = some (v, u))
    (hr' : (ofBudget n).checkParameters ⟨true, signature', call, passed⟩ self' params' before' ctx s' = some (v', u'))
    (hu : u.Clear ctx) (hu' : u'.Clear ctx) : Verdicts n passed types types' h h' v v' u u' := by
  induction params generalizing params' before before' s s' with
  | nil =>
    obtain ⟨⟨⟩⟩ := hparams
    cases hr
    cases hr'
    exact hbefore
  | cons x rest ih =>
    obtain ⟨_ | @⟨_, x', _, rest', hx, hrest⟩⟩ := hparams
    obtain ⟨param, position⟩ := x
    obtain ⟨param', position'⟩ := x'
    obtain ⟨hp, hpos⟩ := hx.out
    obtain rfl : position = position' := hpos.eq
    obtain ⟨part, s1, hpart, hr⟩ := bind_eq_some hr
    obtain ⟨part', s1', hpart', hr'⟩ := bind_eq_some hr'
    dsimp only at hr hr'
    have hends' : endsCheck ⟨true, signature', call, passed⟩ position param' (before'.and part') = false := by
      simp [endsCheck]
    rw [hends', if_neg Bool.false_ne_true] at hr'
    have hkeeps' := ((uniform_checkParameters (before'.and part')).unhindered
      (⟨true, signature', call, passed⟩, self', rest')).keeps ctx s1' _ _ hr'
    have hrest : Same (h.pairing h') rest rest' := ⟨hrest⟩
    have judged (hs : s1.Clear ctx) : Verdicts n passed types types' h h' (before.and part) (before'.and part') s1 s1' :=
      hbefore.and (checkParameter_judged hb hcall hpassed hsig hp (hmem _ (mem_cons_self ..))
        (hmem' _ (mem_cons_self ..)) hpart hpart' hs (hkeeps'.clear hu'))
    by_cases he : endsCheck ⟨false, signature, call, passed⟩ position param (before.and part) = true
    · -- The first way ends here, and the second one goes on without changing the verdict.
      rw [if_pos he] at hr
      cases hr
      have j := judged hu
      have := j.after
      have hbase := h.after_base hb h'
      have hpass : Same (h.pairing h') passed passed := upTo hpassed _
      have hcall : Same (h.pairing h') call call := upTo hcall _
      have hx : Same (j.left.pairing j.right) ((⟨true, signature, call, passed⟩, self, rest) :
          Attempt × Symbol × List (Parameter × Nat)) (⟨true, signature', call, passed⟩, self', rest') := inferInstance
      have k' := goes_right (uniform_checkParameters _) hb j.left j.right hx hr' hu'
      refine j.refused k' hkeeps'.types ?_ (checkParameters_accepted hr')
      simp only [endsCheck, Bool.and_eq_true, Bool.not_eq_true'] at he
      exact he.1.2
    · rw [if_neg he] at hr
      have hkeeps := ((uniform_checkParameters (before.and part)).unhindered
        (⟨false, signature, call, passed⟩, self, rest)).keeps ctx s1 _ _ hr
      have j := judged (hkeeps.clear hu)
      have hafter := j.after
      have k := ih (hsig.upTo (j.left.pairing j.right)) (hself.upTo _) (hrest.upTo _)
        (fun x hx => hmem x (mem_cons_of_mem _ hx)) (fun x hx => hmem' x (mem_cons_of_mem _ hx))
        ⟨j.left, j.right, .refl _, j.verdict⟩ hr hr'
      exact ⟨k.left, k.right, hafter.trans k.after, k.verdict⟩

omit hcall hpassed in
include hb in
theorem checkRepeated_judged {variadic variadic' : Ty} {values : List Passed}
    {h' : s'.Since ctx base} (hvar : Same (h.pairing h') variadic variadic')
    (hmem : variadic ∈ types) (hmem' : variadic' ∈ types') (hvalues : Same (h.pairing h') values values)
    (hall : ∀ value ∈ values, value ∈ passed.all) (hbefore : Verdicts n passed types types' h h' before before' s s')
    (hr : values.foldlM ((ofBudget n).checkRepeated false variadic) before ctx s = some (v, u))
    (hr' : values.foldlM ((ofBudget n).checkRepeated true variadic') before' ctx s' = some (v', u'))
    (hu : u.Clear ctx) (hu' : u'.Clear ctx) : Verdicts n passed types types' h h' v v' u u' := by
  induction values generalizing before before' s s' with
  | nil =>
    cases hr
    cases hr'
    exact hbefore
  | cons value rest ih =>
    obtain ⟨_ | ⟨_, hrest⟩⟩ := hvalues
    have hrest : Same (h.pairing h') rest rest := ⟨hrest⟩
    rw [foldlM_cons] at hr hr'
    obtain ⟨next, s3, hnext, hr⟩ := bind_eq_some hr
    obtain ⟨next', s3', hnext', hr'⟩ := bind_eq_some hr'
    have hs3 := ((uniform_checkRepeated false).unhindered (variadic, next, rest)).keeps ctx s3 _ _ hr |>.clear hu
    have hs3' := ((uniform_checkRepeated true).unhindered (variadic', next', rest)).keeps ctx s3' _ _ hr' |>.clear hu'
    obtain ⟨type, s1, htype, hnext⟩ := bind_eq_some hnext
    obtain ⟨type', s1', htype', hnext'⟩ := bind_eq_some hnext'
    obtain ⟨part, _, hpart, hnext⟩ := bind_eq_some hnext
    obtain ⟨part', _, hpart', hnext'⟩ := bind_eq_some hnext'
    cases hnext
    cases hnext'
    have hs1 := ((uniform_checkArgument false id).unhindered (variadic, ⟨type, value.arg⟩)).keeps ctx s1 _ _ hpart
      |>.clear hs3
    have hs1' := ((uniform_checkArgument true id).unhindered (variadic', ⟨type', value.arg⟩)).keeps ctx s1' _ _ hpart'
      |>.clear hs3'
    obtain ⟨k, k', hk, htypes⟩ := step (uniform_resultAt 0) hb h h'
      (get (h.pairing h') value.type value.type) htype htype' hs1 hs1'
    have j := checkArgument_judged hb (D := Disputed (ofBudget n) ctx base passed types types') (hvar.upTo (k.pairing k')) htypes
      (fun ha hc he => .intro k k' hmem hmem' (hall value (mem_cons_self ..)) (.inr ⟨s, htype⟩) (.inr ⟨s', htype'⟩)
        (hvar.upTo _) htypes ha hc he) hpart hpart' hs3 hs3'
    have l : Verdicts n passed types types' h h' (before.and part) (before'.and part') s3 s3' :=
      hbefore.and ⟨j.left, j.right, hk.trans j.after, j.verdict⟩
    have hafter := l.after
    have m := ih (hvar.upTo (l.left.pairing l.right)) (hrest.upTo _)
      (fun x hx => hall x (mem_cons_of_mem _ hx)) ⟨l.left, l.right, .refl _, l.verdict⟩ hr hr'
    exact ⟨m.left, m.right, hafter.trans m.after, m.verdict⟩

omit hcall hpassed in
theorem checkExcess_accepted (count : Nat) :
    (checkExcess ⟨false, signature, call, passed⟩ count).accepted =
      (checkExcess ⟨true, signature', call, passed⟩ count).accepted := by
  unfold checkExcess
  dsimp only
  split
  · rfl
  · cases call.args.getLast? <;> rfl

omit hcall in
theorem checkRest_judged {count : Nat}
    (hsig : Same (h.pairing h') signature signature') (hmem : ∀ ty ∈ signature.variadic, ty ∈ types)
    (hmem' : ∀ ty ∈ signature'.variadic, ty ∈ types')
    (hr : (ofBudget n).checkRest ⟨false, signature, call, passed⟩ count ctx s = some (v, u))
    (hr' : (ofBudget n).checkRest ⟨true, signature', call, passed⟩ count ctx s' = some (v', u'))
    (hu : u.Clear ctx) (hu' : u'.Clear ctx) : Verdicts n passed types types' h h' v v' u u' := by
  have hbase := h.after_base hb h'
  have hpass : Same (h.pairing h') passed passed := upTo hpassed _
  have hvar := get (h.pairing h') signature.variadic signature'.variadic
  unfold Solver.checkRest at hr hr'
  dsimp only at hr hr'
  rcases hvar.option_cases with ⟨hv, hv'⟩ | ⟨variadic, variadic', hv, hv', hvar⟩
  · rw [hv] at hr
    rw [hv'] at hr'
    by_cases hc : count < passed.values.length
    · rw [if_pos hc] at hr hr'
      cases hr
      cases hr'
      exact ⟨h, h', .refl _, .inl (checkExcess_accepted count)⟩
    · rw [if_neg hc] at hr hr'
      cases hr
      cases hr'
      exact ⟨h, h', .refl _, .inl rfl⟩
  · rw [hv] at hr
    rw [hv'] at hr'
    by_cases hc : count < passed.values.length
    · rw [if_pos hc] at hr hr'
      exact checkRepeated_judged hb hvar (hmem _ hv) (hmem' _ hv') inferInstance
        (fun value hm => mem_append_left _ (mem_of_mem_drop hm)) ⟨h, h', .refl _, .inl rfl⟩ hr hr' hu hu'
    · rw [if_neg hc] at hr hr'
      cases hlast : passed.variadic with
      | none =>
        rw [hlast] at hr hr'
        cases hr
        cases hr'
        exact ⟨h, h', .refl _, .inl rfl⟩
      | some value =>
        rw [hlast] at hr hr'
        have hmemv : value ∈ passed.all := mem_append_right _ (by simp [hlast])
        have hvalue : Same (h.pairing h') value value :=
          (hlast ▸ get (h.pairing h') passed.variadic passed.variadic).of_some
        exact checkArgument_judged hb hvar (get (h.pairing h') value.type value.type)
          (fun ha hc he => .intro h h' (hmem _ hv) (hmem' _ hv') hmemv (.inl rfl) (.inl rfl) hvar inferInstance ha hc he)
          hr hr' hu hu'

theorem checkCandidate_judged (hsig : Same (h.pairing h') signature signature')
    (hr : (ofBudget n).checkCandidate ⟨false, signature, call, passed⟩ ctx s = some (v, u))
    (hr' : (ofBudget n).checkCandidate ⟨true, signature', call, passed⟩ ctx s' = some (v', u'))
    (hu : u.Clear ctx) (hu' : u'.Clear ctx) :
    Verdicts n passed (signature.comparedWith call.receiver) (signature'.comparedWith call.receiver) h h' v v' u u' := by
  have hbase := h.after_base hb h'
  have hc : Same (h.pairing h') call call := upTo hcall _
  obtain ⟨self, _, hself, hr⟩ := bind_eq_some hr
  obtain ⟨self', _, hself', hr'⟩ := bind_eq_some hr'
  obtain ⟨params, _, hparams, hr⟩ := bind_eq_some hr
  obtain ⟨params', _, hparams', hr'⟩ := bind_eq_some hr'
  obtain ⟨verdict, s3, hverdict, hr⟩ := bind_eq_some hr
  obtain ⟨verdict', s3', hverdict', hr'⟩ := bind_eq_some hr'
  rw [show (!verdict'.accepted && !true) = false by simp, if_neg Bool.false_ne_true] at hr'
  obtain ⟨_, _, hrest', hr'⟩ := bind_eq_some hr'
  cases hr'
  have hkeeps := ((uniform_checkRest params'.length).unhindered ⟨true, signature', call, passed⟩).keeps ctx _ _ _ hrest'
  have hs3' := hkeeps.clear hu'
  have hs2' := ((uniform_checkParameters .accept).unhindered (⟨true, signature', call, passed⟩, self', params'.zipIdx)).keeps
    ctx _ _ _ hverdict' |>.clear hs3'
  have hs1' := ((uniform_callParameters call.colon).unhindered (n := n) (signature', call.receiver)).keeps
    ctx _ _ _ hparams' |>.clear hs2'
  have judged (hs3 : s3.Clear ctx) : Verdicts n passed (signature.comparedWith call.receiver)
      (signature'.comparedWith call.receiver) h h' verdict verdict' s3 s3' ∧ params.length = params'.length := by
    have hs2 := ((uniform_checkParameters .accept).unhindered (⟨false, signature, call, passed⟩, self, params.zipIdx)).keeps
      ctx _ _ _ hverdict |>.clear hs3
    have hs1 := ((uniform_callParameters call.colon).unhindered (n := n) (signature, call.receiver)).keeps
      ctx _ _ _ hparams |>.clear hs2
    obtain ⟨k1, k1', hk1, hsame⟩ := step (n := n) uniform_selfSymbol hb h h'
      (get (h.pairing h') () ()) hself hself' hs1 hs1'
    have hx : Same (k1.pairing k1') (signature, call.receiver) (signature', call.receiver) := inferInstance
    obtain ⟨k2, k2', hk2, _⟩ := step (n := n) (uniform_callParameters call.colon) hb k1 k1' hx
      hparams hparams' hs2 hs2'
    have j : Verdicts n passed (signature.comparedWith call.receiver) (signature'.comparedWith call.receiver) k2 k2'
        verdict verdict' s3 s3' := checkParameters_judged hb hcall hpassed
      ((hsig.upTo (k1.pairing k1')).upTo (k2.pairing k2')) (hsame.upTo _)
      (get (k2.pairing k2') params.zipIdx params'.zipIdx) (store_callParameters_comparedWith hparams)
      (store_callParameters_comparedWith hparams') ⟨k2, k2', .refl _, .inl rfl⟩ hverdict hverdict' hs3 hs3'
    exact ⟨⟨j.left, j.right, (hk1.trans hk2).trans j.after, j.verdict⟩,
      (get (k2.pairing k2') params.length params'.length).eq⟩
  by_cases hv : verdict.accepted = true
  · rw [show (!verdict.accepted && !false) = false by simp [hv], if_neg Bool.false_ne_true] at hr
    obtain ⟨rest, _, hrest, hr⟩ := bind_eq_some hr
    cases hr
    have hs3 := ((uniform_checkRest params.length).unhindered ⟨false, signature, call, passed⟩).keeps ctx _ _ _ hrest
      |>.clear hu
    obtain ⟨j, hlength⟩ := judged hs3
    rw [← hlength] at hrest'
    have := j.after
    exact j.and (checkRest_judged hb hpassed (hsig.upTo (j.left.pairing j.right)) variadic_comparedWith
      variadic_comparedWith hrest hrest' hu hu')
  · -- The first way ends with an error, and the second one looks at the rest without changing the verdict.
    rw [show (!verdict.accepted && !false) = true by simp [hv], if_pos rfl] at hr
    cases hr
    obtain ⟨j, -⟩ := judged hu
    have := j.after
    have hpass : Same (h.pairing h') passed passed := upTo hpassed _
    have hx : Same (j.left.pairing j.right) (Attempt.mk true signature call passed)
      (Attempt.mk true signature' call passed) := inferInstance
    have k' := goes_right (uniform_checkRest params'.length) hb j.left j.right hx hrest' hu'
    exact j.refused k' hkeeps.types (by simpa using hv) fun hand => (Bool.and_eq_true_iff.1 hand).1
end

end AnnotatedLua
