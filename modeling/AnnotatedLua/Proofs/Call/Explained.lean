/-
Calls that say what is wrong. A call may be accepted with warnings, but not with errors; and if no signature accepts it,
an error is reported for each one, if nothing stopped the call (`matchCall_explained`).
-/
import AnnotatedLua.Proofs.Check.Coherent

namespace AnnotatedLua

open Solve Solver List

variable {m : Matching} {v : Verdict} {S : Solver} {several : Bool} {refusals : List Refusal}

/-! ## Verdicts on calls -/

structure Verdict.Justified (k : Prop) (v : Verdict) : Prop where
  quiet : v.accepted = true → ∀ p ∈ v.problems, p.severity ≠ .error
  speaks : k → v.accepted = false → ∃ p ∈ v.problems, p.severity = .error

variable {k : Prop}

namespace Verdict.Justified

theorem accept : Verdict.accept.Justified k := ⟨fun _ => nofun, nofun⟩

theorem error {p : Problem} (h : p.severity = .error) : (Verdict.reject true p).Justified k :=
  ⟨nofun, fun _ _ => ⟨p, mem_singleton_self p, h⟩⟩

theorem and {w : Verdict} (hv : v.Justified k) (hw : w.Justified k) : (v.and w).Justified k := by
  constructor
  · intro ha p hp
    have ha : v.accepted = true ∧ w.accepted = true := by simpa [Verdict.and] using ha
    rcases mem_append.1 hp with hp | hp
    · exact hv.quiet ha.1 p hp
    · exact hw.quiet ha.2 p hp
  · intro hk ha
    have ha : v.accepted = false ∨ w.accepted = false := Bool.and_eq_false_iff.1 ha
    rcases ha with ha | ha
    · obtain ⟨p, hp, he⟩ := hv.speaks hk ha
      exact ⟨p, mem_append_left _ hp, he⟩
    · obtain ⟨p, hp, he⟩ := hw.speaks hk ha
      exact ⟨p, mem_append_right _ hp, he⟩

end Verdict.Justified

theorem Verdict.Explained.widen (h : v.Explained k) (f : Reason → Reason) : (v.widen f).Justified k := by
  constructor
  · intro ha p hp
    have hnil : v.problems = [] := h.quiet ha
    simp [Verdict.widen, hnil] at hp
  · intro hk ha
    have ha : v.accepted = false := ha
    have hne : v.problems ≠ [] := fun hnil => by simp [h.accepts hk hnil] at ha
    obtain ⟨p, hp⟩ := exists_mem_of_ne_nil _ hne
    exact ⟨p.widen f, mem_map_of_mem hp, h.errors p hp⟩

/-! ## One signature -/

section
variable (hS : S.Explains k) {a : Attempt} (hwanted : a.wanted = true)

include hS in
theorem checkArgument_justified (param : Ty) (value : Passed) (wider : Reason → Reason) :
    (S.checkArgument true param value wider).Gives (Verdict.Justified k) :=
  .bind (hS param value.type _ none value.arg.node) fun _ hv => .pure (hv.widen wider)

include hwanted

theorem missingArgument_justified (param : Parameter) (isSelf : Bool) :
    (missingArgument a param isSelf).Gives (Verdict.Justified k) := by
  refine .ite (fun h => ?_) fun _ => ?_
  · simp [hwanted] at h
  · cases isSelf with
    | true => exact .after fun reason => .pure (.error rfl)
    | false => exact .after fun _ => .after fun _ => .after fun _ => .pure (.error rfl)

include hS

theorem checkParameter_justified (selfSymbol : Symbol) (position : Nat) (param : Parameter) :
    (S.checkParameter a selfSymbol position param).Gives (Verdict.Justified k) := by
  unfold checkParameter
  rw [hwanted]
  cases a.passed.values[position]? with
  | some value => exact checkArgument_justified hS param.typeOrAny value _
  | none =>
    refine .ite (fun _ => .pure .accept) fun _ => .bind (missingArgument_justified (k := k) hwanted param _) fun _ hm => ?_
    cases a.passed.variadic with
    | none => exact .pure hm
    | some value => exact .bind (checkArgument_justified hS param.typeOrAny value _) fun v hv => .pure (hm.and hv)

theorem checkParameters_justified (selfSymbol : Symbol) (params : List (Parameter × Nat)) (before : Verdict)
    (h : before.Justified k) : (S.checkParameters a selfSymbol params before).Gives (Verdict.Justified k) := by
  induction params generalizing before with
  | nil => exact .pure h
  | cons param rest ih =>
    refine .bind (checkParameter_justified hS hwanted selfSymbol param.2 param.1) fun v hv => ?_
    exact .ite (fun _ => .pure (h.and hv)) fun _ => ih _ (h.and hv)

theorem checkVariadic_justified (variadic : Ty) (values : List Passed) :
    (S.checkVariadic a variadic values).Gives (Verdict.Justified k) := by
  unfold checkVariadic
  rw [hwanted]
  refine .foldlM .accept fun _ _ _ h => .after fun _ => ?_
  exact .bind (checkArgument_justified hS variadic _ id) fun v hv => .pure (h.and hv)

omit hS in
theorem checkExcess_justified (count : Nat) : (checkExcess a count).Justified k := by
  unfold checkExcess
  simp only [hwanted, if_true]
  split
  · rename_i hlt
    obtain ⟨_, harg⟩ := exists_mem_of_ne_nil (a.call.args.drop count) (by simp; omega)
    exact ⟨nofun, fun _ _ => ⟨_, mem_map_of_mem harg, rfl⟩⟩
  · split
    · refine ⟨fun _ p hp => ?_, nofun⟩
      obtain rfl := mem_singleton.1 hp
      nofun
    · exact .accept

theorem checkRest_justified (count : Nat) : (S.checkRest a count).Gives (Verdict.Justified k) := by
  refine .ite (fun _ => ?_) fun _ => ?_
  · cases a.signature.variadic with
    | some variadic => exact checkVariadic_justified hS hwanted variadic _
    | none => exact .pure (checkExcess_justified hwanted count)
  · rw [hwanted]
    cases a.signature.variadic with
    | none => exact .pure .accept
    | some variadic =>
      cases a.passed.variadic with
      | none => exact .pure .accept
      | some value => exact checkArgument_justified hS variadic value .inVariadicResult

theorem checkCandidate_justified : (S.checkCandidate a).Gives (Verdict.Justified k) := by
  refine .after fun selfSymbol => .after fun params => ?_
  refine .bind (checkParameters_justified hS hwanted selfSymbol params.zipIdx .accept .accept) fun v hv => ?_
  refine .ite (fun _ => .pure hv) fun _ => ?_
  exact .bind (checkRest_justified hS hwanted params.length) fun w hw => .pure (hv.and hw)

omit hwanted in
theorem trySignature_justified (hm : m.wanted = true) (signature : Signature) :
    (S.trySignature m signature).Gives fun trial => trial.verdict.Justified k := by
  refine .after fun _ => .after fun _ => ?_
  exact .bind (checkCandidate_justified hS hm) fun v hv => .pure hv
end

/-! ## The signatures in order -/

theorem trySignatures_quiet (hS : S.Explains k) (hm : m.wanted = true) (several : Bool)
    (signatures : List Signature) (refusals : List Refusal) (fallback : Option Ty) :
    (S.trySignatures m several signatures refusals fallback).Gives fun answer => ∀ found, answer.outcome = .ok (some found) →
      found.accepted.isSome → ∀ p ∈ answer.problems, p.severity ≠ .error := by
  induction signatures generalizing refusals fallback with
  | nil =>
    refine .after fun _ => .pure ?_
    rintro found ⟨⟩ ⟨⟩
  | cons signature rest ih =>
    refine .after fun canceled => .ite (fun _ => .pure nofun) fun _ => ?_
    refine .bind (trySignature_justified hS hm signature) fun _ htrial => ?_
    refine .after fun _ => .ite (fun _ => .pure nofun) fun _ => .ite (fun ha => ?_) fun _ => ?_
    · exact .after fun _ => .pure fun _ _ _ => htrial.quiet ha
    · exact .after fun _ => ih _ _

theorem refusalProblems_error (hne : refusals ≠ []) (h : ∀ r ∈ refusals, ∃ p ∈ r.problems, p.severity = .error) :
    (refusalProblems several refusals).Gives fun problems => ∃ p ∈ problems, p.severity = .error := by
  intro _ s _ u hr
  cases hr
  obtain ⟨r, hr⟩ := exists_mem_of_ne_nil refusals hne
  obtain ⟨p, hp, he⟩ := h r hr
  cases several with
  | true => exact ⟨_, mem_flatMap.2 ⟨r, hr, mem_map_of_mem hp⟩, he⟩
  | false => exact ⟨p, mem_flatMap.2 ⟨r, hr, hp⟩, he⟩

section
variable {n : Nat} {ctx : Context} {base s u : Session} (hb : base.Sound ctx) {found : CallMatch}
  {problems : List Problem}

theorem trySignature_speaks (hs : s.Sound ctx) (hm : m.wanted = true) {signature : Signature}
    (hx : hs.types.Stores (m, signature)) {trial : Trial}
    (hr : (ofBudget n).trySignature m signature ctx s = some (trial, u)) (hu : u.Clear ctx)
    (ha : trial.verdict.accepted = false) : ∃ p ∈ trial.verdict.problems, p.severity = .error := by
  -- all its checks say what is wrong, so the run is one of a solver whose checks do
  have hrun := regular_trySignature.trusts TypeTable.downward_true (explained_trusted ctx n) hs hx hr ⟨hu, trivial⟩
  exact (trySignature_justified (trusting_explains _) hm signature ctx s trial u hrun).speaks trivial ha

include hb

theorem trySignatures_speaks (hstored : hb.types.Stores m) (hm : m.wanted = true)
    {signatures : List Signature} {fallback : Option Ty} (h : s.Since ctx base)
    (hall : ∀ x ∈ signatures, hb.types.Stores x) (hrefusals : ∀ r ∈ refusals, ∃ p ∈ r.problems, p.severity = .error)
    (hne : signatures ≠ [] ∨ refusals ≠ [])
    (hr : (ofBudget n).trySignatures m several signatures refusals fallback ctx s =
      some (⟨.ok (some found), problems⟩, u)) (hu : u.guard.exceeded = false) (hnone : found.accepted = none) :
    ∃ p ∈ problems, p.severity = .error := by
  -- each refusal on the way adds one that has an error
  induction signatures generalizing s refusals fallback with
  | nil =>
    obtain ⟨_, s1, hshown, hr⟩ := bind_eq_some hr
    cases hr
    exact refusalProblems_error (hne.resolve_left (not_not_intro rfl)) hrefusals ctx s _ _ hshown
  | cons signature rest ih =>
    obtain ⟨trial, _, htrial, hs1, hr⟩ := trySignatures_cons hr hu
    rcases hr with ⟨-, -, _, -, he⟩ | ⟨ha, fallback', s2, hs2, hfall, hr⟩
    · cases he
      cases hnone
    · have := h.after_base hb h
      have : Same (h.pairing h) m m := Same.upTo hstored _
      have : Same (h.pairing h) signature signature := Same.upTo (hall signature mem_cons_self) _
      have hx : Same (h.pairing h) (m, signature) (m, signature) := inferInstance
      obtain ⟨p, hp, he⟩ := trySignature_speaks (h.sound hb) hm hx htrial hs1 ha
      obtain ⟨k, k', -, _⟩ := h.step uniform_trySignature hb h hx htrial htrial hs1 hs1
      have hinst : Same (k.pairing k) trial.instantiated trial.instantiated :=
        Same.get (k.pairing k') trial.instantiated trial.instantiated
      refine ih (fallbackAfter_since hb k hinst hfall hs2) (fun x hx => hall x (mem_cons_of_mem _ hx)) ?_
        (.inr (by simp)) hr
      intro r hr
      rcases mem_append.1 hr with hr | hr
      · exact hrefusals r hr
      · obtain rfl := mem_singleton.1 hr
        exact ⟨p, hp, he⟩
end

/-! ## Whole calls -/

/-- If problems are wanted, a call that has a match reports no error. One that has none reports some, unless a limit of
the guard was exceeded or the query was canceled. -/
theorem matchCall_explained {n : Nat} {ctx : Context} {s u : Session} {callable : Ty} {call : CallSite} {found : CallMatch}
    {problems : List Problem}
    (hr : (ofBudget n).matchCall true callable call ctx s = some (⟨.ok (some found), problems⟩, u)) :
    (found.accepted.isSome → ∀ p ∈ problems, p.severity ≠ .error) ∧
    (∀ hs : s.Sound ctx, hs.types.Stores callable → hs.types.Stores call → u.guard.exceeded = false →
      (ctx.cancellable && u.canceled) = false → found.accepted = none → ∃ p ∈ problems, p.severity = .error) := by
  constructor
  · obtain ⟨canceled, s₀, -, hr⟩ := bind_eq_some hr
    split at hr
    · cases hr
    obtain ⟨passed, s₁, -, hr⟩ := bind_eq_some hr
    obtain ⟨signatures, s₂, -, hr⟩ := bind_eq_some hr
    split at hr
    · cases hr
    · exact trySignatures_quiet (explains_ofBudget n) rfl _ _ _ _ ctx s₂ _ u hr found rfl
  · intro hs hcallable hcall hlimit hcanceled hnone
    obtain ⟨-, passed, s₁, signatures, s₂, hpassed, hsignatures, h⟩ := matchCall_cases hr hcanceled
    obtain ⟨hne, hc₂, o, ho, htry⟩ := h.resolve_left fun h => by cases h.2
    cases ho
    -- from where the candidates are tried on, the values and the signatures are stored
    have hs₂ : s₂.Clear ctx := ⟨(keeps_trySignatures _ ctx _ _ _ htry).unexceeded hlimit, hc₂⟩
    obtain ⟨k, hpassed'⟩ := hs.goes regular_passedValues hcall hpassed
    obtain ⟨l, hl⟩ := (k.sound hs).goes (regular_candidates _ _) (hcallable.later k.grown k.types) hsignatures
    have hb := l.sound (k.sound hs)
    have : Same hb.types.self call call :=
      (hcall.later k.grown k.types).later l.grown hb.types
    have : Same hb.types.self passed passed := hpassed'.later l.grown hb.types
    have hm : hb.types.Stores (Matching.mk true call passed) :=
      Same.get hb.types.self (Matching.mk true call passed) (Matching.mk true call passed)
    have hall : ∀ x ∈ signatures, hb.types.Stores x := fun x hx =>
      have := (TypeTable.sameSignatures_iff.1 hl).1 x hx
      TypeTable.sameSignature_iff.2 ⟨this, this, rfl⟩
    exact trySignatures_speaks hb hm rfl (hb.since hs₂) hall (by simp) (.inl hne) htry hlimit hnone

def stringCall : CallSite := { node := ⟨1⟩, args := [⟨⟨2⟩, Ty.string, false⟩], colon := false, receiver := none }

/-- A string is no list, and the call says so; but a `Row` is taken for one. -/
theorem matchCall_explained_string : rowsStart.Sound rows.context ∧
    (∃ found problems u,
      (ofBudget 20).matchCall true ⟨14⟩ stringCall rows.context rowsStart = some (⟨.ok (some found), problems⟩, u) ∧
      u.guard.exceeded = false ∧ (rows.context.cancellable && u.canceled) = false ∧ found.accepted = none ∧
      ∃ p ∈ problems, p.severity = .error) ∧
    ∃ found problems u,
      (ofBudget 20).matchCall true ⟨14⟩ rowCall rows.context rowsStart = some (⟨.ok (some found), problems⟩, u) ∧
      found.accepted.isSome ∧ ∀ p ∈ problems, p.severity ≠ .error := by
  have hf : Same rowTypes_wf.self (⟨14⟩ : Ty) ⟨14⟩ :=
    TypeTable.sameType_iff.2 ⟨by decide, by decide, rfl⟩
  have hcall : Same rowTypes_wf.self stringCall stringCall :=
    inferInstanceAs (Same _ (CallSite.mk ..) (CallSite.mk ..))
  have hstring : ((ofBudget 20).matchCall true ⟨14⟩ stringCall rows.context rowsStart).map (fun r =>
      (r.1.outcome.toOption.map (·.map (·.accepted.isSome)), r.2.guard.exceeded, rows.context.cancellable && r.2.canceled)) =
        some (some (some false), false, false) := by decide +kernel
  have hrow : ((ofBudget 20).matchCall true ⟨14⟩ rowCall rows.context rowsStart).map (fun r =>
      r.1.outcome.toOption.map (·.map (·.accepted.isSome))) = some (some (some true)) := by decide +kernel
  refine ⟨rowsStart_sound, ?_, ?_⟩
  · obtain ⟨⟨⟨outcome, problems⟩, u⟩, hr, he⟩ := Option.map_eq_some_iff.1 hstring
    simp only [Prod.mk.injEq] at he
    obtain ⟨ho, hlimit, hcanceled⟩ := he
    rcases outcome with _ | _ | found
    · cases ho
    · cases ho
    · have hnone : found.accepted = none := by simpa [Except.toOption] using ho
      obtain ⟨-, hspeaks⟩ := matchCall_explained hr
      exact ⟨found, problems, u, hr, hlimit, hcanceled, hnone, hspeaks rowsStart_sound hf hcall hlimit hcanceled hnone⟩
  · obtain ⟨⟨⟨outcome, problems⟩, u⟩, hr, ho⟩ := Option.map_eq_some_iff.1 hrow
    rcases outcome with _ | _ | found
    · cases ho
    · cases ho
    · have hsome : found.accepted.isSome := by simpa [Except.toOption] using ho
      exact ⟨found, problems, u, hr, hsome, (matchCall_explained hr).1 hsome⟩

/-- The function of `Y<Y, X:self, Y>` is called with a list of strings. -/
def tangledCall : CallSite := { node := ⟨1⟩, args := [⟨⟨7⟩, ⟨19⟩, false⟩], colon := false, receiver := none }

/-- If the type of the parameter cannot be resolved within the limits, the call has no match and reports nothing. -/
theorem matchCall_unexplained : ∃ found u,
    (ofBudget 20).matchCall true ⟨20⟩ tangledCall tangled.context tangledStart = some (⟨.ok (some found), []⟩, u) ∧
    found.accepted = none ∧ u.guard.exceeded = true := by
  have hrun : ((ofBudget 20).matchCall true ⟨20⟩ tangledCall tangled.context tangledStart).map (fun r =>
      (r.1.outcome.toOption.map (·.map (·.accepted)), r.1.problems, r.2.guard.exceeded)) =
        some (some (some none), [], true) := by decide +kernel
  obtain ⟨⟨⟨outcome, problems⟩, u⟩, hr, he⟩ := Option.map_eq_some_iff.1 hrun
  simp only [Prod.mk.injEq] at he
  obtain ⟨ho, rfl, hlimit⟩ := he
  match outcome, ho with
  | .ok (some found), ho =>
    have hnone : found.accepted = none := by simpa [Except.toOption] using ho
    exact ⟨found, u, hr, hnone, hlimit⟩

end AnnotatedLua
