/-
Checks with and without problems. Up to the first failure the two are the same, step by step (`Muted`). So they come to
the same verdict, and problems are found just if the value is not accepted (`check_coherent`), if nothing stopped the
check and unions are canonical.
-/
import AnnotatedLua.Proofs.Check.Explained

namespace AnnotatedLua

open Solve Solver TypeTable

/-! ## Two ways of checking -/

abbrev Muted : Solve Verdict → Solve Verdict → Prop :=
  Solve.Cut (fun v w => v = .accept ∧ w = .accept) (Verdict.Refuses True) (· = .rejectSilently)

theorem Muted.explained {m m' : Solve Verdict} (h : Muted m m') : m.Gives (Verdict.Explained True) := by
  intro ctx s v u hr
  obtain ⟨w, _, -, ⟨⟨rfl, -⟩, -⟩ | ⟨hv, -⟩⟩ := h ctx s v u hr
  · exact .accept
  · exact hv.toExplained

theorem Muted.reject {problem : Solve Problem} (h : problem.Gives (·.severity = .error)) :
    Muted (do return .reject true (← problem)) (do return .reject false (← problem)) :=
  .knowing h fun _ hp => .stop (.reject hp) rfl

def Solver.Coherent (S : Solver) : Prop :=
  ∀ target source mode targetNode sourceNode, Muted (S.check true target source mode targetNode sourceNode)
    (S.check false target source mode targetNode sourceNode)

theorem Solver.Coherent.explains {S : Solver} (h : S.Coherent) : S.Explains True :=
  fun target source mode targetNode sourceNode => (h target source mode targetNode sourceNode).explained

abbrev Solver.Inspection.quiet (i : Inspection) : Inspection := { i with wanted := false }

section
variable {S : Solver} (hS : S.Coherent) (i : Inspection)

/-! ## Arrays -/

section
include hS

theorem checkEach_muted (target : Ty) (anchor : Node) (values : List Ty) :
    Muted (S.checkEach i.loud target anchor values .accept) (S.checkEach i.quiet target anchor values .accept) := by
  induction values with
  | nil => exact .pure ⟨rfl, rfl⟩
  | cons value rest ih =>
    refine .bind (hS target value i.mode i.targetNode anchor) ?_ ?_ ?_
    · rintro _ _ ⟨rfl, rfl⟩
      exact ih
    · -- the rest is only looked at for more problems
      intro part hp
      have hand : (Verdict.accept.and part).Refuses True := ⟨.and .accept hp.toExplained, hp.refused⟩
      exact .ite (fun _ => checkEach_gives hS.explains i .and target anchor rest _ hand) fun _ => .pure hand
    · rintro _ rfl
      exact ⟨.rejectSilently, rfl, rfl⟩

theorem visitElement_shadows (inline : Bool) (shown : String) (element source : Ty) :
    Shadows (fun (a b : ArraySearch × Verdict) => b = a ∧ a.2 = .accept) (fun a => a.2.Refuses True)
      (fun b => b.2 = .rejectSilently) (S.visitElement i.loud inline shown element source)
      (S.visitElement i.quiet inline shown element source) where
  step := by
    rintro ⟨found, _⟩ _ member ⟨rfl, rfl⟩
    refine .after fun key => ?_
    cases key with
    | inr => exact .stop ⟨.and .accept (.reject rfl), rfl⟩ ⟨rfl, rfl⟩
    | inl =>
      refine .after fun type => .after fun values => ?_
      refine .bind (checkEach_muted hS i element _ values) ?_ ?_ ?_
      · rintro _ _ ⟨rfl, rfl⟩
        exact .pure ⟨⟨rfl, rfl⟩, rfl⟩
      · intro part hp
        exact .pure ⟨.and .accept hp.toExplained, hp.refused⟩
      · rintro _ rfl
        exact ⟨_, rfl, rfl, rfl⟩
  bad := by
    rintro ⟨_, _⟩ member h
    refine .after fun key => ?_
    cases key with
    | inr => exact .pure (h.and (.reject rfl))
    | inl =>
      refine .after fun _ => .after fun values => ?_
      exact .bind (checkEach_muted hS i element _ values).explained fun _ hp => .pure (h.and hp)

theorem checkArrayShape_muted (target element source : Ty) :
    Muted (S.checkArrayShape i.loud target element source) (S.checkArrayShape i.quiet target element source) := by
  refine .after fun inline => .after fun required => ?_
  refine .bind (visitMembers_cut (visitElement_shadows hS i inline required element source) S true source ({}, .accept)
    ({}, .accept) ⟨rfl, rfl⟩) ?_ ?_ ?_
  · rintro ⟨⟨found, _⟩, go⟩ ⟨_, go'⟩ ⟨⟨rfl, rfl⟩, -⟩
    exact .ite (fun _ => .after fun _ => .stop (.reject rfl) rfl) fun _ => .pure ⟨rfl, rfl⟩
  · rintro ⟨⟨found, verdict⟩, go⟩ h
    refine .ite (fun ha => ?_) fun _ => .pure h
    have hrefused : verdict.accepted = false := h.refused
    simp [hrefused] at ha
  · rintro ⟨⟨_, _⟩, _⟩ ⟨rfl, -⟩
    exact ⟨_, rfl, rfl⟩
end

/-! ## Plans -/

variable (source : Ty)

theorem tryCandidates_quiet (targets : List Ty) (tried : List Candidate) :
    S.tryCandidates i.quiet source targets tried = S.tryCandidates i.loud source targets tried := by
  induction targets generalizing tried with
  | nil => rfl
  | cons target rest ih =>
    unfold Solver.tryCandidates
    simp only [ih]

include hS

theorem checkAmong_muted {targets : List Ty} (hne : targets ≠ []) :
    Muted (S.checkAmong i.loud source targets) (S.checkAmong i.quiet source targets) := by
  unfold Solver.checkAmong
  rw [tryCandidates_quiet]
  refine .knowing (tryCandidates_speaks hS.explains i source targets [] (by simp) List.nodup_nil fun _ => .inl hne) fun r hr => ?_
  cases r with
  | none => exact .pure ⟨rfl, rfl⟩
  | some tried =>
    obtain ⟨htried, hspeaks, hnodup⟩ := hr tried rfl
    exact .knowing (rankedProblems_refuse i htried hspeaks hnodup) fun _ h => .stop h rfl

theorem follow_muted {p : Plan} (hamong : p ≠ .among []) (hmembers : ∀ ty, p ≠ .members ty) :
    Muted (S.follow i.loud source p) (S.follow i.quiet source p) := by
  cases p with
  | accepted => exact .pure ⟨rfl, rfl⟩
  | elements target element => exact checkArrayShape_muted hS i target element source
  | members target => exact absurd rfl (hmembers target)
  | plain target =>
    exact .after fun _ => .ite (fun _ => .pure ⟨rfl, rfl⟩) fun _ =>
      Muted.reject (mismatch_error i.targetNode i.sourceNode target source)
  | mismatch target => exact Muted.reject (mismatch_error i.targetNode i.sourceNode target source)
  | among => exact checkAmong_muted hS i source fun hnil => hamong (by rw [hnil])
end

/-! ## All checks -/

def Solver.CoherentAt (S : Solver) (target source : Ty) (mode : Mode) (targetNode : Option Node) (sourceNode : Node)
    (ctx : Context) (s : Session) : Prop :=
  ∀ v u, S.check true target source mode targetNode sourceNode ctx s = some (v, u) →
    ∃ w u', S.check false target source mode targetNode sourceNode ctx s = some (w, u') ∧
      ((v = .accept ∧ w = .accept) ∧ u' = u ∨ v.Refuses True ∧ w = .rejectSilently)

theorem trusting_coherent (S : Solver) : (S.trusting S.CoherentAt).Coherent := by
  intro _ _ _ _ _ _ s v u hr
  obtain ⟨hT, hr⟩ := trusting_check hr
  exact hT v u hr

theorem coherent_trusted (ctx : Context) (n : Nat) :
    (ofBudget n).Trusts ctx TypeTable.Canonical (ofBudget n).CoherentAt := by
  induction n with
  | zero =>
    intro s hs target source mode targetNode sourceNode v u hstored hr
    cases hr
  | succ n ih =>
    intro s hs target source mode targetNode sourceNode v u hstored hr hu _ u' hr'
    cases hr.symm.trans hr'
    have hr : Rule.check (ofBudget n) true target source mode targetNode sourceNode ctx s = some (v, u) := hr
    have htarget : s.types.Has target := (sameType_iff.1 hstored.out.1).1
    have hsource : s.types.Has source := (sameType_iff.1 hstored.out.2).1
    -- below, checks are known to come to the same verdict
    obtain ⟨p, x, hplan, hkept, hamong, hplan', hfollow⟩ := check_follows canonical_downward ih hs hstored hr hu
    have hw : u.types.WF := (hs.goes (regular_ruleCheck true mode targetNode sourceNode) hstored hr).1.types
    have hx : x.types.WF := (hs.goes (regular_plan mode sourceNode) hstored hplan).1.types
    have hfine := hkept.fine canonical_downward hx hw hu
    have hmembers : ∀ ty, p ≠ .members ty := by
      rintro ty rfl
      exact plan_members hs htarget hsource hfine.toClear hfine.known hplan
    have hmuted := follow_muted (trusting_coherent (ofBudget n)) ⟨true, mode, targetNode, sourceNode⟩ source hamong hmembers
    obtain ⟨w, u', hquiet, hcase⟩ := hmuted ctx x v u hfollow
    refine ⟨w, u', ?_, hcase⟩
    have hquiet : Rule.check ((ofBudget n).trusting (ofBudget n).CoherentAt) false target source mode targetNode sourceNode
        ctx s = some (w, u') := by
      rw [check_eq, run_bind hplan']
      exact hquiet
    exact Below.of_agree (belowLogic.ruleCheck trusting_respects trivial) ctx s _ hquiet

theorem regular_check (wanted : Bool) (mode : Mode) (targetNode : Option Node) (sourceNode : Node) :
    Regular fun (S : Solver) (x : Ty × Ty) => S.check wanted x.1 x.2 mode targetNode sourceNode :=
  fun L _ _ hS _ _ _ _ => hS.check L.parents

/-- A check for problems finds only errors, and none if it accepts the value. If nothing stopped the check, it finds
some if it does not. If unions are canonical, too, the check without problems ends and comes to the same verdict. -/
theorem check_coherent {ctx : Context} {s u : Session} {target source : Ty} {n : Nat} {mode : Mode}
    {targetNode : Option Node} {sourceNode : Node} {v : Verdict}
    (hr : (ofBudget n).check true target source mode targetNode sourceNode ctx s = some (v, u)) :
    (v.accepted = true → v.problems = []) ∧ (∀ p ∈ v.problems, p.severity = .error) ∧
    (s.Sound ctx → s.types.Has target → s.types.Has source → u.guard.exceeded = false →
      (ctx.cancellable && u.canceled) = false →
      (v.problems = [] → v.accepted = true) ∧
      (s.types.Canonical → ∃ w u', (ofBudget n).check false target source mode targetNode sourceNode ctx s = some (w, u') ∧
        w.accepted = v.accepted ∧ w.problems = [])) := by
  have hquiet := explains_ofBudget n target source mode targetNode sourceNode ctx s v u hr
  refine ⟨hquiet.quiet, hquiet.errors, fun hs htarget hsource hlimit hcanceled => ?_⟩
  have hstored := hs.stores_pair htarget hsource
  have hclear : u.Clear ctx := ⟨hlimit, hcanceled⟩
  have hv : v.Explained True := explained_trusted ctx n s hs target source mode targetNode sourceNode v u hstored hr
    ⟨hclear, trivial⟩ v u hr
  refine ⟨hv.accepts trivial, fun hc => ?_⟩
  have hgrows := (Session.Past.refl hs).grows (regular_check true mode targetNode sourceNode) hs hstored hr
  obtain ⟨w, u', hmute, ⟨⟨rfl, rfl⟩, -⟩ | ⟨hv, rfl⟩⟩ := coherent_trusted ctx n s hs target source mode targetNode sourceNode
    v u hstored hr ⟨hclear, hgrows.canonical hc⟩ v u hr
  · exact ⟨_, u', hmute, rfl, rfl⟩
  · exact ⟨_, u', hmute, hv.refused.symm, rfl⟩

example : ((ofBudget 5).check true Ty.string Ty.number {} none ⟨1⟩ undeclared (.start .initial .standard)).map
    (fun r => (r.1.accepted, r.1.problems.length)) = some (false, 1) := by
  decide +kernel

/-- A list is no `Row`, and a check for problems says so. -/
theorem check_coherent_row : rowsStart.Sound rows.context ∧ rowsStart.types.Canonical ∧ ∃ v u w u',
    (ofBudget 20).check true ⟨10⟩ ⟨13⟩ {} none ⟨2⟩ rows.context rowsStart = some (v, u) ∧
    (u.guard.exceeded = false ∧ (rows.context.cancellable && u.canceled) = false) ∧
    v.accepted = false ∧ v.problems ≠ [] ∧
    (ofBudget 20).check false ⟨10⟩ ⟨13⟩ {} none ⟨2⟩ rows.context rowsStart = some (w, u') ∧
    w.accepted = false ∧ w.problems = [] := by
  have hcanonical : rowsStart.types.Canonical := by decide +kernel
  have hrun : ((ofBudget 20).check true ⟨10⟩ ⟨13⟩ {} none ⟨2⟩ rows.context rowsStart).map (fun r =>
      (r.1.accepted, r.2.guard.exceeded, rows.context.cancellable && r.2.canceled)) = some (false, false, false) := by
    decide +kernel
  obtain ⟨⟨v, u⟩, hr, he⟩ := Option.map_eq_some_iff.1 hrun
  simp only [Prod.mk.injEq] at he
  obtain ⟨haccepted, hlimit, hcanceled⟩ := he
  have hrow : rowsStart.types.Has ⟨10⟩ := by decide +kernel
  have hlist : rowsStart.types.Has ⟨13⟩ := by decide +kernel
  obtain ⟨-, -, hfull⟩ := check_coherent hr
  obtain ⟨hproblems, hquiet⟩ := hfull rowsStart_sound hrow hlist hlimit hcanceled
  obtain ⟨w, u', hr', hsame, hnone⟩ := hquiet hcanonical
  refine ⟨rowsStart_sound, hcanonical, v, u, w, u', hr, ⟨hlimit, hcanceled⟩, haccepted, fun hnil => ?_, hr', ?_, hnone⟩
  · rw [hproblems hnil] at haccepted
    cases haccepted
  · rw [hsame, haccepted]

/-! ## Verdicts that differ -/

/-- A shape `A`, `⟨10⟩`, lists of strings, `⟨11⟩`, the union `⟨15⟩` of a union `A | Y` and of `X`, and the table
constructors `L`, `⟨16⟩`, and `S`, `⟨17⟩`. -/
def doubledTypes : TypeTable :=
  .ofForms ["A", "X", "Y", "L", "S", "f", "x"] [.classRef ⟨3⟩ { structural := true, unresolved := true },
    .array Ty.string, .classRef ⟨5⟩ {}, .union [⟨10⟩, ⟨12⟩], .classRef ⟨4⟩ {}, .union [⟨13⟩, ⟨14⟩],
    .classRef ⟨6⟩ { literalTable := true, structural := true },
    .classRef ⟨7⟩ { literalTable := true, structural := true }]

def fieldDecl (name : Symbol) (marks : Marks) (superClass : Option Ty) (field : Member) (tableNode : Option Node) :
    ClassDecl :=
  { name, marks, superClass, members := [field], tableNode }

/-- `A` has a list of strings under `f`, but also stands for the union. `L` is a list of strings with a string under `x`,
and `S` has `L` under `f`. -/
def doubled : Declarations :=
  Declarations.empty.addClass (fieldDecl ⟨3⟩ Marks.shape none ⟨.field ⟨8⟩, some ⟨11⟩, true, none⟩ none)
    |>.addClass (fieldDecl ⟨6⟩ { literalTable := true, structural := true } (some ⟨11⟩)
      ⟨.field ⟨9⟩, some Ty.string, true, none⟩ (some ⟨8⟩))
    |>.addClass (fieldDecl ⟨7⟩ { literalTable := true, structural := true } none
      ⟨.field ⟨8⟩, some ⟨16⟩, true, some ⟨8⟩⟩ (some ⟨7⟩))
    |>.addAlias ⟨3⟩ ⟨15⟩

def doubledStart : Session := .start doubledTypes Limits.standard

/-- An alias `Y<A, B, C> = A | B | C | X:self`, `⟨15⟩`, the names `Y`, `⟨16⟩`, and `X:self`, `⟨17⟩`, the type
`Y<Y, X:self, Y>`, `⟨18⟩`, lists of strings, `⟨19⟩`, and a function of `⟨18⟩`, `⟨20⟩`. -/
def tangledTypes : TypeTable :=
  .ofForms ["X:self", "Y", "A", "B", "C", "p"]
    [.classRef ⟨3⟩ { anonymous := true, structural := true, unresolved := true }, .param ⟨5⟩ ⟨5⟩ none,
    .param ⟨6⟩ ⟨6⟩ none, .param ⟨7⟩ ⟨7⟩ none, .union [⟨11⟩, ⟨12⟩, ⟨13⟩, ⟨10⟩], .aliasRef ⟨4⟩ [⟨11⟩, ⟨12⟩, ⟨13⟩] ⟨14⟩,
    .classRef ⟨4⟩ {}, .classRef ⟨3⟩ {}, .generic ⟨15⟩ [⟨16⟩, ⟨17⟩, ⟨15⟩], .array Ty.string,
    .function ⟨false, [], [⟨⟨8⟩, some ⟨18⟩, false⟩], none, some Ty.nil⟩ [] {}]

/-- Both names stand for `Y<Y, X:self, Y>`. -/
def tangled : Declarations := (Declarations.empty.addAlias ⟨3⟩ ⟨18⟩).addAlias ⟨4⟩ ⟨18⟩

def tangledStart : Session := .start tangledTypes { depth := 1, iterations := 80 }

/-- Where a union is a member of another, only the check for problems looks into the table constructor `L`, and it alone
refuses `S`. Where a limit is exceeded, nothing may be left to compare a list with, so that it is refused and nothing is
said against it. -/
theorem check_incoherent :
    (∃ v u w u', (ofBudget 20).check true ⟨10⟩ ⟨17⟩ {} none ⟨7⟩ doubled.context doubledStart = some (v, u) ∧
      (ofBudget 20).check false ⟨10⟩ ⟨17⟩ {} none ⟨7⟩ doubled.context doubledStart = some (w, u') ∧
      u.guard.exceeded = false ∧ v.accepted = false ∧ w.accepted = true) ∧
    tangledTypes.Canonical ∧ ∃ v u, (ofBudget 20).check true ⟨18⟩ ⟨19⟩ {} none ⟨7⟩ tangled.context tangledStart = some (v, u) ∧
      v.accepted = false ∧ v.problems = [] := by
  have hloud : ((ofBudget 20).check true ⟨10⟩ ⟨17⟩ {} none ⟨7⟩ doubled.context doubledStart).map (fun r =>
      (r.2.guard.exceeded, r.1.accepted)) = some (false, false) := by decide +kernel
  have hmute : ((ofBudget 20).check false ⟨10⟩ ⟨17⟩ {} none ⟨7⟩ doubled.context doubledStart).map (fun r =>
      r.1.accepted) = some true := by decide +kernel
  have hcut : ((ofBudget 20).check true ⟨18⟩ ⟨19⟩ {} none ⟨7⟩ tangled.context tangledStart).map (fun r =>
      (r.1.accepted, r.1.problems)) = some (false, []) := by decide +kernel
  obtain ⟨⟨v, u⟩, hr, hv⟩ := Option.map_eq_some_iff.1 hloud
  obtain ⟨⟨w, u'⟩, hr', hw⟩ := Option.map_eq_some_iff.1 hmute
  obtain ⟨⟨x, y⟩, hx, hxy⟩ := Option.map_eq_some_iff.1 hcut
  obtain ⟨hlimit, hrefused⟩ := Prod.mk.inj hv
  obtain ⟨hrefused', hnone⟩ := Prod.mk.inj hxy
  constructor
  · exact ⟨v, u, w, u', hr, hr', hlimit, hrefused, hw⟩
  · exact ⟨by decide +kernel, x, y, hx, hrefused', hnone⟩

end AnnotatedLua
