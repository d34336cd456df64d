/-
Checks that say what is wrong, if the checks they lead to do (`Solver.Explains`). Nothing is said against a value that
is accepted (`explains_ofBudget`). Something is said against any other one if nothing stopped the check
(`explained_trusted`): the checks below may be left to a solver that answers only those of which something is known
(`Regular.trusts`).
-/
import AnnotatedLua.Proofs.Check.Cut
import AnnotatedLua.Proofs.Check.Deepest
import AnnotatedLua.Proofs.Check.Plan

namespace AnnotatedLua

open Solve Solver List

/-! ## Solvers that trust their checks -/

open Classical in
noncomputable def Solver.trusting (S : Solver) (T : Ty → Ty → Mode → Option Node → Node → Context → Session → Prop) : Solver where
  budget := S.budget
  ask q := match q with
    | .check true target source mode targetNode sourceNode => fun ctx s =>
      if T target source mode targetNode sourceNode ctx s then S.check true target source mode targetNode sourceNode ctx s
      else none
    | q => S.ask q

section
variable {ctx : Context} {I : TypeTable → Prop} {T : Ty → Ty → Mode → Option Node → Node → Context → Session → Prop} {n : Nat}

def Solver.Trusts (S : Solver) (ctx : Context) (I : TypeTable → Prop)
    (T : Ty → Ty → Mode → Option Node → Node → Context → Session → Prop) : Prop :=
  ∀ (s : Session) (hs : s.Sound ctx) (target source : Ty) mode targetNode sourceNode v u,
    hs.types.Stores (target, source) → S.check true target source mode targetNode sourceNode ctx s = some (v, u) →
      u.Fine ctx I → T target source mode targetNode sourceNode ctx s

theorem Solver.Trusts.respects (hI : TypeTable.Downward I) (hT : (ofBudget n).Trusts ctx I T) {base : Session}
    (hb : base.Sound ctx) : (ofBudget n).Respects ((ofBudget n).trusting T) (Alone.logic hI hb) := by
  have hS := (Alone.logic hI hb).respects_ofBudget n
  exact { hS with
    check hl p wanted target target' source source' ht hs mode targetNode sourceNode := by
      have hcheck : (Alone.logic hI hb).Agree p ((ofBudget n).check wanted target source mode targetNode sourceNode)
          ((ofBudget n).check wanted target' source' mode targetNode sourceNode) := hS.check hl
      cases wanted with
      | false => exact hcheck
      | true =>
        refine ⟨hcheck.keeps, fun s h _ v u hr => ⟨(hcheck.leads s h v u hr).1, fun hu => ?_⟩⟩
        obtain rfl : target = target' := Alone.eq_of_same h
        obtain rfl : source = source' := Alone.eq_of_same h
        refine Eq.trans (if_pos ?_) hr
        have : Same h.pairing target target := ht.upTo h.pairing
        have : Same h.pairing source source := hs.upTo h.pairing
        exact hT s (h.left.sound hb h.guard h.expanding) target source mode targetNode sourceNode v u
          (Same.get h.pairing (target, source) (target, source)) hr hu
  }

theorem Regular.trusts {ξ α : Type} [Value ξ] [Value α] {m : Solver → ξ → Solve α} (hm : Regular m)
    (hI : TypeTable.Downward I) (hT : (ofBudget n).Trusts ctx I T) {s u : Session} (hs : s.Sound ctx) {x : ξ}
    (hx : hs.types.Stores x) {a : α} (hr : m (ofBudget n) x ctx s = some (a, u)) (hu : u.Fine ctx I) :
    m ((ofBudget n).trusting T) x ctx s = some (a, u) := by
  have htwins := (Session.Past.refl hs).twins hs
  have : Same htwins.pairing x x := hx
  have hself := Pairing.After.refl htwins.pairing
  exact ((hm ⟨Alone.logic hI hs, trivial⟩ _ _ (hT.respects hI hs) htwins.pairing x x).leads s htwins a u hr).2 hu

open Classical in
theorem Solver.trusting_check {S : Solver} {target source : Ty} {mode : Mode} {targetNode : Option Node} {sourceNode : Node}
    {ctx : Context} {s : Session} {r : Verdict × Session}
    (hr : (S.trusting T).check true target source mode targetNode sourceNode ctx s = some r) :
    T target source mode targetNode sourceNode ctx s ∧ S.check true target source mode targetNode sourceNode ctx s = some r := by
  have hr : (if T target source mode targetNode sourceNode ctx s then
      S.check true target source mode targetNode sourceNode ctx s else none) = some r := hr
  split at hr
  · exact ⟨‹_›, hr⟩
  · cases hr

theorem Solver.trusting_respects : ((ofBudget n).trusting T).Respects (ofBudget n) belowLogic := by
  have hS := belowLogic.respects_ofBudget n
  exact { hS with
    check hl p wanted target target' source source' ht hs mode targetNode sourceNode := by
      cases wanted with
      | false => exact hS.check hl
      | true =>
        intro hp
        obtain rfl : target = target' := ht.eq_of_after hp
        obtain rfl : source = source' := hs.eq_of_after hp
        exact fun ctx s r hr => (trusting_check hr).2
  }
end

/-! ## Verdicts -/

structure Verdict.Explained (k : Prop) (v : Verdict) : Prop where
  quiet : v.accepted = true → v.problems = []
  errors : ∀ p ∈ v.problems, p.severity = .error
  accepts : k → v.problems = [] → v.accepted = true

variable {k : Prop}

namespace Verdict.Explained

theorem accept : Verdict.accept.Explained k := ⟨fun _ => rfl, nofun, fun _ _ => rfl⟩

theorem reject {p : Problem} (h : p.severity = .error) : (Verdict.reject true p).Explained k := by
  refine ⟨nofun, ?_, nofun⟩
  simpa [Verdict.reject] using h

theorem and {v w : Verdict} (hv : v.Explained k) (hw : w.Explained k) : (v.and w).Explained k := by
  constructor
  · intro ha
    have ha : v.accepted = true ∧ w.accepted = true := by simpa [Verdict.and] using ha
    simp [Verdict.and, hv.quiet ha.1, hw.quiet ha.2]
  · intro p hp
    rcases mem_append.1 hp with hp | hp
    · exact hv.errors p hp
    · exact hw.errors p hp
  · intro hk hnil
    obtain ⟨hv', hw'⟩ := append_eq_nil_iff.1 hnil
    simp [Verdict.and, hv.accepts hk hv', hw.accepts hk hw']

end Verdict.Explained

structure Verdict.Refuses (k : Prop) (v : Verdict) : Prop extends v.Explained k where
  refused : v.accepted = false

theorem Verdict.Refuses.reject {p : Problem} (h : p.severity = .error) : (Verdict.reject true p).Refuses k :=
  ⟨.reject h, rfl⟩

theorem Verdict.Refuses.and {v w : Verdict} (hv : v.Refuses k) (hw : w.Explained k) : (v.and w).Refuses k := by
  refine ⟨hv.toExplained.and hw, ?_⟩
  show (v.accepted && w.accepted) = false
  rw [hv.refused, Bool.false_and]

/-! ## Members -/

theorem mismatch_error (targetNode : Option Node) (sourceNode : Node) (target source : Ty) :
    (mismatch targetNode sourceNode target source).Gives (·.severity = .error) :=
  .after fun _ => .after fun _ => .pure rfl

def Solver.Explains (S : Solver) (k : Prop) : Prop :=
  ∀ target source mode targetNode sourceNode, (S.check true target source mode targetNode sourceNode).Gives (Verdict.Explained k)

variable {S : Solver} (hS : S.Explains k)

theorem mismatchUnless_explained (accepted : Bool) (targetNode : Option Node) (node : Node) (target source : Ty) :
    (mismatchUnless true accepted targetNode (some node) target source).Gives (Verdict.Explained k) :=
  .ite (fun _ => .pure .accept) fun _ => .bind (mismatch_error targetNode node target source) fun _ hp => .pure (.reject hp)

section
include hS

theorem memberAccepts_explained (target source : Ty) (mode : Mode) (targetNode : Option Node) (node : Node) :
    (S.memberAccepts true target source mode targetNode (some node)).Gives (Verdict.Explained k) := by
  refine .after fun inline => ?_
  cases inline with
  | some tableNode => exact hS target source mode targetNode tableNode
  | none => exact .after fun accepted => mismatchUnless_explained accepted targetNode node target source

variable {c : Comparison} (hwanted : c.wanted = true) {node : Node} (hnode : c.sourceNode = some node)
include hwanted

omit hS in
theorem missingVerdict_explained (member : Member) (targetType : Ty) :
    (missingVerdict c member targetType).Gives (Verdict.Explained k) := by
  refine .after fun _ => .ite (fun _ => .pure .accept) fun _ => .ite (fun h => ?_) fun _ => ?_
  · simp [hwanted] at h
  · exact .after fun _ => .after fun _ => .pure (.reject rfl)

include hnode

theorem presentVerdict_explained (targetType : Ty) (sourceMember : Member) :
    (S.presentVerdict c targetType sourceMember).Gives (Verdict.Explained k) := by
  refine .after fun sourceType => .ite (fun _ => .pure .accept) fun _ => ?_
  rw [hwanted, hnode]
  exact memberAccepts_explained hS targetType sourceType c.mode c.targetNode _

theorem visitTargetMember_explained (before : Verdict) (member : Member) (h : before.Explained k) :
    (S.visitTargetMember c before member).Gives fun r => r.1.Explained k := by
  refine .ite (fun _ => .pure h) fun _ => .after fun targetType => .after fun found => ?_
  cases found with
  | none => exact (missingVerdict_explained hwanted member targetType).bind fun v hv => .pure (h.and hv)
  | some sourceMember =>
    exact (presentVerdict_explained hS hwanted hnode targetType sourceMember).bind fun v hv => .pure (h.and hv)

theorem indexVerdict_explained (index : Ty) (at' : Option Node) :
    (S.indexVerdict c index at').Gives (Verdict.Explained k) := by
  refine .after fun found => ?_
  cases found with
  | none => exact .pure .accept
  | some targetMember =>
    rw [hwanted, hnode]
    have compared (same : Bool) : Gives (if (same || targetMember.type.isNone) = true then pure Verdict.accept else do
        let targetType ← S.memberType c.target targetMember
        let sourceType := (← S.indexedType c.source index true).getD Ty.any
        if !c.mode.strictAny && sourceType.isAny then return .accept
        let anchor := Option.map at'.getD (some node)
        if c.mode.widenTables then S.memberAccepts true targetType sourceType c.mode c.targetNode anchor
        else mismatchUnless true (← S.equal targetType sourceType) c.targetNode anchor targetType sourceType)
          (Verdict.Explained k) := by
      refine .ite (fun _ => .pure .accept) fun _ => .after fun targetType => .after fun _ => ?_
      refine .ite (fun _ => .pure .accept) fun _ => .ite (fun _ => ?_) fun _ => .after fun accepted => ?_
      · exact memberAccepts_explained hS targetType _ c.mode c.targetNode _
      · exact mismatchUnless_explained accepted c.targetNode _ targetType _
    dsimp only
    cases targetMember.index? with
    | none => exact .after compared
    | some => exact .ite (fun _ => .after compared) fun _ => .after compared

theorem indexVerdicts_explained (indexes : List (Ty × Option Node)) (before : Verdict) (h : before.Explained k) :
    (S.indexVerdicts c indexes before).Gives (Verdict.Explained k) := by
  induction indexes generalizing before with
  | nil => exact .pure h
  | cons x rest ih =>
    refine (indexVerdict_explained hS hwanted hnode x.1 x.2).bind fun v hv => ?_
    exact .ite (fun _ => ih _ (h.and hv)) fun _ => .pure (h.and hv)

theorem acceptsMembers_explained : (S.acceptsMembers c).Gives (Verdict.Explained k) := by
  refine .bind (visitMembers_gives (visitTargetMember_explained hS hwanted hnode) S true c.target .accept .accept) ?_
  rintro ⟨verdict, _⟩ h
  refine .ite (fun _ => .pure h) fun _ => .after fun indexes => ?_
  exact indexVerdicts_explained hS hwanted hnode indexes.1 verdict h
end

/-! ## Arrays -/

section
variable (i : Inspection)

abbrev Solver.Inspection.loud : Inspection := { i with wanted := true }

include hS

theorem checkEach_gives {P : Verdict → Prop} (hP : ∀ {v w}, P v → w.Explained k → P (v.and w)) (target : Ty) (anchor : Node)
    (values : List Ty) (before : Verdict) (h : P before) : (S.checkEach i.loud target anchor values before).Gives P := by
  induction values generalizing before with
  | nil => exact .pure h
  | cons value rest ih =>
    refine .bind (hS target value i.mode i.targetNode anchor) fun _ hp => ?_
    exact .ite (fun _ => ih _ (hP h hp)) fun _ => .pure (hP h hp)

theorem visitElement_explained (inline : Bool) (shown : String) (element source : Ty) (state : ArraySearch × Verdict)
    (member : Member) (h : state.2.Explained k) :
    (S.visitElement i.loud inline shown element source state member).Gives fun r => r.1.2.Explained k := by
  refine .after fun key => ?_
  cases key with
  | inr => exact .pure (h.and (.reject rfl))
  | inl =>
    refine .after fun _ => .after fun values => ?_
    exact .bind (checkEach_gives hS i .and element _ values .accept .accept) fun _ hp => .pure (h.and hp)

theorem checkArrayShape_explained (target element source : Ty) :
    (S.checkArrayShape i.loud target element source).Gives (Verdict.Explained k) := by
  refine .after fun inline => .after fun required => ?_
  refine .bind (visitMembers_gives (B := fun (a : ArraySearch × Verdict) => a.2.Explained k)
    (visitElement_explained hS i inline required element source) S true source ({}, .accept) .accept) ?_
  rintro ⟨⟨_, _⟩, _⟩ h
  exact .ite (fun _ => .after fun _ => .pure (.reject rfl)) fun _ => .pure h
end

/-! ## Union targets -/

structure Solver.Candidate.Speaks (k : Prop) (c : Candidate) : Prop where
  some : k → c.problems ≠ []
  errors : ∀ p ∈ c.problems, p.severity = .error

theorem addCandidate_ne_nil (new : Candidate) (l : List Candidate) : addCandidate new l ≠ [] := by
  cases l with
  | nil => exact cons_ne_nil _ _
  | cons =>
    unfold addCandidate
    split <;> exact cons_ne_nil _ _

theorem mem_addCandidate {new c : Candidate} {l : List Candidate} (h : c ∈ addCandidate new l) : c = new ∨ c ∈ l := by
  induction l with
  | nil => exact .inl (mem_singleton.1 h)
  | cons d rest ih =>
    unfold addCandidate at h
    split at h
    · exact (mem_cons.1 h).imp_right (mem_cons_of_mem d)
    · rcases mem_cons.1 h with rfl | h
      · exact .inr mem_cons_self
      · exact (ih h).imp_right (mem_cons_of_mem d)

theorem furthest_ne_nil {depth : Candidate → Option Nat} {l : List Candidate} (hne : l ≠ [])
    (h : ∀ c ∈ l, (depth c).isSome) : furthest depth l ≠ [] := by
  obtain ⟨c, hc⟩ := exists_mem_of_ne_nil l hne
  obtain ⟨d, hd⟩ := Option.isSome_iff_exists.1 (h c hc)
  have hmem : d ∈ l.filterMap depth := mem_filterMap.2 ⟨c, hc, hd⟩
  obtain ⟨_, hbest⟩ := Option.isSome_iff_exists.1 (isSome_max?_of_mem hmem)
  obtain ⟨c', hc', hc''⟩ := mem_filterMap.1 (max?_mem hbest)
  exact ne_nil_of_mem (mem_filter.2 ⟨hc', by simp [hc'', hbest]⟩)

theorem problemsOf_refuse {l : List Candidate} (hne : k → l ≠ []) (h : ∀ c ∈ l, c.Speaks k) :
    Verdict.Refuses k ⟨false, problemsOf l⟩ := by
  refine ⟨⟨nofun, fun q hq => ?_, fun hk hnil => ?_⟩, rfl⟩
  · obtain ⟨c, hc, hq⟩ := mem_flatMap.1 hq
    obtain ⟨p, hp, rfl⟩ := mem_map.1 hq
    have herror := (h c hc).errors p hp
    split
    · exact herror
    · exact herror
  · obtain ⟨c, hc⟩ := exists_mem_of_ne_nil l (hne hk)
    exact absurd (map_eq_nil_iff.1 (flatMap_eq_nil_iff.1 hnil c hc)) ((h c hc).some hk)

/-! ## Plans -/

section
variable (i : Inspection) (source : Ty)
include hS

theorem follow_explained_single (p : Plan) (hp : ∀ l, p ≠ .among l) :
    (S.follow i.loud source p).Gives (Verdict.Explained k) := by
  cases p with
  | accepted => exact .pure .accept
  | elements target element => exact checkArrayShape_explained hS i target element source
  | members => exact acceptsMembers_explained hS rfl rfl
  | plain target =>
    refine .after fun _ => .ite (fun _ => .pure .accept) fun _ => ?_
    exact .bind (mismatch_error i.targetNode i.sourceNode target source) fun _ hp => .pure (.reject hp)
  | mismatch target => exact .bind (mismatch_error i.targetNode i.sourceNode target source) fun _ hp => .pure (.reject hp)
  | among targets => exact absurd rfl (hp targets)

theorem checkSingle_explained (target : Ty) : (S.checkSingle i.loud target source).Gives (Verdict.Explained k) := by
  rw [checkSingle_eq]
  exact .bind (planSingle_among S i.mode i.sourceNode target source) fun p hp => follow_explained_single hS i source p hp

theorem tryCandidates_speaks (targets : List Ty) (tried : List Candidate) (h : ∀ c ∈ tried, c.Speaks k)
    (hnodup : (tried.map (·.name)).Nodup) (hne : k → targets ≠ [] ∨ tried ≠ []) :
    (S.tryCandidates i.loud source targets tried).Gives fun r =>
      ∀ l, r = some l → (k → l ≠ []) ∧ (∀ c ∈ l, c.Speaks k) ∧ (l.map (·.name)).Nodup := by
  induction targets generalizing tried with
  | nil =>
    refine .pure fun l hl => ?_
    cases hl
    exact ⟨fun hk => (hne hk).resolve_left (not_not_intro rfl), h, hnodup⟩
  | cons target rest ih =>
    refine .bind (checkSingle_explained hS i source target) fun _ hv => .ite (fun _ => .pure nofun) fun hna => ?_
    refine .after fun _ => ih _ (fun c hc => ?_) (nodup_addCandidate hnodup) fun _ => .inr (addCandidate_ne_nil _ _)
    rcases mem_addCandidate hc with rfl | hc
    · exact ⟨fun hk hnil => hna (hv.accepts hk hnil), hv.errors⟩
    · exact h c hc

omit hS in
theorem rankedProblems_refuse {tried : List Candidate} (hne : k → tried ≠ []) (hspeaks : ∀ c ∈ tried, c.Speaks k)
    (hnodup : (tried.map (·.name)).Nodup) :
    (tried.mapM fun c => do return (c, ← candidateDepth i.sourceNode c)).Gives fun ranked =>
      let best := (ranked.foldl Ranking.add {}).best
      Verdict.Refuses k ⟨false, takeProblems (1 < best.length) best tried⟩ := by
  intro ctx s ranked u hr
  cases (run_ranked i.sourceNode tried).symm.trans hr
  dsimp only
  rw [takeProblems_ranking _ hnodup]
  refine problemsOf_refuse (fun hk => furthest_ne_nil (hne hk) fun c hc => ?_) fun c hc => hspeaks c (mem_of_mem_filter hc)
  -- a candidate with problems has a depth
  exact isSome_min?_iff.2 (mt map_eq_nil_iff.1 ((hspeaks c hc).some hk))

theorem checkAmong_explained {targets : List Ty} (hne : k → targets ≠ []) :
    (S.checkAmong i.loud source targets).Gives (Verdict.Explained k) := by
  refine .bind (tryCandidates_speaks hS i source targets [] (by simp) nodup_nil fun hk => .inl (hne hk)) fun r hr => ?_
  cases r with
  | none => exact .pure .accept
  | some tried =>
    obtain ⟨htried, hspeaks, hnodup⟩ := hr tried rfl
    exact .bind (rankedProblems_refuse i htried hspeaks hnodup) fun _ h => .pure h.toExplained

theorem follow_explained (p : Plan) (hp : k → p ≠ .among []) :
    (S.follow i.loud source p).Gives (Verdict.Explained k) := by
  by_cases hsingle : ∀ l, p ≠ .among l
  · exact follow_explained_single hS i source p hsingle
  · obtain ⟨l, rfl⟩ := not_forall_not.1 hsingle
    exact checkAmong_explained hS i source fun hk hnil => hp hk (by rw [hnil])
end

/-! ## All checks -/

section
variable {ctx : Context} {s u : Session} {n : Nat} {target source : Ty} {mode : Mode} {targetNode : Option Node}
  {sourceNode : Node} {wanted : Bool} {v : Verdict}

theorem regular_ruleCheck (wanted : Bool) (mode : Mode) (targetNode : Option Node) (sourceNode : Node) :
    Regular fun (S : Solver) (x : Ty × Ty) => Rule.check S wanted x.1 x.2 mode targetNode sourceNode :=
  fun L _ _ hS _ _ _ _ => L.ruleCheck hS L.parents

theorem check_follows {I : TypeTable → Prop} (hI : TypeTable.Downward I)
    {T : Ty → Ty → Mode → Option Node → Node → Context → Session → Prop} (hT : (ofBudget n).Trusts ctx I T)
    (hs : s.Sound ctx) (hstored : hs.types.Stores (target, source))
    (hr : Rule.check (ofBudget n) true target source mode targetNode sourceNode ctx s = some (v, u)) (hu : u.Fine ctx I) :
    ∃ p x, (ofBudget n).plan mode sourceNode target source ctx s = some (p, x) ∧ x.Kept u ∧ p ≠ .among [] ∧
      ((ofBudget n).trusting T).plan mode sourceNode target source ctx s = some (p, x) ∧
      ((ofBudget n).trusting T).follow ⟨true, mode, targetNode, sourceNode⟩ source p ctx x = some (v, u) := by
  have hrun := (regular_ruleCheck true mode targetNode sourceNode).trusts hI hT hs hstored hr hu
  rw [check_eq] at hr hrun
  obtain ⟨p, x, hplan, hfollow⟩ := bind_eq_some hr
  have hkept := keeps_follow n _ source p ctx x v u hfollow
  obtain ⟨_, _, hplan', hfollow'⟩ := bind_eq_some hrun
  cases (Below.of_agree (belowLogic.plan trusting_respects) ctx s _ hplan').symm.trans hplan
  refine ⟨p, x, hplan, hkept, ?_, hplan', hfollow'⟩
  rintro rfl
  exact plan_among hs (TypeTable.sameType_iff.1 hstored.out.1).1 (TypeTable.sameType_iff.1 hstored.out.2).1 hplan
    (hkept.clear hu.toClear) rfl

theorem explains_ofBudget (n : Nat) : (ofBudget n).Explains False := by
  induction n with
  | zero =>
    intro target source mode targetNode sourceNode _ s v u hr
    cases hr
  | succ n ih =>
    intro target source mode targetNode sourceNode
    show (Rule.check (ofBudget n) true target source mode targetNode sourceNode).Gives _
    rw [check_eq]
    exact .after fun p => follow_explained ih ⟨true, mode, targetNode, sourceNode⟩ source p nofun

def Solver.ExplainedAt (S : Solver) (target source : Ty) (mode : Mode) (targetNode : Option Node) (sourceNode : Node)
    (ctx : Context) (s : Session) : Prop :=
  ∀ v u, S.check true target source mode targetNode sourceNode ctx s = some (v, u) → v.Explained True

theorem trusting_explains (S : Solver) : (S.trusting S.ExplainedAt).Explains True := by
  intro _ _ _ _ _ _ s v u hr
  obtain ⟨hT, hr⟩ := trusting_check hr
  exact hT v u hr

theorem explained_trusted (ctx : Context) (n : Nat) :
    (ofBudget n).Trusts ctx (fun _ => True) (ofBudget n).ExplainedAt := by
  induction n with
  | zero =>
    intro s hs target source mode targetNode sourceNode v u hstored hr
    cases hr
  | succ n ih =>
    intro s hs target source mode targetNode sourceNode v u hstored hr hu _ _ hr'
    cases hr.symm.trans hr'
    have hr : Rule.check (ofBudget n) true target source mode targetNode sourceNode ctx s = some (v, u) := hr
    -- below, checks are known to say what is wrong
    obtain ⟨p, x, -, -, hp, -, hfollow⟩ := check_follows TypeTable.downward_true ih hs hstored hr hu
    exact follow_explained (trusting_explains _) ⟨true, mode, targetNode, sourceNode⟩ source p (fun _ => hp) ctx x v u hfollow
end

end AnnotatedLua
