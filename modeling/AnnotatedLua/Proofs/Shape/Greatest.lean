/-
Plain shapes are compared by the largest relation that follows from their members: a pair that is still being compared
is taken to be related (`accepts_iff_related`).
-/
import AnnotatedLua.Proofs.Shape.Compare

namespace AnnotatedLua

open Solve List
open Solver (ofBudget visitIndex visitOwn)
open Session (start)

variable {decl : ClassDecl} {m : Member} {target source : Ty} {A : Ty → Ty → Prop} {s : Session} {name : Symbol}

namespace Declarations

/-! ## The largest relation -/

section
variable (d : Declarations) (t : TypeTable)

def MemberFits (R : Ty → Ty → Prop) (others : List Member) (m : Member) : Prop :=
  ∀ a, m.type = some a → ∃ m' ∈ others, ∃ b, m'.key = m.key ∧ m'.type = some b ∧ (a = b ∨ R a b)

/-- Two shapes, and the source has a related member for each of the target. -/
def MembersRelated (R : Ty → Ty → Prop) (target source : Ty) : Prop :=
  ∃ decl other, d.Shape t target decl ∧ d.Shape t source other ∧
    ∀ m ∈ decl.members, MemberFits R other.members m

/-- The relation holds only where it follows from the members. -/
def IsSimulation (R : Ty → Ty → Prop) : Prop := ∀ target source, R target source → d.MembersRelated t R target source

/-- The union of all relations that follow from the members is the largest one. -/
def Related (target source : Ty) : Prop := ∃ R, d.IsSimulation t R ∧ R target source

def RelatedUnder (A : Ty → Ty → Prop) (target source : Ty) : Prop :=
  ∃ R : Ty → Ty → Prop, (∀ a b, R a b → A a b ∨ d.MembersRelated t R a b) ∧ R target source

variable {d t} {R R' A' : Ty → Ty → Prop}

theorem MemberFits.mono (hR : ∀ a b, R a b → R' a b) {others : List Member}
    (h : MemberFits R others m) : MemberFits R' others m := by
  intro a ha
  obtain ⟨m', hm', b, hk, hb, hab⟩ := h a ha
  exact ⟨m', hm', b, hk, hb, hab.imp_right (hR a b)⟩

theorem MembersRelated.mono (hR : ∀ a b, R a b → R' a b)
    (h : d.MembersRelated t R target source) : d.MembersRelated t R' target source := by
  obtain ⟨decl, other, hT, hS, hm⟩ := h
  exact ⟨decl, other, hT, hS, fun m hm' => (hm m hm').mono hR⟩

theorem related_isSimulation : d.IsSimulation t (d.Related t) := by
  rintro target source ⟨R, hR, h⟩
  exact (hR target source h).mono fun a b hab => ⟨R, hR, hab⟩

theorem Shape.related {ty : Ty} (h : d.Shape t ty decl) : d.Related t ty ty := by
  refine ⟨fun a b => a = b ∧ ∃ decl, d.Shape t a decl, ?_, rfl, decl, h⟩
  rintro a b ⟨rfl, decl, h⟩
  exact ⟨decl, decl, h, h, fun m hm a ha => ⟨m, hm, a, rfl, ha, .inl rfl⟩⟩

theorem RelatedUnder.mono (hA : ∀ a b, A a b → A' a b)
    (h : d.RelatedUnder t A target source) : d.RelatedUnder t A' target source := by
  obtain ⟨R, hR, h⟩ := h
  exact ⟨R, fun a b hab => (hR a b hab).imp_left (hA a b), h⟩

theorem RelatedUnder.of_assumed (h : A target source) :
    d.RelatedUnder t A target source := ⟨A, fun _ _ => .inl, h⟩

theorem RelatedUnder.related (hA : ∀ a b, ¬ A a b) (h : d.RelatedUnder t A target source) :
    d.Related t target source := by
  obtain ⟨R, hR, h⟩ := h
  exact ⟨R, fun a b hab => (hR a b hab).resolve_left (hA a b), h⟩

theorem RelatedUnder.of_members (hA : ∀ a b, A' a b → A a b ∨ (a = target ∧ b = source))
    (h : d.MembersRelated t (d.RelatedUnder t A') target source) : d.RelatedUnder t A target source := by
  refine ⟨fun a b => d.RelatedUnder t A' a b ∨ (a = target ∧ b = source), ?_, .inr ⟨rfl, rfl⟩⟩
  have hself : d.MembersRelated t (fun a b => d.RelatedUnder t A' a b ∨ (a = target ∧ b = source)) target
      source := h.mono fun _ _ => .inl
  rintro a b (⟨R, hR, hab⟩ | ⟨rfl, rfl⟩)
  · rcases hR a b hab with hassumed | hmembers
    · rcases hA a b hassumed with h | ⟨rfl, rfl⟩
      · exact .inl h
      · exact .inr hself
    · exact .inr (hmembers.mono fun _ _ h' => .inl ⟨R, hR, h'⟩)
  · exact .inr hself
end

variable {d : Declarations} {t : TypeTable}

def Assumes (s : Session) (target source : Ty) : Prop :=
  (⟨.shape, false, .pair target source⟩ : GuardKey) ∈ s.guard.active

theorem RelatedUnder.of_kept {s' : Session} (hk : s.Kept s') {a b : Ty}
    (h : d.RelatedUnder t (Assumes s') a b) : d.RelatedUnder t (Assumes s) a b := by
  refine h.mono fun a b hab => ?_
  unfold Assumes at hab ⊢
  rwa [← hk.active]

/-! ## Members -/

def comparison (target source : Ty) : Solver.Comparison :=
  { wanted := false, target, source, mode := Mode.lenient, targetNode := none, sourceNode := none }

def Judges (d : Declarations) (t : TypeTable) (n : Nat) : Prop :=
  ∀ {a b : Ty}, d.PlainType t a → d.PlainType t b → ∀ {s : Session}, d.Reads t s →
    2 * (s.guard.limits.depth - s.guard.depth) + 4 ≤ n →
      d.Answers t s ((Solver.ofBudget n).accepts a b Mode.lenient) (a = b ∨ d.Related t a b)
        (a = b ∨ d.RelatedUnder t (Assumes s) a b)

section
variable (hd : d.PlainShapes t) {n : Nat} {other : ClassDecl} (htarget : d.Shape t target decl)
  (hsource : d.Shape t source other)
include hd

omit hd in
theorem find?_of_key {members : List Member} (hdistinct : (members.map Member.key).Nodup)
    (hm : m ∈ members) (hkey : m.key = .field name) : members.find? (·.key = .field name) = some m := by
  cases hf : members.find? (·.key = .field name) with
  | none => exact absurd hkey (by simpa using find?_eq_none.1 hf m hm)
  | some m' =>
    have hkey' : m'.key = .field name := by simpa using find?_some hf
    rw [inj_on_of_nodup_map hdistinct (mem_of_find?_eq_some hf) hm (hkey'.trans hkey.symm)]

include htarget hsource

theorem visitTargetMember_run (hJ : d.Judges t (n + 2)) (hm : m ∈ decl.members)
    (before : Verdict) (hs : d.Reads t s) (hn : 2 * (s.guard.limits.depth - s.guard.depth) + 4 ≤ n + 2) :
    ∃ ok s', (ofBudget (n + 2)).visitTargetMember (comparison target source) before m d.context s =
        some ((before.and ⟨ok, []⟩, ok), s') ∧ d.Reads t s' ∧
      (MemberFits (d.Related t) other.members m → ok = true) ∧
      (ok = true → s'.guard.exceeded = false →
        MemberFits (d.RelatedUnder t (Assumes s)) other.members m) := by
  obtain ⟨name, a, hkey, htype, ha⟩ := (plain hd htarget).fields m hm
  obtain ⟨s1, h1, hs1, hk1⟩ := (yields_memberType hd htarget htype n).run hs
  obtain ⟨s2, h2, hs2, hk2⟩ := (yields_member? hd hsource (n + 1) name).run hs1
  have hrun : (ofBudget (n + 2)).visitTargetMember (comparison target source) before m d.context s =
      ((other.members.find? (·.key = .field name)).elim (Solver.missingVerdict (comparison target source) m a)
        ((ofBudget (n + 2)).presentVerdict (comparison target source) a) >>= fun verdict =>
          pure ((comparison target source).next before verdict) : Solve (Verdict × Bool)) d.context s2 := by
    show (if m.type.isNone then _ else _ : Solve (Verdict × Bool)) d.context s = _
    rw [htype, if_neg (by simp)]
    refine (run_bind h1).trans ?_
    rw [hkey]
    refine (run_bind h2).trans ?_
    cases other.members.find? (·.key = .field name) <;> rfl
  rw [hrun]
  cases hf : other.members.find? (·.key = .field name) with
  | none =>
    have hmissing : d.Yields t (Solver.missingVerdict (comparison target source) m a) .rejectSilently := by
      refine Yields.bind (a := false) (fun active => .ofTypes rfl fun s' hs' => ?_) (.pure _)
      have hmembers : s'.types.members a = [a] := by
        rw [← members_plain hd ha]
        exact hs'.grown.members (PlainType.has hd ha)
      have hnil : a ≠ Ty.nil := beq_eq_false_iff_ne.1 (PlainType.ne hd ha).2
      simp [TypeTable.contains, hmembers, hnil, hnil.symm]
    obtain ⟨s3, h3, hs3, -⟩ := hmissing.run hs2
    refine ⟨false, s3, run_bind h3, hs3, fun hfits => ?_, fun h => by cases h⟩
    obtain ⟨m', hm', b, hk, -⟩ := hfits a htype
    rw [find?_of_key (plain hd hsource).distinct hm' (hk.trans hkey)] at hf
    cases hf
  | some m' =>
    have hm' := mem_of_find?_eq_some hf
    have hkey' : m'.key = .field name := by simpa using find?_some hf
    obtain ⟨-, b, -, htype', hb⟩ := (plain hd hsource).fields m' hm'
    obtain ⟨s3, h3, hs3, hk3⟩ := (yields_memberType hd hsource htype' n).run hs2
    have hk := (hk1.trans hk2).trans hk3
    obtain ⟨ok, s4, h4, hs4, hcomplete, hsound⟩ := hJ ha hb hs3 (by rw [hk.limits, hk.depth]; exact hn)
    have hpresent : (ofBudget (n + 2)).presentVerdict (comparison target source) a m' d.context s2 =
        some (⟨ok, []⟩, s4) := by
      refine (run_bind h3).trans ?_
      show (if b.isAny then _ else _ : Solve Verdict) d.context s3 = _
      rw [(PlainType.ne hd hb).1, if_neg (by simp)]
      show ((ofBudget (n + 2)).accepts a b Mode.lenient >>= fun accepted =>
        Solver.mismatchUnless false accepted none none a b) d.context s3 = _
      rw [run_bind h4]
      cases ok <;> rfl
    refine ⟨ok, s4, (run_bind hpresent).trans ?_, hs4, fun hfits => ?_, fun hok hex => ?_⟩
    · show some ((before.and ⟨ok, []⟩, ok || false), s4) = _
      rw [Bool.or_false]
    · obtain ⟨_, hm'', _, hk', hb', hab⟩ := hfits a htype
      rw [find?_of_key (plain hd hsource).distinct hm'' (hk'.trans hkey)] at hf
      cases hf
      rw [htype'] at hb'
      cases hb'
      exact hcomplete hab
    · intro _ ha'
      rw [htype] at ha'
      cases ha'
      refine ⟨m', hm', b, hkey'.trans hkey.symm, htype', (hsound hok hex).imp_right (.of_kept hk)⟩

theorem visitOwn_run (hJ : d.Judges t (n + 2)) : ∀ {members : List Member} (before : Verdict),
    (∀ m ∈ members, m ∈ decl.members) → ∀ {s : Session}, d.Reads t s →
      2 * (s.guard.limits.depth - s.guard.depth) + 4 ≤ n + 2 → ∃ verdict outcome s',
        visitOwn ((ofBudget (n + 2)).visitTargetMember (comparison target source)) members before
          d.context s = some ((verdict, outcome), s') ∧ d.Reads t s' ∧
        (before.accepted = true → (∀ m ∈ members, MemberFits (d.Related t) other.members m) →
          verdict.accepted = true) ∧
        (verdict.accepted = true → s'.guard.exceeded = false →
          ∀ m ∈ members, MemberFits (d.RelatedUnder t (Assumes s)) other.members m)
  | [], before, _, s, hs, _ => ⟨before, none, s, rfl, hs, fun h _ => h, fun _ _ _ h => by cases h⟩
  | m :: rest, before, hmem, s, hs, hn => by
    obtain ⟨_, h1, hs1, hk1⟩ := Yields.run (d := d) (t := t) (Finds.isCanceled _) hs
    obtain ⟨ok, s2, h2, hs2, hcomplete, hsound⟩ := visitTargetMember_run hd htarget hsource hJ
      (hmem m (.head _)) before hs1 (by rw [hk1.limits, hk1.depth]; exact hn)
    have hk2 := keeps_of_agree (keeps_closed.logic.visitTargetMember (keeps_respects _) fun _ => trivial).now _ _ _ _ h2
    have hk := hk1.trans hk2
    have hrun : visitOwn ((ofBudget (n + 2)).visitTargetMember (comparison target source))
        (m :: rest) before d.context s = (if ok then
          visitOwn ((ofBudget (n + 2)).visitTargetMember (comparison target source)) rest
            (before.and ⟨ok, []⟩) else pure (before.and ⟨ok, []⟩, some false)) d.context s2 :=
      (run_bind h1).trans (run_bind h2)
    rw [hrun]
    cases ok with
    | false =>
      refine ⟨_, _, s2, rfl, hs2, fun _ hall => ?_, fun h => ?_⟩
      · cases hcomplete (hall m (.head _))
      · simp [Verdict.and] at h
    | true =>
      obtain ⟨verdict, outcome, s3, h3, hs3, hcomplete', hsound'⟩ := visitOwn_run hJ (before.and ⟨true, []⟩)
        (fun m' hm' => hmem m' (.tail _ hm')) hs2 (by rw [hk.limits, hk.depth]; exact hn)
      refine ⟨verdict, outcome, s3, h3, hs3, fun hb hall => ?_, fun hv hex => ?_⟩
      · exact hcomplete' (by simp [Verdict.and, hb]) fun m' hm' => hall m' (.tail _ hm')
      · have hk3 := keeps_of_agree
          (keeps_closed.logic.visitOwn (keeps_closed.logic.visitTargetMember (keeps_respects _) fun _ => trivial)) _ _ _ _ h3
        intro m' hm'
        rcases mem_cons.1 hm' with rfl | hm'
        · exact (hsound rfl (hk3.unexceeded hex)).mono fun _ _ => .of_kept hk1
        · exact (hsound' hv hex m' hm').mono fun _ _ => .of_kept hk

omit htarget in
theorem yields_visitIndex (n : Nat) :
    d.Yields t ((ofBudget (n + 1)).visitMembers visitIndex true source []) ([], true) := by
  have hskip (found) (m : Member) (hm : m ∈ other.members) : visitIndex found m = pure (found, true) := by
    obtain ⟨_, -, hkey, -⟩ := (plain hd hsource).fields m hm
    unfold visitIndex
    rw [hkey]
  have hfold (l : List Member) : foldUntil (fun (found : List (Ty × Option Node)) _ => (found, true)) l [] = ([], true) := by
    induction l with
    | nil => rfl
    | cons m l ih => exact ih
  rw [← hfold other.members]
  exact yields_visitMembers hd hsource n visitIndex [] hskip

theorem acceptsMembers_run (hJ : d.Judges t (n + 2)) (hs : d.Reads t s)
    (hn : 2 * (s.guard.limits.depth - s.guard.depth) + 4 ≤ n + 2) : ∃ verdict s',
      (ofBudget (n + 2)).acceptsMembers (comparison target source) d.context s = some (verdict, s') ∧
      d.Reads t s' ∧
      ((∀ m ∈ decl.members, MemberFits (d.Related t) other.members m) → verdict.accepted = true) ∧
      (verdict.accepted = true → s'.guard.exceeded = false →
        d.MembersRelated t (d.RelatedUnder t (Assumes s)) target source) := by
  obtain ⟨_, hs1, hk1, hrun⟩ := visitMembers_run hd htarget (n + 1)
    ((ofBudget (n + 2)).visitTargetMember (comparison target source)) .accept hs
  obtain ⟨verdict, outcome, s2, h2, hs2, hcomplete, hsound⟩ := visitOwn_run hd htarget hsource hJ .accept
    (fun _ => id) hs1 (by rw [hk1.limits, hk1.depth]; exact hn)
  obtain ⟨s3, h3, hs3, hk3⟩ := hrun verdict outcome s2 h2 hs2
  have hlast : ∃ s4, (ofBudget (n + 2)).acceptsMembers (comparison target source) d.context s =
      some (verdict, s4) ∧ d.Reads t s4 ∧ s3.Kept s4 := by
    obtain ⟨s4, h4, hs4, hk4⟩ := (yields_visitIndex hd hsource (n + 1)).run hs3
    have hstep : (ofBudget (n + 2)).acceptsMembers (comparison target source) d.context s =
        (if !verdict.accepted then pure verdict else do
          let visited ← (ofBudget (n + 2)).visitMembers visitIndex true source []
          (ofBudget (n + 2)).indexVerdicts (comparison target source) visited.1 verdict : Solve Verdict)
          d.context s3 := by
      refine (run_bind h3).trans ?_
      show (if !verdict.accepted && true then _ else _ : Solve Verdict) d.context s3 = _
      rw [Bool.and_true]
      rfl
    cases hv : verdict.accepted with
    | false =>
      rw [hv] at hstep
      exact ⟨s3, hstep, hs3, .refl s3⟩
    | true =>
      rw [hv] at hstep
      exact ⟨s4, hstep.trans (run_bind h4), hs4, hk4⟩
  obtain ⟨s4, h4, hs4, hk4⟩ := hlast
  refine ⟨verdict, s4, h4, hs4, fun hall => hcomplete rfl hall, fun hv hex => ?_⟩
  refine ⟨decl, other, htarget, hsource, fun m hm => ?_⟩
  exact (hsound hv ((hk3.trans hk4).unexceeded hex) m hm).mono fun _ _ => .of_kept hk1

theorem answers_acceptsShapeOf (hJ : d.Judges t (n + 2)) (hs : d.Reads t s)
    (hn : 2 * (s.guard.limits.depth - s.guard.depth) + 2 ≤ n + 2) :
    d.Answers t s ((ofBudget (n + 2)).acceptsShapeOf target source Mode.lenient)
      (d.Related t target source) (d.RelatedUnder t (Assumes s) target source) := by
  rcases guarded_cases hd hs .shape (.pair target source)
    ((ofBudget (n + 2)).acceptsMembers (comparison target source)) with ⟨hdepth, hrun⟩ | ⟨g, hrun, hactive⟩
  · obtain ⟨verdict, _, h1, hs1, hcomplete, hsound⟩ := acceptsMembers_run hd htarget hsource hJ
      (hs.withGuard { s.guard.count with
        active := ⟨.shape, false, .pair target source⟩ :: s.guard.active, depth := s.guard.depth + 1 })
      (by show 2 * (s.guard.limits.depth - (s.guard.depth + 1)) + 4 ≤ n + 2; omega)
    rw [h1] at hrun
    refine ⟨verdict.accepted, _, run_bind hrun, hs1.withGuard _, fun h => ?_, fun hv hex => ?_⟩
    · obtain ⟨_, _, htarget', hsource', hall⟩ := related_isSimulation target source h
      rw [htarget.unique htarget', hsource.unique hsource'] at hcomplete
      exact hcomplete hall
    · refine .of_members (fun a b hab => ?_) (hsound hv hex)
      rcases mem_cons.1 hab with heq | hmem
      · cases heq
        exact .inr ⟨rfl, rfl⟩
      · exact .inl hmem
  · exact ⟨true, _, run_bind hrun, hs.withGuard g, fun _ => rfl, fun _ hex => .of_assumed (hactive hex)⟩

theorem answers_shapesEqual (hJ : d.Judges t (n + 2)) (hne : target ≠ source) (hs : d.Reads t s)
    (hn : 2 * (s.guard.limits.depth - s.guard.depth) + 2 ≤ n + 2) :
    d.Answers t s ((ofBudget (n + 2)).shapesEqual target source) False
      (d.RelatedUnder t (Assumes s) target source) := by
  refine .step (yields_isShape hd htarget n) hs fun s1 hs1 hk1 => ?_
  refine .step (yields_isShape hd hsource n) hs1 fun s2 hs2 hk2 => ?_
  have hk := hk1.trans hk2
  rcases guarded_cases hd hs2 .shapeEquality (.pair target source)
    ((ofBudget (n + 2)).accepts target source Mode.lenient <&&>
      (ofBudget (n + 2)).accepts source target Mode.lenient) with ⟨hdepth, hrun⟩ | ⟨g, hrun, -⟩
  · have hroom : 2 * (s2.guard.limits.depth - (s2.guard.depth + 1)) + 4 ≤ n + 2 := by
      rw [hk.limits, hk.depth] at hdepth ⊢
      omega
    set s3 : Session := { s2 with guard := { s2.guard.count with
      active := ⟨.shapeEquality, false, .pair target source⟩ :: s2.guard.active
      depth := s2.guard.depth + 1 } }
    have hs3 : d.Reads t s3 := hs2.withGuard _
    have hboth : ∃ e s4, ((ofBudget (n + 2)).accepts target source Mode.lenient <&&>
        (ofBudget (n + 2)).accepts source target Mode.lenient) d.context s3 = some (e, s4) ∧
        d.Reads t s4 ∧ (e = true → s4.guard.exceeded = false →
          target = source ∨ d.RelatedUnder t (Assumes s3) target source) := by
      obtain ⟨b, s4, h4, hs4, -, hsound⟩ := hJ (.shape htarget) (.shape hsource) hs3 hroom
      have hk4 := ask_keeps _ (.accepts target source Mode.lenient) rfl _ _ _ _ h4
      cases b with
      | false => exact ⟨false, s4, run_bind h4, hs4, fun h => by cases h⟩
      | true =>
        obtain ⟨b, s5, h5, hs5, -⟩ := hJ (.shape hsource) (.shape htarget) hs4
          (by rw [hk4.limits, hk4.depth]; exact hroom)
        have hk5 := ask_keeps _ (.accepts source target Mode.lenient) rfl _ _ _ _ h5
        exact ⟨b, s5, (run_bind h4).trans h5, hs5, fun _ hex => hsound rfl (hk5.unexceeded hex)⟩
    obtain ⟨e, _, h4, hs4, hsound⟩ := hboth
    rw [h4] at hrun
    refine ⟨e, _, run_bind hrun, hs4.withGuard _, False.elim, fun he hex => .of_kept hk ?_⟩
    refine ((hsound he hex).resolve_left hne).mono fun a b hassumed => ?_
    rcases mem_cons.1 hassumed with heq | hmem
    · cases heq
    · exact hmem
  · exact ⟨false, _, run_bind hrun, hs2.withGuard g, False.elim, fun h => by cases h⟩
end

/-! ## Acceptance -/

theorem judges (hd : d.PlainShapes t) (n : Nat) : d.Judges t n := by
  induction n using Nat.strong_induction_on with
  | _ n ih =>
    intro a b ha hb s hs _
    obtain ⟨k, rfl⟩ : ∃ k, n = k + 4 := ⟨n - 4, by omega⟩
    by_cases hab : a = b
    · subst hab
      refine .of_true ?_ hs (.inl rfl)
      show d.Yields t (if a = a then _ else _) true
      rw [if_pos rfl]
      exact .pure _
    · cases ha with
      | primitive kind hkind =>
        refine answers_accepts_primitive hd hb (k + 1) hkind hab ?_ hs
        rintro (h | h)
        · exact hab h
        · obtain ⟨decl, -, hshape, -⟩ := related_isSimulation _ _ h
          exact Shape.ne_primitive hd hshape kind rfl
      | shape ha =>
        cases hb with
        | primitive kind hkind =>
          refine answers_accepts_of_primitive hd ha hkind k ?_ hs
          rintro (h | h)
          · exact hab h
          · obtain ⟨-, _, -, hshape, -⟩ := related_isSimulation _ _ h
            exact Shape.ne_primitive hd hshape kind rfl
        | shape hb =>
          refine answers_accepts_shape hd (.shape hb) k ha hab hs (fun s' hs' hk' => ?_) fun _ hs' hk' => ?_
          · refine (answers_shapesEqual hd ha hb (ih (k + 2) (by omega)) hab hs' ?_).imp id fun h =>
              .inr (.of_kept hk' h)
            rw [hk'.limits, hk'.depth]
            omega
          · obtain ⟨_, hl, -⟩ := id hb
            rw [hl]
            refine .step ((Yields.pure true).bind (yields_isShape hd ha (k + 1))) hs' fun s2 hs2 hk2 => ?_
            have hk := hk'.trans hk2
            refine (answers_acceptsShapeOf hd ha hb (ih (k + 3) (by omega)) hs2 ?_).imp
              (fun h => h.resolve_left hab) fun h => .inr (.of_kept hk h)
            rw [hk.limits, hk.depth]
            omega

/-- A plain shape accepts another one just if the largest relation that follows from the members holds of
the two. The query comes to an end, and nothing but the limits of the guard can get in the way. -/
theorem accepts_iff_related (hd : d.PlainShapes t) {target source : Ty} {decl other : ClassDecl}
    (htarget : d.Shape t target decl) (hsource : d.Shape t source other) :
    ∃ b s', Solver.standard.accepts target source Mode.lenient d.context
        (start t Limits.standard) = some (b, s') ∧ (d.Related t target source → b = true) ∧
      (s'.guard.exceeded = false → (b = true ↔ d.Related t target source)) := by
  obtain ⟨b, s', h, -, hcomplete, hsound⟩ := judges hd Solver.standardBudget (.shape htarget) (.shape hsource)
    (reads_start hd) (by show 2 * (256 - 0) + 4 ≤ 100000; omega)
  refine ⟨b, s', h, fun h => hcomplete (.inr h), fun hex => ⟨fun hb => ?_, fun h => hcomplete (.inr h)⟩⟩
  rcases hsound hb hex with rfl | hrel
  · exact htarget.related
  · exact hrel.related fun _ _ hassumed => by cases hassumed

/-! ## Linked shapes -/

def fieldsOf (name : Symbol) (fields : List (Symbol × Ty)) : ClassDecl where
  name := name
  marks := Marks.shape
  members := fields.map fun (name, type) => { key := .field name, type := some type, declared := true, node := none }

theorem fieldsOf_plain {fields : List (Symbol × Ty)} (hfields : ∀ f ∈ fields, d.PlainType t f.2)
    (hdistinct : (fields.map Prod.fst).Nodup) :
    d.PlainShape t (fieldsOf name fields) where
  marks := rfl
  superClass := rfl
  otherName := rfl
  fields m hm := by
    obtain ⟨f, hf, rfl⟩ := mem_map.1 hm
    exact ⟨f.1, f.2, rfl, rfl, hfields f hf⟩
  distinct := by
    have hkeys : (fieldsOf name fields).members.map Member.key = (fields.map Prod.fst).map Key.field := by
      unfold fieldsOf
      rw [map_map, map_map]
      rfl
    rw [hkeys]
    exact hdistinct.map fun a b h => Key.field.inj h

/-- The shapes `Node`, `⟨10⟩`, and `Labeled`, `⟨11⟩`. -/
def linkedTypes : TypeTable :=
  .ofForms ["Node", "Labeled", "next", "label"] [.classRef ⟨3⟩ Marks.shape, .classRef ⟨4⟩ Marks.shape]

def linkedNode : ClassDecl := fieldsOf ⟨3⟩ [(⟨5⟩, ⟨10⟩)]

def linkedLabeled : ClassDecl := fieldsOf ⟨4⟩ [(⟨5⟩, ⟨11⟩), (⟨6⟩, Ty.string)]

/-- A `Node` has a `next` node; what is `Labeled` has a `next` one that is labeled, and a `label`. -/
def linked : Declarations := (empty.addClass linkedNode).addClass linkedLabeled

theorem linked_classes (h : linked.classes[name]? = some decl) :
    (name = ⟨3⟩ ∧ decl = linkedNode) ∨ (name = ⟨4⟩ ∧ decl = linkedLabeled) := by
  rcases Std.TreeMap.mem_toList_iff_getElem?_eq_some.2 h with _ | ⟨_, _ | ⟨_, hnil⟩⟩
  · exact .inl ⟨rfl, rfl⟩
  · exact .inr ⟨rfl, rfl⟩
  · cases hnil

theorem linked_node : linked.Shape linkedTypes ⟨10⟩ linkedNode := ⟨⟨3⟩, rfl, rfl⟩

theorem linked_labeled : linked.Shape linkedTypes ⟨11⟩ linkedLabeled := ⟨⟨4⟩, rfl, rfl⟩

theorem linkedTypes_wf : linkedTypes.WF := TypeTable.Orderly.wf (by decide)

theorem linked_plain : linked.PlainShapes linkedTypes where
  types := linkedTypes_wf
  consulted := rfl
  cancelling := rfl
  aliases _ := Std.TreeMap.getElem?_emptyc
  classes name decl h := by
    rcases linked_classes h with ⟨-, rfl⟩ | ⟨-, rfl⟩
    · refine fieldsOf_plain (fun f hf => ?_) (by decide)
      obtain rfl := mem_singleton.1 hf
      exact .shape linked_node
    · refine fieldsOf_plain (fun f hf => ?_) (by decide)
      rcases mem_cons.1 hf with rfl | hf
      · exact .shape linked_labeled
      · obtain rfl := mem_singleton.1 hf
        exact .primitive .string (.inl rfl)
  names name decl h := by
    rcases linked_classes h with ⟨rfl, -⟩ | ⟨rfl, -⟩ <;> decide

example : (Solver.standard.accepts ⟨11⟩ ⟨10⟩ Mode.lenient linked.context (start linkedTypes Limits.standard)).map
    Prod.fst = some false := by decide +kernel

/-- Every labeled node is a node. -/
theorem accepts_iff_related_linked : linked.PlainShapes linkedTypes ∧
    linked.Shape linkedTypes ⟨10⟩ linkedNode ∧ linked.Shape linkedTypes ⟨11⟩ linkedLabeled ∧
    ∃ s', Solver.standard.accepts ⟨10⟩ ⟨11⟩ Mode.lenient linked.context
        (start linkedTypes Limits.standard) = some (true, s') ∧
      s'.guard.exceeded = false ∧ linked.Related linkedTypes ⟨10⟩ ⟨11⟩ := by
  obtain ⟨b, s', h, -, hiff⟩ := accepts_iff_related linked_plain linked_node linked_labeled
  have heval : (Solver.standard.accepts ⟨10⟩ ⟨11⟩ Mode.lenient linked.context
      (start linkedTypes Limits.standard)).map (fun r => (r.1, r.2.guard.exceeded)) =
        some (true, false) := by decide +kernel
  rw [h] at heval
  obtain ⟨rfl, hex⟩ := Prod.mk.inj (Option.some.inj heval)
  exact ⟨linked_plain, linked_node, linked_labeled, s', h, hex, (hiff hex).1 rfl⟩

/-! ## Receiver classes -/

/-- The shapes `A`, `A:self`, `⟨11⟩`, and `B`, `⟨12⟩`. -/
def receiverTypes : TypeTable :=
  .ofForms ["A", "A:self", "B", "x"] [.classRef ⟨3⟩ Marks.shape, .classRef ⟨4⟩ Marks.shape, .classRef ⟨5⟩ Marks.shape]

/-- Only `A` has a field. -/
def receivers : Declarations :=
  ((empty.addClass (fieldsOf ⟨3⟩ [(⟨6⟩, Ty.string)])).addClass (fieldsOf ⟨4⟩ [])).addClass (fieldsOf ⟨5⟩ [])

theorem receivers_plain (h : receivers.classes[name]? = some decl) : receivers.PlainShape receiverTypes decl := by
  rcases Std.TreeMap.mem_toList_iff_getElem?_eq_some.2 h with _ | ⟨_, _ | ⟨_, _ | ⟨_, hnil⟩⟩⟩
  · refine fieldsOf_plain (fun f hf => ?_) (by decide)
    obtain rfl := mem_singleton.1 hf
    exact .primitive .string (.inl rfl)
  · exact fieldsOf_plain nofun .nil
  · exact fieldsOf_plain nofun .nil
  · cases hnil

/-- A class that is named like the receiver class of `A` has the fields of `A`, which it does not
declare: it does not accept `B`, though none of its own members says so. -/
theorem receiver_accepts_ne_related : receiverTypes.WF ∧
    (∀ (name : Symbol) decl, receivers.classes[name]? = some decl → receivers.PlainShape receiverTypes decl) ∧
    receivers.Shape receiverTypes ⟨11⟩ (fieldsOf ⟨4⟩ []) ∧ receivers.Shape receiverTypes ⟨12⟩ (fieldsOf ⟨5⟩ []) ∧
    receivers.Related receiverTypes ⟨11⟩ ⟨12⟩ ∧
    ∃ s', Solver.standard.accepts ⟨11⟩ ⟨12⟩ Mode.lenient receivers.context
        (start receiverTypes Limits.standard) = some (false, s') ∧ s'.guard.exceeded = false := by
  have hwf : receiverTypes.WF := TypeTable.Orderly.wf (by decide)
  have hself : receivers.Shape receiverTypes ⟨11⟩ (fieldsOf ⟨4⟩ []) :=
    ⟨⟨4⟩, by decide, by decide⟩
  have hother : receivers.Shape receiverTypes ⟨12⟩ (fieldsOf ⟨5⟩ []) :=
    ⟨⟨5⟩, by decide, by decide⟩
  have hrelated : receivers.Related receiverTypes ⟨11⟩ ⟨12⟩ := by
    refine ⟨fun a b => a = ⟨11⟩ ∧ b = ⟨12⟩, ?_, rfl, rfl⟩
    rintro a b ⟨rfl, rfl⟩
    exact ⟨_, _, hself, hother, nofun⟩
  have heval : (Solver.standard.accepts ⟨11⟩ ⟨12⟩ Mode.lenient receivers.context
      (start receiverTypes Limits.standard)).map (fun r => (r.1, r.2.guard.exceeded)) =
        some (false, false) := by decide +kernel
  obtain ⟨⟨b, s'⟩, h, hb⟩ := Option.map_eq_some_iff.1 heval
  obtain ⟨rfl, hex⟩ := Prod.mk.inj hb
  exact ⟨hwf, fun _ _ => receivers_plain, hself, hother, hrelated, s', h, hex⟩

end Declarations

end AnnotatedLua
