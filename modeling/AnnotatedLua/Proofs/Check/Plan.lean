/-
How a check goes. What is asked before anything is found to be wrong comes to a plan, which is then followed
(`check_eq`). A plan never asks for one of no members (`plan_among`), and looks into a table constructor only among the
members of the target (`plan_members`).
-/
import AnnotatedLua.Proofs.Alias.Rest
import AnnotatedLua.Proofs.Equality.Symmetry
import AnnotatedLua.Proofs.Query.Settled

namespace AnnotatedLua

open Solve Solver TypeTable List

variable {ctx : Context} {s u : Session} {n : Nat} {mode : Mode} {node : Node} {target source ty : Ty} {S : Solver}
  {l : List Ty} {b : Bool}

/-! ## Plans -/

inductive Plan
  | accepted
  /-- By its members, which have to be those of an array. -/
  | elements (target element : Ty)
  /-- By its members, which have to be those of a shape. -/
  | members (target : Ty)
  | plain (target : Ty)
  | mismatch (target : Ty)
  /-- One of the types has to fit. -/
  | among (targets : List Ty)

/-- The generic type of an instance, and the type itself otherwise. -/
def Form.base (ty : Ty) : Form → Ty
  | .generic base _ => base
  | _ => ty

namespace Solver

variable (S : Solver)

def isArrayLike (source : Ty) : Solve Bool := do
  match ← kind source with
  | .array => return true
  | .classRef => S.isArray source
  | _ => return false

def looksInto (node : Node) (target source : Ty) : Solve Bool := do
  let form ← lookup target
  isInlineTable source node <&&> S.isShape (form.base target)

def planTable (node : Node) (target source : Ty) : Solve Plan := do
  return if ← S.looksInto node target source then .members target else .plain target

def planArray (mode : Mode) (node : Node) (target source : Ty) : Solve Plan := do
  if ← S.isArrayLike source then S.planTable node target source
  else if ← S.accepts target source mode then S.planTable node target source
  else return .mismatch target

def planSingle (mode : Mode) (node : Node) (target source : Ty) : Solve Plan := do
  match ← lookup target with
  | .array element =>
    let element ← S.resolve element
    let isClass := (← kind source) == .classRef
    if ← pure isClass <&&> S.isShape source then return .elements target element
    else S.planArray mode node target source
  | _ => S.planTable node target source

def plan (mode : Mode) (node : Node) (target source : Ty) : Solve Plan := do
  if target = source then return .accepted
  let resolved ← S.resolve target
  let isArray := (← kind source) == .array
  let literal ← pure isArray <||> isInlineTable source node
  if !(← S.acceptsShape resolved) || !literal then S.planSingle mode node resolved source
  else
    let isUnion := (← kind resolved) == .union
    if ← pure isUnion <&&> S.accepts resolved source mode then return .accepted
    return .among (← S.resolvedMembers resolved)

def checkAmong (i : Inspection) (source : Ty) (targets : List Ty) : Solve Verdict := do
  match ← S.tryCandidates i source targets [] with
  | none => return .accept
  | some tried =>
    let ranked ← tried.mapM fun c => return (c, ← candidateDepth i.sourceNode c)
    let best := (ranked.foldl Ranking.add {}).best
    let problems := takeProblems (1 < best.length) best tried
    return ⟨false, if i.wanted then problems else []⟩

def follow (i : Inspection) (source : Ty) : Plan → Solve Verdict
  | .accepted => return .accept
  | .elements target element => S.checkArrayShape i target element source
  | .members target =>
    S.acceptsMembers
      { wanted := i.wanted, target, source, mode := { i.mode with widenTables := true }
        targetNode := i.targetNode, sourceNode := some i.sourceNode }
  | .plain target => S.checkPlain i target source
  | .mismatch target => do return .reject i.wanted (← mismatch i.targetNode i.sourceNode target source)
  | .among targets => S.checkAmong i source targets

end Solver

section
variable (S : Solver) (i : Inspection) (target source : Ty)

theorem bind_ite {α β : Type} {c : Prop} [Decidable c] (m n : Solve α) (f : α → Solve β) :
    (if c then m else n) >>= f = if c then m >>= f else n >>= f := by
  split <;> rfl

theorem checkTable_eq : S.checkTable i target source = S.planTable i.sourceNode target source >>= S.follow i source := by
  unfold Solver.checkTable Solver.planTable Solver.looksInto
  simp only [bind_assoc, pure_bind]
  refine congrArg _ (funext fun form => ?_)
  have hrest (base : Ty) : ((isInlineTable source i.sourceNode <&&> S.isShape base) >>= fun inside =>
      if inside = true then S.follow i source (.members target) else S.follow i source (.plain target)) =
      ((isInlineTable source i.sourceNode <&&> S.isShape base) >>= fun inside =>
        S.follow i source (if inside = true then .members target else .plain target)) := by
    refine congrArg _ (funext fun _ => ?_)
    split <;> rfl
  cases form <;> exact hrest _

theorem checkArray_eq : S.checkArray i target source =
    S.planArray i.mode i.sourceNode target source >>= S.follow i source := by
  unfold Solver.checkArray Solver.planArray Solver.isArrayLike
  simp only [bind_assoc, bind_ite, checkTable_eq]
  refine congrArg _ (funext fun kind => ?_)
  cases kind <;> rfl

theorem checkSingle_eq : S.checkSingle i target source =
    S.planSingle i.mode i.sourceNode target source >>= S.follow i source := by
  unfold Solver.checkSingle Solver.planSingle
  rw [bind_assoc]
  refine congrArg _ (funext fun form => ?_)
  cases form with
  | array => simp only [bind_assoc, bind_ite, checkArray_eq, pure_bind, follow]
  | _ => exact checkTable_eq S i target source

theorem check_eq (wanted : Bool) (mode : Mode) (targetNode : Option Node) (sourceNode : Node) :
    Rule.check S wanted target source mode targetNode sourceNode =
      S.plan mode sourceNode target source >>= S.follow { wanted, mode, targetNode, sourceNode } source := by
  unfold Rule.check plan
  simp only [bind_assoc, bind_ite, checkSingle_eq, pure_bind, follow]
  rfl
end

theorem keeps_follow (n : Nat) (i : Inspection) (source : Ty) (p : Plan) : Keeps ((ofBudget n).follow i source p) := by
  have hS := keeps_respects n
  cases p with
  | accepted => exact keeps_closed.pure _
  | elements => exact keeps_of_agree (keeps_closed.logic.checkArrayShape hS trivial)
  | members => exact keeps_of_agree (keeps_closed.logic.acceptsMembers hS fun _ => trivial)
  | plain => exact keeps_of_agree (keeps_closed.logic.checkPlain hS)
  | mismatch => exact keeps_closed.bind (keeps_of_agree keeps_closed.logic.mismatch) fun _ => keeps_closed.pure _
  | among =>
    refine keeps_closed.bind (keeps_of_agree (keeps_closed.logic.tryCandidates hS trivial)) fun tried => ?_
    cases tried with
    | none => exact keeps_closed.pure _
    | some =>
      refine keeps_closed.bind (keeps_of_agree (keeps_closed.logic.mapM @fun q _ c _ h => ?_)) fun _ => keeps_closed.pure _
      obtain rfl := h.eq
      exact keeps_closed.logic.bindEq (keeps_closed.logic.candidateDepth trivial) keeps_closed.logic.pure

/-! ## Two runs -/

/-- The number of a way to check, and the types that go with it. -/
def Plan.parts : Plan → Nat × List Ty
  | .accepted => (0, [])
  | .elements target element => (1, [target, element])
  | .members target => (2, [target])
  | .plain target => (3, [target])
  | .mismatch target => (4, [target])
  | .among targets => (5, targets)

instance : Value Plan := .via Plan.parts (by rintro (_ | _ | _ | _ | _ | _) (_ | _ | _ | _ | _ | _) h <;> simp_all [Plan.parts])

instance {p : Pairing} {form form' : Form} {ty ty' : Ty} [h : Same p form form'] [hty : Same p ty ty'] :
    Same p (form.base ty) (form'.base ty') := by
  cases h.out with
  | generic => assumption
  | _ => exact hty

namespace Logic

variable (L : Logic) {p : Pairing} {S' : Solver} (hS : S.Respects S' L) {target' source' : Ty}
include hS

theorem isArrayLike [Same p source source'] : L.Agree p (S.isArrayLike source) (S'.isArrayLike source') := by
  refine L.bindEq L.kind @fun q _ kind => ?_
  cases kind with
  | classRef => exact L.isArray hS
  | _ => exact L.pure

theorem looksInto [Same p target target'] [Same p source source'] :
    L.Agree p (S.looksInto node target source) (S'.looksInto node target' source') :=
  L.bind L.lookup <| L.andM L.isInlineTable hS.isShape

theorem planTable [Same p target target'] [Same p source source'] :
    L.Agree p (S.planTable node target source) (S'.planTable node target' source') := by
  refine L.bindEq (L.looksInto hS) @fun q _ inside => ?_
  have : Same q (if inside then Plan.members target else .plain target)
      (if inside then Plan.members target' else .plain target') := by
    cases inside with
    | true => exact ⟨(Same.get q (2, [target]) (2, [target'])).out⟩
    | false => exact ⟨(Same.get q (3, [target]) (3, [target'])).out⟩
  exact L.pure

theorem planArray [Same p target target'] [Same p source source'] :
    L.Agree p (S.planArray mode node target source) (S'.planArray mode node target' source') := by
  refine L.bindEq (L.isArrayLike hS) @fun q _ _ => L.ite (L.planTable hS) ?_
  refine L.bindEq hS.accepts @fun r _ _ => L.ite (L.planTable hS) ?_
  have : Same r (Plan.mismatch target) (.mismatch target') := ⟨(Same.get r (4, [target]) (4, [target'])).out⟩
  exact L.pure

theorem planSingle [Same p target target'] [Same p source source'] :
    L.Agree p (S.planSingle mode node target source) (S'.planSingle mode node target' source') := by
  refine L.bind L.lookup @fun q _ _ _ h => ?_
  cases h.out with
  | array =>
    refine L.bind (L.resolve hS) @fun r _ element element' _ => L.bindEq L.kind @fun u _ _ => ?_
    refine L.bindEq (L.andM L.pure hS.isShape) @fun v _ _ => L.ite ?_ (L.planArray hS)
    have : Same v (Plan.elements target element) (.elements target' element') :=
      ⟨(Same.get v (1, [target, element]) (1, [target', element'])).out⟩
    exact L.pure
  | _ => exact L.planTable hS

theorem plan [Same p target target'] [Same p source source'] :
    L.Agree p (S.plan mode node target source) (S'.plan mode node target' source') := by
  have haccepted (q : Pairing) : Same q Plan.accepted .accepted := ⟨(Same.get q (0, ([] : List Ty)) (0, [])).out⟩
  refine L.ite L.pure (L.bind (L.resolve hS) @fun q _ _ _ _ => ?_)
  refine L.bindEq L.kind @fun r _ kind => L.bindEq (L.orM L.pure L.isInlineTable) @fun u _ _ => ?_
  refine L.bindEq (L.acceptsShape hS) @fun v _ _ => L.ite (L.planSingle hS) ?_
  refine L.bindEq L.kind @fun w _ _ => L.bindEq (L.andM L.pure hS.accepts) @fun x _ _ => L.ite L.pure ?_
  refine L.bind (L.resolvedMembers hS) @fun y _ targets targets' _ => ?_
  have : Same y (Plan.among targets) (.among targets') := ⟨(Same.get y (5, targets) (5, targets')).out⟩
  exact L.pure

end Logic

theorem regular_plan (mode : Mode) (node : Node) : Regular fun (S : Solver) (x : Ty × Ty) => S.plan mode node x.1 x.2 :=
  fun L _ _ hS _ _ _ _ => L.plan hS

/-! ## Where a plan comes from -/

theorem planSingle_among (S : Solver) (mode : Mode) (node : Node) (target source : Ty) :
    (S.planSingle mode node target source).Gives fun p => ∀ l, p ≠ .among l := by
  have htable : (S.planTable node target source).Gives fun p => ∀ l, p ≠ .among l := by
    refine .after fun _ => .pure fun l => ?_
    split <;> nofun
  refine .after fun form => ?_
  cases form with
  | array element =>
    refine .after fun _ => .after fun _ => .after fun _ => .ite (fun _ => .pure nofun) fun _ => ?_
    refine .after fun _ => .ite (fun _ => htable) fun _ => .after fun _ => ?_
    exact .ite (fun _ => htable) fun _ => .pure nofun
  | _ => exact htable

theorem regular_literal (known : Bool) (node : Node) :
    Regular fun (_ : Solver) (source : Ty) => pure known <||> isInlineTable source node :=
  fun L _ _ _ _ _ _ _ => L.orM L.pure L.isInlineTable

theorem regular_acceptsShape : Regular fun (S : Solver) (ty : Ty) => S.acceptsShape ty :=
  fun L _ _ hS _ _ _ _ => L.acceptsShape hS

theorem regular_acceptsIf (known : Bool) (mode : Mode) :
    Regular fun (S : Solver) (x : Ty × Ty) => pure known <&&> S.accepts x.1 x.2 mode :=
  fun L _ _ hS _ _ _ _ => L.andM L.pure hS.accepts

theorem resolvedMembers_length {base s' u' : Session} {l' : List Ty}
    (hb : base.Sound ctx) (hty : base.types.Has ty) (h : s.Since ctx base) (h' : s'.Since ctx base)
    (hr : (ofBudget n).resolvedMembers ty ctx s = some (l, u)) (hr' : (ofBudget n).resolvedMembers ty ctx s' = some (l', u'))
    (hu : u.Clear ctx) (hu' : u'.Clear ctx) : l.length = l'.length := by
  have hx := hb.stores_type hty
  obtain ⟨_, _, -, hsame⟩ := h.step (regular_resolvedMembers.uniform _) hb h'
    (@Same.upTo _ _ _ _ _ hx _ (h.after_base hb h')) hr hr' hu hu'
  exact hsame.out.length_eq

theorem acceptsShape_cases (hr : (ofBudget n).acceptsShape ty ctx s = some (b, u)) :
    ∃ l v, (ofBudget n).resolvedMembers ty ctx s = some (l, v) ∧ v.Kept u ∧
      (l.anyM fun member => do (ofBudget n).isShape (← (ofBudget n).resolve member)) ctx v = some (b, u) := by
  obtain ⟨l, v, hl, hany⟩ := bind_eq_some hr
  have hS := keeps_respects n
  have hkeeps : Keeps (l.anyM fun member => do (ofBudget n).isShape (← (ofBudget n).resolve member)) :=
    keeps_of_agree (keeps_closed.logic.anyM <|
      keeps_closed.logic.bind (keeps_closed.logic.resolve hS) hS.isShape)
  exact ⟨l, v, hl, hkeeps ctx v b u hany, hany⟩

structure Prepares (ctx : Context) (n : Nat) (node : Node) (target source : Ty) (s : Session) (resolved : Ty)
    (literal shape : Bool) (s1 s2 s3 : Session) : Prop where
  resolves : (ofBudget n).resolve target ctx s = some (resolved, s1)
  tells : ∃ known, (pure known <||> isInlineTable source node) ctx s1 = some (literal, s2)
  finds : (ofBudget n).acceptsShape resolved ctx s2 = some (shape, s3)
  stored : s1.types.Has resolved
  first : s1.Past ctx s
  second : s2.Past ctx s1
  third : s3.Past ctx s2

theorem plan_cases (hs : s.Sound ctx) (htarget : s.types.Has target) (hsource : s.types.Has source) {p : Plan}
    (hr : (ofBudget n).plan mode node target source ctx s = some (p, u)) : p = .accepted ∨
    ∃ resolved literal shape s1 s2 s3, Prepares ctx n node target source s resolved literal shape s1 s2 s3 ∧
      ((shape = false ∨ literal = false) ∧ (ofBudget n).planSingle mode node resolved source ctx s3 = some (p, u) ∨
        shape = true ∧ ∃ l s4, s4.Past ctx s3 ∧ (ofBudget n).resolvedMembers resolved ctx s4 = some (l, u) ∧ p = .among l) := by
  unfold plan at hr
  split at hr
  · cases hr
    exact .inl rfl
  obtain ⟨resolved, s1, hresolve, hr⟩ := bind_eq_some hr
  have hr := of_read hr rfl
  obtain ⟨literal, s2, hliteral, hr⟩ := bind_eq_some hr
  obtain ⟨shape, s3, hshape, hr⟩ := bind_eq_some hr
  obtain ⟨h1, hresolved⟩ := hs.goes regular_resolve (hs.stores_type htarget) hresolve
  have hs1 := h1.sound hs
  have hstored : s1.types.Has resolved := (sameType_iff.1 hresolved).1
  have hsource1 := h1.grown.has hsource
  obtain ⟨h2, -⟩ := hs1.goes (n := n) (regular_literal _ node) (hs1.stores_type hsource1) hliteral
  have hs2 := h2.sound hs1
  obtain ⟨h3, -⟩ := hs2.goes regular_acceptsShape (hs2.stores_type (h2.grown.has hstored)) hshape
  have hprepares : Prepares ctx n node target source s resolved literal shape s1 s2 s3 :=
    ⟨hresolve, ⟨_, hliteral⟩, hshape, hstored, h1, h2, h3⟩
  split at hr
  · rename_i hcase
    refine .inr ⟨_, _, _, _, _, _, hprepares, .inl ⟨?_, hr⟩⟩
    simpa using hcase
  · rename_i hcase
    have hr := of_read hr rfl
    obtain ⟨_, s4, haccepts, hr⟩ := bind_eq_some hr
    have hs3 := h3.sound hs2
    have hstored3 := h3.grown.has (h2.grown.has hstored)
    obtain ⟨h4, -⟩ := hs3.goes (regular_acceptsIf _ mode)
      (hs3.stores_pair hstored3 (h3.grown.has (h2.grown.has hsource1))) haccepts
    split at hr
    · cases hr
      exact .inl rfl
    · obtain ⟨l, _, hl, hr⟩ := bind_eq_some hr
      cases hr
      exact .inr ⟨_, _, _, _, _, _, hprepares, .inr ⟨by simp_all, l, s4, h4, hl, rfl⟩⟩

theorem plan_among (hs : s.Sound ctx) (htarget : s.types.Has target) (hsource : s.types.Has source)
    (hr : (ofBudget n).plan mode node target source ctx s = some (.among l, u)) (hu : u.Clear ctx) : l ≠ [] := by
  obtain hp | ⟨resolved, literal, shape, s1, s2, s3, h, ⟨-, hsingle⟩ | ⟨rfl, l', s4, h4, hl, hp⟩⟩ :=
    plan_cases hs htarget hsource hr
  · cases hp
  · exact absurd rfl (planSingle_among _ _ _ _ _ _ _ _ _ hsingle l)
  · cases hp
    obtain ⟨_, v, hbefore, hv, hany⟩ := acceptsShape_cases h.finds
    have hs2 := h.second.sound (h.first.sound hs)
    have hs3 := h.third.sound hs2
    have hstored := h.second.grown.has h.stored
    have h5 := ((h4.sound hs3).goes regular_resolvedMembers
      ((h4.sound hs3).stores_type (h4.grown.has (h.third.grown.has hstored))) hl).1
    have hclear4 := h5.kept.clear hu
    have hclear3 := h4.kept.clear hclear4
    have hlength := resolvedMembers_length hs2 hstored (hs2.since (h.third.kept.clear hclear3))
      ((h4.since hclear4).trans (h.third.since hclear3)) hbefore hl (hv.clear hclear3) hu
    rintro rfl
    rw [length_nil, length_eq_zero_iff] at hlength
    subst hlength
    cases hany

/-! ## Where a table constructor is looked into -/

section
theorem isShape_base (hr : (ofBudget n).isShape ty ctx s = some (b, u)) :
    ∃ m, (ofBudget m).isShape ((s.types.lookup ty).base ty) ctx s = some (b, u) := by
  cases n with
  | zero => cases hr
  | succ n =>
    have hrest := of_read hr rfl
    cases hl : s.types.lookup ty with
    | generic =>
      simp only [hl] at hrest
      exact ⟨n, hrest⟩
    | _ => exact ⟨n + 1, hr⟩

theorem isShape_kind (hr : (ofBudget n).isShape ty ctx s = some (true, u)) :
    s.types.kind ty = .classRef ∨ s.types.kind ty = .generic := by
  cases n with
  | zero => cases hr
  | succ =>
    have hr := of_read hr rfl
    unfold TypeTable.kind
    cases hl : s.types.lookup ty with
    | classRef => exact .inl rfl
    | generic => exact .inr rfl
    | _ =>
      simp only [hl] at hr
      cases hr

theorem isShape_base_kind {t : TypeTable} (hx : t.Extends s.types) (hty : t.Has ty)
    (hr : (ofBudget n).isShape ((t.lookup ty).base ty) ctx s = some (true, u)) :
    t.kind ty = .classRef ∨ t.kind ty = .generic := by
  by_cases hgeneric : t.kind ty = .generic
  · exact .inr hgeneric
  · have hbase : (t.lookup ty).base ty = ty := by
      unfold TypeTable.kind at hgeneric
      cases hl : t.lookup ty with
      | generic => exact absurd (kind_of hl) hgeneric
      | _ => rfl
    rw [hbase] at hr
    rw [← hx.kind hty]
    exact isShape_kind hr

theorem base_has (hs : s.types.WF) (hty : s.types.Has ty) : s.types.Has ((s.types.lookup ty).base ty) := by
  cases hl : s.types.lookup ty with
  | generic base =>
    have hpart : base ∈ (s.types.lookup ty).parts := by
      rw [hl]
      exact mem_cons_self
    exact (hs.part_lt hpart).2
  | _ => exact hty

theorem Session.Rests.isShape_false (h : s.Rests ctx ty) (hs : s.Sound ctx) (hty : s.types.Has ty)
    (hkind : s.types.kind ty ≠ .union) (hr : (ofBudget n).acceptsShape ty ctx s = some (false, u)) (hu : u.Clear ctx)
    (hc : s.types.Canonical) : s.Answers ctx (·.isShape ((s.types.lookup ty).base ty)) false := by
  obtain ⟨l, v, hl, hv, hany⟩ := acceptsShape_cases hr
  have hvclear := hv.clear hu
  obtain ⟨hpast, -⟩ := hs.goes regular_resolvedMembers (hs.stores_type hty) hl
  have hvs := hpast.sound hs
  have hcv := (Session.Past.grows regular_resolvedMembers hs (.refl hs) (hs.stores_type hty) hl).canonical hc
  have hrests {w : Session} (hw : w.Since ctx s) : ∀ z ∈ w.types.members ty, w.Rests ctx z := by
    rw [hw.grown.members hty, members_eq_self hkind]
    exact forall_mem_singleton.2 (h.later hs hty hw)
  have hrests' := hrests (hpast.since hvclear)
  obtain rfl : l = [ty] := by
    obtain ⟨-, hnodup, -, hexact⟩ := resolvedMembers_exact hs hty hl (hvs.since hvclear) hcv
    refine perm_singleton.1 ((perm_ext_iff_of_nodup hnodup (nodup_singleton ty)).2 fun z => ?_)
    rw [hexact z, Session.Rests.stepsTo_iff hrests', hpast.grown.members hty, members_eq_self hkind]
  obtain ⟨shape, _, hshape, hany⟩ := bind_eq_some hany
  cases shape with
  | true => cases hany
  | false =>
    cases hany
    obtain ⟨r, w, hresolve, hself⟩ := bind_eq_some hshape
    have hstored := hvs.stores_type (hpast.grown.has hty)
    obtain ⟨hw, -⟩ := hvs.goes regular_resolve hstored hresolve
    have hwclear : w.Clear ctx := (ask_keeps n (.isShape r) rfl ctx w false u hself).clear hu
    have hsince : w.Since ctx s := (hw.since hwclear).trans (hpast.since hvclear)
    obtain rfl := resolve_of_rests hvs (hpast.grown.has hty) hresolve hwclear
      ((Session.Past.grows regular_resolve hvs (.refl hvs) hstored hresolve).canonical hcv) (hrests hsince)
    obtain ⟨m, hbase⟩ := isShape_base hself
    rw [hsince.grown.lookup hty] at hbase
    exact hsince.truth regular_isShape hs (hs.stores_type (base_has hs.types hty)) hbase hu

variable {t : Ty}

theorem planTable_members (hr : S.planTable node target source ctx s = some (.members t, u)) :
    S.looksInto node target source ctx s = some (true, u) := by
  obtain ⟨inside, _, hinto, hr⟩ := bind_eq_some hr
  cases inside with
  | true =>
    cases hr
    exact hinto
  | false => cases hr

theorem regular_isShapeIf (known : Bool) : Regular fun (S : Solver) (ty : Ty) => pure known <&&> S.isShape ty :=
  fun L _ _ hS _ _ _ _ => L.andM L.pure hS.isShape

theorem regular_isArrayLike : Regular fun (S : Solver) (ty : Ty) => S.isArrayLike ty :=
  fun L _ _ hS _ _ _ _ => L.isArrayLike hS

theorem planSingle_members (hs : s.Sound ctx) (htarget : s.types.Has target) (hsource : s.types.Has source)
    (hr : (ofBudget n).planSingle mode node target source ctx s = some (.members t, u)) :
    ∃ v, v.Past ctx s ∧ (ofBudget n).looksInto node target source ctx v = some (true, u) := by
  have hr := of_read hr rfl
  cases hl : s.types.lookup target with
  | array element =>
    simp only [hl] at hr
    have helement : s.types.Has element := (hs.types.part_has hl mem_cons_self)
    obtain ⟨_, _, hresolve, hr⟩ := bind_eq_some hr
    obtain ⟨h1, -⟩ := hs.goes regular_resolve (hs.stores_type helement) hresolve
    have hs1 := h1.sound hs
    have hr := of_read hr rfl
    obtain ⟨_, _, hshape, hr⟩ := bind_eq_some hr
    obtain ⟨h2, -⟩ := hs1.goes (regular_isShapeIf _) (hs1.stores_type (h1.grown.has hsource)) hshape
    have hs2 := h2.sound hs1
    have h2 := h1.trans h2
    split at hr
    · cases hr
    · obtain ⟨_, s3, hlike, hr⟩ := bind_eq_some hr
      obtain ⟨h3, -⟩ := hs2.goes regular_isArrayLike (hs2.stores_type (h2.grown.has hsource)) hlike
      have hs3 := h3.sound hs2
      have h3 := h2.trans h3
      split at hr
      · exact ⟨s3, h3, planTable_members hr⟩
      · obtain ⟨_, s4, haccepts, hr⟩ := bind_eq_some hr
        obtain ⟨h4, -⟩ := hs3.goes (regular_accepts mode)
          (hs3.stores_pair (h3.grown.has htarget) (h3.grown.has hsource)) haccepts
        split at hr
        · exact ⟨s4, h3.trans h4, planTable_members hr⟩
        · cases hr
  | _ =>
    simp only [hl] at hr
    exact ⟨s, .refl hs, planTable_members hr⟩

section
variable {resolved : Ty} {literal shape : Bool} {s1 s2 s3 v w : Session} (hs : s.Sound ctx)
include hs

theorem Prepares.not_inline (h : Prepares ctx n node target source s resolved false shape s1 s2 s3)
    (hsource : s.types.Has source) (hv : v.Since ctx s2) (hclear : s2.Clear ctx)
    (hr : isInlineTable source node ctx v = some (true, w)) (hw : w.Clear ctx) : False := by
  obtain ⟨known, htells⟩ := h.tells
  have hbefore : isInlineTable source node ctx s1 = some (false, s2) := by
    cases known with
    | true => cases htells
    | false => exact htells
  have hs1 := h.first.sound hs
  have hx := hs1.stores_type (h.first.grown.has hsource)
  have hself := hs1.since (h.second.kept.clear hclear)
  have hfalse := hself.truth (n := n) (regular_isInlineTable node) hs1 hx hbefore hclear
  have htrue := (hv.trans (h.second.since hclear)).truth (n := n) (regular_isInlineTable node) hs1 hx hr hw
  cases hfalse.unique (regular_isInlineTable node) htrue

theorem Prepares.not_shape (h : Prepares ctx n node target source s resolved literal false s1 s2 s3)
    (htarget : s.types.Has target) (hw : w.Since ctx s2) (hclear : s3.Clear ctx) (hc : s2.types.Canonical)
    (hr : (ofBudget n).isShape ((s2.types.lookup resolved).base resolved) ctx w = some (true, u)) (hu : u.Clear ctx) :
    False := by
  have hs2 := h.second.sound (h.first.sound hs)
  have hstored := h.second.grown.has h.stored
  have hclear2 := h.third.kept.clear hclear
  have hkind := isShape_base_kind hw.grown hstored hr
  have hunion : s2.types.kind resolved ≠ .union := by rcases hkind with hk | hk <;> rw [hk] <;> nofun
  rw [h.second.grown.kind h.stored] at hkind
  have hs1 := h.first.sound hs
  have hrests : s1.Rests ctx resolved := by
    have hc1 := canonical_downward _ _ hs1.types hs2.types h.second.grown hc
    refine resolve_rests hs htarget h.resolves (h.second.kept.clear hclear2) hc1 resolved ?_
    rw [members_eq_self (by rwa [← h.second.grown.kind h.stored])]
    exact mem_singleton_self resolved
  have hfalse := (hrests.later hs1 h.stored (h.second.since hclear2)).isShape_false hs2 hstored hunion h.finds hclear hc
  have htrue := hw.truth regular_isShape hs2 (hs2.stores_type (base_has hs2.types hstored)) hr hu
  cases hfalse.unique regular_isShape htrue

theorem plan_members (htarget : s.types.Has target) (hsource : s.types.Has source) (hu : u.Clear ctx)
    (hc : u.types.Canonical) : (ofBudget n).plan mode node target source ctx s ≠ some (.members t, u) := by
  intro hr
  obtain hp | ⟨resolved, literal, shape, s1, s2, s3, h, ⟨hcase, hsingle⟩ | ⟨-, l, s4, -, -, hp⟩⟩ :=
    plan_cases hs htarget hsource hr
  · cases hp
  · have hs2 := h.second.sound (h.first.sound hs)
    have hs3 := h.third.sound hs2
    have hstored := h.second.grown.has h.stored
    have hsource3 := ((h.first.trans h.second).trans h.third).grown.has hsource
    obtain ⟨v, h4, hinto⟩ := planSingle_members hs3 (h.third.grown.has hstored) hsource3 hsingle
    have hs4 := h4.sound hs3
    have hinto := of_read hinto rfl
    obtain ⟨inline, w, hinline, hinto⟩ := bind_eq_some hinto
    cases inline with
    | false => cases hinto
    | true =>
      obtain ⟨h5, -⟩ := hs4.goes (n := n) (regular_isInlineTable node) (hs4.stores_type (h4.grown.has hsource3)) hinline
      have hs5 := h5.sound hs4
      have h25 := (h.third.trans h4).trans h5
      have hlookup : v.types.lookup resolved = s2.types.lookup resolved := (h.third.trans h4).grown.lookup hstored
      have hinto : (ofBudget n).isShape ((s2.types.lookup resolved).base resolved) ctx w = some (true, u) := hlookup ▸ hinto
      obtain ⟨h6, -⟩ := hs5.goes regular_isShape (hs5.stores_type (h25.grown.has (base_has hs2.types hstored))) hinto
      have hw := h6.kept.clear hu
      have hv := h5.kept.clear hw
      have hclear := h4.kept.clear hv
      rcases hcase with rfl | rfl
      · have hcanonical := canonical_downward _ _ hs2.types h6.types (h25.trans h6).grown hc
        exact h.not_shape hs htarget (h25.since hw) hclear hcanonical hinto hu
      · exact h.not_inline hs hsource ((h.third.trans h4).since hv) (h.third.kept.clear hclear) hinline hw
  · cases hp
end

end

end AnnotatedLua
