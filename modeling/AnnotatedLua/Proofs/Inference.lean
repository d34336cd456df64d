/-
Asking for the type of an expression again. What is kept was found before the names in it were bound in the scope of the
expression, so the second answer is the first one only if that changed nothing (`infer_again`).
-/
import AnnotatedLua.Proofs.Query.Frame

namespace AnnotatedLua

open Solve Guard
open Solver (ofBudget)

variable {ctx : Context} {s1 s2 : Session} {S : Solver} {node : Node} {a : Option Ty} {keep : Bool} {n : Nat}
  {s s' : Session}

/-- Whether the session keeps what is inferred: all values are wanted, and declarations are consulted. -/
def Session.records (ctx : Context) (s : Session) : Bool :=
  s.position == allResults && !(s.blind || ctx.provider.blind)

/-! ## Steps of inference -/

namespace Rule

theorem run_infer : infer S node ctx s =
    match (if s.records ctx then s.inferred[node]? else none) with
    | some type => some (some type, s)
    | none => inferFresh S node (s.records ctx) ctx s := by
  have hrun : infer S node ctx s = (match (if s.records ctx then s.inferred[node]? else none) with
      | some type => pure (some type)
      | none => inferFresh S node (s.records ctx) : Solve (Option Ty)) ctx s := by
    show (if s.records ctx then _ else _ : Solve (Option Ty)) ctx s = _
    split <;> rfl
  rw [hrun]
  generalize (if s.records ctx then s.inferred[node]? else none) = found
  cases found <;> rfl

theorem infer_kept {type : Ty} (hr : s.records ctx = true) (hk : s.inferred[node]? = some type) :
    infer S node ctx s = some (some type, s) := by
  rw [run_infer, hr, if_pos rfl, hk]

theorem infer_fresh (h : s.records ctx = true → s.inferred[node]? = none) :
    infer S node ctx s = inferFresh S node (s.records ctx) ctx s := by
  have hnone : (if s.records ctx then s.inferred[node]? else none) = none := by
    split
    · rename_i hr; exact h hr
    · rfl
  rw [run_infer, hnone]

theorem run_requestInference : requestInference S node ctx s =
    match ctx.provider.inference with
    | none => some (none, s)
    | some inference => runInference S (inference node) ctx { s with inferences := s.inferences + 1 } := by
  show (match ctx.provider.inference with
    | none => return none
    | some inference => _ : Solve (Option Ty)) ctx s = _
  cases ctx.provider.inference <;> rfl

def record (keep : Bool) (node : Node) (type : Ty) (s : Session) : Session :=
  if keep then { s with inferred := s.inferred.insert node type } else s

theorem inferFresh_cases (h : inferFresh S node keep ctx s = some (a, s')) :
    ∃ r s0, withGuard .inference (.node node) (requestInference S node) ctx s = some (r, s0) ∧
      ((r.join = none ∧ a = none ∧ s' = s0) ∨
        ∃ type bound, r.join = some type ∧ a = some bound ∧
          S.substitute type (.scope node) ctx (record keep node type s0) = some (bound, s')) := by
  obtain ⟨r, s0, hg, h⟩ := bind_eq_some h
  refine ⟨r, s0, hg, ?_⟩
  cases hr : r.join with
  | none =>
    rw [hr] at h
    obtain ⟨rfl, rfl⟩ := pure_eq_some h
    exact .inl ⟨rfl, rfl, rfl⟩
  | some type =>
    rw [hr] at h
    right
    have hrec : ∃ bound, S.substitute type (.scope node) ctx (record keep node type s0) = some (bound, s') ∧
        a = some bound := by
      cases keep with
      | false =>
        obtain ⟨bound, s1, hs, h⟩ := bind_eq_some h
        obtain ⟨rfl, rfl⟩ := pure_eq_some h
        exact ⟨bound, hs, rfl⟩
      | true =>
        obtain ⟨u, _, hm, h⟩ := bind_eq_some h
        cases hm
        obtain ⟨bound, _, hs, h⟩ := bind_eq_some h
        obtain ⟨rfl, rfl⟩ := pure_eq_some h
        exact ⟨bound, hs, rfl⟩
    obtain ⟨bound, hs, ha⟩ := hrec
    exact ⟨type, bound, rfl, ha, hs⟩

theorem inferFresh_none {r : Option (Option Ty)}
    (hg : withGuard .inference (.node node) (requestInference S node) ctx s = some (r, s'))
    (hr : r.join = none) : inferFresh S node keep ctx s = some (none, s') := by
  unfold inferFresh
  rw [run_bind hg, hr]
  rfl

end Rule

/-! ## Expressions without a type -/

structure Session.Alike (s s' : Session) : Prop where
  limits : s'.guard.limits = s.guard.limits
  active : s'.guard.active = s.guard.active
  depth : s'.guard.depth = s.guard.depth
  used : s.guard.used ≤ s'.guard.used
  position : s'.position = s.position
  blind : s'.blind = s.blind
  inferred : s'.inferred = s.inferred

namespace Session.Alike

theorem refl (s : Session) : s.Alike s := ⟨rfl, rfl, rfl, le_refl _, rfl, rfl, rfl⟩

theorem trans (h : s.Alike s1) (h' : s1.Alike s2) : s.Alike s2 :=
  ⟨h'.limits.trans h.limits, h'.active.trans h.active, h'.depth.trans h.depth, h.used.trans h'.used,
    h'.position.trans h.position, h'.blind.trans h.blind, h'.inferred.trans h.inferred⟩

theorem records (h : s.Alike s') : s'.records ctx = s.records ctx := by
  unfold Session.records
  rw [h.position, h.blind]

theorem guardKey (h : s.Alike s') (activity : Activity) (subject : Subject) :
    Solve.guardKey ctx s' activity subject = Solve.guardKey ctx s activity subject := by
  unfold Solve.guardKey
  rw [h.blind]

end Session.Alike

theorem Guard.refused_again {κ : Type} [DecidableEq κ] {g g' : Guard κ} {key : κ}
    (hl : g'.limits = g.limits) (ha : g'.active = g.active) (hd : g'.depth = g.depth)
    (hu : g.used ≤ g'.used) (h : (g.enter key).1 ≠ .entered) : (g'.enter key).1 ≠ .entered := by
  unfold used at hu
  unfold enter count isActive at h ⊢
  simp only [hl, ha, hd] at h ⊢
  split_ifs at h ⊢ <;> first | (exfalso; omega) | exact absurd rfl h | simp

namespace Rule

variable {inference : Inference}

theorem runInference_none (h : runInference S inference ctx s = some (none, s')) :
    (inference = .unknown ∧ s' = s) ∨
      ∃ node, inference = .follow node none ∧ S.infer node ctx s = some (none, s') := by
  cases inference with
  | unknown => cases h; exact .inl ⟨rfl, rfl⟩
  | known => cases h
  | follow node otherwise =>
    obtain ⟨b, s1, hi, h⟩ := bind_eq_some h
    obtain ⟨ho, rfl⟩ := pure_eq_some h
    cases b with
    | some => cases ho
    | none =>
      cases otherwise with
      | some => cases ho
      | none => exact .inr ⟨node, rfl, hi⟩
  | project =>
    obtain ⟨_, _, hg, h⟩ := bind_eq_some h
    cases hg
    dsimp only at h
    split at h
    · cases h
    · obtain ⟨b, _, -, h⟩ := bind_eq_some h
      obtain ⟨ho, -⟩ := pure_eq_some h
      cases ho

def Barren (ctx : Context) (m : Solve (Option Ty)) : Prop :=
  ∀ s s1, m ctx s = some (none, s1) → s.Alike s1 ∧ ∀ s', s.Alike s' → ∃ s1', m ctx s' = some (none, s1')

theorem requestInference_barren (hS : ∀ node, Barren ctx (S.infer node)) (node : Node) :
    Barren ctx (requestInference S node) := by
  intro s _ h
  have hcount : ∀ s : Session, s.Alike { s with inferences := s.inferences + 1 } :=
    fun _ => ⟨rfl, rfl, rfl, le_refl _, rfl, rfl, rfl⟩
  simp only [run_requestInference] at h ⊢
  cases hi : ctx.provider.inference with
  | none =>
    rw [hi] at h
    cases h
    exact ⟨.refl _, fun s' _ => ⟨s', rfl⟩⟩
  | some =>
    rw [hi] at h
    rcases runInference_none h with ⟨hu, rfl⟩ | ⟨other, hf, h⟩
    · refine ⟨hcount s, fun s' _ => ⟨{ s' with inferences := s'.inferences + 1 }, ?_⟩⟩
      simp only [hu]
      rfl
    · obtain ⟨hk, hagain⟩ := hS other _ _ h
      refine ⟨(hcount s).trans hk, fun s' hs' => ?_⟩
      obtain ⟨s1', h'⟩ := hagain { s' with inferences := s'.inferences + 1 } { hs' with }
      refine ⟨s1', ?_⟩
      simp only [hf]
      exact run_bind h'

theorem withGuard_barren {m : Solve (Option Ty)} (hm : Barren ctx m) (activity : Activity) (subject : Subject)
    {s0 : Session} {r : Option (Option Ty)}
    (h : withGuard activity subject m ctx s = some (r, s0)) (hr : r.join = none) : s.Alike s0 ∧
      ∀ s', s.Alike s' → ∃ r' s0', withGuard activity subject m ctx s' = some (r', s0') ∧ r'.join = none := by
  have hused := used_count s.guard
  rcases enter_cases s.guard (guardKey ctx s activity subject) with
    ⟨h1, -, -, h2⟩ | ⟨h1, -, h2⟩ | ⟨h1, -, h2⟩
  · rw [withGuard_entered (Prod.ext h1 h2)] at h
    obtain ⟨⟨b, s1⟩, hrun, hs⟩ := Option.map_eq_some_iff.1 h
    cases hs
    obtain rfl : b = none := hr
    obtain ⟨hk, hagain⟩ := hm _ _ hrun
    refine ⟨{ hk with active := ?_, depth := ?_, used := hused.trans hk.used }, ?_⟩
    · show s1.guard.active.erase _ = _
      rw [hk.active]
      exact List.erase_cons_head ..
    · show s1.guard.depth - 1 = _
      rw [hk.depth]
      rfl
    · intro s' hs'
      by_cases h1' : (s'.guard.enter (guardKey ctx s' activity subject)).1 = .entered
      · obtain ⟨_, hrun'⟩ := hagain { s' with guard := (s'.guard.enter (guardKey ctx s' activity subject)).2 } (by
          rw [(enter_entered h1').2, hs'.guardKey, hs'.active, hs'.depth]
          refine { hs' with active := rfl, depth := rfl, used := ?_ }
          have := hs'.used
          unfold used at this ⊢
          unfold count
          simp only
          omega)
        rw [withGuard_entered (Prod.ext h1' rfl), hrun']
        exact ⟨_, _, rfl, rfl⟩
      · rw [withGuard_refused h1']
        exact ⟨_, _, rfl, rfl⟩
  all_goals
    rw [withGuard_refused h1, h2] at h
    cases h
    refine ⟨⟨rfl, rfl, rfl, hused, rfl, rfl, rfl⟩, fun _ hs' => ?_⟩
    rw [withGuard_refused]
    · exact ⟨_, _, rfl, rfl⟩
    · rw [hs'.guardKey]
      exact refused_again hs'.limits hs'.active hs'.depth hs'.used h1

theorem infer_barren (n : Nat) (node : Node) : Barren ctx ((ofBudget n).infer node) := by
  induction n generalizing node with
  | zero => intro s s1 h; cases h
  | succ n ih =>
    intro s s1 h
    have h : infer (ofBudget n) node ctx s = some (none, s1) := h
    have hmiss : s.records ctx = true → s.inferred[node]? = none := by
      intro hr
      cases hk : s.inferred[node]? with
      | none => rfl
      | some => rw [infer_kept hr hk] at h; cases h
    rw [infer_fresh hmiss] at h
    obtain ⟨r, _, hg, h⟩ := inferFresh_cases h
    rcases h with ⟨hr, -, rfl⟩ | ⟨type, bound, -, ha, -⟩
    · obtain ⟨hk, hagain⟩ := withGuard_barren (requestInference_barren ih node) _ _ hg hr
      refine ⟨hk, fun s' hs' => ?_⟩
      obtain ⟨_, s0', hg', hr'⟩ := hagain s' hs'
      refine ⟨s0', ?_⟩
      show infer (ofBudget n) node ctx s' = _
      rw [infer_fresh (by rw [hs'.records, hs'.inferred]; exact hmiss)]
      exact inferFresh_none hg' hr'
    · cases ha

/-! ## Expressions with a type -/

def SameScope (s s' : Session) : Prop := s'.position = s.position ∧ s'.blind = s.blind

theorem SameScope.trans (h : SameScope s s1) (h' : SameScope s1 s2) : SameScope s s2 :=
  ⟨h'.1.trans h.1, h'.2.trans h.2⟩

theorem SameScope.of_kept (h : s.Kept s') : SameScope s s' := ⟨h.position, h.blind⟩

theorem SameScope.records (h : SameScope s s') : s'.records ctx = s.records ctx := by
  unfold Session.records
  rw [h.1, h.2]

theorem withGuard_sameScope {α : Type} {m : Solve α} {activity : Activity} {subject : Subject}
    (hm : ∀ s a s', m ctx s = some (a, s') → SameScope s s') {r : Option α}
    (h : withGuard activity subject m ctx s = some (r, s')) : SameScope s s' := by
  by_cases he : (s.guard.enter (guardKey ctx s activity subject)).1 = .entered
  · rw [withGuard_entered (Prod.ext he rfl)] at h
    obtain ⟨⟨b, s1⟩, hrun, hs⟩ := Option.map_eq_some_iff.1 h
    cases hs
    have hb := hm _ b s1 hrun
    exact ⟨hb.1, hb.2⟩
  · rw [withGuard_refused he] at h
    cases h
    exact ⟨rfl, rfl⟩

theorem record_sameScope (keep : Bool) (node : Node) (type : Ty) (s : Session) :
    SameScope s (record keep node type s) := by
  unfold record
  split <;> exact ⟨rfl, rfl⟩

theorem runInference_sameScope (hS : ∀ node s a s', (ofBudget n).infer node ctx s = some (a, s') → SameScope s s')
    (h : runInference (ofBudget n) inference ctx s = some (a, s')) : SameScope s s' := by
  cases inference with
  | unknown => cases h; exact ⟨rfl, rfl⟩
  | known => cases h; exact ⟨rfl, rfl⟩
  | follow node =>
    obtain ⟨b, s1, hi, h⟩ := bind_eq_some h
    obtain ⟨-, rfl⟩ := pure_eq_some h
    exact hS node s b s' hi
  | project type =>
    obtain ⟨_, _, hg, h⟩ := bind_eq_some h
    cases hg
    dsimp only at h
    split at h
    · cases h; exact ⟨rfl, rfl⟩
    · obtain ⟨b, _, hr, h⟩ := bind_eq_some h
      obtain ⟨-, rfl⟩ := pure_eq_some h
      exact .of_kept (ask_keeps n (.resultAt type _) rfl _ _ _ _ hr)

theorem infer_sameScope (n : Nat) (node : Node) (s : Session) (a : Option Ty) (s' : Session)
    (h : (ofBudget n).infer node ctx s = some (a, s')) : SameScope s s' := by
  induction n generalizing node s a s' with
  | zero => cases h
  | succ n ih =>
    have h : infer (ofBudget n) node ctx s = some (a, s') := h
    rw [run_infer] at h
    split at h
    · cases h; exact ⟨rfl, rfl⟩
    · obtain ⟨r, _, hg, h⟩ := inferFresh_cases h
      have hrequest : ∀ s a s', requestInference (ofBudget n) node ctx s = some (a, s') →
          SameScope s s' := by
        intro s a _ h
        rw [run_requestInference] at h
        split at h
        · cases h; exact ⟨rfl, rfl⟩
        · have hr := runInference_sameScope ih h
          exact ⟨hr.1, hr.2⟩
      have hguard := withGuard_sameScope hrequest hg
      rcases h with ⟨-, -, rfl⟩ | ⟨type, bound, -, -, hsub⟩
      · exact hguard
      · have hk := ask_keeps n (.substitute type (.scope node)) rfl _ _ _ _ hsub
        exact (hguard.trans (record_sameScope ..)).trans (.of_kept hk)

theorem infer_recorded {a : Ty} (hr : s.records ctx = true) (h : (ofBudget n).infer node ctx s = some (some a, s1)) :
    ∃ type, (ofBudget n).infer node ctx s1 = some (some type, s1) ∧
      ((s.inferred[node]? = some type ∧ a = type) ∨
        (s.inferred[node]? = none ∧ ∃ m s0, n = m + 1 ∧ s0.inferred[node]? = some type ∧
          (ofBudget m).substitute type (.scope node) ctx s0 = some (a, s1))) := by
  cases n with
  | zero => cases h
  | succ m =>
    have hr1 : s1.records ctx = true := by rw [(infer_sameScope _ node s _ s1 h).records, hr]
    have h : infer (ofBudget m) node ctx s = some (some a, s1) := h
    cases hk : s.inferred[node]? with
    | some =>
      rw [infer_kept hr hk] at h
      cases h
      exact ⟨a, infer_kept hr hk, .inl ⟨rfl, rfl⟩⟩
    | none =>
      rw [infer_fresh fun _ => hk, hr] at h
      obtain ⟨r, s0, -, h⟩ := inferFresh_cases h
      rcases h with ⟨-, ha, -⟩ | ⟨type, bound, -, ha, hsub⟩
      · cases ha
      · cases ha
        have hstored : (record true node type s0).inferred[node]? = some type := by
          show (s0.inferred.insert node type)[node]? = _
          exact Std.TreeMap.getElem?_insert_self
        have hkept := ask_keeps m (.substitute type (.scope node)) rfl _ _ _ _ hsub
        have hstored1 : s1.inferred[node]? = some type := by rw [hkept.inferred, hstored]
        exact ⟨type, infer_kept hr1 hstored1, .inr ⟨rfl, m, _, rfl, hstored, hsub⟩⟩

end Rule

/-- With all values wanted, asking for the type of an expression again has the first answer, but for one
case: the first answer was just found, and what it was before the names in it were bound in the scope of
the expression is the second one. -/
theorem infer_again {ctx : Context} {n : Nat} {node : Node} {s s₁ : Session} {a : Option Ty}
    (hr : s.records ctx = true) (h : (Solver.ofBudget n).infer node ctx s = some (a, s₁)) :
    ∃ a₂ s₂, (Solver.ofBudget n).infer node ctx s₁ = some (a₂, s₂) ∧
      (a₂ = a ∨ (s.inferred[node]? = none ∧ ∃ type bound m s₀, a₂ = some type ∧ a = some bound ∧
        n = m + 1 ∧ s₀.inferred[node]? = some type ∧
        (Solver.ofBudget m).substitute type (.scope node) ctx s₀ = some (bound, s₁))) := by
  cases a with
  | none =>
    obtain ⟨hk, hagain⟩ := Rule.infer_barren n node s s₁ h
    obtain ⟨s₂, h₂⟩ := hagain s₁ hk
    exact ⟨none, s₂, h₂, .inl rfl⟩
  | some a =>
    obtain ⟨type, h₂, ⟨-, rfl⟩ | ⟨hnew, m, s₀, hn, hs₀, hsub⟩⟩ := Rule.infer_recorded hr h
    · exact ⟨some a, s₁, h₂, .inl rfl⟩
    · exact ⟨some type, s₁, h₂, .inr ⟨hnew, type, a, m, s₀, rfl, rfl, hn, hs₀, hsub⟩⟩

/-- A class `T`, `⟨10⟩`, and a type parameter of that name, `⟨11⟩`. -/
def scopedTypes : TypeTable := .ofForms ["T", "T@f"] [.classRef ⟨3⟩ {}, .param ⟨4⟩ ⟨3⟩ none]

/-- An expression of the type `T`, where `T` is a type parameter. -/
def scopedDeclarations : Declarations :=
  (Declarations.empty.setNodeType ⟨7⟩ ⟨10⟩).addScoped ⟨7⟩ ⟨3⟩ ⟨11⟩

def scopedContext : Context := { provider := scopedDeclarations.provider }

def scopedStart : Session := { Session.start scopedTypes Limits.standard with position := allResults }

/-- The first answer is the type parameter, and the second one the class. -/
theorem infer_again_scoped : scopedStart.records scopedContext = true ∧
    ∃ s₁ s₂, (Solver.ofBudget 3).infer ⟨7⟩ scopedContext scopedStart = some (some ⟨11⟩, s₁) ∧
      (Solver.ofBudget 3).infer ⟨7⟩ scopedContext s₁ = some (some ⟨10⟩, s₂) ∧
      ∃ m s₀, 3 = m + 1 ∧ s₀.inferred[(⟨7⟩ : Node)]? = some ⟨10⟩ ∧
        (Solver.ofBudget m).substitute ⟨10⟩ (.scope ⟨7⟩) scopedContext s₀ = some (⟨11⟩, s₁) := by
  have hr : scopedStart.records scopedContext = true := by decide
  have hfirst : ((Solver.ofBudget 3).infer ⟨7⟩ scopedContext scopedStart).map Prod.fst =
      some (some ⟨11⟩) := by decide
  have hsecond : ((Solver.ofBudget 3).infer ⟨7⟩ scopedContext scopedStart).bind (fun r =>
      ((Solver.ofBudget 3).infer ⟨7⟩ scopedContext r.2).map Prod.fst) = some (some ⟨10⟩) := by decide
  obtain ⟨⟨a, s₁⟩, h₁, rfl⟩ := Option.map_eq_some_iff.1 hfirst
  obtain ⟨a₂, s₂, h₂, hcases⟩ := infer_again hr h₁
  rw [h₁, Option.bind_some, h₂] at hsecond
  obtain rfl : a₂ = some ⟨10⟩ := Option.some.inj hsecond
  rcases hcases with hsame | ⟨-, type, bound, m, s₀, htype, hbound, hm, hs₀, hsub⟩
  · cases hsame
  · cases htype
    cases hbound
    exact ⟨hr, s₁, s₂, h₁, h₂, m, s₀, hm, hs₀, hsub⟩

end AnnotatedLua
