/-
Queries that nothing limits (`Session.Free`). The guard admits whatever is not under way already, so a query may have
one answer from a session on (`Session.Always`). What holds of the answer there holds of every answer that nothing
stopped (`Session.sure_of_ends`).
-/
import AnnotatedLua.Proofs.Termination.Name
import AnnotatedLua.Proofs.Union.Atoms

namespace AnnotatedLua

open Solve Solver List

variable {s u : Session} {ctx : Context} {ty : Ty} {α ξ : Type} {room n : Nat} {activity : Activity} {subject : Subject}

/-! ## Sessions without limits -/

/-- Nothing stops a query that goes at most `room` levels deeper. -/
structure Session.Free (ctx : Context) (s : Session) (room : Nat) : Prop where
  types : s.types.WF
  uncancelled : ctx.cancellable = false
  requests : Guard.counterMax ≤ s.guard.limits.iterations
  depth : s.guard.depth + room ≤ s.guard.limits.depth

namespace Session

variable {key : GuardKey}

/-- The session in which an activity is under way that the guard has admitted. -/
def entered (s : Session) (key : GuardKey) : Session := { s with guard := (s.guard.enter key).2 }

theorem entered_from (hw : s.types.WF) : (s.entered key).From ctx s := ⟨hw, .refl _, rfl, rfl⟩

theorem Free.later (h : s.Free ctx room) (hu : u.Past ctx s) : u.Free ctx room where
  types := hu.types
  uncancelled := h.uncancelled
  requests := by rw [hu.kept.limits]; exact h.requests
  depth := by rw [hu.kept.limits, hu.kept.depth]; exact h.depth

theorem Free.enter (h : s.Free ctx (room + 1)) (hkey : key ∉ s.guard.active) :
    s.guard.enter key = (.entered, { s.guard.count with active := key :: s.guard.active, depth := s.guard.depth + 1 }) := by
  have hrequests := h.requests
  have hdepth := h.depth
  unfold Guard.enter Guard.count Guard.isActive
  dsimp only
  rw [if_neg (by omega), if_neg (by omega), if_neg (by simpa using hkey)]

theorem Free.entered (h : s.Free ctx (room + 1)) (hkey : key ∉ s.guard.active) : (s.entered key).Free ctx room := by
  have hdepth := h.depth
  unfold Session.entered
  rw [h.enter hkey]
  exact ⟨h.types, h.uncancelled, h.requests, by simp only [Guard.count]; omega⟩

theorem Past.entered (hu : u.Past ctx s) (hs : s.Free ctx (room + 1)) (hkey : key ∉ s.guard.active) :
    (u.entered key).Past ctx (s.entered key) := by
  have hk := hu.kept
  have hused := hk.used
  unfold Session.entered
  rw [hs.enter hkey, (hs.later hu).enter (by rw [hk.active]; exact hkey)]
  refine ⟨{ hu with }, { hk with active := ?_, depth := ?_, used := ?_ }⟩
  · exact congrArg (key :: ·) hk.active
  · exact congrArg (· + 1) hk.depth
  · simp only [Guard.used, Guard.count] at hused ⊢
    omega

def Avoids (s : Session) (activity : Activity) : Prop := ∀ key ∈ s.guard.active, key.activity ≠ activity

theorem Avoids.not_active (h : s.Avoids activity) : guardKey ctx s activity subject ∉ s.guard.active :=
  fun hmem => h _ hmem rfl

theorem Avoids.later (h : s.Avoids activity) (hu : u.Past ctx s) : u.Avoids activity := by
  unfold Avoids
  rw [hu.kept.active]
  exact h

theorem Avoids.entered (h : s.Avoids activity) (hs : s.Free ctx (room + 1))
    (hkey : key ∉ s.guard.active) (hne : key.activity ≠ activity) : (s.entered key).Avoids activity := by
  unfold Avoids Session.entered
  rw [hs.enter hkey]
  exact forall_mem_cons.2 ⟨hne, h⟩

end Session

/-! ## Answers from a session on -/

/-- The query ends with this answer, from the session on. -/
def Session.Always (ctx : Context) (s : Session) {α : Type} (m : Solver → Solve α) (a : α) : Prop :=
  ∀ u : Session, u.Past ctx s → u.Ends ctx m fun b _ => b = a

theorem isCanceled_eq (hc : ctx.cancellable = false) (s : Session) : isCanceled ctx s = some (false, s) := by
  show some (ctx.cancellable && s.canceled, s) = _
  rw [hc]
  rfl

namespace Session.Always

variable {β : Type} {m : Solver → Solve α} {a : α}

theorem now (h : s.Always ctx m a) (hw : s.types.WF) : s.Ends ctx m fun b _ => b = a := h s (.of_wf hw)

theorem later (h : s.Always ctx m a) (hu : u.Past ctx s) : u.Always ctx m a :=
  fun v hv => h v (hu.trans hv)

theorem pure (a : α) : s.Always ctx (fun _ => Pure.pure a) a := fun _ hu => .pure hu.types rfl

variable {f : Solver → α → Solve β}

theorem after {b : β} (hm : s.Always ctx m a) (hf : s.Always ctx (fun S => f S a) b) :
    s.Always ctx (fun S => m S >>= f S) b := by
  intro u hu
  refine (hm u hu).bind ?_
  rintro _ v hv rfl
  exact hf v (hu.trans hv)

theorem before {Q : β → Session → Prop} (hm : s.Always ctx m a) (hw : s.types.WF)
    (hf : s.Onward ctx (fun S => f S a) Q) : s.Ends ctx (fun S => m S >>= f S) Q := by
  refine (hm.now hw).bind ?_
  rintro _ u hu rfl
  exact hf u hu

theorem ask {q : Query α} (h : s.Always ctx (·.rule q) a) : s.Always ctx (·.ask q) a := fun u hu => (h u hu).asks

theorem ofTypes {f : TypeTable → α} (h : ∀ u : Session, u.Past ctx s → f u.types = a) :
    s.Always ctx (fun _ => Solve.ofTypes f) a :=
  fun u hu => ends_ofTypes hu.types (h u hu)

theorem lookup (hty : s.types.Has ty) : s.Always ctx (fun _ => Solve.lookup ty) (s.types.lookup ty) :=
  .ofTypes fun _ hu => hu.grown.lookup hty

theorem members (hty : s.types.Has ty) : s.Always ctx (fun _ => Solve.members ty) (s.types.members ty) :=
  .ofTypes fun _ hu => hu.grown.members hty

theorem kind (hty : s.types.Has ty) : s.Always ctx (fun _ => Solve.kind ty) (s.types.kind ty) :=
  .ofTypes fun _ hu => hu.kind hty

theorem isCanceled (hc : ctx.cancellable = false) : s.Always ctx (fun _ => Solve.isCanceled) false := by
  intro u hu
  exact ⟨0, false, u, fun _ _ => isCanceled_eq hc u, .of_wf hu.types, rfl⟩

theorem classDecl (name : Symbol) : s.Always ctx (fun _ => Solve.classDecl name) (s.classSeen ctx name) := by
  intro u hu
  rw [← hu.classSeen]
  exact ends_classDecl hu.types name

theorem name (hw : s.types.WF) (hty : s.types.Has ty) : s.Always ctx (fun _ => Solve.name ty) (s.types.name ty) := by
  intro u hu
  rw [← hu.grown.name hw hu.types hty]
  exact ends_name hu.types (hu.grown.has hty)

theorem of_exactly [Value ξ] [Value α] {m : Solver → ξ → Solve α} (hm : Regular m)
    (hc : ctx.cancellable = false) {x : ξ} (h : Finds.Exactly ctx s s.guard.active (m (ofBudget n) x) a) :
    s.Always ctx (m · x) a := by
  intro u hu
  have halong : u.Along ctx s s.guard.active :=
    ⟨hu.toFrom, hu.kept.active, hu.kept.blind, fun h => by rw [hc] at h; cases h⟩
  obtain ⟨⟨b, v⟩, hr⟩ := h.ends trivial u halong
  obtain ⟨hv, hk, hb, -⟩ := h.run u b v halong hr
  have hv' : v.From ctx u :=
    ⟨hv.types, hk.types, hv.classes.trans hu.classes.symm, hv.aliases.trans hu.aliases.symm⟩
  exact ⟨n, b, v, fun _ hn => hm.below hn x _ _ _ hr, ⟨hv', hk⟩, hb⟩

theorem unique {b : α} (h : s.Always ctx m a) (h' : s.Always ctx m b) (hw : s.types.WF) : a = b := by
  obtain ⟨N, _, u, hr, -, rfl⟩ := h.now hw
  obtain ⟨N', _, _, hr', -, rfl⟩ := h'.now hw
  cases (hr (max N N') (le_max_left N N')).symm.trans (hr' (max N N') (le_max_right N N'))
  rfl

theorem answers (h : (s.unlimited 0).Always ctx.uncancelled m a) (hw : s.types.WF) : s.Answers ctx m a := by
  obtain ⟨N, b, u, hr, -, rfl⟩ := h.now hw
  exact ⟨N, u, hr N le_rfl⟩

theorem of_found [Value ξ] [Value α] {base : Session} {m : Solver → ξ → Solve α} (hm : Regular m)
    (hb : base.Sound ctx) {x : ξ} (hx : hb.types.Stores x) (hr : m (ofBudget n) x ctx base = some (a, u))
    (h : s.Since ctx u) : (s.unlimited 0).Always ctx.uncancelled (m · x) a := by
  intro v hv
  have hrun := (hm.uniform (ofBudget n)).unhindered x
  have hu := h.kept.clear h.clear
  have hgoes := (hb.since ((hrun.keeps ctx base a u hr).clear hu)).goes hm hb hx hr hu
  have hs := h.trans hgoes
  obtain ⟨_, -, heased⟩ := hrun.eased ctx base a u hr hu
  obtain ⟨i, e, hguard⟩ : ∃ i e, v.guard = base.guard.eased i 0 e := by
    refine ⟨v.guard.iterations, v.guard.exceeded, ?_⟩
    have hlimits : v.guard.limits = ⟨base.guard.limits.depth, Guard.counterMax⟩ := by
      rw [hv.kept.limits, ← hs.kept.limits]
      rfl
    unfold Guard.eased
    rw [← hs.kept.active, ← hs.kept.depth, Nat.add_zero, ← hlimits]
    exact congrArg₂ (fun active depth => Guard.mk _ active depth _ _) hv.kept.active hv.kept.depth
  obtain ⟨j, hj, -⟩ := heased i 0 e
  have hb' : base.Sound ctx.uncancelled := { hb with }
  -- the run that found it goes in step with one from the session
  have hleft : (base.eased i 0 e).From ctx.uncancelled base := ⟨hb.types, .refl _, rfl, rfl⟩
  have hright : v.From ctx.uncancelled base :=
    ⟨hv.types, hs.grown.trans hv.grown, hv.classes.trans hs.classes, hv.aliases.trans hs.aliases⟩
  have : hb.types.self.After (TypeTable.pairing hleft.types hright.types) :=
    TypeTable.pairing_after hleft.grown hright.grown
  have htwins : Twins ctx.uncancelled base (fun _ => True) (base.eased i 0 e) v := by
    refine ⟨hleft, hright, ?_, ?_, hv.kept.position.trans hs.kept.position, hv.kept.blind.trans hs.kept.blind,
      fun _ _ _ => .inr trivial⟩
    · rw [hguard]
      have : Same hb.types.self base.guard base.guard := hb.guard
      exact Same.get _ (Guard.mk _ _ _ _ _) (Guard.mk _ _ _ _ _)
    · rw [hv.kept.expanding.trans hs.kept.expanding]
      exact hb.expanding.upTo _
  have hrespects := (Twins.logic hb' rfl fun _ => True).respects_ofBudget n
  have := Same.upTo hx htwins.pairing
  have hag := hm ⟨Twins.logic hb' rfl fun _ => True, trivial⟩ _ _ hrespects htwins.pairing x x
  rcases @hag _ _ htwins (.refl _) with ⟨hnone, -⟩ | ⟨b, b', w, w', hw, hw', k, -, hsame⟩
  · cases hnone.symm.trans hj
  · cases hw.symm.trans hj
    have hkept := hrun.keeps _ _ _ _ hw'
    -- what the second run stored comes on top of what the first one did
    have : k.pairing.After .eq := TypeTable.pairing_after_eq (h.grown.trans (hv.grown.trans hkept.types))
    obtain rfl := same_eq_iff.1 (hsame.upTo .eq)
    refine ⟨n, _, w', fun _ hn => hm.below hn x _ _ _ hw', ⟨⟨k.right.types, hkept.types, ?_, ?_⟩, hkept⟩, rfl⟩
    · exact k.right.classes.trans hright.classes.symm
    · exact k.right.aliases.trans hright.aliases.symm

/-! ### Truth values -/

theorem ite {p : Prop} [Decidable p] {m m' : Solver → Solve α} (hm : p → s.Always ctx m a)
    (hm' : ¬ p → s.Always ctx m' a) : s.Always ctx (fun S => if p then m S else m' S) a :=
  fun u hu => .ite (fun hp => hm hp u hu) fun hp => hm' hp u hu

variable {b b' : Bool}

theorem orElse {m m' : Solver → Solve Bool} (hm : s.Always ctx m b) (hm' : s.Always ctx m' b') :
    s.Always ctx (fun S => m S >>= fun found => if found then Pure.pure true else m' S) (b || b') := by
  refine hm.after ?_
  cases b with
  | true => exact .pure true
  | false => exact hm'

theorem orM {m m' : Solver → Solve Bool} (hm : s.Always ctx m b) (hm' : s.Always ctx m' b') :
    s.Always ctx (fun S => m S <||> m' S) (b || b') := by
  refine hm.after ?_
  cases b with
  | true => exact .pure true
  | false => exact hm'

section
variable {l : List β} {f : Solver → β → Solve Bool} {g : β → Bool} (hf : ∀ x ∈ l, s.Always ctx (fun S => f S x) (g x))
include hf

theorem anyM : s.Always ctx (fun S => l.anyM (f S)) (l.any g) :=
  fun _ hu => ends_anyM_eq hu.types fun x hx _ hv => hf x hx _ (hu.trans hv)

theorem allM : s.Always ctx (fun S => l.allM (f S)) (l.all g) := by
  simp only [allM_eq_not_anyM_not, map_eq_pure_bind, all_eq_not_any_not]
  exact .after (anyM fun x hx => .after (hf x hx) (.pure _)) (.pure _)

theorem filterM : s.Always ctx (fun S => l.filterM (f S)) (l.filter g) := by
  induction l with
  | nil => exact .pure []
  | cons x rest ih =>
    obtain ⟨hx, hrest⟩ := forall_mem_cons.1 hf
    simp only [filterM_cons]
    refine hx.after ((ih hrest).after ?_)
    cases hg : g x with
    | true => simpa [hg] using .pure _
    | false => simpa [hg] using .pure _
end

theorem guarded {m : Solver → Solve Bool}
    (hs : s.Free ctx (room + 1)) (hkey : guardKey ctx s activity subject ∉ s.guard.active)
    (hm : (s.entered (guardKey ctx s activity subject)).Always ctx m b) :
    s.Always ctx (fun S => do
      let answer ← withGuard activity subject (m S)
      return answer.getD false) b := by
  intro u hu
  have hsame : guardKey ctx u activity subject = guardKey ctx s activity subject := by
    unfold guardKey
    rw [hu.kept.blind]
  have hkey' : guardKey ctx u activity subject ∉ u.guard.active := by
    rw [hsame, hu.kept.active]
    exact hkey
  have hrun := hm _ (hu.entered hs hkey)
  rw [← hsame] at hrun
  refine (ends_entered (by rw [(hs.later hu).enter hkey']) hrun).bind ?_
  rintro _ v hv ⟨c, rfl, rfl⟩
  exact .pure hv.types rfl

end Session.Always

/-! ## Answers that nothing stopped -/

/-- There is an answer where nothing limits the query, and every answer that nothing stopped has `Q`, like that one. -/
def Session.Sure (ctx : Context) (s : Session) {α : Type} (m : Solver → Solve α) (Q : α → TypeTable → Prop) : Prop :=
  (∃ n a u, m (ofBudget n) ctx.uncancelled (s.unlimited 0) = some (a, u) ∧ Q a u.types) ∧
  ∀ n a u, m (ofBudget n) ctx s = some (a, u) → u.Clear ctx → Q a u.types

theorem Session.sure_of_ends [Value ξ] [Value α] {m : Solver → ξ → Solve α}
    (hm : Regular m) {x : ξ} {Q : α → TypeTable → Prop}
    (h : (s.unlimited 0).Ends ctx.uncancelled (m · x) fun a u => Q a u.types) : s.Sure ctx (m · x) Q := by
  obtain ⟨N, a, u, hr, -, ha⟩ := h
  refine ⟨⟨N, a, u, hr N (le_refl N), ha⟩, fun n b v hv hclear => ?_⟩
  obtain ⟨k, -, hfree⟩ := ((hm.uniform (ofBudget n)).unhindered x).run ctx s b v hv hclear
  have hmax := hm.below (le_max_left n N) x _ _ _ (hfree 0)
  cases hmax.symm.trans (hr (max n N) (le_max_right n N))
  exact ha

/-- An answer that nothing stopped has `Q`. -/
theorem Session.Sure.of_run {m : Solver → Solve α} {Q : α → TypeTable → Prop} (h : s.Sure ctx m Q) (n : Nat)
    (hrun : (m (ofBudget n) ctx s).map (fun r => (r.2.guard.exceeded, r.2.canceled)) = some (false, false)) :
    ∃ a u, m (ofBudget n) ctx s = some (a, u) ∧ Q a u.types := by
  obtain ⟨⟨a, u⟩, hr, hu⟩ := Option.map_eq_some_iff.1 hrun
  obtain ⟨hexceeded, hcanceled⟩ := Prod.mk.inj hu
  exact ⟨a, u, hr, h.2 n a u hr ⟨hexceeded, by rw [hcanceled, Bool.and_false]⟩⟩

/-! ## Types at rest -/

namespace Session.Always

variable (hc : ctx.cancellable = false)
include hc

theorem resolvePending {pending visited out : List Ty} (hone : ∀ z ∈ pending, s.Always ctx (·.resolveOne z) z)
    (hnodup : (out ++ pending).Nodup) (hvisited : ∀ z ∈ pending, z ∉ visited) (j : Nat) :
    s.Always ctx (fun S => S.resolvePending (S.budget - j) pending visited out) (out ++ pending) := by
  induction pending generalizing visited out j with
  | nil =>
    refine fun u hu => ends_budget (F := fun S k => S.resolvePending k [] visited out) ?_
    exact .pure hu.types (append_nil out).symm
  | cons z pending ih =>
    obtain ⟨hz, hone⟩ := forall_mem_cons.1 hone
    obtain ⟨hzv, hvisited⟩ := forall_mem_cons.1 hvisited
    have hzo : z ∉ out := by grind
    rw [append_cons] at hnodup ⊢
    have hrest := ih hone hnodup (show ∀ x ∈ pending, x ∉ z :: visited by grind) (j + 1)
    have hstep : s.Always ctx (fun S => S.resolvePending (S.budget - (j + 1) + 1) (z :: pending) visited out)
        (out ++ [z] ++ pending) := by
      refine (Always.isCanceled hc).after ?_
      refine .ite (fun h => absurd h Bool.false_ne_true) fun _ => .ite (fun h => ?_) fun _ => ?_
      · exact absurd (contains_iff_mem.1 h) hzv
      · refine hz.after (.ite (fun _ => ?_) fun h => absurd rfl h)
        rw [if_neg (by simpa using hzo)]
        exact hrest
    exact fun u hu => ends_budget (F := fun S k => S.resolvePending k (z :: pending) visited out) (hstep u hu)

section
variable (hw : s.types.WF) (hty : s.types.Has ty) (hone : ∀ z ∈ s.types.members ty, s.Always ctx (·.resolveOne z) z)
  (hnodup : (s.types.members ty).Nodup) (hself : 1 < (s.types.members ty).length → ty ∉ s.types.members ty)
include hw hty hone hnodup hself

theorem resolves : s.Always ctx (·.resolvedMembers ty) (s.types.members ty) ∧ s.Always ctx (·.resolve ty) ty := by
  have hwill {u : Session} (hu : u.Past ctx s) : u.Stops ctx fun S => (s.types.members ty).anyM S.willResolve :=
    ends_anyM hu.types fun z hz v hv => ends_willResolve_has hv.types ((hu.trans hv).grown.has (hw.member_has hty hz))
  have hmembers : s.Always ctx (·.resolvedMembers ty) (s.types.members ty) := by
    refine (Always.members hty).after fun u hu => (hwill hu).bind fun any v hv _ => .early hv.types rfl fun _ => ?_
    exact resolvePending hc hone (show ([] ++ s.types.members ty).Nodup from hnodup) (by grind) 0 v (hu.trans hv)
  refine ⟨hmembers, (Always.members hty).after fun u hu => (hwill hu).bind fun any v hv _ =>
    .early hv.types rfl fun _ => (hmembers v (hu.trans hv)).bind ?_⟩
  rintro _ w hw rfl
  exact .ite (fun _ => .pure hw.types rfl) fun h => absurd (by simp) h

theorem resolve : s.Always ctx (·.resolve ty) ty := (resolves hc hw hty hone hnodup hself).2
end

end Session.Always

end AnnotatedLua
