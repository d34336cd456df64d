/-
How two plain types are compared, one rule at a time. The comparison of two shapes comes down to whether
they are equal, and to their members; any other two plain types are related only if they are the same.
-/
import AnnotatedLua.Proofs.Shape.Plain

namespace AnnotatedLua

open Solve
open Solver (ofBudget)
open TypeTable (has_of)

variable {P Q P' : Prop} {target source : Ty} {kind : Primitive} {m : Solve Bool} {decl : ClassDecl}

namespace Declarations

/-! ## Answers -/

/-- The query has an answer. It is `true` if `P` holds; and if it is `true` and no limit was reached,
then `Q` holds. -/
def Answers (d : Declarations) (t : TypeTable) (s : Session) (m : Solve Bool) (P Q : Prop) : Prop :=
  ∃ b s', m d.context s = some (b, s') ∧ d.Reads t s' ∧ (P → b = true) ∧
    (b = true → s'.guard.exceeded = false → Q)

variable {d : Declarations} {t : TypeTable} {α : Type} {s : Session}

namespace Answers

theorem of_true (hm : d.Yields t m true) (hs : d.Reads t s) (hQ : Q) : d.Answers t s m P Q := by
  obtain ⟨s', h, hs', -⟩ := hm.run hs
  exact ⟨true, s', h, hs', fun _ => rfl, fun _ _ => hQ⟩

theorem of_false (hm : d.Yields t m false) (hs : d.Reads t s) (hP : ¬ P) : d.Answers t s m P Q := by
  obtain ⟨s', h, hs', -⟩ := hm.run hs
  exact ⟨false, s', h, hs', fun h => absurd h hP, fun h => by cases h⟩

theorem imp {Q' : Prop} (h : d.Answers t s m P' Q') (hP : P → P') (hQ : Q' → Q) : d.Answers t s m P Q := by
  obtain ⟨b, s', hm, hs', hc, hsound⟩ := h
  exact ⟨b, s', hm, hs', fun hp => hc (hP hp), fun hb hex => hQ (hsound hb hex)⟩

theorem step {m : Solve α} {a : α} {f : α → Solve Bool} (hm : d.Yields t m a) (hs : d.Reads t s)
    (hf : ∀ s1, d.Reads t s1 → s.Kept s1 → d.Answers t s1 (f a) P Q) : d.Answers t s (m >>= f) P Q := by
  obtain ⟨s1, h₁, hs1, hk1⟩ := hm.run hs
  obtain ⟨b, s', h, hrest⟩ := hf s1 hs1 hk1
  exact ⟨b, s', (run_bind h₁).trans h, hrest⟩

theorem orElse {rest : Solve Bool} (hk : Keeps m) (hm : d.Answers t s m P' Q)
    (hrest : ∀ s1, d.Reads t s1 → s.Kept s1 → d.Answers t s1 rest P Q) :
    d.Answers t s (m >>= fun b => if b then pure true else rest) P Q := by
  obtain ⟨b, s1, h₁, hs1, -, hsound⟩ := hm
  cases b with
  | true => exact ⟨true, s1, run_bind h₁, hs1, fun _ => rfl, hsound⟩
  | false =>
    obtain ⟨b, s', h, hr⟩ := hrest s1 hs1 (hk _ _ _ _ h₁)
    exact ⟨b, s', (run_bind h₁).trans h, hr⟩

end Answers

/-! ## Comparisons -/

section
variable (hd : d.PlainShapes t)
include hd

theorem guarded_cases (hs : d.Reads t s) (activity : Activity) (subject : Subject) (m : Solve α) :
    (s.guard.depth < s.guard.limits.depth ∧ withGuard activity subject m d.context s =
      (m d.context { s with guard := { s.guard.count with
        active := ⟨activity, false, subject⟩ :: s.guard.active, depth := s.guard.depth + 1 } }).map
          fun r => (some r.1, { r.2 with guard := r.2.guard.leave ⟨activity, false, subject⟩ })) ∨
    ∃ g : Guard GuardKey, withGuard activity subject m d.context s = some (none, { s with guard := g }) ∧
      (g.exceeded = false → (⟨activity, false, subject⟩ : GuardKey) ∈ s.guard.active) := by
  have hkey : guardKey d.context s activity subject = ⟨activity, false, subject⟩ := by
    unfold guardKey
    rw [blind_eq hd hs]
  rcases Guard.enter_cases s.guard (guardKey d.context s activity subject) with
    ⟨h1, -, hdepth, h2⟩ | ⟨h1, hex, -⟩ | ⟨h1, hactive, -⟩
  · left
    rw [withGuard_entered (Prod.ext h1 h2), hkey]
    exact ⟨hdepth, rfl⟩
  · right
    refine ⟨_, withGuard_refused h1, fun hno => ?_⟩
    rw [hex] at hno
    cases hno
  · right
    refine ⟨_, withGuard_refused h1, fun _ => ?_⟩
    rw [← hkey]
    exact List.contains_iff_mem.1 hactive

theorem yields_isShape_primitive (kind : Primitive) (n : Nat) :
    d.Yields t ((ofBudget (n + 1)).isShape kind.type) false := by
  refine (Yields.lookup (has_of (hd.types.lookup_primitive _))).bind ?_
  rw [hd.types.lookup_primitive]
  exact .pure _

variable {ty : Ty}

theorem yields_superClass_plain (hty : d.PlainType t ty) (n : Nat) :
    d.Yields t ((ofBudget (n + 1)).superClass ty) none := by
  cases hty with
  | primitive =>
    refine (Yields.lookup (has_of (hd.types.lookup_primitive _))).bind ?_
    rw [hd.types.lookup_primitive]
    exact .pure _
  | shape h => exact yields_superClass hd h n

theorem Shape.ne_primitive (hty : d.Shape t ty decl) (kind : Primitive) : ty ≠ kind.type := by
  rintro rfl
  obtain ⟨_, hl, -⟩ := hty
  rw [hd.types.lookup_primitive] at hl
  cases hl

/-- A plain type is neither `any` nor `nil`. -/
theorem PlainType.ne (hty : d.PlainType t ty) : ty.isAny = false ∧ ty.isNil = false := by
  cases hty with
  | primitive kind => cases kind <;> exact ⟨rfl, rfl⟩
  | shape h =>
    obtain ⟨_, hl, -⟩ := h
    have hany : ty ≠ Ty.any := by
      rintro rfl
      cases hl.symm.trans hd.types.lookup_any
    have hnil : ty ≠ Ty.nil := by
      rintro rfl
      cases hl.symm.trans hd.types.lookup_nil
    exact ⟨beq_eq_false_iff_ne.2 hany, beq_eq_false_iff_ne.2 hnil⟩

omit hd in
theorem Shape.unique {decl' : ClassDecl} (h : d.Shape t ty decl) (h' : d.Shape t ty decl') : decl = decl' := by
  obtain ⟨_, hl, hc⟩ := h
  obtain ⟨_, hl', hc'⟩ := h'
  cases hl.symm.trans hl'
  exact Option.some.inj (hc.symm.trans hc')

theorem Shape.eq_of_name {a b : Ty} {name : Symbol} (ha : t.lookup a = .classRef name Marks.shape)
    (hb : t.lookup b = .classRef name Marks.shape) : a = b :=
  hd.types.eq_of_lookup (has_of ha) (has_of hb) (ha.trans hb.symm)

theorem yields_isLenient (hty : d.PlainType t ty) : d.Yields t (Solver.isLenient ty Mode.lenient) false := by
  obtain ⟨hany, hnil⟩ := PlainType.ne hd hty
  exact fun active => Finds.isLenient _ active hany hnil _

section
variable (hsource : d.PlainType t source) (n : Nat)
include hsource

theorem answers_acceptsBase (hs : d.Reads t s)
    (heq : ∀ s', d.Reads t s' → s.Kept s' →
      d.Answers t s' ((ofBudget (n + 1)).equal target source) False Q)
    (hsingle : ∀ s', d.Reads t s' → s.Kept s' → d.Answers t s'
      ((ofBudget (n + 1)).acceptsSingle target source (t.lookup source) Mode.lenient) P Q) :
    d.Answers t s ((ofBudget (n + 1)).acceptsBase target source Mode.lenient) P Q := by
  refine .step (yields_isLenient hd hsource) hs fun s1 hs1 hk1 => ?_
  refine .step (yields_resolve hd hsource n) hs1 fun s2 hs2 hk2 => ?_
  refine .orElse (ask_keeps _ (.equal target source) rfl) (heq s2 hs2 (hk1.trans hk2)) fun s3 hs3 hk3 => ?_
  rw [if_neg (not_not.2 rfl)]
  refine .step (Yields.lookup (PlainType.has hd hsource)) hs3 fun s4 hs4 hk4 => ?_
  have hlast := hsingle s4 hs4 (((hk1.trans hk2).trans hk3).trans hk4)
  cases hsource with
  | primitive => rw [hd.types.lookup_primitive] at hlast ⊢; exact hlast
  | shape h =>
    obtain ⟨_, hl, -⟩ := h
    rw [hl] at hlast ⊢
    exact hlast

theorem yields_acceptsSuper : d.Yields t ((ofBudget (n + 1)).acceptsSuper target source Mode.lenient) false :=
  (yields_superClass_plain hd hsource n).bind (.pure _)

theorem answers_accepts_primitive (hkind : kind = .string ∨ kind = .number ∨ kind = .boolean)
    (hne : kind.type ≠ source) (hP : ¬ P) (hs : d.Reads t s) :
    d.Answers t s ((ofBudget (n + 3)).accepts kind.type source Mode.lenient) P Q := by
  have hequal : d.Yields t ((ofBudget (n + 2)).equal kind.type source) false := by
    show d.Yields t (if kind.type = source then _ else _) _
    rw [if_neg hne]
    refine (Yields.lookup (has_of (hd.types.lookup_primitive _))).bind ?_
    rw [hd.types.lookup_primitive]
    refine (yields_resolve hd hsource n).bind ?_
    have hdec : decide (source = kind.type) = false := decide_eq_false fun h => hne h.symm
    rw [hdec]
    exact .pure _
  have hsingle : d.Yields t ((ofBudget (n + 2)).acceptsSingle kind.type source (t.lookup source)
      Mode.lenient) false := by
    refine Yields.bind (a := false) ?_ (yields_acceptsSuper hd hsource (n + 1))
    cases hsource with
    | primitive => rw [hd.types.lookup_primitive]; exact (Yields.pure _).bind (.pure _)
    | shape h =>
      obtain ⟨name, hl, -⟩ := h
      rw [hl]
      exact (Yields.pure _).bind (yields_isShape_primitive hd kind (n + 1))
  have hother : t.lookup source ≠ .primitive kind := by
    cases hsource with
    | primitive =>
      rw [hd.types.lookup_primitive]
      rintro ⟨⟩
      exact hne rfl
    | shape h =>
      obtain ⟨_, hl, -⟩ := h
      rw [hl]
      nofun
  have hrest : d.Yields t (do
      let resolved ← (ofBudget (n + 2)).resolve source
      let form ← lookup resolved
      if form = .primitive kind then return true
      if Mode.lenient.strictAny then return false
      Solver.acceptsAsPrimitive kind resolved form) false := by
    refine (yields_resolve hd hsource (n + 1)).bind ((Yields.lookup (PlainType.has hd hsource)).bind ?_)
    rw [if_neg hother]
    rcases hkind with rfl | rfl | rfl <;> exact .pure _
  show d.Answers t s (if kind.type = source then _ else _) P Q
  rw [if_neg hne]
  refine .step (Yields.lookup (has_of (hd.types.lookup_primitive _))) hs fun s1 hs1 _ => ?_
  rw [hd.types.lookup_primitive]
  have hbase : d.Answers t s1 ((ofBudget (n + 2)).acceptsBase kind.type source Mode.lenient) P Q :=
    answers_acceptsBase hd hsource (n + 1) hs1 (fun s' hs' _ => .of_false hequal hs' id)
      fun _ hs' _ => .of_false hsingle hs' hP
  exact .orElse (keeps_of_agree (keeps_closed.logic.acceptsBase (keeps_respects _))) hbase
    fun s2 hs2 _ => .of_false hrest hs2 hP

theorem answers_accepts_shape (htarget : d.Shape t target decl) (hne : target ≠ source) (hs : d.Reads t s)
    (heq : ∀ s', d.Reads t s' → s.Kept s' →
      d.Answers t s' ((ofBudget (n + 2)).shapesEqual target source) False Q)
    (hsingle : ∀ s', d.Reads t s' → s.Kept s' → d.Answers t s'
      ((ofBudget (n + 3)).acceptsSingle target source (t.lookup source) Mode.lenient) P Q) :
    d.Answers t s ((ofBudget (n + 4)).accepts target source Mode.lenient) P Q := by
  have hmarks := yields_classMarks hd htarget
  have hresolve := yields_resolve hd (.shape htarget)
  obtain ⟨name, hl, -⟩ := htarget
  have hequal : ∀ s', d.Reads t s' → s.Kept s' →
      d.Answers t s' ((ofBudget (n + 3)).equal target source) False Q := by
    intro s1 hs1 hk1
    show d.Answers t s1 (if target = source then _ else _) False Q
    rw [if_neg hne]
    refine .step (Yields.lookup (has_of hl)) hs1 fun s2 hs2 hk2 => ?_
    rw [hl]
    refine .step (hresolve (n + 1)) hs2 fun s3 hs3 hk3 => ?_
    rw [if_neg (not_not.2 rfl)]
    refine .step (yields_resolve hd hsource (n + 1)) hs3 fun s4 hs4 hk4 => ?_
    show d.Answers t s4 (if source = target then _ else _) False Q
    rw [if_neg (Ne.symm hne)]
    refine .step (Yields.lookup (PlainType.has hd hsource)) hs4 fun s5 hs5 hk5 => ?_
    have hlast := heq s5 hs5 ((((hk1.trans hk2).trans hk3).trans hk4).trans hk5)
    cases hsource with
    | primitive => rw [hd.types.lookup_primitive]; exact hlast
    | shape h =>
      obtain ⟨other, hl', -⟩ := h
      have hname : other ≠ name := by
        rintro rfl
        exact hne (Shape.eq_of_name hd hl hl')
      rw [hl']
      show d.Answers t s5 (if other = name then _ else _) False Q
      rw [if_neg hname]
      exact hlast
  show d.Answers t s (if target = source then _ else _) P Q
  rw [if_neg hne]
  refine .step (Yields.lookup (has_of hl)) hs fun s1 hs1 hk1 => ?_
  rw [hl]
  refine .step hmarks hs1 fun s2 hs2 hk2 => ?_
  refine .step (hresolve (n + 2)) hs2 fun s3 hs3 hk3 => ?_
  rw [if_pos rfl]
  have hk := (hk1.trans hk2).trans hk3
  exact answers_acceptsBase hd hsource (n + 2) hs3 (fun s' hs' hk' => hequal s' hs' (hk.trans hk'))
    fun s' hs' hk' => hsingle s' hs' (hk.trans hk')
end

theorem answers_accepts_of_primitive (htarget : d.Shape t target decl)
    (hkind : kind = .string ∨ kind = .number ∨ kind = .boolean) (n : Nat) (hP : ¬ P) (hs : d.Reads t s) :
    d.Answers t s ((ofBudget (n + 4)).accepts target kind.type Mode.lenient) P Q := by
  have hsource : d.PlainType t kind.type := .primitive kind hkind
  have hshapes : d.Yields t ((ofBudget (n + 2)).shapesEqual target kind.type) false :=
    (yields_isShape hd htarget n).bind ((yields_isShape_primitive hd kind (n + 1)).bind (.pure _))
  have hsingle : d.Yields t ((ofBudget (n + 3)).acceptsSingle target kind.type (t.lookup kind.type)
      Mode.lenient) false := by
    rw [hd.types.lookup_primitive]
    exact ((Yields.pure _).bind (.pure _)).bind (yields_acceptsSuper hd hsource (n + 2))
  exact answers_accepts_shape hd hsource n htarget (Shape.ne_primitive hd htarget kind) hs
    (fun s' hs' _ => .of_false hshapes hs' id) fun _ hs' _ => .of_false hsingle hs' hP
end

end Declarations

end AnnotatedLua
