/-
Queries that come to an end: all budgets from some number on suffice (`Session.Ends`). What is put together from queries
that end ends.
-/
import AnnotatedLua.Proofs.Query.Sound

namespace AnnotatedLua

open Solve Solver List TypeTable

variable {s u : Session} {ctx : Context} {α : Type} {ty : Ty} {p : Prop}

/-! ## Sessions that go on -/

namespace Session.Past

variable {v : Session}

theorem of_wf (hw : s.types.WF) : s.Past ctx s := ⟨⟨hw, .refl _, rfl, rfl⟩, .refl _⟩

theorem trans (h : u.Past ctx s) (h' : v.Past ctx u) : v.Past ctx s :=
  ⟨⟨h'.types, h.grown.trans h'.grown, h'.classes.trans h.classes, h'.aliases.trans h.aliases⟩, h.kept.trans h'.kept⟩

theorem kind (hu : u.Past ctx s) (hty : s.types.Has ty) : u.types.kind ty = s.types.kind ty :=
  kind_of (hu.grown.lookup hty)

end Session.Past

/-- The declaration of a class as a query sees it. -/
def Session.classSeen (ctx : Context) (s : Session) (name : Symbol) : Option ClassDecl :=
  if s.blind || ctx.provider.blind then none else s.classOf ctx name

/-- The type that a name is declared as, as a query sees it. -/
def Session.aliasSeen (ctx : Context) (s : Session) (name : Symbol) : Option Ty :=
  if s.blind || ctx.provider.blind then none else s.aliasOf ctx name

theorem Session.Past.classSeen (h : u.Past ctx s) : u.classSeen ctx = s.classSeen ctx := by
  funext name
  unfold Session.classSeen
  rw [h.kept.blind, h.classes]

theorem Session.Past.aliasSeen (h : u.Past ctx s) : u.aliasSeen ctx = s.aliasSeen ctx := by
  funext name
  unfold Session.aliasSeen
  rw [h.kept.blind, h.aliases]

def Session.Lasting (ctx : Context) (s : Session) {α : Type} (J : α → Session → Prop) : Prop :=
  ∀ a (u v : Session), u.Past ctx s → v.Past ctx u → J a u → J a v

theorem Session.Lasting.later (hu : u.Past ctx s) {J : α → Session → Prop}
    (h : s.Lasting ctx J) : u.Lasting ctx J := fun a v w hv hw => h a v w (hu.trans hv) hw

theorem Session.lasting_has : s.Lasting ctx fun ty u => u.types.Has ty :=
  fun _ _ _ _ hv => hv.grown.has

/-! ## Queries that end -/

def Query.compares {α : Type} : Query α → Bool
  | .accepts .. => true
  | _ => false

/-- A solver for each budget. It answers by the rules, comparisons apart. -/
class Solvers where
  of : Nat → Solver
  budget_of (n : Nat) : (of n).budget = n
  ask_of (n : Nat) {α : Type} (q : Query α) (hq : q.compares = false) : (of (n + 1)).ask q = (of n).rule q

instance Solvers.standard : Solvers where
  of := ofBudget
  budget_of n := by cases n <;> rfl
  ask_of _ _ _ _ := rfl

/-- All budgets from some number on suffice for the query, and its answer has `Q`. -/
def Session.Ends [Solvers] (ctx : Context) (s : Session) {α : Type} (m : Solver → Solve α) (Q : α → Session → Prop) : Prop :=
  ∃ N a u, (∀ n, N ≤ n → m (Solvers.of n) ctx s = some (a, u)) ∧ u.Past ctx s ∧ Q a u

/-- All budgets from some number on suffice for the query. -/
abbrev Session.Stops [Solvers] (ctx : Context) (s : Session) {α : Type} (m : Solver → Solve α) : Prop :=
  s.Ends ctx m fun _ _ => True

/-- The query ends in this way from every later session. -/
abbrev Session.Onward [Solvers] (ctx : Context) (s : Session) {α : Type} (m : Solver → Solve α) (Q : α → Session → Prop) : Prop :=
  ∀ u : Session, u.Past ctx s → u.Ends ctx m Q

theorem Session.Ends.asks {Q : α → Session → Prop} {q : Query α}
    (h : s.Ends ctx (·.rule q) Q) : s.Ends ctx (·.ask q) Q := by
  obtain ⟨N, a, u, hr, hu, ha⟩ := h
  refine ⟨N + 1, a, u, fun n _ => ?_, hu, ha⟩
  obtain ⟨k, rfl⟩ : ∃ k, n = k + 1 := ⟨n - 1, by omega⟩
  exact hr k (by omega)

section
variable [Solvers] {β : Type} {Q : α → Session → Prop}

namespace Session.Ends

variable {m : Solver → Solve α} {Q' : α → Session → Prop}

theorem imp (h : s.Ends ctx m Q) (hQ : ∀ a u, u.Past ctx s → Q a u → Q' a u) : s.Ends ctx m Q' := by
  obtain ⟨N, a, u, hr, hu, ha⟩ := h
  exact ⟨N, a, u, hr, hu, hQ a u hu ha⟩

theorem stops (h : s.Ends ctx m Q) : s.Stops ctx m := h.imp fun _ _ _ _ => trivial

theorem pure (hw : s.types.WF) {a : α} (h : Q a s) : s.Ends ctx (fun _ => Pure.pure a) Q :=
  ⟨0, a, s, fun _ _ => rfl, .of_wf hw, h⟩

theorem bind {f : Solver → α → Solve β} {R : β → Session → Prop} (hm : s.Ends ctx m Q)
    (hf : ∀ a u, u.Past ctx s → Q a u → u.Ends ctx (fun S => f S a) R) : s.Ends ctx (fun S => m S >>= f S) R := by
  obtain ⟨N, a, u, hr, hu, ha⟩ := hm
  obtain ⟨N', b, v, hr', hv, hb⟩ := hf a u hu ha
  refine ⟨max N N', b, v, fun n _ => ?_, hu.trans hv, hb⟩
  exact (run_bind (hr n (by omega))).trans (hr' n (by omega))

theorem ite [Decidable p] {m m' : Solver → Solve α} (hm : p → s.Ends ctx m Q) (hm' : ¬ p → s.Ends ctx m' Q) :
    s.Ends ctx (fun S => if p then m S else m' S) Q := by
  by_cases hp : p
  · simpa only [if_pos hp] using hm hp
  · simpa only [if_neg hp] using hm' hp

theorem early [Decidable p] {m : Solver → Solve α} {a : α} (hw : s.types.WF) (ha : Q a s)
    (hm : ¬ p → s.Ends ctx m Q) : s.Ends ctx (fun S => if p then Pure.pure a else m S) Q :=
  .ite (fun _ => .pure hw ha) hm

theorem ask {q : Query α} (hq : q.compares = false) (h : s.Ends ctx (·.rule q) Q) : s.Ends ctx (·.ask q) Q := by
  obtain ⟨N, a, u, hr, hu, ha⟩ := h
  refine ⟨N + 1, a, u, fun n _ => ?_, hu, ha⟩
  obtain ⟨k, rfl⟩ : ∃ k, n = k + 1 := ⟨n - 1, by omega⟩
  exact (congrArg (· ctx s) (Solvers.ask_of k q hq)).trans (hr k (by omega))

theorem all {ι : Type} [Nonempty ι] {m : Solver → Solve α} {Q : ι → α → Session → Prop} (h : ∀ i, s.Ends ctx m (Q i)) :
    s.Ends ctx m fun a u => ∀ i, Q i a u := by
  obtain ⟨N, a, u, hr, hu, -⟩ := h (Classical.arbitrary ι)
  refine ⟨N, a, u, hr, hu, fun i => ?_⟩
  obtain ⟨N', _, _, hr', -, ha⟩ := h i
  cases (hr (max N N') (le_max_left ..)).symm.trans (hr' (max N N') (le_max_right ..))
  exact ha

theorem and (h : s.Ends ctx m Q) (h' : s.Ends ctx m Q') : s.Ends ctx m fun a u => Q a u ∧ Q' a u := by
  have hboth : s.Ends ctx m fun a u => ∀ b : Bool, if b then Q a u else Q' a u :=
    all fun b => by cases b <;> assumption
  exact hboth.imp fun a u _ hq => ⟨hq true, hq false⟩

section
variable {m m' : Solver → Solve Bool} (hm : s.Stops ctx m) (hm' : ∀ u : Session, u.Past ctx s → u.Stops ctx m')
include hm hm'

theorem orM : s.Stops ctx (fun S => m S <||> m' S) := by
  refine hm.bind fun b u hu _ => ?_
  cases b with
  | true => exact .pure hu.types trivial
  | false => exact hm' u hu

theorem andM : s.Stops ctx (fun S => m S <&&> m' S) := by
  refine hm.bind fun b u hu _ => ?_
  cases b with
  | true => exact hm' u hu
  | false => exact .pure hu.types trivial
end

theorem guard (hw : s.types.WF) {b : Bool} {m : Solver → Solve Bool} {Q : Bool → Session → Prop}
    (hm : b = true → s.Ends ctx m Q) (hfalse : b = false → Q false s) : s.Ends ctx (fun S => Pure.pure b <&&> m S) Q := by
  cases b with
  | true => exact hm rfl
  | false => exact .pure hw (hfalse rfl)

end Session.Ends

/-! ## Steps -/

section
variable (hw : s.types.WF)
include hw

theorem ends_ofTypes {f : TypeTable → α} (h : Q (f s.types) s) : s.Ends ctx (fun _ => ofTypes f) Q :=
  ⟨0, f s.types, s, fun _ _ => rfl, .of_wf hw, h⟩

theorem ends_lookup (ty : Ty) : s.Ends ctx (fun _ => lookup ty) fun form u => s = u ∧ form = s.types.lookup ty :=
  ends_ofTypes hw ⟨rfl, rfl⟩

theorem Session.Ends.lookup {f : Solver → Form → Solve α} (ty : Ty)
    (h : ∀ form, form = s.types.lookup ty → s.Ends ctx (f · form) Q) : s.Ends ctx (fun S => Solve.lookup ty >>= f S) Q := by
  refine (ends_lookup hw ty).bind ?_
  rintro form _ - ⟨rfl, hform⟩
  exact h form hform

theorem ends_members (ty : Ty) : s.Ends ctx (fun _ => members ty) fun l u => s = u ∧ l = s.types.members ty :=
  ends_ofTypes hw ⟨rfl, rfl⟩

theorem ends_isCanceled : s.Stops ctx fun _ => isCanceled :=
  ⟨0, _, s, fun _ _ => rfl, .of_wf hw, trivial⟩

theorem ends_settings : s.Stops ctx fun _ => settings := ⟨0, _, s, fun _ _ => rfl, .of_wf hw, trivial⟩

theorem ends_looked {b : Bool} {m : Solve (Option α)} {found : Option α} {v : Session} (hm : Keeps m)
    (hr : m ctx s = some (if b then (none, s) else (found, v))) (hv : v.From ctx s) :
    s.Ends ctx (fun _ => m) fun r _ => r = if b then none else found := by
  cases b with
  | true => exact ⟨0, none, s, fun _ _ => hr, .of_wf hw, rfl⟩
  | false => exact ⟨0, found, v, fun _ _ => hr, ⟨hv, hm ctx s _ _ hr⟩, rfl⟩

theorem ends_classDecl (name : Symbol) : s.Ends ctx (fun _ => classDecl name) fun found _ => found = s.classSeen ctx name :=
  ends_looked hw (keeps_classDecl name) (classDecl_eq_look name) ((Session.Past.of_wf hw).toFrom.lookClass name)

theorem ends_aliasType (name : Symbol) : s.Ends ctx (fun _ => aliasType name) fun found _ => found = s.aliasSeen ctx name :=
  ends_looked hw (keeps_aliasType name) (aliasType_eq_look name) ((Session.Past.of_wf hw).toFrom.lookAlias name)

omit hw in
theorem ends_store {act : Interning α} (hx : s.types.Extends (act s.types).2) (hw : (act s.types).2.WF) :
    s.Ends ctx (fun _ => store act) fun a u => a = (act s.types).1 ∧ u.types = (act s.types).2 :=
  ⟨0, (act s.types).1, { s with types := (act s.types).2 }, fun _ _ => rfl,
    ⟨⟨hw, hx, rfl, rfl⟩, ⟨hx, rfl, rfl, rfl, le_refl _, rfl, rfl, rfl, rfl, rfl, id, id⟩⟩, rfl, rfl⟩

theorem ends_intern {form : Form} (hform : s.types.Holds form) :
    s.Ends ctx (fun _ => intern form) fun r u => u.types.Has r ∧ u.types.lookup r = form := by
  refine (ends_store (s.types.intern_extends form) (hw.intern hform)).imp ?_
  rintro r u - ⟨rfl, hu⟩
  rw [hu]
  exact ⟨intern_has _ _, lookup_of_form (intern_form _ _)⟩

theorem ends_name (hty : s.types.Has ty) : s.Ends ctx (fun _ => name ty) fun r _ => r = s.types.name ty := by
  have hx := keepName_extends s.types ty
  refine (ends_store hx (hw.keepName hty)).imp fun r u _ h => h.1.trans ?_
  exact hx.name hw (hw.keepName hty) hty

def Session.room (s : Session) : Nat := s.guard.limits.depth - s.guard.depth

variable {m : Solver → Solve α}

omit hw in
theorem ends_entered {Q : α → Prop} {activity : Activity} {subject : Subject}
    (he : (s.guard.enter (guardKey ctx s activity subject)).1 = .entered)
    (hm : Session.Ends ctx { s with guard := (s.guard.enter (guardKey ctx s activity subject)).2 } m fun a _ => Q a) :
    s.Ends ctx (fun S => withGuard activity subject (m S)) fun r _ => ∃ a, r = some a ∧ Q a := by
  obtain ⟨N, a, u, hr, hu, ha⟩ := hm
  refine ⟨N, some a, { u with guard := u.guard.leave (guardKey ctx s activity subject) }, fun n hn => ?_, ?_, a, rfl, ha⟩
  · refine (withGuard_entered (Prod.ext he rfl)).trans ?_
    rw [hr n hn]
    rfl
  · rw [(Guard.enter_entered he).2] at hu
    have hk := hu.kept
    have hg := Guard.Restored.of_entered { hk with }
    exact ⟨{ hu with }, { hg, hk with }⟩

theorem ends_withGuard {Q : α → Prop} (activity : Activity) (subject : Subject)
    (hm : ∀ g : Guard GuardKey, { s with guard := g }.room < s.room →
      Session.Ends ctx { s with guard := g } m fun a _ => Q a) :
    s.Ends ctx (fun S => withGuard activity subject (m S)) fun r _ => ∀ a, r = some a → Q a := by
  rcases Guard.enter_cases s.guard (guardKey ctx s activity subject) with
    ⟨he, -, hdepth, hg⟩ | ⟨he, -, hg⟩ | ⟨he, -, hg⟩
  · have hroom : { s with guard := (s.guard.enter (guardKey ctx s activity subject)).2 }.room < s.room := by
      rw [hg]
      unfold Session.room Guard.count
      dsimp only
      omega
    refine (ends_entered he (hm _ hroom)).imp ?_
    rintro _ _ - ⟨a, rfl, ha⟩ b hb
    cases hb
    exact ha
  all_goals
    refine ⟨0, none, { s with guard := (s.guard.enter (guardKey ctx s activity subject)).2 },
      fun n _ => withGuard_refused he, ⟨⟨hw, .refl _, rfl, rfl⟩, ?_⟩, nofun⟩
    rw [hg]
    exact ⟨.refl _, rfl, rfl, rfl, Guard.used_count s.guard, rfl, rfl, rfl, rfl, rfl, by simp [Guard.count], id⟩
end

theorem ends_budget {F : Solver → Nat → Solve α} {j : Nat}
    (h : s.Ends ctx (fun S => F S (S.budget - (j + 1) + 1)) Q) : s.Ends ctx (fun S => F S (S.budget - j)) Q := by
  obtain ⟨N, a, u, hr, hu, ha⟩ := h
  refine ⟨max N (j + 1), a, u, fun n _ => ?_, hu, ha⟩
  have hbudget := Solvers.budget_of n
  have hstep : (Solvers.of n).budget - (j + 1) + 1 = (Solvers.of n).budget - j := by omega
  have hrun : F (Solvers.of n) ((Solvers.of n).budget - (j + 1) + 1) ctx s = some (a, u) := hr n (by omega)
  rwa [hstep] at hrun

/-! ## Lists -/

section
variable {l : List α}

section
variable (hw : s.types.WF)
include hw

variable {f : Solver → α → Solve Bool}

theorem ends_anyM
    (hf : ∀ x ∈ l, ∀ u : Session, u.Past ctx s → u.Stops ctx fun S => f S x) : s.Stops ctx fun S => l.anyM (f S) := by
  induction l generalizing s with
  | nil => exact .pure hw trivial
  | cons x rest ih =>
    obtain ⟨hx, hrest⟩ := forall_mem_cons.1 hf
    refine (hx s (.of_wf hw)).bind fun b u hu _ => ?_
    cases b with
    | true => exact .pure hu.types trivial
    | false => exact ih hu.types fun y hy v hv => hrest y hy v (hu.trans hv)

theorem ends_anyM_eq {g : α → Bool}
    (hf : ∀ x ∈ l, s.Onward ctx (fun S => f S x) fun b _ => b = g x) :
    s.Ends ctx (fun S => l.anyM (f S)) fun b _ => b = l.any g := by
  induction l generalizing s with
  | nil => exact .pure hw rfl
  | cons x rest ih =>
    obtain ⟨hx, hrest⟩ := forall_mem_cons.1 hf
    refine (hx s (.of_wf hw)).bind fun b u hu hb => ?_
    cases b with
    | true => exact .pure hu.types (by simp [← hb])
    | false =>
      refine (ih hu.types fun y hy v hv => hrest y hy v (hu.trans hv)).imp fun b _ _ h => ?_
      simp [← hb, h]

theorem ends_allM
    (hf : ∀ x ∈ l, ∀ u : Session, u.Past ctx s → u.Stops ctx fun S => f S x) : s.Stops ctx fun S => l.allM (f S) := by
  simp only [allM_eq_not_anyM_not, map_eq_pure_bind]
  exact (ends_anyM hw fun x hx u hu => (hf x hx u hu).bind fun _ _ hv _ => .pure hv.types trivial).bind
    fun _ _ hu _ => .pure hu.types trivial

theorem ends_foldlM {f : Solver → β → α → Solve β} {J : β → Session → Prop} {b : β} (hb : J b s)
    (hf : ∀ x ∈ l, ∀ (u : Session) b, u.Past ctx s → J b u → u.Ends ctx (fun S => f S b x) J) :
    s.Ends ctx (fun S => l.foldlM (f S) b) J := by
  induction l generalizing s b with
  | nil => exact .pure hw hb
  | cons x rest ih =>
    obtain ⟨hx, hrest⟩ := forall_mem_cons.1 hf
    have h : s.Ends ctx (fun S => f S b x >>= fun b => rest.foldlM (f S) b) J :=
      (hx s b (.of_wf hw) hb).bind fun b u hu hb =>
        ih hu.types hb fun y hy v b hv => hrest y hy v b (hu.trans hv)
    simpa only [foldlM_cons] using h

theorem ends_filterM (hf : ∀ x ∈ l, ∀ u : Session, u.Past ctx s → u.Stops ctx fun S => f S x) :
    s.Ends ctx (fun S => l.filterM (f S)) fun r _ => r.Sublist l := by
  induction l generalizing s with
  | nil => exact .pure hw .slnil
  | cons x rest ih =>
    obtain ⟨hx, hrest⟩ := forall_mem_cons.1 hf
    simp only [filterM_cons]
    refine (hx s (.of_wf hw)).bind fun b u hu _ => ?_
    refine (ih hu.types fun y hy v hv => hrest y hy v (hu.trans hv)).bind fun _ v hv hkept => .pure hv.types ?_
    cases b with
    | true => exact hkept.cons_cons x
    | false => exact hkept.cons x

theorem ends_mapM_forall₂ {f : Solver → α → Solve β} {J : α → β → Session → Prop} (hJ : ∀ x ∈ l, s.Lasting ctx (J x))
    (hf : ∀ x ∈ l, s.Onward ctx (fun S => f S x) (J x)) :
    s.Ends ctx (fun S => l.mapM (f S)) fun r u => Forall₂ (fun x b => J x b u) l r := by
  induction l generalizing s with
  | nil =>
    have h : s.Ends ctx (fun _ => (pure [] : Solve (List β))) fun r u => Forall₂ (fun x b => J x b u) [] r :=
      .pure hw .nil
    simpa only [mapM_nil] using h
  | cons x rest ih =>
    obtain ⟨hx, hrest⟩ := forall_mem_cons.1 hf
    obtain ⟨hJx, hJrest⟩ := forall_mem_cons.1 hJ
    have h : s.Ends ctx (fun S => f S x >>= fun b => rest.mapM (f S) >>= fun bs => pure (b :: bs))
        fun r u => Forall₂ (fun x b => J x b u) (x :: rest) r := by
      refine (hx s (.of_wf hw)).bind fun b u hu hb => ?_
      refine (ih hu.types (fun y hy => (hJrest y hy).later hu) fun y hy v hv => hrest y hy v (hu.trans hv)).bind
        fun bs v hv hbs => ?_
      exact .pure hv.types (.cons (hJx b u v hu hv hb) hbs)
    simpa only [mapM_cons] using h
end

omit [Solvers] in
theorem forall₂_right {R : β → Prop} {r : List β} (h : Forall₂ (fun (_ : α) b => R b) l r) : ∀ b ∈ r, R b := by
  induction h with
  | nil => exact nofun
  | cons hb _ ih => exact forall_mem_cons.2 ⟨hb, ih⟩

theorem ends_mapM {f : Solver → α → Solve β} {J : β → Session → Prop} (hw : s.types.WF) (hJ : s.Lasting ctx J)
    (hf : ∀ x ∈ l, s.Onward ctx (fun S => f S x) J) :
    s.Ends ctx (fun S => l.mapM (f S)) fun r u => ∀ b ∈ r, J b u := by
  exact (ends_mapM_forall₂ (J := fun _ => J) hw (fun _ _ => hJ) hf).imp fun r u _ h => forall₂_right h
end

end

end AnnotatedLua
