/-
Classes that are compared by name (`Session.Nominal`). A class accepts another one just if it is that class or one of
its ancestors (`accepts_iff_ancestor`). A class may be an ancestor of itself.
-/
import AnnotatedLua.Proofs.Shape.Plain
import AnnotatedLua.Proofs.Union.Canonical
import AnnotatedLua.Proofs.Query.Sound

namespace AnnotatedLua

open Solve Solver Relation Finds TypeTable Finset

/-! ## Superclasses -/

/-- A class that is referred to by its name alone, and no receiver class. -/
def TypeTable.PlainClass (t : TypeTable) (ty : Ty) : Prop :=
  ∃ name, t.lookup ty = .classRef name Marks.none ∧ Text.beforeEnding? selfEnding (t.text name) = none

/-- Declarations are consulted and cancel nothing. Classes have no marks, their superclasses are plain classes, and there
are no aliases. -/
structure Session.Nominal (ctx : Context) (s : Session) : Prop where
  types : s.types.WF
  undisturbed : s.Undisturbed ctx
  consulted : (s.blind || ctx.provider.blind) = false
  aliases : ∀ name, s.aliasOf ctx name = none
  marks : ∀ name decl, s.classOf ctx name = some decl → decl.marks = Marks.none
  supers : ∀ name decl super, s.classOf ctx name = some decl → decl.superClass = some super → s.types.PlainClass super

def Session.Extends (ctx : Context) (s : Session) (sub super : Ty) : Prop :=
  ∃ name, s.types.lookup sub = .classRef name Marks.none ∧ (s.classOf ctx name).bind ClassDecl.superClass = some super

variable {ctx : Context} {base : Session} {a b c : Ty}

theorem Session.Extends.unique (h : base.Extends ctx b a) (h' : base.Extends ctx b c) : a = c := by
  obtain ⟨_, hb, ha⟩ := h
  obtain ⟨_, hb', hc⟩ := h'
  cases hb.symm.trans hb'
  exact Option.some.inj (ha.symm.trans hc)

theorem Session.Extends.ancestor_iff (h : base.Extends ctx b c) (hne : a ≠ b) :
    ReflTransGen (base.Extends ctx) b a ↔ ReflTransGen (base.Extends ctx) c a := by
  refine ⟨fun hreach => ?_, .head h⟩
  rcases hreach.cases_head with he | ⟨c', hc', hreach⟩
  · exact absurd he.symm hne
  · exact h.unique hc' ▸ hreach

/-! ## The way up -/

def Session.Climbs (ctx : Context) (base : Session) (active : List GuardKey) (a b : Ty) : Prop :=
  ∀ z, guardKey ctx base .superClass (.pair a z) ∈ active →
    z = b ∨ z ≠ a ∧ ∃ c, base.Extends ctx z c ∧ guardKey ctx base .superClass (.pair a c) ∈ active

variable {active : List GuardKey}

namespace Session.Climbs

variable (h : base.Climbs ctx active a b) (hbc : base.Extends ctx b c) (hne : a ≠ b)
include h hbc hne

theorem enter : base.Climbs ctx (guardKey ctx base .superClass (.pair a c) :: active) a c := by
  intro z hz
  rcases List.mem_cons.1 hz with he | hz
  · cases he
    exact .inl rfl
  · rcases h z hz with rfl | ⟨hza, c', hc', hmem⟩
    · exact .inr ⟨hne.symm, c, hbc, .head _⟩
    · exact .inr ⟨hza, c', hc', .tail _ hmem⟩

theorem not_ancestor (hactive : guardKey ctx base .superClass (.pair a c) ∈ active) :
    ¬ ReflTransGen (base.Extends ctx) b a := by
  have hup {z : Ty} (hreach : ReflTransGen (base.Extends ctx) b z) :
      z = b ∨ guardKey ctx base .superClass (.pair a z) ∈ active := by
    induction hreach with
    | refl => exact .inl rfl
    | tail _ hyz ih =>
      rcases ih.imp_right (h _) with rfl | rfl | ⟨-, c', hc', hmem⟩
      · exact .inr (hbc.unique hyz ▸ hactive)
      · exact .inr (hbc.unique hyz ▸ hactive)
      · exact .inr (hyz.unique hc' ▸ hmem)
  intro hreach
  rcases (hup hreach).imp_right (h a) with he | he | ⟨hself, -⟩
  · exact hne he
  · exact hne he
  · exact hself rfl

end Session.Climbs

/-! ## Comparisons -/

/-- How many classes are not being compared with `a`. -/
def Session.left (ctx : Context) (base : Session) (a : Ty) (active : List GuardKey) : Nat :=
  ((range base.types.size).filter fun i => guardKey ctx base .superClass (.pair a ⟨i⟩) ∉ active).card

theorem Session.left_cons_lt (hc : base.types.Has c) (hkey : guardKey ctx base .superClass (.pair a c) ∉ active) :
    base.left ctx a (guardKey ctx base .superClass (.pair a c) :: active) < base.left ctx a active := by
  refine card_lt_card ⟨?_, fun hsub => ?_⟩
  · exact monotone_filter_right _ fun i _ hi hmem => hi (.tail _ hmem)
  · have hmem := hsub (mem_filter.2 ⟨mem_range.2 hc, hkey⟩)
    exact (mem_filter.1 hmem).2 (.head _)

namespace Session.Nominal

variable (hn : base.Nominal ctx)
include hn

theorem finds_classDecl (name : Symbol) : Exactly ctx base active (classDecl name) (base.classOf ctx name) :=
  Finds.classDecl ctx active rfl (.inr hn.consulted)

section
variable {name : Symbol} (hl : base.types.lookup a = .classRef name Marks.none)
include hl

theorem finds_classMarks : Exactly ctx base active (classMarks a) Marks.none := by
  refine (lookup ctx active (has_of hl)).after ?_
  rw [hl]
  refine (hn.finds_classDecl name).after ?_
  cases hd : base.classOf ctx name with
  | none => exact .pure rfl
  | some decl =>
    dsimp only
    rw [hn.marks name decl hd]
    exact .pure rfl

theorem finds_resolve (n : Nat) : Exactly ctx base active ((ofBudget (n + 1)).resolve a) a :=
  finds_resolve_class active hl (hn.finds_classMarks hl) rfl (hn.aliases name) n

theorem finds_accepts_of_super {other : Symbol} (hl' : base.types.lookup b = .classRef other Marks.none) (hne : a ≠ b)
    {mode : Mode} {n : Nat} {answer : Bool} (hsuper : Truth True ctx (Session.Along ctx · base active)
      ((ofBudget (n + 3)).acceptsSuper a b mode) answer) :
    Truth True ctx (Session.Along ctx · base active) ((ofBudget (n + 4)).accepts a b mode) answer := by
  have hhas : base.types.Has a := has_of hl
  have hhas' : base.types.Has b := has_of hl'
  have hmarks : Exactly ctx base active (classMarks a) Marks.none := hn.finds_classMarks hl
  have hany : b ≠ Ty.any := by
    rintro rfl
    cases hl'.symm.trans hn.types.lookup_any
  have hnil : b ≠ Ty.nil := by
    rintro rfl
    cases hl'.symm.trans hn.types.lookup_nil
  have hlenient : Exactly ctx base active (isLenient b mode) false :=
    Finds.isLenient ctx active (beq_eq_false_iff_ne.2 hany) (beq_eq_false_iff_ne.2 hnil) mode
  have hequal := finds_equal_class active hl hmarks rfl (hn.aliases name) rfl hhas' n (hn.finds_resolve hl' (n + 1)) hne
    fun _ h => by
      cases hl'.symm.trans h
      exact hne (hn.types.eq_of_lookup hhas hhas' (hl.trans hl'.symm))
  have hbase := finds_acceptsBase active hhas' (fun _ => by rw [hl']; simp) hlenient (hn.finds_resolve hl' (n + 2)) hequal
    (finds_isShape_class active hl hmarks rfl (hn.aliases name) (n + 1)) hsuper
  show Truth True ctx _ (if a = b then _ else _) _
  rw [if_neg hne]
  refine (lookup ctx active hhas).after ?_
  rw [hl]
  refine hmarks.after ((hn.finds_resolve hl (n + 2)).after ?_)
  show Truth True ctx _ (if a = a then _ else _) _
  rw [if_pos rfl]
  exact hbase
end

open Classical in
theorem finds_accepts (ha : base.types.PlainClass a) (hb : base.types.PlainClass b) (mode : Mode) {n : Nat}
    (hclimbs : base.Climbs ctx active a b) (hleft : base.left ctx a active ≤ n) :
    Truth True ctx (Session.Along ctx · base active) ((ofBudget (n + 4)).accepts a b mode)
      (decide (ReflTransGen (base.Extends ctx) b a)) := by
  -- on the number of classes that are left to compare
  induction n using Nat.strong_induction_on generalizing b active with
  | _ n ih =>
  by_cases hne : a = b
  · show Truth True ctx _ (if a = b then _ else _) _
    rw [if_pos hne, decide_eq_true (hne ▸ .refl)]
    exact .pure trivial
  obtain ⟨_, hl, -⟩ := ha
  obtain ⟨other, hl', htext⟩ := hb
  refine hn.finds_accepts_of_super hl hl' hne ((finds_superClass_class active hn.types hn.consulted hl' htext (n + 2)).after ?_)
  cases hsuper : (base.classOf ctx other).bind ClassDecl.superClass with
  | none =>
    have hno : ¬ ReflTransGen (base.Extends ctx) b a := by
      intro hreach
      rcases hreach.cases_head with he | ⟨c, ⟨_, hl'', hc⟩, -⟩
      · exact hne he.symm
      · cases hl'.symm.trans hl''
        cases hsuper.symm.trans hc
    rw [decide_eq_false hno]
    exact .pure trivial
  | some c =>
    have hbc : base.Extends ctx b c := ⟨other, hl', hsuper⟩
    have hplain : base.types.PlainClass c := by
      obtain ⟨decl, hdecl, hc⟩ := Option.bind_eq_some_iff.1 hsuper
      exact hn.supers other decl c hdecl hc
    refine guarded (ask_keeps _ (.accepts a c mode) rfl) (fun h hkey => ?_) fun hkey => ?_
    · exact hclimbs.not_ancestor hbc hne hkey (of_decide_eq_true h)
    have hlt := Session.left_cons_lt (has_of hplain.choose_spec.1) hkey
    obtain ⟨k, rfl⟩ : ∃ k, n = k + 1 := ⟨n - 1, by omega⟩
    rw [decide_eq_decide.2 (hbc.ancestor_iff hne)]
    exact ih k (Nat.lt_succ_self k) hplain (hclimbs.enter hbc hne) (by omega)

end Session.Nominal

/-- A comparison of two plain classes ends. Unless the guard stopped it, the answer is whether the target is the source
or one of its ancestors. -/
theorem accepts_iff_ancestor {ctx : Context} {s : Session} (hn : s.Nominal ctx) (hnew : s.guard.active = []) {a b : Ty}
    (ha : s.types.PlainClass a) (hb : s.types.PlainClass b) (mode : Mode) :
    ∃ N answer u, (∀ n, N ≤ n → (ofBudget n).accepts a b mode ctx s = some (answer, u)) ∧
      (u.guard.exceeded = false → (answer = true ↔ ReflTransGen (s.Extends ctx) b a)) := by
  classical
  have hclimbs : s.Climbs ctx s.guard.active a b := by
    intro z hz
    rw [hnew] at hz
    cases hz
  have hfinds := hn.finds_accepts ha hb mode hclimbs (le_refl _)
  have hs := Session.Along.refl hn.types hn.undisturbed
  obtain ⟨⟨answer, u⟩, hr⟩ := hfinds.ends trivial s hs
  obtain ⟨hu, -, -, hanswer⟩ := hfinds.run s answer u hs hr
  refine ⟨_, answer, u, fun n hle => (regular_accepts mode).below hle (a, b) ctx s _ hr, fun hclear => ?_⟩
  rw [hanswer ⟨hclear, hu.canceled⟩, decide_eq_true_iff]

/-! ## Classes `A` and `B` -/

def heirs (edges : List (Symbol × Ty)) : Declarations :=
  edges.foldl (fun d edge => d.addClass { name := edge.1, marks := Marks.none, superClass := some edge.2 }) .empty

theorem namedTypes_plain : namedTypes.PlainClass ⟨10⟩ ∧ namedTypes.PlainClass ⟨11⟩ :=
  ⟨⟨⟨3⟩, by decide⟩, ⟨4⟩, by decide⟩

/-- `A` extends `B`, which extends itself. Comparing `A` with `B` ends all the same. -/
theorem accepts_iff_ancestor_cyclic : ∃ N answer u,
    (∀ n, N ≤ n → (ofBudget n).accepts ⟨10⟩ ⟨11⟩ {} (heirs [(⟨3⟩, ⟨11⟩), (⟨4⟩, ⟨11⟩)]).context namedStart =
      some (answer, u)) ∧ (u.guard.exceeded = false →
        (answer = true ↔ ReflTransGen (namedStart.Extends (heirs [(⟨3⟩, ⟨11⟩), (⟨4⟩, ⟨11⟩)]).context) ⟨11⟩ ⟨10⟩)) := by
  have hall : ∀ e ∈ (heirs [(⟨3⟩, ⟨11⟩), (⟨4⟩, ⟨11⟩)]).classes.toList,
      e.2.marks = Marks.none ∧ e.2.superClass = some ⟨11⟩ := by decide
  have hclass (name decl) (h : namedStart.classOf (heirs [(⟨3⟩, ⟨11⟩), (⟨4⟩, ⟨11⟩)]).context name = some decl) :=
    hall (name, decl) (Declarations.classOf_start h)
  refine accepts_iff_ancestor ⟨namedTypes_wf, fun _ => ⟨rfl, fun _ => rfl⟩, rfl, fun name => ?_,
    fun name decl h => (hclass name decl h).1, fun name decl super h hsuper => ?_⟩ rfl namedTypes_plain.1 namedTypes_plain.2 {}
  · exact Option.eq_none_iff_forall_ne_some.2 fun ty h => nomatch Declarations.aliasOf_start h
  · cases hsuper.symm.trans (hclass name decl h).2
    exact namedTypes_plain.2

/-- A comparison says nothing about ancestors where declarations are not consulted. -/
theorem accepts_unlike_ancestor :
    namedStart.Extends { heirs [(⟨4⟩, ⟨10⟩)] with blind := true }.context ⟨11⟩ ⟨10⟩ ∧
      ((ofBudget 20).accepts ⟨10⟩ ⟨11⟩ {} { heirs [(⟨4⟩, ⟨10⟩)] with blind := true }.context namedStart).map
        (fun r => (r.1, r.2.guard.exceeded)) = some (false, false) :=
  ⟨⟨⟨4⟩, by decide, by decide⟩, by decide⟩

end AnnotatedLua
