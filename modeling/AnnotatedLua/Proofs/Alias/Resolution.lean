/-
Resolution in a store whose aliases do not grow ends, however the comparisons are answered that unions need
(`resolve_stops_or_subsumption_hangs`). An alias that passes on more each time has no end (`resolve_growing_hangs`).
-/
import AnnotatedLua.Proofs.Alias.Compose
import AnnotatedLua.Proofs.Alias.Expansion

namespace AnnotatedLua

open Solve Solver List TypeTable Declarations
open TypeTable (Orderly has_of kind_of members_eq_self sameType_iff)

variable {u : Session} {n : Nat} {name : Symbol} {b : Bool} {α : Type} {ctx : Context} {s : Session}

/-! ## Comparisons by other means -/

/-- The answer to a question where types are compared by `compare`. -/
def Query.answer (compare : Ty → Ty → Mode → Solve Bool) : {α : Type} → Query α → Solve α → Solve α
  | _, .accepts target source mode, _ => compare target source mode
  | _, _, byRule => byRule

/-- The solver of a budget that answers by the rules, but compares types by `compare`. -/
def Solver.comparing (compare : Ty → Ty → Mode → Solve Bool) : Nat → Solver
  | 0 => { budget := 0, ask := fun q => q.answer compare exhausted }
  | n + 1 => { budget := n + 1, ask := fun q => q.answer compare ((comparing compare n).rule q) }

abbrev Solvers.comparing (compare : Ty → Ty → Mode → Solve Bool) : Solvers where
  of := Solver.comparing compare
  budget_of n := by cases n <;> rfl
  ask_of n _ q hq := by
    cases q with
    | accepts => cases hq
    | _ => rfl

theorem Session.Sound.params_has (hs : s.Sound ctx) {decl : ClassDecl}
    (hd : s.classSeen ctx name = some decl) : ∀ p ∈ decl.params, s.types.Has p := by
  unfold Session.classSeen at hd
  split at hd
  · cases hd
  have : Same hs.types.self decl decl := (hs.classes name decl hd).2
  have hparams : ∀ p ∈ decl.params, Same hs.types.self p p :=
    forall₂_same.1 (Same.get hs.types.self decl.params decl.params).out
  exact fun p hp => (sameType_iff.1 (hparams p hp)).1

theorem Session.Sound.alias_has (hs : s.Sound ctx) {ty : Ty}
    (ht : s.aliasSeen ctx name = some ty) : s.types.Has ty := by
  unfold Session.aliasSeen at ht
  split at ht
  · cases ht
  exact (sameType_iff.1 (hs.aliases name ty ht).2).1

theorem exists_bound (n : Nat) (f : Nat → Nat) : ∃ b, ∀ i < n, f i ≤ b :=
  ⟨(Finset.range n).sup f, fun _ hi => Finset.le_sup (f := f) (Finset.mem_range.2 hi)⟩

/-! ## Every stored type -/

section
variable [Solvers] {ctx : Context} {s : Session} {ty : Ty}

variable {rank : Symbol → Nat} (hs : s.Sound ctx) (hn : s.Nonexpansive ctx rank) (hc : s.Decides ctx)
include hs hn hc

theorem ends_resolvedMembers_nonexpansive (hu : u.Past ctx s) (hty : s.types.Has ty) :
    u.Ends ctx (·.resolvedMembers ty) fun r v => ∀ z ∈ r, v.types.Has z := by
  have hsubst : s.Substitutes ctx :=
    ⟨hs.types, hc, fun name decl hd p hp => ⟨hs.params_has hd p hp, hn.params name decl hd p hp⟩⟩
  obtain ⟨l, hl⟩ := exists_bound s.types.size fun i => (s.types.lookup ⟨i⟩).parts.length
  have hl : ∀ z base args, s.types.lookup z = .generic base args → args.length ≤ l := by
    intro z _ _ hz
    have := hl z.index (has_of hz)
    rw [show s.types.lookup ⟨z.index⟩ = _ from hz] at this
    exact (Nat.le_succ _).trans this
  obtain ⟨R, hR⟩ := exists_bound s.types.symbols.size fun i => rank ⟨i⟩
  have hmember : ∀ z ∈ s.types.members ty, s.types.Has z := fun z hz => hs.types.member_has hty hz
  have hunfolds := unfolds_tame hsubst hn (fun name ty => hs.alias_has) hl fun name h => hR name.index h
  refine (hunfolds.resolvedMembers hu hty fun z hz => .old (hmember z hz)).imp fun r v hv hr => ?_
  rcases hr with rfl | hr
  · exact fun z hz => (hu.trans hv).grown.has (hmember z hz)
  · exact hr.2

theorem ends_resolve_nonexpansive (hty : s.types.Has ty) : s.Stops ctx (·.resolve ty) := by
  refine (ends_members hs.types ty).bind ?_
  rintro parts _ - ⟨rfl, rfl⟩
  refine (ends_anyM hs.types fun z hz u hu =>
    ends_willResolve_has hu.types (hu.grown.has (hs.types.member_has hty hz))).bind fun any u hu _ => ?_
  refine .early hu.types trivial fun _ => ?_
  refine (ends_resolvedMembers_nonexpansive hs hn hc hu hty).bind fun resolved v hv hresolved => ?_
  refine .early hv.types trivial fun _ => ?_
  match resolved with
  | [] => exact .pure hv.types trivial
  | [single] => exact .pure hv.types trivial
  | a :: b :: rest => exact (ends_unionAll ((joins_has hs.types hc).at (hu.trans hv)) hresolved).stops
end

/-! ## Resolution -/

theorem decides_comparing {compare : Ty → Ty → Mode → Solve Bool}
    (h : ∀ x y mode (u : Session), u.types.WF → ∃ b v, compare x y mode ctx u = some (b, v) ∧ v.Past ctx u) :
    @Session.Decides (.comparing compare) ctx s := by
  intro u hu x y _ _
  let := Solvers.comparing compare
  refine (ends_withGuard (Q := fun _ => True) hu.types .union (.pair x y) fun g _ => ?_).bind fun _ v hv _ =>
    .pure hv.types trivial
  obtain ⟨b, v, hr, hv⟩ := h x y subsumption { u with guard := g } hu.types
  refine ⟨0, b, v, fun n _ => ?_, hv, (trivial : True)⟩
  cases n <;> exact hr

theorem ends_subsumes_of_run (hs : s.Sound ctx) {x y : Ty} (hx : s.types.Has x)
    (hy : s.types.Has y) (hr : (ofBudget n).subsumes x y ctx s = some (b, u)) : s.Stops ctx (·.subsumes x y) := by
  refine ⟨n, b, u, fun k hk => regular_subsumes.below hk (x, y) ctx s _ hr, ?_, trivial⟩
  obtain ⟨hu, -⟩ := (Session.Past.refl hs).step (x := (x, y)) regular_subsumes hs (hs.stores_pair hx hy) hr
  exact hu

/-- If no alias passes on more and more, resolution comes to an end however types are compared; so it does with the
rules, unless two types are met whose comparison has no answer. -/
theorem resolve_stops_or_subsumption_hangs {ctx : Context} {s : Session} (hs : s.Sound ctx) {rank : Symbol → Nat}
    (hn : s.Nonexpansive ctx rank) {ty : Ty} (hty : s.types.Has ty) :
    (∀ compare : Ty → Ty → Mode → Solve Bool,
      (∀ x y mode (u : Session), u.types.WF → ∃ b v, compare x y mode ctx u = some (b, v) ∧ v.Past ctx u) →
        ∃ N r u, ∀ n, N ≤ n → (comparing compare n).resolve ty ctx s = some (r, u)) ∧
    ((∃ N r u, ∀ n, N ≤ n → (ofBudget n).resolve ty ctx s = some (r, u)) ∨
      ∃ (u : Session) (x y : Ty), u.Past ctx s ∧ u.types.Has x ∧ u.types.Has y ∧
        ∀ n, (ofBudget n).subsumes x y ctx u = none) := by
  refine ⟨fun compare hcompare => ?_, ?_⟩
  · obtain ⟨N, r, u, hr, -⟩ := @ends_resolve_nonexpansive (.comparing compare) ctx s ty rank hs hn
      (decides_comparing hcompare) hty
    exact ⟨N, r, u, hr⟩
  · by_cases hc : s.Decides ctx
    · obtain ⟨N, r, u, hr, -⟩ := ends_resolve_nonexpansive hs hn hc hty
      exact .inl ⟨N, r, u, hr⟩
    · unfold Session.Decides at hc
      push Not at hc
      obtain ⟨u, hu, x, y, hx, hy, hhangs⟩ := hc
      refine .inr ⟨u, x, y, hu, hx, hy, fun n => ?_⟩
      cases hr : (ofBudget n).subsumes x y ctx u with
      | none => rfl
      | some answer => exact absurd (ends_subsumes_of_run (hu.sound hs) hx hy hr) hhangs

/-! ### Two aliases that call each other -/

set_option maxRecDepth 4096

/-- The type parameters `T`, `⟨10⟩`, `U`, `⟨11⟩`, and `V`, `⟨12⟩`, the names `A`, `⟨13⟩`, and `B`, `⟨14⟩`, the aliases
`A<T> = B<T, T[]>`, `⟨17⟩`, and `B<U, V> = A<U> | V`, `⟨20⟩`, and `A<string>`, `⟨21⟩`. -/
def entwinedTypes : TypeTable :=
  .ofForms ["A", "B", "T", "U", "V"] [.param ⟨5⟩ ⟨5⟩ none, .param ⟨6⟩ ⟨6⟩ none, .param ⟨7⟩ ⟨7⟩ none, .classRef ⟨3⟩ {},
    .classRef ⟨4⟩ {}, .array ⟨10⟩, .generic ⟨14⟩ [⟨10⟩, ⟨15⟩], .aliasRef ⟨3⟩ [⟨10⟩] ⟨16⟩, .generic ⟨13⟩ [⟨11⟩],
    .union [⟨18⟩, ⟨12⟩], .aliasRef ⟨4⟩ [⟨11⟩, ⟨12⟩] ⟨19⟩, .generic ⟨13⟩ [Ty.string]]

def entwined : Declarations := (empty.addAlias ⟨3⟩ ⟨17⟩).addAlias ⟨4⟩ ⟨20⟩

def entwinedStart : Session := .start entwinedTypes Limits.standard

theorem entwinedTypes_wf : entwinedTypes.WF := Orderly.wf (by decide)

theorem entwinedStart_sound : entwinedStart.Sound entwined.context :=
  .declared (d := entwined) rfl entwinedTypes_wf _ (forall_mem_nil _) (by decide) rfl rfl

/-- All parameters are passed on as they are, but for `V`. -/
def entwinedRank (name : Symbol) : Nat := if name = ⟨7⟩ then 1 else 0

theorem entwined_not_instantiated (name : Symbol) : ¬ entwinedStart.Instantiated entwined.context name {} :=
  fun h => nomatch h.1

theorem entwined_fits_A : entwinedStart.Fits entwined.context entwinedRank ⟨16⟩ := by
  have hparam : entwinedStart.Plain entwined.context ⟨10⟩ := .leaf (by decide)
  have hlookup : entwinedStart.types.lookup ⟨15⟩ = .array ⟨10⟩ := by decide
  have htarget : entwinedStart.types.lookup ⟨16⟩ = .generic ⟨14⟩ [⟨10⟩, ⟨15⟩] := by decide
  refine .inst htarget
    (.inr ⟨⟨4⟩, {}, by decide, entwined_not_instantiated _⟩) (fun _ => ?_) (fun _ => ?_) fun _ _ h => ?_
  · refine forall_mem_cons.2 ⟨hparam, forall_mem_singleton.2 (.compound (by decide) ?_)⟩
    rw [hlookup]
    exact forall_mem_singleton.2 hparam
  · exact forall_mem_cons.2 ⟨.other (by decide), forall_mem_singleton.2 (.other (by decide))⟩
  · have halias : entwinedStart.aliasFor entwined.context ⟨14⟩ = some ([⟨11⟩, ⟨12⟩], ⟨19⟩) := by decide
    cases halias.symm.trans h
    refine forall_mem_cons.2 ⟨fun name hname => ?_, forall_mem_singleton.2 fun name hname => ?_⟩
    · have hU : entwinedStart.types.className? ⟨11⟩ = some ⟨6⟩ := by decide
      cases hU.symm.trans hname
      exact .inl ⟨⟨5⟩, ⟨5⟩, none, by decide, by decide⟩
    · have hV : entwinedStart.types.className? ⟨12⟩ = some ⟨7⟩ := by decide
      cases hV.symm.trans hname
      -- only `T` stands in `T[]`
      refine .inr fun _ huses => ?_
      cases huses with
      | param hl => cases hlookup.symm.trans hl
      | part _ hp h =>
        rw [hlookup] at hp
        obtain rfl := mem_singleton.1 hp
        have hT : entwinedStart.types.lookup ⟨10⟩ = .param ⟨5⟩ ⟨5⟩ none := by decide
        cases h with
        | param hl =>
          cases hT.symm.trans hl
          decide
        | part hkind =>
          rw [kind_of hT] at hkind
          simp at hkind

theorem entwined_fits_B : entwinedStart.Fits entwined.context entwinedRank ⟨19⟩ := by
  have htarget : entwinedStart.types.lookup ⟨19⟩ = .union [⟨18⟩, ⟨12⟩] := by decide
  have hpart : entwinedStart.types.lookup ⟨18⟩ = .generic ⟨13⟩ [⟨11⟩] := by decide
  refine .union htarget (forall_mem_cons.2 ⟨?_, forall_mem_singleton.2 (.other (by decide))⟩)
  refine .inst hpart
    (.inr ⟨⟨3⟩, {}, by decide, entwined_not_instantiated _⟩) (fun _ => ?_) (fun _ => ?_) fun _ _ h => ?_
  · exact forall_mem_singleton.2 (.leaf (by decide))
  · exact forall_mem_singleton.2 (.other (by decide))
  · have halias : entwinedStart.aliasFor entwined.context ⟨13⟩ = some ([⟨10⟩], ⟨16⟩) := by decide
    cases halias.symm.trans h
    refine forall_mem_singleton.2 fun _ hname => ?_
    have hT : entwinedStart.types.className? ⟨10⟩ = some ⟨5⟩ := by decide
    cases hT.symm.trans hname
    exact .inl ⟨⟨6⟩, ⟨6⟩, none, by decide, by decide⟩

theorem entwined_nonexpansive : entwinedStart.Nonexpansive entwined.context entwinedRank := by
  refine ⟨fun ty name _ _ hl => ?_, fun name ty ht => ?_, fun name decl hd => ?_, fun name _ hd => ?_⟩
  · have hall : ∀ i < entwinedStart.types.size, entwinedStart.types.kind ⟨i⟩ = .aliasRef → i = 17 ∨ i = 20 := by decide
    obtain hi | hi := hall ty.index (has_of hl) (kind_of hl)
    · have hA : entwinedStart.types.lookup ⟨17⟩ = .aliasRef ⟨3⟩ [⟨10⟩] ⟨16⟩ := by decide
      cases hA.symm.trans ((congrArg entwinedStart.types.lookup (congrArg Ty.mk hi)).symm.trans hl)
      exact entwined_fits_A
    · have hB : entwinedStart.types.lookup ⟨20⟩ = .aliasRef ⟨4⟩ [⟨11⟩, ⟨12⟩] ⟨19⟩ := by decide
      cases hB.symm.trans ((congrArg entwinedStart.types.lookup (congrArg Ty.mk hi)).symm.trans hl)
      exact entwined_fits_B
  · have hall : ∀ e ∈ entwined.aliases.toList, entwinedStart.types.kind e.2 = .aliasRef := by decide
    exact hall (name, ty) (aliasOf_start (show entwinedStart.aliasOf entwined.context name = _ from ht))
  all_goals cases classOf_start (show entwinedStart.classOf entwined.context name = _ from hd)

/-- `A<string>` is resolved in a few steps, though both aliases lead back to each other and pass on a new type. -/
theorem resolve_entwined_stops : entwinedStart.Sound entwined.context ∧
    entwinedStart.Nonexpansive entwined.context entwinedRank ∧ ∃ N r u, ∀ n, N ≤ n →
      (comparing (fun _ _ _ => pure false) n).resolve ⟨21⟩ entwined.context entwinedStart = some (r, u) := by
  refine ⟨entwinedStart_sound, entwined_nonexpansive, ?_⟩
  have hty : entwinedStart.types.Has ⟨21⟩ := by decide
  have hboth := resolve_stops_or_subsumption_hangs entwinedStart_sound entwined_nonexpansive hty
  exact hboth.1 (fun _ _ _ => pure false) fun _ _ _ u hu => ⟨false, u, rfl, .of_wf hu⟩

/-! ## Aliases that grow -/

def Solve.Calm {α : Type} (m : Solve α) : Prop :=
  ∀ ctx s a u, (∀ name, ctx.provider.cancels name = false) → m ctx s = some (a, u) → u.canceled = s.canceled

theorem Solve.Calm.of_run {m : Solve α} (f : Context → Session → α × Session)
    (hm : ∀ ctx s, m ctx s = some (f ctx s)) (hf : ∀ ctx s, (f ctx s).2.canceled = s.canceled) : m.Calm := by
  intro ctx s a u _ h
  have he := Option.some.inj ((hm ctx s).symm.trans h)
  rw [← hf ctx s, he]

theorem calm_closed : Closed True Solve.Calm where
  pure a := .of_run (fun _ s => (a, s)) (fun _ _ => rfl) fun _ _ => rfl
  bind hm hf ctx s b v hc h := by
    obtain ⟨a, u, hma, hfa⟩ := bind_eq_some h
    exact (hf a ctx u b v hc hfa).trans (hm ctx s a u hc hma)
  exhausted _ _ _ _ _ h := nomatch h
  ofTypes f := .of_run (fun _ s => (f s.types, s)) (fun _ _ => rfl) fun _ _ => rfl
  store {α act} _ := .of_run (fun _ s => ((act s.types).1, { s with types := (act s.types).2 })) (fun _ _ => rfl) fun _ _ => rfl
  settings := .of_run (fun ctx s => (ctx.settings, s)) (fun _ _ => rfl) fun _ _ => rfl
  isCanceled := .of_run (fun ctx s => (ctx.cancellable && s.canceled, s)) (fun _ _ => rfl) fun _ _ => rfl
  parent _ node := .of_run (fun ctx s => (ctx.provider.parent node, s)) (fun _ _ => rfl) fun _ _ => rfl
  tables hl := absurd trivial hl
  classDecl name ctx s a u hc h := by
    rw [run_classDecl] at h
    split at h
    · cases h; rfl
    · split at h
      · cases h; rfl
      · cases h; simp [hc]
  aliasType name ctx s a u _ h := by
    rw [run_aliasType] at h
    split at h
    · cases h; rfl
    · split at h <;> (cases h; rfl)
  scopedType node name := .of_run _ (fun _ _ => run_scopedType node name) fun _ _ => rfl
  withGuard activity subject hm ctx s a u hc h := by
    rcases withGuard_cases h with ⟨g, -, rfl⟩ | ⟨key, b, v, hrun, rfl⟩
    · rfl
    · exact (hm ctx _ b v hc hrun :)
  withExpansion name hm ctx s a u hc h := by
    rw [run_withExpansion] at h
    split at h
    · cases h; rfl
    · obtain ⟨⟨b, v⟩, hrun, hv⟩ := Option.map_eq_some_iff.1 h
      cases hv
      exact (hm ctx _ b v hc hrun :)

theorem resolvePending_cases {S : Solver} {k : Nat} {current : Ty} {pending visited out l : List Ty}
    (hr : S.resolvePending (k + 1) (current :: pending) visited out ctx s = some (l, u)) :
    ((ctx.cancellable && s.canceled) = true ∧ l = out ∧ u = s) ∨
    (visited.contains current = true ∧ S.resolvePending k pending visited out ctx s = some (l, u)) ∨
    ∃ r y, S.resolveOne current ctx s = some (r, y) ∧
      (r = current ∧ S.resolvePending k pending (current :: visited)
        (if out.contains current then out else out ++ [current]) ctx y = some (l, u) ∨
      r ≠ current ∧ S.resolvePending k (y.types.members r ++ pending) (current :: visited) out ctx y = some (l, u)) := by
  unfold Solver.resolvePending at hr
  obtain ⟨_, _, hc, hr⟩ := bind_eq_some hr
  cases hc
  split at hr
  · cases hr
    exact .inl ⟨‹_›, rfl, rfl⟩
  · split at hr
    · exact .inr (.inl ⟨‹_›, hr⟩)
    · obtain ⟨r, y, hone, hr⟩ := bind_eq_some hr
      refine .inr (.inr ⟨r, y, hone, ?_⟩)
      split at hr
      · exact .inl ⟨‹_›, hr⟩
      · obtain ⟨_, _, hparts, hr⟩ := bind_eq_some hr
        cases hparts
        exact .inr ⟨‹_›, hr⟩

theorem Session.Ends.of_run {ξ : Type} [Value ξ] [Value α] {m : Solver → ξ → Solve α} (hm : Regular m)
    {x : ξ} {Q : α → Session → Prop} (h : s.Ends ctx (m · x) Q) {a : α}
    (hr : m (ofBudget n) x ctx s = some (a, u)) : u.Past ctx s ∧ Q a u := by
  obtain ⟨N, b, v, hall, hv, hb⟩ := h
  cases (hm.below (le_max_left n N) x ctx s _ hr).symm.trans (hall (max n N) (le_max_right n N))
  exact ⟨hv, hb⟩

theorem regular_resolveOne : Regular fun (S : Solver) (x : Ty) => S.resolveOne x := fun L _ _ hS _ _ _ _ => L.resolveOne hS

theorem regular_willResolve : Regular fun (S : Solver) (x : Ty) => S.willResolve x := fun _ _ _ hS _ _ _ _ => hS.willResolve

/-- The type parameter `T`, `⟨10⟩`, the name `A`, `⟨11⟩`, the alias `A<T> = A<T[]>`, `⟨14⟩`, and `A<string>`, `⟨15⟩`. -/
def growingTypes : TypeTable :=
  .ofForms ["A", "T"] [.param ⟨4⟩ ⟨4⟩ none, .classRef ⟨3⟩ {}, .array ⟨10⟩, .generic ⟨11⟩ [⟨12⟩],
    .aliasRef ⟨3⟩ [⟨10⟩] ⟨13⟩, .generic ⟨11⟩ [Ty.string]]

def growing : Declarations := empty.addAlias ⟨3⟩ ⟨14⟩

def growingStart : Session := .start growingTypes Limits.standard

theorem growingTypes_wf : growingTypes.WF := Orderly.wf (by decide)

structure GrowingInstance (t : TypeTable) (z base a : Ty) : Prop where
  lookup : t.lookup z = .generic base [a]
  base : base = ⟨11⟩ ∨ base = ⟨14⟩
  kind : t.kind a ∉ [Kind.union, .results]

section
variable (hu : u.Past growing.context growingStart)
include hu

structure GrowingForms (t : TypeTable) : Prop where
  param : t.lookup ⟨10⟩ = .param ⟨4⟩ ⟨4⟩ none
  name : t.lookup ⟨11⟩ = .classRef ⟨3⟩ {}
  array : t.lookup ⟨12⟩ = .array ⟨10⟩
  target : t.lookup ⟨13⟩ = .generic ⟨11⟩ [⟨12⟩]
  declared : t.lookup ⟨14⟩ = .aliasRef ⟨3⟩ [⟨10⟩] ⟨13⟩
  inst : t.lookup ⟨15⟩ = .generic ⟨11⟩ [Ty.string]

theorem growing_forms : GrowingForms u.types := by
  refine ⟨?_, ?_, ?_, ?_, ?_, ?_⟩ <;> rw [hu.grown.lookup (by decide)] <;> decide

theorem ends_willResolve_name : u.Ends growing.context (·.willResolve ⟨11⟩) fun b _ => b = true := by
  have hname := (growing_forms hu).name
  refine (ends_willResolve hu.types (tabular_of_kind (by rw [kind_of hname]; nofun))).imp fun b v _ hb => ?_
  have hstart : growingStart.resolves growing.context ⟨11⟩ = true := by decide
  unfold Session.resolves at hb hstart
  rw [hu.marksSeen, hu.grown.lookup (by decide)] at hb
  exact hb.trans hstart

variable {a z base : Ty}

theorem ends_resolveWithArgs_name (ha : u.types.Has a) :
    u.Ends growing.context (·.resolveWithArgs ⟨11⟩ [a]) fun r v => v.types.lookup r = .generic ⟨14⟩ [a] := by
  refine .lookup hu.types ⟨11⟩ fun _ hform => ?_
  cases hform.trans (growing_forms hu).name
  refine (ends_willResolve_name hu).bind fun _ v hv hresolves => ?_
  subst hresolves
  refine (ends_aliasType hv.types ⟨3⟩).bind fun found w hw hfound => ?_
  have hfound : found = some ⟨14⟩ := by
    rw [hfound, (hu.trans hv).aliasSeen]
    decide
  subst hfound
  have hw' := hu.trans (hv.trans hw)
  have hholds : w.types.Holds (.generic ⟨14⟩ [a]) :=
    ⟨forall_mem_cons.2 ⟨hw'.grown.has (by decide), forall_mem_singleton.2 ((hv.trans hw).grown.has ha)⟩, nofun⟩
  exact (ends_intern hw.types hholds).imp fun r x _ h => h.2

theorem ends_resolveWithArgs_alias (ha : u.types.Has a) (hkind : u.types.kind a ∉ [Kind.union, .results]) :
    u.Ends growing.context (·.resolveWithArgs ⟨14⟩ [a]) fun r v => ∃ b,
      v.types.lookup r = .generic ⟨11⟩ [b] ∧ v.types.lookup b = .array a := by
  refine .lookup hu.types ⟨14⟩ fun form hform => ?_
  cases hform.trans (growing_forms hu).declared
  refine (ends_ofTypes hu.types (Q := fun b v => u = v ∧ b = Bindings.ofArgs u.types [⟨10⟩] [a]) ⟨rfl, rfl⟩).bind ?_
  rintro bindings _ - ⟨rfl, hbindings⟩
  have hget : bindings.get? ⟨4⟩ = some a := by
    have hclass : u.types.className? ⟨10⟩ = some ⟨4⟩ := by
      unfold className?
      rw [(growing_forms hu).param]
    rw [hbindings]
    simp [Bindings.ofArgs, hclass, Bindings.ofList, Bindings.get?, Bindings.insert, Bindings.insertEntry, Bindings.empty]
  -- the array of what stands for `T`
  have helement {v : Session} (hv : v.Past growing.context u) :
      v.Ends growing.context (·.substituteSingle (.params bindings) ⟨10⟩) fun r w => v = w ∧ r = a := by
    have hparam : v.Ends growing.context (·.substitute ⟨10⟩ (.params bindings)) fun r w => v = w ∧ r = a := by
      refine .ask rfl (.lookup hv.types ⟨10⟩ fun form hform => ?_)
      cases hform.trans (growing_forms (hu.trans hv)).param
      exact .pure hv.types ⟨rfl, by simp [hget]⟩
    refine hparam.bind ?_
    rintro r _ - ⟨rfl, rfl⟩
    exact ends_resultAt_self hv.types (by rwa [hv.kind ha])
  have harray {v : Session} (hv : v.Past growing.context u) :
      v.Ends growing.context (·.substitute ⟨12⟩ (.params bindings)) fun r w => w.types.lookup r = .array a := by
    refine .ask rfl (.lookup hv.types ⟨12⟩ fun form hform => ?_)
    have hlookup := (growing_forms (hu.trans hv)).array
    cases hform.trans hlookup
    refine (helement hv).bind ?_
    rintro r _ - ⟨rfl, rfl⟩
    refine .ite (fun he => .pure hv.types (he ▸ hlookup)) fun _ => ?_
    have hholds : v.types.Holds (.array r) := ⟨forall_mem_singleton.2 (hv.grown.has ha), by simp⟩
    exact (ends_intern hv.types hholds).imp fun _ w _ h => h.2
  have harg {v : Session} (hv : v.Past growing.context u) :
      v.Ends growing.context (·.substituteSingle (.params bindings) ⟨12⟩) fun r w => w.types.lookup r = .array a := by
    refine (harray hv).bind fun r w hw hr => ?_
    refine (ends_resultAt_self hw.types ?_).imp ?_
    · rw [kind_of hr]
      simp
    · rintro r' _ - ⟨rfl, rfl⟩
      exact hr
  refine .ask rfl (.lookup hu.types ⟨13⟩ fun form hform => ?_)
  have hlookup := (growing_forms hu).target
  cases hform.trans hlookup
  refine (ends_mapM_forall₂ (J := fun _ r w => w.types.lookup r = .array a) hu.types (fun _ _ => ?_) fun x hx v hv => ?_).bind
    fun newArgs v hv hnew => ?_
  · intro r w _ _ hw' hr
    rwa [hw'.grown.lookup (has_of hr)]
  · obtain rfl := mem_singleton.1 hx
    exact harg hv
  obtain ⟨b, rfl, hb⟩ : ∃ b, newArgs = [b] ∧ v.types.lookup b = .array a := by
    cases hnew with
    | cons h hnil =>
      cases hnil
      exact ⟨_, rfl, h⟩
  have hbase : v.Ends growing.context (·.substitute ⟨11⟩ (.params bindings)) fun r w => v = w ∧ r = ⟨11⟩ := by
    refine .ask rfl (.lookup hv.types ⟨11⟩ fun _ hform => ?_)
    cases hform.trans (growing_forms (hu.trans hv)).name
    exact .pure hv.types ⟨rfl, rfl⟩
  refine hbase.bind ?_
  rintro newBase _ - ⟨rfl, rfl⟩
  refine .ite (fun he => .pure hv.types ?_) fun _ => ?_
  · simp only [Bool.and_eq_true, decide_eq_true_eq, cons.injEq, and_true] at he
    refine ⟨b, ?_, hb⟩
    rw [hv.grown.lookup (has_of hlookup), hlookup, he]
  · have hhas : v.types.Has b := has_of hb
    have hholds : v.types.Holds (.generic ⟨11⟩ [b]) :=
      ⟨forall_mem_cons.2 ⟨(hu.trans hv).grown.has (by decide), forall_mem_singleton.2 hhas⟩, by simp⟩
    exact (ends_intern hv.types hholds).imp fun r w hw h => ⟨b, h.2, (hw.grown.lookup hhas).trans hb⟩

theorem ends_resolveOne_growing (hz : GrowingInstance u.types z base a) :
    u.Ends growing.context (·.resolveOne z) fun r v => r ≠ z ∧ ∃ base' a', GrowingInstance v.types r base' a' ∧
      (a.index < a'.index ∨ a = a' ∧ base = ⟨11⟩ ∧ base' = ⟨14⟩) := by
  have hhas : u.types.Has z := has_of hz.lookup
  have ha : u.types.Has a := (hu.types.part_has hz.lookup (by simp))
  refine .lookup hu.types z fun _ hform => ?_
  cases hform.trans hz.lookup
  rcases hz.base with rfl | rfl
  · refine (ends_resolveWithArgs_name hu ha).bind fun r v hv hr => .pure hv.types ?_
    have hne : r ≠ ⟨11⟩ := by
      rintro rfl
      cases (growing_forms (hu.trans hv)).name.symm.trans hr
    rw [if_neg hne]
    refine ⟨?_, ⟨14⟩, a, ⟨hr, .inr rfl, by rw [hv.kind ha]; exact hz.kind⟩, .inr ⟨rfl, rfl, rfl⟩⟩
    rintro rfl
    cases ((hv.grown.lookup hhas).trans hz.lookup).symm.trans hr
  · refine (ends_resolveWithArgs_alias hu ha hz.kind).bind fun r v hv hr => .pure hv.types ?_
    obtain ⟨b, hr, hb⟩ := hr
    have hne : r ≠ ⟨14⟩ := by
      rintro rfl
      cases (growing_forms (hu.trans hv)).declared.symm.trans hr
    rw [if_neg hne]
    refine ⟨?_, ⟨11⟩, b, ⟨hr, .inl rfl, ?_⟩, .inl (hv.types.part_lt (by rw [hb]; simp)).1⟩
    · rintro rfl
      cases ((hv.grown.lookup hhas).trans hz.lookup).symm.trans hr
    · rw [kind_of hb]
      simp

theorem resolvePending_growing (hz : GrowingInstance u.types z base a) (hcanceled : u.canceled = false)
    {visited out : List Ty} (hvisited : ∀ w ∈ visited, ∃ base' a', u.types.lookup w = .generic base' [a'] ∧
      (a'.index < a.index ∨ a' = a ∧ base' = ⟨11⟩ ∧ base = ⟨14⟩)) (n k : Nat) :
    (ofBudget n).resolvePending k [z] visited out growing.context u = none := by
  induction k generalizing u z base a visited out with
  | zero => rfl
  | succ k ih =>
    refine Option.eq_none_iff_forall_ne_some.2 fun ⟨l, w⟩ h => ?_
    rcases resolvePending_cases h with ⟨hc, -⟩ | ⟨hmem, -⟩ | ⟨r, v, hone, hcase⟩
    · rw [hcanceled, Bool.and_false] at hc
      cases hc
    · obtain ⟨base', a', hl, hearlier⟩ := hvisited z (contains_iff_mem.1 hmem)
      cases hz.lookup.symm.trans hl
      rcases hearlier with hlt | ⟨-, rfl, he⟩
      · exact lt_irrefl _ hlt
      · cases he
    obtain ⟨hv, hne, _, _, hr, hlater⟩ := (ends_resolveOne_growing hu hz).of_run regular_resolveOne hone
    obtain ⟨-, h⟩ := hcase.resolve_left fun h => hne h.1
    rw [members_eq_self (by rw [kind_of hr.lookup]; nofun)] at h
    have hcalm : ((ofBudget n).resolveOne z).Calm :=
      calm_closed.of_agree (calm_closed.logic.resolveOne (calm_closed.logic.respects_ofBudget n))
    have hv' := hcalm growing.context u r v (fun _ => rfl) hone
    refine absurd (h.symm.trans (ih (hu.trans hv) hr (hv'.trans hcanceled) ?_)) nofun
    refine forall_mem_cons.2 ⟨⟨base, a, ?_, ?_⟩, fun w hw => ?_⟩
    · exact (hv.grown.lookup (has_of hz.lookup)).trans hz.lookup
    · exact hlater
    · obtain ⟨base'', a'', hl, hearlier⟩ := hvisited w hw
      refine ⟨base'', a'', (hv.grown.lookup (has_of hl)).trans hl, ?_⟩
      rcases hearlier with hlt | ⟨rfl, rfl, rfl⟩ <;> rcases hlater with hlt' | ⟨rfl, hname, -⟩
      · exact .inl (hlt.trans hlt')
      · exact .inl hlt
      · exact .inl hlt'
      · cases hname

theorem ends_willResolve_growing : u.Ends growing.context (·.willResolve ⟨15⟩) fun b _ => b = true := by
  refine .ask rfl (.lookup hu.types ⟨15⟩ fun _ hform => ?_)
  cases hform.trans (growing_forms hu).inst
  refine (ends_members hu.types ⟨11⟩).bind ?_
  rintro parts _ - ⟨rfl, hparts⟩
  rw [members_eq_self (by rw [kind_of (growing_forms hu).name]; nofun)] at hparts
  subst hparts
  refine ends_anyM_eq (g := fun _ => true) hu.types fun x hx v hv => ?_
  obtain rfl := mem_singleton.1 hx
  exact ends_willResolve_name (hu.trans hv)

theorem anyM_willResolve_growing {v : Session}
    (h : (u.types.members ⟨15⟩).anyM (ofBudget n).willResolve growing.context u = some (b, v)) :
    b = true ∧ v.Past growing.context u ∧ v.canceled = u.canceled := by
  rw [members_eq_self (by rw [kind_of (growing_forms hu).inst]; nofun)] at h
  obtain ⟨_, w, hw, h⟩ := bind_eq_some h
  obtain ⟨hpast, rfl⟩ := (ends_willResolve_growing hu).of_run regular_willResolve hw
  cases h
  have hcalm := calm_closed.ask (calm_closed.logic.respects_ofBudget n) (.willResolve ⟨15⟩) rfl nofun
  exact ⟨rfl, hpast, hcalm _ _ _ _ (fun _ => rfl) hw⟩
end

/-- Resolution of `A<string>` where `A<T>` is declared as `A<T[]>` has no answer: there is a new instance after each one. -/
theorem resolve_growing_hangs :
    ¬ ∃ n answer, (ofBudget n).resolve ⟨15⟩ growing.context growingStart = some answer := by
  rintro ⟨n, answer, h⟩
  have hstart : growingStart.Past growing.context growingStart := .of_wf growingTypes_wf
  have h := of_read h rfl
  obtain ⟨any, u, hany, h⟩ := bind_eq_some h
  obtain ⟨rfl, hu, hcalm⟩ := anyM_willResolve_growing hstart hany
  obtain ⟨resolved, v, hresolved, -⟩ := bind_eq_some h
  have hresolved := of_read hresolved rfl
  obtain ⟨any, w, hany, hresolved⟩ := bind_eq_some hresolved
  obtain ⟨rfl, hw, hcalm'⟩ := anyM_willResolve_growing hu hany
  have hmembers : u.types.members ⟨15⟩ = [⟨15⟩] :=
    TypeTable.members_eq_self (by rw [TypeTable.kind_of (growing_forms hu).inst]; nofun)
  simp only [hmembers] at hresolved
  have hw' := hu.trans hw
  have hinst : GrowingInstance w.types ⟨15⟩ ⟨11⟩ Ty.string := by
    refine ⟨(growing_forms hw').inst, .inl rfl, ?_⟩
    rw [hw'.kind (by decide)]
    decide
  exact absurd (hresolved.symm.trans (resolvePending_growing hw' hinst (hcalm'.trans hcalm) (by simp) n _)) nofun

end AnnotatedLua

