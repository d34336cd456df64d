/-
Resolution ends if no alias passes on more and more to itself: what it passes on for a parameter is a parameter of no
higher rank, or is made with parameters of lower rank (`Session.Nonexpansive`). Then only finitely many instances are
met (`unfolds_tame`).
-/
import AnnotatedLua.Proofs.Alias.Substitute
import AnnotatedLua.Proofs.Termination.Name
import AnnotatedLua.Proofs.Shape.Plain

namespace AnnotatedLua

open Solve Solver List Session
open TypeTable (Has className? has_of kind_of made_mono tabular_of_kind tree_old)

variable {ctx : Context} {s v : Session} {name : Symbol} {params : List Ty} {bindings : Bindings} {R : Nat}
  {t : TypeTable} {args visited : List Ty} {u : Session}

/-! ## Bindings -/

variable {l : List (Symbol × Ty)}

theorem Bindings.mem_insertEntry {name' : Symbol} {type type' : Ty}
    (h : (name', type') ∈ insertEntry name type l) : (name', type') = (name, type) ∨ (name', type') ∈ l := by
  induction l with
  | nil => exact .inl (by simpa [insertEntry] using h)
  | cons entry rest ih =>
    unfold insertEntry at h
    split at h
    · rcases mem_cons.1 h with h | h
      · exact .inl h
      · exact .inr (.tail _ h)
    · rcases mem_cons.1 h with h | h
      · exact .inr (h ▸ .head _)
      · exact (ih h).imp_right (.tail _)

theorem Bindings.mem_ofList {entry : Symbol × Ty} (h : entry ∈ (ofList l).entries) : entry ∈ l := by
  have main : ∀ (l : List (Symbol × Ty)) (b : Bindings),
      entry ∈ (l.foldl (fun b entry => b.insert entry.1 entry.2) b).entries → entry ∈ b.entries ∨ entry ∈ l := by
    intro l
    induction l with
    | nil => exact fun b h => .inl h
    | cons x rest ih =>
      intro b h
      rcases ih _ h with h | h
      · rcases mem_insertEntry h with he | h
        · have he : entry = x := he
          exact .inr (he ▸ .head _)
        · exact .inl h
      · exact .inr (.tail _ h)
  exact (main l empty h).resolve_left not_mem_nil

theorem Bindings.get?_ofArgs {v : Ty}
    (h : (ofArgs t params args).get? name = some v) : ∃ p, (p, v) ∈ params.zip args ∧ t.className? p = some name := by
  have hmem : (name, v) ∈ (ofArgs t params args).entries := by
    obtain ⟨_, _, he, -⟩ := lookup_eq_some_iff.1 h
    exact he ▸ mem_append_right _ (.head _)
  obtain ⟨⟨p, _⟩, hp, he⟩ := mem_filterMap.1 (mem_ofList hmem)
  obtain ⟨_, hname, he⟩ := Option.map_eq_some_iff.1 he
  cases he
  exact ⟨p, hp, hname⟩

/-! ## Aliases that do not grow -/

section
variable (ctx : Context) (rank : Symbol → Nat) (s : Session)

def Session.aliasFor (base : Ty) : Option (List Ty × Ty) :=
  match s.types.lookup base with
  | .aliasRef _ params target => some (params, target)
  | .classRef name marks => (s.standsFor ctx name marks).bind fun type =>
    match s.types.lookup type with
    | .aliasRef _ params target => some (params, target)
    | _ => none
  | _ => none

/-- A parameter of at most this rank, or a type that only uses lower ones. -/
def Session.Passes (arg : Ty) (k : Nat) : Prop :=
  (∃ name written bound, s.types.lookup arg = .param name written bound ∧ rank name ≤ k) ∨
    ∀ name, s.types.Uses arg name → rank name < k

/-- The instances of aliases that the type stands for, or that are passed on in it, pass on what their parameters
allow. -/
inductive Session.Fits : Ty → Prop
  | other {ty} (hkind : s.types.kind ty ∉ [Kind.union, .generic]) : Fits ty
  | union {ty parts} (hl : s.types.lookup ty = .union parts) (hparts : ∀ p ∈ parts, Fits p) : Fits ty
  | inst {ty base args} (hl : s.types.lookup ty = .generic base args)
      (hbase : s.types.kind base = .aliasRef ∨
        ∃ name marks, s.types.lookup base = .classRef name marks ∧ ¬ s.Instantiated ctx name marks)
      (hplain : (s.aliasFor ctx base).isSome → ∀ a ∈ args, s.Plain ctx a)
      (hargs : (s.aliasFor ctx base).isSome → ∀ a ∈ args, Fits a)
      (hpasses : ∀ params target, s.aliasFor ctx base = some (params, target) → ∀ pair ∈ params.zip args,
        ∀ name, s.types.className? pair.1 = some name → s.Passes rank pair.2 (rank name)) : Fits ty

/-- No alias passes on more and more. Names are declared as aliases, the parameters of tables are type parameters, and
tables that are declared in place have names of their own. -/
structure Session.Nonexpansive : Prop where
  targets : ∀ ty name params target, s.types.lookup ty = .aliasRef name params target → s.Fits ctx rank target
  aliases : ∀ name ty, s.aliasSeen ctx name = some ty → s.types.kind ty = .aliasRef
  params : ∀ name decl, s.classSeen ctx name = some decl → ∀ p ∈ decl.params, s.types.kind p = .param
  tables : ∀ name decl, s.classSeen ctx name = some decl → decl.tableNode.isSome → s.aliasSeen ctx name = none

def Session.layers (k : Nat) : Nat := (k + 1) * (s.types.size + 1)

inductive Session.Tame (m l : Nat) (t : TypeTable) : Ty → Prop
  | old {z} (h : s.types.Has z) : Tame m l t z
  | inert {z} (hz : t.Has z) (hkind : t.kind z ∉ [Kind.classRef, .aliasRef, .generic, .union]) : Tame m l t z
  | foreign {z base args} (hl : t.lookup z = .generic base args) (hbase : s.types.Has base)
      (h : s.aliasFor ctx base = none) : Tame m l t z
  | inst {z base args} (hl : t.lookup z = .generic base args) (hbase : s.types.Has base)
      (hlen : args.length ≤ l) (hmade : ∀ a ∈ args, t.tree a ∈ unions (s.types.made m))
      (hlayers : ∀ params target, s.aliasFor ctx base = some (params, target) → ∀ pair ∈ params.zip args,
        ∀ name, s.types.className? pair.1 = some name → t.tree pair.2 ∈ unions (s.types.made (s.layers (rank name))))
      (hmembers : ∀ params target, s.aliasFor ctx base = some (params, target) → ∀ pair ∈ params.zip args,
        ∀ name, s.types.className? pair.1 = some name → ∀ z ∈ t.members pair.2, Tame m l t z) : Tame m l t z
end

section
variable {rank : Symbol → Nat} {m l : Nat} {z : Ty}

theorem Session.Tame.has (hx : s.types.Extends t) (h : s.Tame ctx rank m l t z) : t.Has z := by
  cases h with
  | old h => exact hx.has h
  | inert hz => exact hz
  | foreign hl | inst hl => exact has_of hl

theorem Session.Tame.extends {t' : TypeTable} (hw : t.WF) (hw' : t'.WF) (hx : t.Extends t')
    (h : s.Tame ctx rank m l t z) : s.Tame ctx rank m l t' z := by
  have hlookup {z base : Ty} {args : List Ty} (hl : t.lookup z = .generic base args) : t'.lookup z = .generic base args :=
    (hx.lookup (has_of hl)).trans hl
  have hhas {z base : Ty} {args : List Ty} (hl : t.lookup z = .generic base args) : ∀ a ∈ args, t.Has a :=
    fun a ha => hw.part_has hl (.tail _ ha)
  induction h with
  | old h => exact .old h
  | inert hz hkind =>
    refine .inert (hx.has hz) ?_
    unfold TypeTable.kind at hkind ⊢
    rwa [hx.lookup hz]
  | foreign hl hbase h => exact .foreign (hlookup hl) hbase h
  | inst hl hbase hlen hmade hlayers hmembers ih =>
    have htree {a : Ty} (ha : t.Has a) : t'.tree a = t.tree a := hx.tree_eq hw hw' ha
    refine .inst (hlookup hl) hbase hlen (fun a ha => ?_) (fun params target halias pair hpair name hname => ?_)
      fun params target halias pair hpair name hname z hz => ?_
    · rw [htree (hhas hl a ha)]
      exact hmade a ha
    · rw [htree (hhas hl _ (of_mem_zip hpair).2)]
      exact hlayers params target halias pair hpair name hname
    · rw [hx.members (hhas hl _ (of_mem_zip hpair).2)] at hz
      exact ih params target halias pair hpair name hname z hz

variable [Solvers] (hs : s.Substitutes ctx)
include hs

variable (rank m l) in
theorem joins_tame : s.Joins ctx (fun t z => t.Has z ∧ s.Tame ctx rank m l t z)
    fun t ty => t.Has ty ∧ ∀ z ∈ t.members ty, s.Tame ctx rank m l t z where
  types := hs.types
  later u v hu hv z hz := ⟨hv.grown.has hz.1, hz.2.extends hu.types hv.types hv.grown⟩
  wholeLater u v hu hv ty hty := by
    refine ⟨hv.grown.has hty.1, ?_⟩
    rw [hv.grown.members hty.1]
    exact fun z hz => (hty.2 z hz).extends hu.types hv.types hv.grown
  has _ _ _ hz := hz.1
  void u hu := by
    have h := (hs.types.lookup_builtin Ty.void rfl).1
    exact ⟨hu.grown.has h, .old h⟩
  nil u hu := by
    have h := (hs.types.lookup_builtin Ty.nil rfl).1
    exact ⟨hu.grown.has h, .old h⟩
  boolean u hu _ _ _ := by
    have h := (hs.types.lookup_builtin Ty.boolean rfl).1
    exact ⟨hu.grown.has h, .old h⟩
  members u hu ty hty z hz := ⟨hu.types.member_has hty.1 hz, hty.2 z hz⟩
  single u hu z hz := by
    refine ⟨hz.1, ?_⟩
    by_cases hunion : u.types.kind z = .union
    · have hold : s.types.Has z := by
        cases hz.2 with
        | old h => exact h
        | inert _ hkind => rw [hunion] at hkind; simp at hkind
        | foreign hl | inst hl =>
          rw [kind_of hl] at hunion
          cases hunion
      rw [hu.grown.members hold]
      exact fun x hx => .old (hs.types.member_has hold hx)
    · rw [TypeTable.members_eq_self hunion]
      exact fun x hx => mem_singleton.1 hx ▸ hz.2
  union u hu ty l hl _ hz := by
    refine ⟨has_of hl, ?_⟩
    unfold TypeTable.members
    rw [hl]
    exact fun z hm => (hz z hm).2
  subsumes u hu x y hx hy := hs.decides u hu x y hx.1 hy.1

theorem tame_members (hu : u.Past ctx s) (hz : s.Tame ctx rank m l u.types z) :
    u.types.Has z ∧ ∀ x ∈ u.types.members z, s.Tame ctx rank m l u.types x :=
  (joins_tame rank m l hs).single u hu z ⟨hz.has hu.grown, hz⟩
end

/-! ## Putting arguments into the target of an alias -/

section
variable {rank : Symbol → Nat} {m l : Nat}

structure Session.Binds (ctx : Context) (rank : Symbol → Nat) (s : Session) (m l : Nat) (bindings : Bindings) (u : Session) :
    Prop where
  has : ∀ name v, bindings.get? name = some v → u.types.Has v
  symbol : ∀ name v, bindings.get? name = some v → s.types.HasSymbol name
  layers : ∀ name v, bindings.get? name = some v → u.types.tree v ∈ unions (s.types.made (s.layers (rank name)))
  members : ∀ name v, bindings.get? name = some v → ∀ z ∈ u.types.members v, s.Tame ctx rank m l u.types z

theorem Session.Binds.later (h : s.Binds ctx rank m l bindings u)
    (hu : u.types.WF) (hv : v.Past ctx u) : s.Binds ctx rank m l bindings v where
  has name x hx := hv.grown.has (h.has name x hx)
  symbol := h.symbol
  layers name x hx := by
    rw [hv.grown.tree_eq hu hv.types (h.has name x hx)]
    exact h.layers name x hx
  members name x hx := by
    rw [hv.grown.members (h.has name x hx)]
    exact fun z hz => (h.members name x hx z hz).extends hu hv.types hv.grown

theorem Session.layers_succ (k : Nat) : s.layers (k + 1) = s.layers k + (s.types.size + 1) := by
  unfold layers
  rw [Nat.succ_mul]

theorem Session.layers_mono {k k' : Nat} (h : k ≤ k') : s.layers k ≤ s.layers k' :=
  Nat.mul_le_mul_right _ (Nat.succ_le_succ h)

variable [Solvers] (hs : s.Substitutes ctx) (hR : ∀ name, s.types.HasSymbol name → rank name ≤ R)
include hs hR

theorem ends_substituteSingle {a : Ty} (ha : s.types.Has a) (hplain : s.Plain ctx a) (hu : u.Past ctx s)
    (hb : s.Binds ctx rank (s.layers (R + 1)) l bindings u)
    (hsurface : u.Ends ctx (·.substitute a (.params bindings)) fun r v =>
      v.types.Has r ∧ ∀ z ∈ v.types.members r, s.Tame ctx rank (s.layers (R + 1)) l v.types z) :
    u.Ends ctx (·.substituteSingle (.params bindings) a) fun r v => v.types.Has r ∧
      v.types.tree r ∈ unions (s.types.made (s.layers (R + 1))) ∧
      (∀ z ∈ v.types.members r, s.Tame ctx rank (s.layers (R + 1)) l v.types z) ∧
        ∀ k, s.Passes rank a k → v.types.tree r ∈ unions (s.types.made (s.layers k)) := by
  have hsingle {j : Nat} (h : u.Ends ctx (·.substitute a (.params bindings)) fun r v =>
      v.types.Has r ∧ v.types.tree r ∈ unions (s.types.made j)) :
      u.Ends ctx (·.substituteSingle (.params bindings) a) fun r v => v.types.Has r ∧
        v.types.tree r ∈ unions (s.types.made j) ∧
          ∀ z ∈ v.types.members r, s.Tame ctx rank (s.layers (R + 1)) l v.types z :=
    (h.and hsurface).bind fun r v hv hr =>
      ends_resultAt_made hs.types hs.decides (fun _ _ _ h => .old h)
        (fun _ _ hv hw _ _ h => h.extends hv.types hw.types hw.grown) (hu.trans hv) hr.1.1 hr.1.2 hr.2.2 0
  -- with room for the layers of the type, all that is bound is low enough
  have hplain {n j : Nat} (hn : ∀ name v, s.types.Uses a name → bindings.get? name = some v → s.layers (rank name) ≤ n)
      (hj : n + (s.types.size + 1) ≤ j) : u.Ends ctx (·.substitute a (.params bindings)) fun r v =>
        v.types.Has r ∧ v.types.tree r ∈ unions (s.types.made j) := by
    have hindex : a.index < s.types.size := ha
    refine (ends_substitute_plain (n := n) hs hplain ha hu hb.has fun name v huses hget => ?_).imp fun r v _ hr => ?_
    · exact unions_mono (made_mono _ (hn name v huses hget)) (hb.layers name v hget)
    · exact ⟨hr.1, unions_mono (made_mono _ (by omega)) hr.2⟩
  have hall := hsingle (hplain (n := s.layers R) (j := s.layers (R + 1))
    (fun name v _ hget => layers_mono (hR name (hb.symbol name v hget))) (by rw [layers_succ]))
  have hpasses (k : Nat) : u.Ends ctx (·.substituteSingle (.params bindings) a) fun r v =>
      s.Passes rank a k → v.types.tree r ∈ unions (s.types.made (s.layers k)) := by
    by_cases hpass : s.Passes rank a k
    · refine (hsingle (j := s.layers k) ?_).imp fun r v _ h _ => h.2.1
      rcases hpass with ⟨name, _, _, hl, hk⟩ | hlower
      · refine .ask rfl (.lookup hu.types a fun _ hform => ?_)
        rw [hu.grown.lookup ha, hl] at hform
        subst hform
        refine .pure hu.types ?_
        cases hget : bindings.get? name with
        | none => exact ⟨hu.grown.has ha, .inl (tree_old hs.types hu.types hu.grown ha)⟩
        | some v =>
          exact ⟨hb.has name v hget, unions_mono (made_mono _ (layers_mono hk)) (hb.layers name v hget)⟩
      · refine hplain (n := k * (s.types.size + 1)) (fun name v huses _ => ?_) ?_
        · exact Nat.mul_le_mul_right _ (hlower name huses)
        · unfold layers
          rw [Nat.succ_mul]
    · exact hall.imp fun _ _ _ _ h => absurd h hpass
  exact (hall.and (Session.Ends.all hpasses)).imp fun r v _ h => ⟨h.1.1, h.1.2.1, h.1.2.2, h.2⟩

omit [Solvers] hs hR in
theorem zip_forall₂ {R : Ty → Ty → Prop} {args' : List Ty} (h : List.Forall₂ R args args') {pair : Ty × Ty}
    (hpair : pair ∈ params.zip args') : ∃ a, (pair.1, a) ∈ params.zip args ∧ R a pair.2 := by
  induction h generalizing params with
  | nil => simp at hpair
  | cons hab _ ih =>
    cases params with
    | nil => simp at hpair
    | cons =>
      rcases mem_cons.1 hpair with rfl | hpair
      · exact ⟨_, .head _, hab⟩
      · obtain ⟨a, ha, hR⟩ := ih hpair
        exact ⟨a, .tail _ ha, hR⟩

omit hR in
theorem ends_substitute_base {base : Ty} (hbase : s.types.kind base = .aliasRef ∨
    ∃ name marks, s.types.lookup base = .classRef name marks ∧ ¬ s.Instantiated ctx name marks) (hhas : s.types.Has base)
    (hu : u.Past ctx s) (hb : ∀ name v, bindings.get? name = some v → u.types.Has v) :
    u.Ends ctx (·.substitute base (.params bindings)) fun r _ => r = base := by
  rcases hbase with hkind | ⟨name, marks, hl, hplain⟩
  · refine .ask rfl (.lookup hu.types base fun form hform => ?_)
    rw [hu.grown.lookup hhas] at hform
    rw [kind_of hform.symm] at hkind
    cases form with
    | aliasRef => exact .pure hu.types rfl
    | _ => cases hkind
  · refine (ends_substitute_class hu.types (fun _ => hs.at hu) hb ((hu.grown.lookup hhas).trans hl)).imp fun r v _ hr => ?_
    rcases hr with hr | ⟨-, hinstantiated, -⟩
    · exact hr
    · rw [hu.instantiated] at hinstantiated
      exact absurd hinstantiated hplain

variable (hn : s.Nonexpansive ctx rank) (hl : ∀ z base args, s.types.lookup z = .generic base args → args.length ≤ l)
include hn hl

theorem ends_substitute_fits {ty : Ty} (hf : s.Fits ctx rank ty) (hty : s.types.Has ty) (hu : u.Past ctx s)
    (hb : s.Binds ctx rank (s.layers (R + 1)) l bindings u) :
    u.Ends ctx (·.substitute ty (.params bindings)) fun r v =>
      v.types.Has r ∧ ∀ z ∈ v.types.members r, s.Tame ctx rank (s.layers (R + 1)) l v.types z := by
  induction hf generalizing u with
  | @other ty hkind =>
    by_cases hinert : s.types.kind ty ∈ [Kind.array, .function, .results]
    · refine (ends_substitute (hs.at hu) (hu.grown.has hty) hb.has).imp fun r v hv hr => ?_
      refine tame_members hs (hu.trans hv) (.inert hr.1 ?_)
      rw [hr.2 (by rwa [hu.kind hty]), hu.kind hty]
      revert hinert
      generalize s.types.kind ty = kind
      cases kind <;> simp
    · refine .ask rfl (.lookup hu.types ty fun form hform => ?_)
      rw [hu.grown.lookup hty] at hform
      unfold TypeTable.kind at hkind hinert
      rw [← hform] at hkind hinert
      cases form with
      | classRef name =>
        refine (ends_instantiateTable hu.types (fun _ => hs.at hu) hb.has (hu.grown.has hty)).imp fun r v hv hr => ?_
        have hv := hu.trans hv
        rcases hr with rfl | ⟨-, ⟨-, -, decl, hdecl, hnode, -⟩, args, hargs⟩
        · exact tame_members hs hv (.old hty)
        · -- the table has a name of its own
          refine tame_members hs hv (.foreign hargs hty ?_)
          rw [hu.classSeen] at hdecl
          unfold aliasFor standsFor
          rw [← hform]
          dsimp only
          rw [hn.tables name decl hdecl hnode]
          simp
      | param name =>
        refine .pure hu.types ?_
        cases hget : bindings.get? name with
        | none => exact tame_members hs hu (.old hty)
        | some v => exact ⟨hb.has name v hget, hb.members name v hget⟩
      | array | function | results => simp at hinert
      | union | generic => simp at hkind
      | _ => exact .pure hu.types (tame_members hs hu (.old hty))
  | @union ty parts hform hparts ih =>
    refine .ask rfl (.lookup hu.types ty fun form hform' => ?_)
    rw [hu.grown.lookup hty, hform] at hform'
    subst hform'
    have hj := (joins_tame rank (s.layers (R + 1)) l hs).at hu
    refine (ends_mapM hu.types hj.lasting fun p hp v hv => ?_).bind fun _ v hv hnew => ?_
    · exact ih p hp (hs.types.part_has hform hp) (hu.trans hv) (hb.later hu.types hv)
    · refine .early hv.types (tame_members hs (hu.trans hv) (.old hty)) fun _ => ?_
      exact (ends_unionAll (hj.at hv) hnew).imp fun r w _ hr => hr.1
  | @inst ty base args hform hbase hplain hargs hpasses ih =>
    have hpart : ∀ p ∈ base :: args, s.types.Has p := fun p hp => hs.types.part_has hform hp
    obtain ⟨hhas, hhasArgs⟩ := forall_mem_cons.1 hpart
    refine .ask rfl (.lookup hu.types ty fun _ hform' => ?_)
    rw [hu.grown.lookup hty, hform] at hform'
    subst hform'
    -- the instance itself, or one with other arguments
    have hrebuild {v : Session} (hv : v.Past ctx u) {newArgs : List Ty} (hnew : ∀ a ∈ newArgs, v.types.Has a)
        (htame : ∀ w : Session, w.Past ctx v → ∀ r, w.types.lookup r = .generic base newArgs →
          s.Tame ctx rank (s.layers (R + 1)) l w.types r) :
        v.Ends ctx (fun S => S.substitute base (.params bindings) >>= fun newBase =>
          if newArgs = args && newBase = base then pure ty else intern (.generic newBase newArgs)) fun r w =>
            w.types.Has r ∧ ∀ z ∈ w.types.members r, s.Tame ctx rank (s.layers (R + 1)) l w.types z := by
      have hv' := hu.trans hv
      refine (ends_substitute_base hs hbase hhas hv' (hb.later hu.types hv).has).bind fun _ w hw hnewBase => ?_
      rw [hnewBase]
      have hw' := hv'.trans hw
      refine .early hw.types (tame_members hs hw' (.old hty)) fun _ => ?_
      have hholds : w.types.Holds (.generic base newArgs) :=
        ⟨forall_mem_cons.2 ⟨hw'.grown.has hhas, fun a ha => hw.grown.has (hnew a ha)⟩, by simp⟩
      refine (ends_intern hw.types hholds).imp fun r x hx hr => ?_
      exact tame_members hs (hw'.trans hx) (htame x (hw.trans hx) r hr.2)
    by_cases hsome : (s.aliasFor ctx base).isSome
    · have hsingle : ∀ a ∈ args, u.Onward ctx (·.substituteSingle (.params bindings) a)
          fun r w => w.types.Has r ∧ w.types.tree r ∈ unions (s.types.made (s.layers (R + 1))) ∧
            (∀ z ∈ w.types.members r, s.Tame ctx rank (s.layers (R + 1)) l w.types z) ∧
              ∀ k, s.Passes rank a k → w.types.tree r ∈ unions (s.types.made (s.layers k)) := by
        intro a ha v hv
        have hv' := hu.trans hv
        have hb' := hb.later hu.types hv
        exact ends_substituteSingle hs hR (hhasArgs a ha) (hplain hsome a ha) hv' hb'
          (ih hsome a ha (hhasArgs a ha) hv' hb')
      refine (ends_mapM_forall₂ hu.types ?_ hsingle).bind fun newArgs v hv hnew => ?_
      · rintro a - r v w hv hw ⟨hr, hmade, hmembers, hlayers⟩
        rw [hw.grown.tree_eq hv.types hw.types hr, hw.grown.members hr]
        exact ⟨hw.grown.has hr, hmade, fun z hz => (hmembers z hz).extends hv.types hw.types hw.grown, hlayers⟩
      have hnewHas : ∀ r ∈ newArgs, v.types.Has r ∧ v.types.tree r ∈ unions (s.types.made (s.layers (R + 1))) :=
        forall₂_right (hnew.imp fun _ _ h => ⟨h.1, h.2.1⟩)
      refine hrebuild hv (fun r hr => (hnewHas r hr).1) fun w hw r hr => ?_
      have htree {a : Ty} (ha : a ∈ newArgs) : w.types.tree a = v.types.tree a :=
        hw.grown.tree_eq hv.types hw.types (hnewHas a ha).1
      refine .inst hr hhas (hnew.length_eq ▸ hl ty base args hform) (fun a ha => ?_)
        (fun params target halias pair hpair name hname => ?_) fun params target halias _ hpair name hname z hz => ?_
      · rw [htree ha]
        exact (hnewHas a ha).2
      · obtain ⟨a, ha, hfacts⟩ := zip_forall₂ hnew hpair
        rw [htree (of_mem_zip hpair).2]
        exact hfacts.2.2.2 _ (hpasses params target halias _ ha name hname)
      · obtain ⟨a, -, hfacts⟩ := zip_forall₂ hnew hpair
        rw [hw.grown.members hfacts.1] at hz
        exact (hfacts.2.2.1 z hz).extends hv.types hw.types hw.grown
    · have hsingle : ∀ a ∈ args, u.Onward ctx (·.substituteSingle (.params bindings) a) fun r w => w.types.Has r := by
        intro a ha v hv
        have hv' := hu.trans hv
        refine (ends_substitute (hs.at hv') (hv'.grown.has (hhasArgs a ha)) (hb.later hu.types hv).has).bind
          fun r w hw hr => ends_resultAt_has hw.types (hs.at (hv'.trans hw)).decides hr.1 0
      refine (ends_mapM hu.types lasting_has hsingle).bind fun _ v hv hnew => ?_
      exact hrebuild hv hnew fun w _ r hr => .foreign hr hhas (by simpa using hsome)
end

/-! ## Steps of resolution -/

section
variable {rank : Symbol → Nat} {l : Nat} [Solvers] (hs : s.Substitutes ctx) (hn : s.Nonexpansive ctx rank)
  (haliases : ∀ name ty, s.aliasSeen ctx name = some ty → s.types.Has ty)
  (hl : ∀ z base args, s.types.lookup z = .generic base args → args.length ≤ l)

def Session.unfolding (s : Session) (m l : Nat) : Set Tree :=
  s.types.made 0 ∪ {x | ∃ base args, x = .node (.generic base args) ∧ base ∈ s.types.made 0 ∧ args.length ≤ l ∧
    ∀ a ∈ args, a ∈ unions (s.types.made m)}

omit [Solvers] in
theorem Session.unfolding_finite (m l : Nat) : (s.unfolding m l).Finite := by
  have hlists := finite_lists (unions_finite (s.types.made_finite m)) l
  refine (s.types.made_finite 0).union (((s.types.made_finite 0).image2 (fun base args => Tree.node (.generic base args))
    hlists).subset ?_)
  rintro x ⟨base, args, rfl, hbase, hlen, hargs⟩
  exact ⟨base, hbase, args, ⟨hlen, hargs⟩, rfl⟩

structure Session.Allows (ctx : Context) (rank : Symbol → Nat) (s : Session) (m l : Nat) (t : TypeTable) (base : Ty)
    (args : List Ty) : Prop where
  length : args.length ≤ l
  made : ∀ a ∈ args, t.tree a ∈ unions (s.types.made m)
  layers : ∀ params target, s.aliasFor ctx base = some (params, target) → ∀ pair ∈ params.zip args,
    ∀ name, s.types.className? pair.1 = some name → t.tree pair.2 ∈ unions (s.types.made (s.layers (rank name)))
  members : ∀ params target, s.aliasFor ctx base = some (params, target) → ∀ pair ∈ params.zip args,
    ∀ name, s.types.className? pair.1 = some name → ∀ z ∈ t.members pair.2, s.Tame ctx rank m l t z

variable {base z : Ty}

include hs hl in
theorem Session.Tame.allows {m : Nat} (hu : u.Past ctx s) (hz : s.Tame ctx rank m l u.types z)
    (hform : u.types.lookup z = .generic base args) :
    s.types.Has base ∧ (s.aliasFor ctx base = none ∨ s.Allows ctx rank m l u.types base args) := by
  cases hz with
  | old h =>
    rw [hu.grown.lookup h] at hform
    have hparts : ∀ p ∈ base :: args, s.types.Has p := fun p hp => hs.types.part_has hform hp
    obtain ⟨hbase, hargs⟩ := forall_mem_cons.1 hparts
    have hmade {n : Nat} : ∀ a ∈ args, u.types.tree a ∈ unions (s.types.made n) :=
      fun a ha => .inl (tree_old hs.types hu.types hu.grown (hargs a ha))
    refine ⟨hbase, .inr ⟨hl z base args hform, hmade, fun _ _ _ pair hpair _ _ => hmade _ (of_mem_zip hpair).2,
      fun _ _ _ _ hpair _ _ => ?_⟩⟩
    exact (tame_members hs hu (.old (hargs _ (of_mem_zip hpair).2))).2
  | inert _ hkind =>
    rw [kind_of hform] at hkind
    simp at hkind
  | foreign hform' hbase h =>
    cases hform.symm.trans hform'
    exact ⟨hbase, .inl h⟩
  | inst hform' hbase hlen hmade hlayers hmembers =>
    cases hform.symm.trans hform'
    exact ⟨hbase, .inr ⟨hlen, hmade, hlayers, hmembers⟩⟩

omit [Solvers] in
theorem Session.Allows.tame {m : Nat} (hu : u.types.WF) (hv : v.Past ctx u) {r base' : Ty}
    (hargs : ∀ a ∈ args, u.types.Has a) (h : s.Allows ctx rank m l u.types base args)
    (hform : v.types.lookup r = .generic base' args) (hbase : s.types.Has base')
    (hsame : s.aliasFor ctx base' = s.aliasFor ctx base) : s.Tame ctx rank m l v.types r := by
  have htree {a : Ty} (ha : a ∈ args) : v.types.tree a = u.types.tree a :=
    hv.grown.tree_eq hu hv.types (hargs a ha)
  refine .inst hform hbase h.length (fun a ha => ?_) (fun params target halias pair hpair name hname => ?_)
    fun params target halias pair hpair name hname z hz => ?_
  · rw [htree ha]
    exact h.made a ha
  · rw [htree (of_mem_zip hpair).2]
    exact h.layers params target (hsame ▸ halias) pair hpair name hname
  · rw [hv.grown.members (hargs _ (of_mem_zip hpair).2)] at hz
    exact (h.members params target (hsame ▸ halias) pair hpair name hname z hz).extends hu hv.types hv.grown

variable (hR : ∀ name, s.types.HasSymbol name → rank name ≤ R)
include hs hn haliases hl hR

theorem ends_resolveWithArgs (hu : u.Past ctx s) (hbase : s.types.Has base) (hargs : ∀ a ∈ args, u.types.Has a)
    (h : s.aliasFor ctx base = none ∨ s.Allows ctx rank (s.layers (R + 1)) l u.types base args) :
    u.Ends ctx (·.resolveWithArgs base args) fun r v => r = base ∨
      s.Allows ctx rank (s.layers (R + 1)) l u.types base args ∧ v.types.Has r ∧
        ∀ x ∈ v.types.members r, s.Tame ctx rank (s.layers (R + 1)) l v.types x := by
  refine .lookup hu.types base fun form hform => ?_
  rw [hu.grown.lookup hbase] at hform
  cases form with
  | classRef name marks =>
    have hkind : u.types.kind base ≠ .generic := by
      rw [hu.kind hbase]
      unfold TypeTable.kind
      rw [← hform]
      nofun
    refine (ends_willResolve hu.types (tabular_of_kind hkind)).bind fun _ v hv hresolves => ?_
    unfold Session.resolves at hresolves
    rw [hu.grown.lookup hbase, ← hform, hu.marksSeen] at hresolves
    dsimp only at hresolves
    refine .early hv.types (.inl rfl) fun hyes => ?_
    refine (ends_aliasType hv.types name).bind fun found w hw hfound => ?_
    have hw' := hu.trans (hv.trans hw)
    rw [(hu.trans hv).aliasSeen] at hfound
    cases found with
    | none => exact .pure hw.types (.inl rfl)
    | some type =>
      have htype : s.types.Has type := haliases name type hfound.symm
      obtain ⟨aliasName, params, target, hl'⟩ : ∃ aliasName params target,
          s.types.lookup type = .aliasRef aliasName params target := by
        have hkind := hn.aliases name type hfound.symm
        unfold TypeTable.kind at hkind
        cases hl' : s.types.lookup type <;> rw [hl'] at hkind <;> first | exact ⟨_, _, _, rfl⟩ | cases hkind
      have halias : s.aliasFor ctx base = some (params, target) ∧ s.aliasFor ctx type = some (params, target) := by
        have hvariable : (s.marksSeen ctx name marks).isVariable = false := by
          rw [hresolves] at hyes
          simpa using hyes
        unfold aliasFor Session.standsFor
        rw [← hform, hl']
        simp [hvariable, ← hfound, hl']
      have hallows := h.resolve_left (by rw [halias.1]; nofun)
      refine .early hw.types (.inr ⟨hallows, tame_members hs hw' (.old htype)⟩) fun _ => ?_
      have hholds : w.types.Holds (.generic type args) :=
        ⟨forall_mem_cons.2 ⟨hw'.grown.has htype, fun a ha => (hv.trans hw).grown.has (hargs a ha)⟩, nofun⟩
      refine (ends_intern hw.types hholds).imp fun r x hx hr => .inr ⟨hallows, ?_⟩
      refine tame_members hs (hw'.trans hx) ?_
      exact hallows.tame hu.types (hv.trans (hw.trans hx)) hargs hr.2 htype (halias.2.trans halias.1.symm)
  | aliasRef name params target =>
    have hparts : ∀ p ∈ params ++ [target], s.types.Has p := fun p hp => hs.types.part_has hform.symm hp
    obtain ⟨hparams, htarget⟩ := forall_mem_append.1 hparts
    have htarget : s.types.Has target := htarget target (by simp)
    have halias : s.aliasFor ctx base = some (params, target) := by
      unfold aliasFor
      rw [← hform]
    have hallows := h.resolve_left (by rw [halias]; nofun)
    refine .early hu.types (.inr ⟨hallows, tame_members hs hu (.old htarget)⟩) fun _ => ?_
    refine (ends_ofTypes hu.types (Q := fun b v => u = v ∧ b = Bindings.ofArgs u.types params args) ⟨rfl, rfl⟩).bind ?_
    rintro bindings _ - ⟨rfl, rfl⟩
    have hbinds : s.Binds ctx rank (s.layers (R + 1)) l (Bindings.ofArgs u.types params args) u := by
      have hget {name : Symbol} {v : Ty} (hv : (Bindings.ofArgs u.types params args).get? name = some v) :
          ∃ p, (p, v) ∈ params.zip args ∧ s.types.Has p ∧ s.types.className? p = some name := by
        obtain ⟨p, hp, hname⟩ := Bindings.get?_ofArgs hv
        have hhas := hparams p (of_mem_zip hp).1
        unfold className? at hname ⊢
        rw [hu.grown.lookup hhas] at hname
        exact ⟨p, hp, hhas, hname⟩
      refine ⟨fun name v hv => ?_, fun name v hv => ?_, fun name v hv => ?_, fun name v hv => ?_⟩
      all_goals obtain ⟨p, hp, -, hname⟩ := hget hv
      · exact hargs v (of_mem_zip hp).2
      · have hmem : name ∈ (s.types.lookup p).names := by
          unfold className? at hname
          split at hname <;> cases hname <;> rename_i he <;> rw [he] <;> simp
        exact hs.types.hasSymbol hmem
      · exact hallows.layers params target halias (p, v) hp name hname
      · exact hallows.members params target halias (p, v) hp name hname
    exact (ends_substitute_fits hs hR hn hl (hn.targets base name params target hform.symm) htarget hu hbinds).imp
      fun r v _ hr => .inr ⟨hallows, hr⟩
  | _ => exact .pure hu.types (.inl rfl)

theorem ends_resolveOne_tame (hu : u.Past ctx s) (hz : s.Tame ctx rank (s.layers (R + 1)) l u.types z) :
    u.Ends ctx (·.resolveOne z) fun r v => r = z ∨ u.types.tree z ∈ s.unfolding (s.layers (R + 1)) l ∧
      v.types.Has r ∧ ∀ x ∈ v.types.members r, s.Tame ctx rank (s.layers (R + 1)) l v.types x := by
  by_cases hgeneric : u.types.kind z = .generic
  · refine .lookup hu.types z fun form hform => ?_
    rw [kind_of hform.symm] at hgeneric
    cases form with
    | generic base args =>
      obtain ⟨hbase, hallows⟩ := hz.allows hs hl hu hform.symm
      have hargs : ∀ a ∈ args, u.types.Has a := fun a ha => hu.types.part_has hform.symm (.tail _ ha)
      refine (ends_resolveWithArgs hs hn haliases hl hR hu hbase hargs hallows).bind fun r v hv hr => ?_
      refine .pure hv.types ?_
      by_cases he : r = base
      · exact .inl (if_pos he)
      · obtain ⟨hallows, hr⟩ := hr.resolve_left he
        rw [if_neg he]
        refine .inr ⟨.inr ⟨u.types.tree base, args.map u.types.tree, ?_, ?_, by simpa using hallows.length, ?_⟩, hr⟩
        · rw [hu.types.toGrounded.tree_eq, ← hform]
          rfl
        · exact tree_old hs.types hu.types hu.grown hbase
        · simpa using hallows.made
    | _ => cases hgeneric
  · refine (ends_resolveOne hu.types (tabular_of_kind hgeneric)).imp fun r v hv hr => ?_
    by_cases he : u.next ctx z = z
    · exact .inl (hr.trans he)
    -- only old names stand for something else
    have hold : s.types.Has z := by
      cases hz with
      | old h => exact h
      | inert _ hkind =>
        refine absurd ?_ he
        unfold TypeTable.kind at hkind
        unfold Session.next
        split
        · rename_i hform
          rw [hform] at hkind
          simp at hkind
        · rename_i hform
          rw [hform] at hkind
          simp at hkind
        · rfl
      | foreign hform | inst hform => exact absurd (kind_of hform) hgeneric
    rw [hu.next hold] at hr he
    refine .inr ⟨.inl (tree_old hs.types hu.types hu.grown hold), ?_⟩
    exact tame_members hs (hu.trans hv) (.old (hr ▸ next_has hs.types haliases hold))

theorem unfolds_tame : s.Unfolds ctx (s.Tame ctx rank (s.layers (R + 1)) l) Has (s.unfolding (s.layers (R + 1)) l) where
  types := hs.types
  finite := s.unfolding_finite _ l
  later u v hu hv z := ⟨fun hz => hz.extends hu.types hv.types hv.grown, hv.grown.has⟩
  has u hu z hz := hz.has hu.grown
  step u hu z hz := by
    refine (ends_resolveOne_tame hs hn haliases hl hR hu hz).imp fun r v hv hr => ?_
    by_cases he : r = z
    · exact .inl ⟨he, hv.grown.has (hz.has hu.grown)⟩
    · obtain ⟨htree, -, hmembers⟩ := hr.resolve_left he
      exact .inr ⟨he, htree, hmembers⟩
end

end AnnotatedLua
