/-
The indexer that a search finds has a narrowest key of those that take the index (`indexer_narrowest`), unless
comparisons are under way already (`indexer_hindered`). A search keeps one indexer while it walks over the members. That
none seen so far is narrower stays true, since acceptance between keys is transitive.
-/
import AnnotatedLua.Proofs.Call.Match
import AnnotatedLua.Proofs.Check.Cut
import AnnotatedLua.Proofs.Union.Accept

namespace AnnotatedLua

open Solve Solver TypeTable List

variable {ctx : Context} {s v u : Session} {n : Nat} {ty index key : Ty} {σ : Type} {b : Bool} {seen : List Member}

/-! ## Walks in sessions -/

theorem Solver.Asks.keeps {ι : Type} {m : Solve ι} (h : (ofBudget n).Asks m) : Keeps m := by
  cases h with
  | isCanceled => exact keeps_closed.isCanceled
  | lookup => exact keeps_closed.ofTypes _
  | name => exact keeps_of_agree keeps_closed.logic.name
  | library => exact keeps_of_agree (keeps_closed.logic.classNamed _ _)
  | classDecl name => exact keeps_classDecl name
  | ownMembers => exact keeps_of_agree keeps_closed.logic.ownMembers
  | superClass => exact ask_keeps n _ rfl
  | resolve ty => exact keeps_resolve n ty
  | isOverridden => exact keeps_of_agree (keeps_closed.logic.isOverridden (keeps_respects n))

open Classical in
noncomputable def Solve.within {α : Type} (P : Session → Prop) (m : Solve α) : Solve α :=
  fun ctx s => if P s then m ctx s else none

theorem visitMembers_within (hs : s.Sound ctx) [Value σ] {visit : Visitor σ} {deep : Bool}
    {state : σ} {r : σ × Bool} (hr : (ofBudget n).visitMembers visit deep ty state ctx s = some (r, u))
    (hv : (Alone.logic downward_true hs).Follows hs.types.self visit visit) (hty : s.types.Has ty)
    (hstate : hs.types.Stores state) (hu : u.Clear ctx) :
    (ofBudget n).visitMembers (fun state m => (visit state m).within (·.From ctx s)) deep ty state ctx s = some (r, u) := by
  have h := (Session.Past.refl hs).twins hs
  have : Same h.pairing ty ty := hs.stores_type hty
  have : Same h.pairing state state := hstate
  have := Pairing.After.refl h.pairing
  have hrespects := (Alone.logic downward_true hs).respects_ofBudget n
  refine ((Logic.visitMembers _ hrespects fun q hq a a' m m' _ _ => ?_).leads s h r u hr).2 ⟨hu, trivial⟩
  have hstep := @hv q hq a a' m m' _ _
  refine ⟨hstep.keeps, fun v k _ b w hw => ?_⟩
  obtain ⟨hleads, he⟩ := hstep.leads v k b w hw
  exact ⟨hleads, fun hfine => (if_pos k.left).trans (he hfine)⟩

theorem keeping_shadows (visit : Visitor σ) :
    Shadows (fun (a : σ × List Member) b => a.1 = b) (fun _ => False) (fun _ => False) (keeping visit) visit where
  step := by
    rintro ⟨_, _⟩ _ m rfl ctx s a u hr
    obtain ⟨r, _, hr, hlast⟩ := bind_eq_some hr
    cases hlast
    exact ⟨r, u, hr, .inl ⟨⟨rfl, rfl⟩, rfl⟩⟩
  bad _ _ h := h.elim

/-! ## Keys -/

/-- The key accepts the index, if nothing limits the comparison. -/
def Session.Takes (ctx : Context) (s : Session) (key index : Ty) : Prop :=
  s.Answers ctx (·.accepts key index { strictAny := true }) true

theorem takes_of_run (hs : s.Sound ctx) (hkey : s.types.Has key) (hindex : s.types.Has index)
    (hv : v.Past ctx s) (hr : (ofBudget n).accepts key index { strictAny := true } ctx v = some (b, u))
    (hu : u.Clear ctx) : u.Past ctx s ∧ (b = true ↔ s.Takes ctx key index) := by
  have hst := hs.stores_pair hkey hindex
  have hregular := regular_accepts { strictAny := true }
  obtain ⟨hpast, -⟩ := hv.step (x := (key, index)) hregular hs hst hr
  have hb := (hv.since ((ask_keeps n _ rfl ctx v b u hr).clear hu)).truth (x := (key, index)) hregular hs hst hr hu
  exact ⟨hpast, fun h => by rwa [h] at hb, fun h => hb.unique hregular h⟩

/-- An atom other than `nil`, or a union of such atoms. -/
structure Session.KeyType (ctx : Context) (s : Session) (ty : Ty) : Prop where
  single : s.Single ctx ty
  known : ty ≠ Ty.any
  present : Ty.nil ∉ s.types.members ty

/-- No superclass is being compared, and the guard has room for such a comparison. -/
structure Session.Open (ctx : Context) (s : Session) : Prop where
  sound : s.Sound ctx
  idle : s.Avoids .superClass
  room : s.guard.depth < s.guard.limits.depth

theorem Session.Single.unlimited (h : s.Single ctx ty) : (s.unlimited 0).Single ctx.uncancelled ty := by
  cases h with
  | any => exact .any
  | atom h => exact .atom h.unlimited
  | union hform hnodup hne hatoms => exact .union hform hnodup hne fun z hz => (hatoms z hz).unlimited

theorem Session.Open.takes_iff (hs : s.Open ctx) (hkey : s.KeyType ctx key)
    (hindex : s.KeyType ctx index) : s.Takes ctx key index ↔
      ∀ z ∈ s.types.members index, ∃ y ∈ s.types.members key, s.types.literalOf y z = true := by
  have hfree : (s.unlimited 0).Free ctx.uncancelled 1 := ⟨hs.sound.types, rfl, le_refl _, hs.room⟩
  have h : s.Answers ctx (·.accepts key index { strictAny := true }) _ :=
    Always.answers (always_accepts hfree hs.idle hkey.single.unlimited hindex.single.unlimited) hs.sound.types
  have hpure : ctx.uncancelled.acceptsMembers s.types { strictAny := true } key index = true ↔ _ := all_eq_true
  refine Iff.trans ⟨fun htakes => h.unique (x := (key, index)) (regular_accepts _) htakes, fun htrue => ?_⟩
    (hpure.trans (forall₂_congr fun z hz => ?_))
  · rwa [show ctx.uncancelled.acceptsMembers _ _ key index = true from htrue] at h
  · have hz : z ≠ Ty.nil := fun h => hindex.present (h ▸ hz)
    rw [Context.acceptsMember_iff]
    simp [hkey.known, Context.lets, takes, Ty.isNil, hz]

theorem Session.Open.takes_trans (hs : s.Open ctx) {a b c : Ty} (ha : s.KeyType ctx a) (hb : s.KeyType ctx b)
    (hc : s.KeyType ctx c) (hab : s.Takes ctx a b) (hbc : s.Takes ctx b c) : s.Takes ctx a c := by
  rw [hs.takes_iff ‹_› ‹_›] at hab hbc ⊢
  intro z hz
  obtain ⟨y, hy, hyz⟩ := hbc z hz
  obtain ⟨x, hx, hxy⟩ := hab y hy
  have horders := hs.sound.types.literalOf_orders (M := fun _ => True) trivial trivial trivial
  exact ⟨x, hx, horders.trans x y z trivial trivial trivial hxy hyz⟩

/-- The keys of all the indexers among the members are such types. -/
def Session.Keyed (ctx : Context) (s : Session) (seen : List Member) : Prop :=
  ∀ m ∈ seen, ∀ key, m.index? = some key → s.KeyType ctx key

/-! ## The narrowest key -/

/-- The second member has a strictly narrower key. -/
def Narrower (takes : Ty → Ty → Prop) (m m' : Member) : Prop :=
  ∃ key key', m.index? = some key ∧ m'.index? = some key' ∧ takes key key' ∧ ¬ takes key' key

/-- The member was seen, it is declared or not, and its key takes the index. -/
structure Matching (takes : Ty → Ty → Prop) (index : Ty) (declared : Bool) (seen : List Member) (m : Member) : Prop where
  seen : m ∈ seen
  declared : m.declared = declared
  taken : ∃ key, m.index? = some key ∧ takes key index

/-- What is found matches, if anything does, and nothing that matches has a narrower key. -/
structure Narrowest (takes : Ty → Ty → Prop) (index : Ty) (declared : Bool) (seen : List Member) (found : Option Member) :
    Prop where
  none : found = none → ∀ m, ¬ Matching takes index declared seen m
  found : ∀ m, found = some m → Matching takes index declared seen m ∧
    ∀ m', Matching takes index declared seen m' → ¬ Narrower takes m m'

section
variable {takes : Ty → Ty → Prop} {declared : Bool} {found : Option Member} {m m' : Member}

theorem Matching.cases (h : Matching takes index declared (seen ++ [m]) m') :
    Matching takes index declared seen m' ∨ m' = m := by
  rcases mem_append.1 h.seen with hm | hm
  · exact .inl ⟨hm, h.declared, h.taken⟩
  · exact .inr (mem_singleton.1 hm)

namespace Narrowest

theorem start : Narrowest takes index declared [] .none := ⟨fun _ _ hm => not_mem_nil hm.seen, nofun⟩

theorem pass (h : Narrowest takes index declared seen found)
    (hm : Matching takes index declared (seen ++ [m]) m → ∃ m', found = some m' ∧ ¬ Narrower takes m' m) :
    Narrowest takes index declared (seen ++ [m]) found where
  none hnone m' hm' := by
    rcases hm'.cases with hold | rfl
    · exact h.none hnone m' hold
    · obtain ⟨m', hfound, -⟩ := hm hm'
      cases hnone.symm.trans hfound
  found e he := by
    obtain ⟨⟨hseen, hd, htaken⟩, hleast⟩ := h.found e he
    refine ⟨⟨mem_append_left _ hseen, hd, htaken⟩, fun m' hm' => ?_⟩
    rcases hm'.cases with hold | rfl
    · exact hleast m' hold
    · obtain ⟨_, he', hnot⟩ := hm hm'
      cases he.symm.trans he'
      exact hnot

theorem take (h : Narrowest (s.Takes ctx) index declared seen found) (hs : s.Open ctx) (hkeys : s.Keyed ctx (seen ++ [m]))
    (hm : Matching (s.Takes ctx) index declared (seen ++ [m]) m)
    (hnarrow : ∀ e a b, found = some e → e.index? = some a → m.index? = some b → s.Takes ctx a b) :
    Narrowest (s.Takes ctx) index declared (seen ++ [m]) (some m) where
  none h := nomatch h
  found := by
    rintro _ ⟨⟩
    refine ⟨hm, fun m' hm' => ?_⟩
    rintro ⟨b, c, hb, hc, htakes, hnot⟩
    rcases hm'.cases with hold | rfl
    · cases hfound : found with
      | none => exact h.none hfound m' hold
      | some e =>
        -- what is narrower than the new one was narrower than the old one already
        obtain ⟨he, hleast⟩ := h.found e hfound
        obtain ⟨a, ha, -⟩ := he.taken
        have hold' := hnarrow e a b hfound ha hb
        have ha' := hkeys e (mem_append_left _ he.seen) a ha
        have hb' := hkeys m hm.seen b hb
        have hc' := hkeys m' hm'.seen c hc
        refine hleast m' hold ⟨a, c, ha, hc, hs.takes_trans ha' hb' hc' hold' htakes, fun hback => hnot ?_⟩
        exact hs.takes_trans hc' ha' hb' hback hold'
    · cases hb.symm.trans hc
      exact hnot htakes

end Narrowest

/-! ## The search -/

def Searched (takes : Ty → Ty → Prop) (index : Ty) (seen : List Member) (found : IndexSearch) : Prop :=
  Narrowest takes index true seen found.declared ∧ Narrowest takes index false seen found.inferred

variable (hs : s.Open ctx) (hindex : s.KeyType ctx index) (hkeys : s.Keyed ctx (seen ++ [m]))
include hs hkeys

theorem isNarrower_run (h : Narrowest (s.Takes ctx) index m.declared seen found) (hkey : m.index? = some key)
    (htakes : s.Takes ctx key index) (hv : v.Past ctx s)
    (hr : (ofBudget n).isNarrower found key ctx v = some (b, u)) (hu : u.Clear ctx) :
    Narrowest (s.Takes ctx) index m.declared (seen ++ [m]) (if b then some m else found) := by
  have hm : Matching (s.Takes ctx) index m.declared (seen ++ [m]) m := ⟨by simp, rfl, key, hkey, htakes⟩
  unfold Solver.isNarrower at hr
  cases hfound : found with
  | none =>
    rw [hfound] at hr
    cases hr
    exact h.take hs hkeys hm fun e a b he => by cases hfound.symm.trans he
  | some e =>
    obtain ⟨he, -⟩ := h.found e hfound
    obtain ⟨eKey, heKey, -⟩ := he.taken
    simp only [hfound, heKey] at hr
    obtain ⟨-, hb⟩ := takes_of_run hs.sound ((hkeys e (mem_append_left _ he.seen) eKey heKey).single.has hs.sound.types)
      ((hkeys m hm.seen key hkey).single.has hs.sound.types) hv hr hu
    cases b with
    | true =>
      refine h.take hs hkeys hm fun _ a b he' ha hb' => ?_
      cases hfound.symm.trans he'
      cases heKey.symm.trans ha
      cases hkey.symm.trans hb'
      exact hb.1 rfl
    | false =>
      rw [if_neg Bool.false_ne_true, ← hfound]
      refine h.pass fun _ => ⟨e, hfound, ?_⟩
      rintro ⟨a, b, ha, hb', hab, -⟩
      cases heKey.symm.trans ha
      cases hkey.symm.trans hb'
      exact Bool.false_ne_true (hb.2 hab)

include hindex

theorem visitIndexer_run {found : IndexSearch} (h : Searched (s.Takes ctx) index seen found) (hv : v.Past ctx s)
    {r : IndexSearch × Bool} (hr : (ofBudget n).visitIndexer index false found m ctx v = some (r, u)) (hu : u.Clear ctx) :
    Searched (s.Takes ctx) index (seen ++ [m]) r.1 := by
  have hskip (hnot : ¬ ∃ key, m.index? = some key ∧ s.Takes ctx key index) :
      Searched (s.Takes ctx) index (seen ++ [m]) found :=
    ⟨h.1.pass fun hm => absurd hm.taken hnot, h.2.pass fun hm => absurd hm.taken hnot⟩
  unfold Solver.visitIndexer at hr
  cases hkey : m.index? with
  | none =>
    simp only [hkey] at hr
    cases hr
    refine hskip ?_
    rintro ⟨key, hkey', -⟩
    cases hkey.symm.trans hkey'
  | some key =>
    simp only [hkey] at hr
    obtain ⟨fits, v1, hfits, hr⟩ := bind_eq_some hr
    have hfits := takes_of_run hs.sound ((hkeys m (by simp) key hkey).single.has hs.sound.types)
      (hindex.single.has hs.sound.types) hv hfits
    cases fits with
    | false =>
      cases hr
      refine hskip ?_
      rintro ⟨_, hkey', htakes⟩
      cases hkey.symm.trans hkey'
      exact Bool.false_ne_true ((hfits hu).2.2 htakes)
    | true =>
      -- of the two slots, only that of the member may change
      have hslot {slot : Option Member} {b : Bool} {v2 : Session} (hv2 : v2.Clear ctx)
          (h : Narrowest (s.Takes ctx) index m.declared seen slot)
          (hb : (ofBudget n).isNarrower slot key ctx v1 = some (b, v2)) := by
        have hkept := keeps_of_agree (keeps_closed.logic.isNarrower (keeps_respects n)) ctx v1 b v2 hb
        obtain ⟨hv1, htakes⟩ := hfits (hkept.clear hv2)
        exact isNarrower_run hs hkeys h hkey (htakes.1 rfl) hv1 hb hv2
      cases hd : m.declared with
      | true =>
        simp only [hd] at hr hslot
        obtain ⟨b, v2, hb, hr⟩ := bind_eq_some hr
        have hother := h.2.pass (m := m) fun hm => by cases hd.symm.trans hm.declared
        cases b <;> (cases hr; exact ⟨hslot hu h.1 hb, hother⟩)
      | false =>
        simp only [hd] at hr hslot
        obtain ⟨b, _, hb, hr⟩ := bind_eq_some hr
        have hother := h.1.pass (m := m) fun hm => by cases hd.symm.trans hm.declared
        cases b <;> (cases hr; exact ⟨hother, hslot hu h.2 hb⟩)
end

variable {name : Symbol} {marks : Marks} {found : IndexSearch} {seen : List Member} {complete : Bool}

theorem visitIndexer_searched (hs : s.Open ctx) (hty : s.types.Has ty) (hindex : s.KeyType ctx index)
    (hwalk : (ofBudget n).visitMembers (keeping ((ofBudget n).visitIndexer index false)) true ty ({}, []) ctx s =
      some (((found, seen), complete), u)) (hu : u.Clear ctx) (hkeys : s.Keyed ctx seen) :
    Searched (s.Takes ctx) index seen found := by
  have : Same hs.sound.types.self index index := hs.sound.stores_type (hindex.single.has hs.sound.types)
  have hstart : Same hs.sound.types.self (({}, []) : IndexSearch × List Member) ({}, []) := inferInstance
  have hrespects := (Alone.logic downward_true hs.sound).respects_ofBudget n
  have hwalk := visitMembers_within hs.sound hwalk (Logic.keeping _ (Logic.visitIndexer _ hrespects)) hty hstart hu
  -- the state is known as long as nothing stops the search
  refine ((Tours.members true ty).carries (J := fun (r : IndexSearch × List Member) v => s.Kept v ∧ (v.Clear ctx →
    s.Keyed ctx r.2 → Searched (s.Takes ctx) index r.2 r.1)) ?_ ⟨.refl s, fun _ _ => ⟨.start, .start⟩⟩ hwalk).2 hu hkeys
  constructor
  · rintro _ _ hn state v i w ⟨hv, h⟩ hr
    have hkept := hn.keeps ctx v i w hr
    exact ⟨hv.trans hkept, fun hclear => h (hkept.clear hclear)⟩
  · rintro ⟨_, _⟩ m v r w ⟨hv, h⟩ hr
    have hfrom : v.From ctx s := by
      by_contra hnot
      cases (if_neg hnot).symm.trans hr
    obtain ⟨r, _, hr, hlast⟩ := bind_eq_some ((if_pos hfrom).symm.trans hr)
    cases hlast
    have hkept : v.Kept w := keeps_of_agree (Logic.visitIndexer _ (keeps_respects n)).now ctx v r w hr
    refine ⟨hv.trans hkept, fun hclear hkeys => ?_⟩
    have hbefore := h (hkept.clear hclear) fun m' hm' => hkeys m' (mem_append_left _ hm')
    exact visitIndexer_run hs hindex hkeys hbefore ⟨hfrom, hv⟩ hr hclear

/-- A search over the members of a class ends with the indexer that has the narrowest key of the declared ones that take
the index, if there is any, and with that of the other ones if not. All keys are made of atoms. -/
theorem indexer_narrowest (hs : s.Open ctx) (hty : s.types.Has ty) (hform : s.types.lookup ty = .classRef name marks)
    (hindex : s.KeyType ctx index)
    (hwalk : (ofBudget n).visitMembers (keeping ((ofBudget n).visitIndexer index false)) true ty ({}, []) ctx s =
      some (((found, seen), complete), u)) (hu : u.Clear ctx) (hkeys : s.Keyed ctx seen) :
    ∃ declared inferred, (ofBudget n).indexer? ty index false ctx s = some (declared.or inferred, u) ∧
      Narrowest (s.Takes ctx) index true seen declared ∧ Narrowest (s.Takes ctx) index false seen inferred := by
  refine ⟨found.declared, found.inferred, ?_, visitIndexer_searched hs hty hindex hwalk hu hkeys⟩
  obtain ⟨⟨_, go⟩, v, hplain, ⟨⟨rfl, -⟩, rfl⟩ | ⟨hfalse, -⟩⟩ :=
    visitMembers_cut (keeping_shadows _) (ofBudget n) true ty (_, []) _ rfl ctx s _ u hwalk
  · show (lookup ty >>= _) ctx s = _
    rw [run_lookup, hform]
    exact run_bind hplain
  · exact hfalse.elim

example : ((ofBudget 9).indexer? Ty.table Ty.string false Declarations.empty.context (.start .initial .standard)).map
    (·.1.isNone) = some true := by
  decide +kernel

/-- In a `Row`, the index `1` is looked for. -/
theorem indexer_narrowest_row : ∃ u declared inferred, (ofBudget 20).indexer? ⟨10⟩ ⟨11⟩ false rows.context rowsStart =
    some (declared.or inferred, u) ∧
    Narrowest (rowsStart.Takes rows.context) ⟨11⟩ true [.indexed ⟨11⟩ Ty.string] declared ∧
    Narrowest (rowsStart.Takes rows.context) ⟨11⟩ false [.indexed ⟨11⟩ Ty.string] inferred := by
  have hkey : rowsStart.KeyType rows.context ⟨11⟩ :=
    ⟨.atom (.literal (.inr rfl) (show _ = FormOf.literal .number ⟨4⟩ by decide +kernel)), by decide, by decide +kernel⟩
  have hwalk : ((ofBudget 20).visitMembers (keeping ((ofBudget 20).visitIndexer ⟨11⟩ false)) true ⟨10⟩ ({}, []) rows.context
      rowsStart).map (fun r => (r.1.1.2, r.2.guard.exceeded, r.2.canceled)) = some ([.indexed ⟨11⟩ Ty.string], false, false) := by
    decide +kernel
  obtain ⟨⟨⟨⟨found, seen⟩, complete⟩, u⟩, hwalk, hr⟩ := Option.map_eq_some_iff.1 hwalk
  obtain ⟨rfl, hexceeded, hcanceled⟩ : seen = _ ∧ u.guard.exceeded = false ∧ u.canceled = false := by simpa using hr
  have hkeys : rowsStart.Keyed rows.context [.indexed ⟨11⟩ Ty.string] := by
    rintro m hm key hm'
    obtain rfl := mem_singleton.1 hm
    cases hm'
    exact hkey
  exact ⟨u, indexer_narrowest ⟨rowsStart_sound, forall_mem_nil _, by decide⟩ (by decide +kernel)
    (show _ = FormOf.classRef ⟨3⟩ Marks.shape by decide +kernel) hkey hwalk
      ⟨hexceeded, by rw [hcanceled, Bool.and_false]⟩ hkeys⟩

/-- Besides what is in a `Row`, the unions `"a" | 1`, `⟨16⟩`, and `1 | string`, `⟨17⟩`. -/
def keyedTypes : TypeTable :=
  let t := (rowTypes.intern (.literal .string ⟨5⟩)).2
  ((t.intern (.union [⟨15⟩, ⟨11⟩])).2.intern (.union [⟨11⟩, Ty.string])).2

/-- Values have the keys `number | string`, `"a" | 1` and `1 | string`. -/
def keyed : Declarations :=
  { rows with classes := rows.classes.map fun _ decl => { decl with
    members := [.indexed ⟨12⟩ Ty.number, .indexed ⟨16⟩ Ty.string, .indexed ⟨17⟩ Ty.boolean] } }

/-- The first key and `string` are being compared with `string`. -/
def keyedStart : Session :=
  { Session.start keyedTypes Limits.standard with
    guard := [⟨12⟩, Ty.string].foldl (fun g target => (g.enter ⟨.superClass, false, .pair target Ty.string⟩).2)
      (Session.start keyedTypes Limits.standard).guard }

/-- While superclasses are being compared the search may end with a key although a strictly narrower one takes the index:
here `1 | string`, and not `"a" | 1`. -/
theorem indexer_hindered : let S := ofBudget 20
    ((S.indexer? ⟨10⟩ ⟨11⟩ false keyed.context keyedStart).map fun r => (r.1, r.2.guard.exceeded)) =
      some (some (.indexed ⟨17⟩ Ty.boolean), false) ∧
    [(⟨16⟩, ⟨11⟩), (⟨17⟩, ⟨16⟩), (⟨16⟩, ⟨17⟩)].map (fun (key, index) =>
      (S.accepts key index { strictAny := true } keyed.context keyedStart).map Prod.fst) =
        [some true, some true, some false] := by
  decide +kernel

end AnnotatedLua
