/-
The union of two lists of atoms: the one that subsumes the other, or else both (`Session.Over.ends_union_lists`). What a
list has in a position is accepted by what the union has there (`union_accepts_resultAt`), with two exceptions. A list
that subsumes another one need not have its values, and a list that repeats its last type does not bring `nil` to the
positions of an earlier one (`union_not_accepts_resultAt`).
-/
import AnnotatedLua.Proofs.Result.Accept

namespace AnnotatedLua

open Solve Solver TypeTable

variable {ctx : Context} {s : Session} {atoms types : List Ty} {a b ty : Ty} {i : Nat} {t : TypeTable}

/-! ## What a union keeps -/

/-- A list has a type for the position if the other one does, and the types that are compared reach it. -/
structure Results.Covers (kept dropped : Results) (i : Nat) : Prop where
  slot : kept.slot i = none → dropped.slot i = none
  compared : kept.Compared dropped i

namespace TypeTable

def subsumesList (t : TypeTable) : Subsumption := fun a b => (t.resultsOf a).accepts t.literalOf (t.resultsOf b)

/-- Nothing takes values at this position away from two lists in their union. The one that subsumes the other covers it, and
if both are members, the later one has not got to the type that repeats before the earlier one. -/
structure ListsKept (t : TypeTable) (a b : Ty) (i : Nat) : Prop where
  first : t.subsumesList a b = true → (t.resultsOf a).Covers (t.resultsOf b) i
  second : t.subsumesList a b = false → t.subsumesList b a = true → (t.resultsOf b).Covers (t.resultsOf a) i
  both : t.subsumesList a b = false → t.subsumesList b a = false → ∀ x y, t.sortByName [a, b] = [x, y] →
    (t.resultsOf y).repeats = true → (t.resultsOf y).fixedCount ≤ i → (t.resultsOf x).fixedCount ≤ i

theorem WF.get_listOf_subset (hw : t.WF) {kept dropped : Results} (h : kept.accepts t.literalOf dropped = true)
    (hcovers : kept.Covers dropped i) (hkept : ∀ x ∈ kept.types, t.members x = [x] ∧ x ≠ Ty.any)
    (hdropped : ∀ x ∈ dropped.types, t.members x = [x] ∧ x ≠ Ty.any) :
    (t.listOf dropped).get i ⊆ (t.listOf kept).get i := by
  have hheld {x : Ty} (hx : t.members x = [x] ∧ x ≠ Ty.any) : t.held x = t.valuesOf x := by
    ext value
    rw [mem_held hx.2, hx.1]
    simp
  intro _ hv
  rw [mem_get_listOf] at hv ⊢
  rcases hv with ⟨rfl, hi⟩ | ⟨y, hy, hv⟩
  · exact .inl ⟨rfl, Results.fixedCount_le h hcovers.compared hi⟩
  · obtain ⟨x, hx⟩ := Option.ne_none_iff_exists'.1 fun hnone => by rw [hcovers.slot hnone] at hy; cases hy
    rw [hheld (hdropped y (Results.mem_of_slot hy))] at hv
    refine .inr ⟨x, hx, ?_⟩
    rw [hheld (hkept x (Results.mem_of_slot hx))]
    exact hw.valuesOf_subset (Results.accepts_slot h hcovers.compared hx hy) hv

theorem get_listOf_join {earlier later : Results}
    (h : later.repeats = true → later.fixedCount ≤ i → earlier.fixedCount ≤ i) :
    (t.listOf earlier).get i ∪ (t.listOf later).get i ⊆ ((t.listOf earlier).join (t.listOf later)).get i := by
  rw [ValueList.get_join]
  refine Set.union_subset_union_right _ ?_
  split
  · rename_i hi
    rw [length_listOf] at hi
    unfold ValueList.get ValueList.share
    by_cases hlater : i < later.fixedCount
    · rw [List.getElem?_eq_getElem (by rw [length_listOf]; exact hlater)]
      exact subset_rfl
    · -- the later list has come to its end
      have hstops : later.repeats = false := by
        by_contra hrepeats
        have := h (by simpa using hrepeats) (by omega)
        omega
      rw [List.getElem?_eq_none (by rw [length_listOf]; omega), tail_listOf hstops]
      simp
  · exact subset_rfl

theorem sortByName_pair (t : TypeTable) (a b : Ty) :
    t.sortByName [a, b] = if t.name a ≤ t.name b then [a, b] else [b, a] := rfl

end TypeTable

theorem Subsumption.insertAll_pair {R : Subsumption} (hne : a ≠ b) (ha : otherBoolean? a = none)
    (hb : otherBoolean? b = none) : R.insertAll [a, b] = if R a b then [a] else if R b a then [b] else [a, b] := by
  unfold Subsumption.insertAll
  simp only [List.foldl_cons, List.foldl_nil]
  have hfirst : R.insert [] a = [a] := by simp [Subsumption.insert, Subsumption.covers, Subsumption.append, ha]
  rw [hfirst]
  unfold Subsumption.insert
  rw [hb]
  cases hab : R a b <;> cases hba : R b a <;> simp [Subsumption.covers, Subsumption.append, hab, hba, hne.symm]

/-! ## Lists of atoms -/

structure TypeTable.AtomList (t : TypeTable) (atoms : List Ty) (ty : Ty) : Prop where
  kind : t.kind ty = .results
  sub : (t.resultsOf ty).types ⊆ atoms

def TypeTable.ValuedIn (t : TypeTable) (atoms : List Ty) (values : Set LuaValue) (types : List Ty) : Prop :=
  ∀ z ∈ types, (z = Ty.any ∧ values = Set.univ) ∨ (z ∈ atoms ∧ t.valuesOf z ⊆ values)

namespace TypeTable.AtomList

variable {t' : TypeTable}

section
variable (h : t.AtomList atoms ty)
include h

theorem form : t.lookup ty = .results (t.resultsOf ty).types (t.resultsOf ty).variadic := by
  have hkind := h.kind
  unfold TypeTable.kind at hkind
  unfold resultsOf
  cases hl : t.lookup ty with
  | results => rfl
  | _ =>
    rw [hl] at hkind
    cases hkind

theorem has : t.Has ty := has_of h.form

theorem resultsOf_later (hx : t.Extends t') : t'.resultsOf ty = t.resultsOf ty := by
  unfold resultsOf
  rw [hx.lookup h.has]

theorem later (hx : t.Extends t') : t'.AtomList atoms ty := by
  constructor
  · unfold TypeTable.kind
    rw [hx.lookup h.has]
    exact h.kind
  · rw [h.resultsOf_later hx]
    exact h.sub

theorem members : t.members ty = [ty] := by
  unfold TypeTable.members
  rw [h.form]

theorem ne (hw : t.WF) {other : Ty} (hother : initial.kind other ≠ .results)
    (hhas : initial.Has other) : ty ≠ other := by
  rintro rfl
  have hkind := h.kind
  unfold TypeTable.kind at hkind hother
  rw [hw.base.lookup hhas] at hkind
  exact hother hkind

theorem not_void (hw : t.WF) : ty.isVoid = false :=
  beq_eq_false_iff_ne.2 (h.ne hw (by decide) (by decide))

theorem not_boolean (hw : t.WF) : otherBoolean? ty = none := by
  unfold otherBoolean?
  rw [if_neg (h.ne hw (by decide) (by decide)), if_neg (h.ne hw (by decide) (by decide))]
end

end TypeTable.AtomList

namespace Session.Over

variable {u : Session}

section
variable (hs : s.Over ctx atoms)
include hs

theorem listed (h : s.types.AtomList atoms ty) : s.types.Listed atoms True ty :=
  .list h.form fun _ hx => ⟨.atom (h.sub hx), rfl, fun _ => hs.tidy_atom (h.sub hx)⟩

variable (ha : s.types.AtomList atoms a) (hb : s.types.AtomList atoms b)
include ha hb

theorem always_subsumes_list : s.Always ctx (·.subsumes a b) (s.types.subsumesList a b) := by
  refine .guarded hs.free hs.union.not_active ?_
  have hlater : (s.entered (guardKey ctx s .union (.pair a b))).From ctx s := Session.entered_from hs.types
  refine always_accepts_list ha.form hb.form hs.types fun x hx y hy => ?_
  exact always_accepts_subsumption (hs.free.entered hs.union.not_active)
    (hs.superClass.entered hs.free hs.union.not_active (by simp [guardKey]))
    ((hs.isAtom x (ha.sub hx)).later hs.types hlater) ((hs.isAtom y (hb.sub hy)).later hs.types hlater)

theorem ends_union_lists (hnames : s.types.NamesApart [a, b]) : s.Ends ctx (·.union a b) fun r u =>
      (s.types.subsumesList a b = true ∧ r = a) ∨
      (s.types.subsumesList a b = false ∧ s.types.subsumesList b a = true ∧ r = b) ∨
      (s.types.subsumesList a b = false ∧ s.types.subsumesList b a = false ∧
        u.types.lookup r = .union (s.types.sortByName [a, b])) := by
  by_cases he : a = b
  · subst he
    refine .early hs.types (.inl ⟨?_, rfl⟩) fun h => absurd rfl h
    exact Results.accepts_self fun x _ => by simp [literalOf]
  refine .ite (fun h => absurd h he) fun _ => ?_
  have hvoid := ha.not_void hs.types
  have hvoid' := hb.not_void hs.types
  rw [hvoid, hvoid']
  refine .ite (fun h => absurd h Bool.false_ne_true) fun _ => .ite (fun h => absurd h Bool.false_ne_true) fun _ => ?_
  have hflat : s.types.flat [a, b] = [a, b] := by simp [flat, ha.members, hb.members, hvoid, hvoid']
  have habsorbs : s.types.absorbs (s.types.flat [a, b]) = false := by simp [hflat, absorbs, ha.kind]
  have hlist : ∀ z ∈ [a, b], s.types.AtomList atoms z := by simpa using ⟨ha, hb⟩
  have hall : s.Ends ctx (·.unionAll [a, b]) _ := ends_unionAll_insertAll (M := (· ∈ [a, b]))
    (R := s.types.subsumesList) (fun x y hx hy _ => hs.always_subsumes_list (hlist x hx) (hlist y hy)) hs.types
    (fun z hz h => absurd ((hlist z hz).not_boolean hs.types) h) (fun z hz => (hlist z hz).has)
    (by rw [hflat]; exact fun _ h => h) habsorbs
  refine hall.imp ?_
  rintro r u - ⟨v, hv, rfl, hu⟩
  rw [hflat, Subsumption.insertAll_pair he (ha.not_boolean hs.types) (hb.not_boolean hs.types)] at hu ⊢
  cases hab : s.types.subsumesList a b with
  | true => exact .inl ⟨rfl, by simp [TypeTable.unionOf]⟩
  | false =>
    cases hba : s.types.subsumesList b a with
    | true => exact .inr (.inl ⟨rfl, rfl, by simp [TypeTable.unionOf]⟩)
    | false =>
      refine .inr (.inr ⟨rfl, rfl, ?_⟩)
      simp only [hab, hba, Bool.false_eq_true, if_false] at hu ⊢
      obtain ⟨-, -, hform⟩ := hv.types.unionOf (fun z hz => hv.grown.has (hlist z hz).has)
        (hnames.extends hv.grown hs.types hv.types fun z hz => (hlist z hz).has) (by simpa using he) (by simp)
      rw [hu, hform, sortByName_pair, sortByName_pair, hv.grown.name hs.types hv.types ha.has,
        hv.grown.name hs.types hv.types hb.has]

theorem ends_resultAt_both (hform : s.types.lookup ty = .union [a, b])
    (hlaid : (s.types.resultsOf b).repeats = true → (s.types.resultsOf b).fixedCount ≤ i →
      (s.types.resultsOf a).fixedCount ≤ i) :
    s.Ends ctx (·.resultAt ty i) fun r u => ∃ values, u.types.Denotes atoms True r values ∧
      (s.types.partOf a).values.get i ⊆ values ∧ (s.types.partOf b).values.get i ⊆ values := by
  have hlisted : ∀ z ∈ [a, b], s.types.Listed atoms True z := by simpa using ⟨hs.listed ha, hs.listed hb⟩
  refine (hs.ends_resultAt hform hlisted i).imp fun r u _ hr => ⟨_, hr, ?_⟩
  have hjoin := get_listOf_join (t := s.types) hlaid
  rw [s.types.values_partOf, s.types.values_partOf, ← Set.union_subset_iff, List.map_cons, List.map_cons, List.map_nil,
    partOf_list ha.form, partOf_list hb.form]
  exact hjoin

theorem ends_resultAt_union (hnames : s.types.NamesApart [a, b]) (hkept : s.types.ListsKept a b i) :
    s.Ends ctx (fun S => do S.resultAt (← S.union a b) i) fun r u => ∃ values, u.types.Denotes atoms True r values ∧
      (s.types.partOf a).values.get i ⊆ values ∧ (s.types.partOf b).values.get i ⊆ values := by
  have hatom {x : Ty} (hx : x ∈ atoms) : s.types.members x = [x] ∧ x ≠ Ty.any :=
    ⟨(hs.isAtom x hx).members hs.types, ((hs.isAtom x hx).ne hs.types).1⟩
  have hcovered {kept dropped : Ty} (hk : s.types.AtomList atoms kept) (hd : s.types.AtomList atoms dropped)
      (h : s.types.subsumesList kept dropped = true)
      (hcovers : (s.types.resultsOf kept).Covers (s.types.resultsOf dropped) i) :
      (s.types.partOf dropped).values.get i ⊆ (s.types.partOf kept).values.get i := by
    rw [s.types.values_partOf, s.types.values_partOf]
    exact hs.types.get_listOf_subset h hcovers (fun x hx => hatom (hk.sub hx)) fun x hx => hatom (hd.sub hx)
  refine (hs.ends_union_lists ha hb hnames).bind ?_
  rintro r u hu (⟨hab, rfl⟩ | ⟨hab, hba, rfl⟩ | ⟨hab, hba, hform⟩)
  · refine ((hs.later hu).ends_resultAt_part (hs.listed_later hu (hs.listed ha)).1 i).imp fun m w _ hm => ?_
    rw [(hs.listed_later hu (hs.listed ha)).2] at hm
    exact ⟨_, hm, subset_rfl, hcovered ha hb hab (hkept.first hab)⟩
  · refine ((hs.later hu).ends_resultAt_part (hs.listed_later hu (hs.listed hb)).1 i).imp fun m w _ hm => ?_
    rw [(hs.listed_later hu (hs.listed hb)).2] at hm
    exact ⟨_, hm, hcovered hb ha hba (hkept.second hab hba), subset_rfl⟩
  · -- both are laid over each other in the order of their names
    have hboth {x y : Ty} (hx : s.types.AtomList atoms x) (hy : s.types.AtomList atoms y)
        (hsort : s.types.sortByName [a, b] = [x, y]) : u.Ends ctx (·.resultAt r i) fun m w => ∃ values,
          w.types.Denotes atoms True m values ∧ (s.types.partOf x).values.get i ⊆ values ∧
            (s.types.partOf y).values.get i ⊆ values := by
      rw [hsort] at hform
      rw [← (hs.listed_later hu (hs.listed hx)).2, ← (hs.listed_later hu (hs.listed hy)).2]
      refine (hs.later hu).ends_resultAt_both (hx.later hu.grown) (hy.later hu.grown) hform ?_
      rw [hx.resultsOf_later hu.grown, hy.resultsOf_later hu.grown]
      exact hkept.both hab hba x y hsort
    rw [sortByName_pair] at hboth
    by_cases hle : s.types.name a ≤ s.types.name b
    · exact hboth ha hb (if_pos hle)
    · refine (hboth hb ha (if_neg hle)).imp ?_
      rintro m w - ⟨values, hm, hvb, hva⟩
      exact ⟨values, hm, hva, hvb⟩

/-! ## Members at a position -/

omit ha hb

theorem valuedIn_later (hu : u.Past ctx s) {values : Set LuaValue}
    (h : s.types.ValuedIn atoms values types) : u.types.ValuedIn atoms values types := by
  intro z hz
  refine (h z hz).imp_right fun hatom => ⟨hatom.1, ?_⟩
  rw [hu.grown.valuesOf hs.types (hs.stored z hatom.1)]
  exact hatom.2

theorem ends_members_resultAt (h : s.types.AtomList atoms ty) (i : Nat) :
    s.Ends ctx (fun S => do members (← S.resultAt ty i)) fun types u =>
      u.types.ValuedIn atoms ((s.types.partOf ty).values.get i) types := by
  refine (hs.ends_resultAt_part (hs.listed h) i).bind fun r u hu hr => ?_
  have hu' := hs.later hu
  refine ends_ofTypes hu'.types fun z hz => ?_
  rw [← hr.held]
  rcases hu'.member hr.made hz with ⟨rfl, rfl⟩ | ⟨hany, hatom⟩
  · exact .inl ⟨rfl, held_any⟩
  · exact .inr ⟨hatom, fun _ hv => (mem_held hany).2 ⟨z, hz, hv⟩⟩

theorem acceptsMember_of_valuedIn {r z : Ty} {mode : Mode} {values values' : Set LuaValue}
    (hr : s.types.Denotes atoms True r values) (h : s.types.ValuedIn atoms values' types)
    (hsub : values' ⊆ values) (hz : z ∈ types) : ctx.acceptsMember s.types mode r z = true := by
  rcases h z hz with ⟨-, huniv⟩ | ⟨hatom, hvalues⟩
  · refine Context.acceptsMember_iff.2 (.inl (hs.eq_any_of_objects hr.made fun _ => ?_))
    rw [hr.held]
    exact hsub (huniv ▸ Set.mem_univ _)
  · refine hs.acceptsMember_of_values hr.made (hr.tidy trivial) hatom ?_
    rw [hr.held]
    exact hvalues.trans hsub
end

end Session.Over

/-! ## Positions of a union of lists -/

theorem regular_unionAccepts (mode : Mode) (i : Nat) : Regular (fun (S : Solver) (x : Ty × Ty) => do
    let merged ← S.resultAt (← S.union x.1 x.2) i
    let own ← members (← S.resultAt x.1 i)
    let others ← members (← S.resultAt x.2 i)
    (own ++ others).allM (S.accepts merged · mode)) :=
  fun L _ _ hS _ _ _ _ => L.bind (L.union hS) <| L.bind hS.resultAt <| L.bind hS.resultAt <|
      L.bind L.members <| L.bind hS.resultAt <| L.bind L.members <|
        L.allM hS.accepts

/-- Each member of what one of two lists has in a position is accepted by what their union has there, unless something
takes it away. -/
theorem union_accepts_resultAt (hs : s.Ready ctx atoms) (mode : Mode) (ha : s.types.AtomList atoms a)
    (hb : s.types.AtomList atoms b) (hnames : s.types.NamesApart [a, b]) (hkept : s.types.ListsKept a b i) :
    s.Sure ctx (fun S => do
      let merged ← S.resultAt (← S.union a b) i
      let own ← members (← S.resultAt a i)
      let others ← members (← S.resultAt b i)
      (own ++ others).allM (S.accepts merged · mode)) fun accepted _ => accepted = true := by
  refine Session.sure_of_ends (regular_unionAccepts mode i) (x := (a, b)) ?_
  have hover := hs.over
  have hstill {u : Session} (hu : u.Past ctx.uncancelled (s.unlimited 0)) {ty : Ty} (h : s.types.AtomList atoms ty) :
      u.types.AtomList atoms ty ∧ u.types.partOf ty = s.types.partOf ty :=
    ⟨h.later hu.grown, (hover.listed_later hu (hover.listed h)).2⟩
  -- the members of both lists are compared with the union after they are known
  suffices h : (s.unlimited 0).Ends ctx.uncancelled (fun S => (do S.resultAt (← S.union a b) i) >>= fun merged =>
      (do members (← S.resultAt a i)) >>= fun own => (do members (← S.resultAt b i)) >>= fun others =>
      (own ++ others).allM (S.accepts merged · mode)) fun accepted _ => accepted = true by
    simpa only [bind_assoc] using h
  refine (hover.ends_resultAt_union ha hb hnames hkept).bind ?_
  rintro m u hu ⟨values, hm, hva, hvb⟩
  refine ((hover.later hu).ends_members_resultAt (hstill hu ha).1 i).bind fun own v hv hown => ?_
  have hv' := hu.trans hv
  refine ((hover.later hv').ends_members_resultAt (hstill hv' hb).1 i).bind fun others w hw hothers => ?_
  have hlast := (hover.later hv').later hw
  rw [(hstill hu ha).2] at hown
  rw [(hstill hv' hb).2] at hothers
  replace hm := (hover.later hu).denotes_later (hv.trans hw) hm
  replace hown := (hover.later hv').valuedIn_later hw hown
  have hall : ∀ z ∈ own ++ others, ctx.uncancelled.acceptsMember w.types mode m z = true := by
    intro z hz
    rcases List.mem_append.1 hz with hz | hz
    · exact hlast.acceptsMember_of_valuedIn hm hown hva hz
    · exact hlast.acceptsMember_of_valuedIn hm hothers hvb hz
  have hmember : ∀ z ∈ own ++ others, z = Ty.any ∨ w.Atom ctx.uncancelled z := by
    intro z hz
    rcases List.mem_append.1 hz with hz | hz
    · exact (hown z hz).imp (·.1) fun h => hlast.isAtom z h.1
    · exact (hothers z hz).imp (·.1) fun h => hlast.isAtom z h.1
  have hasked : w.Always ctx.uncancelled (fun S => (own ++ others).allM (S.accepts m · mode))
      ((own ++ others).all (ctx.uncancelled.acceptsMember w.types mode m)) :=
    .allM fun z hz => always_accepts_member hlast.free hlast.superClass (hlast.single hm.made) (hmember z hz) mode
  rw [List.all_eq_true.2 hall] at hasked
  exact hasked.now hlast.types

/-- The lists `(boolean, number...)` and `(number, string...)` have `nil | number` and `nil | string` in the second position,
and their union accepts all of it there. -/
theorem union_accepts_resultAt_numbers : ∃ u,
    (do
      let merged ← (ofBudget 40).resultAt (← (ofBudget 40).union ⟨13⟩ ⟨18⟩) 1
      let own ← members (← (ofBudget 40).resultAt ⟨13⟩ 1)
      let others ← members (← (ofBudget 40).resultAt ⟨18⟩ 1)
      (own ++ others).allM ((ofBudget 40).accepts merged · { strictNil := true }) : Solve Bool) undeclared listStart =
        some (true, u) := by
  have hnames : listTypes.NamesApart [⟨13⟩, ⟨18⟩] := by
    unfold TypeTable.NamesApart
    decide +kernel
  have hkept : listTypes.ListsKept ⟨13⟩ ⟨18⟩ 1 := by
    refine ⟨fun h => absurd h (by decide), fun _ h => absurd h (by decide), fun _ _ x y hsort _ _ => ?_⟩
    have hsorted : listTypes.sortByName [⟨13⟩, ⟨18⟩] = [⟨13⟩, ⟨18⟩] := by decide +kernel
    cases hsorted.symm.trans hsort
    decide
  obtain ⟨_, u, hr, rfl⟩ := (union_accepts_resultAt listStart_ready { strictNil := true } ⟨by decide, by decide⟩
    ⟨by decide, by decide⟩ hnames hkept).of_run 40 (by decide +kernel)
  exact ⟨u, hr⟩

/-- What `(string, number...)` has in the second position is not accepted by its union with `(number, string, boolean)`.
The list `(number, string...)` subsumes `(number...)` and does not accept `number` there, and `(...)` subsumes `(string)`
and does not accept `string` in the first position. -/
theorem union_not_accepts_resultAt :
    ([(⟨10⟩, ⟨11⟩, 1), (⟨18⟩, ⟨16⟩, 1), (⟨20⟩, ⟨14⟩, 0)] : List (Ty × Ty × Nat)).map (fun p =>
      ((do
        let merged ← standard.resultAt (← standard.union p.1 p.2.1) p.2.2
        let own ← members (← standard.resultAt p.1 p.2.2)
        let others ← members (← standard.resultAt p.2.1 p.2.2)
        (own ++ others).allM (standard.accepts merged · { strictNil := true }) : Solve Bool) undeclared listStart).map
          fun r => (r.1, r.2.guard.exceeded)) = [some (false, false), some (false, false), some (false, false)] := by
  decide +kernel

end AnnotatedLua
