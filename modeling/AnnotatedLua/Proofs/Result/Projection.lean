/-
A position of a union of lists. Where no list repeats its last type and each has a value, it is the union of what the
members have there (`resultAt_union_eq`), unless the query is canceled on the way (`resultAt_union_ne`).
-/
import AnnotatedLua.Proofs.Result.Accept

namespace AnnotatedLua

open Solve Solver TypeTable

/-! ## Lists that end -/

namespace ValueList

variable {l next : ValueList} {value : LuaValue} {i : Nat}

theorem share_eq_get (h : l.tail = none) : l.share i = l.get i := by
  simp [share, get, h]

variable {parts : List ListPart}

theorem mem_foldl_add_iff (hl : l.tail = none) (hfixed : l.fixed ≠ [])
    (hparts : ∀ part ∈ parts, part.values.tail = none) : value ∈ (parts.foldl add l).get i ↔
      value ∈ l.get i ∨ ∃ part ∈ parts, value ∈ part.values.get i := by
  induction parts generalizing l with
  | nil => simp
  | cons part rest ih =>
    obtain ⟨hpart, hrest⟩ := List.forall_mem_cons.1 hparts
    have hadd : l.add part = l.join part.values := (add_cases l part).resolve_right fun h => hfixed h.1
    have hmore : (l.join part.values).fixed ≠ [] := by
      rw [← hadd]
      refine List.ne_nil_of_length_pos ?_
      rw [length_add]
      exact lt_max_of_lt_left (List.length_pos_of_ne_nil hfixed)
    have hends : (l.join part.values).tail = none := by simp [join, hl, hpart]
    rw [List.foldl_cons, hadd, ih hends hmore hrest, get_join, share_eq_get hpart, ite_self]
    simp [or_assoc]

theorem mem_ofParts_iff (hne : parts ≠ []) (h : ∀ part ∈ parts, part.values.tail = none ∧ part.values.fixed ≠ []) :
    value ∈ (ofParts parts).get i ↔ ∃ part ∈ parts, value ∈ part.values.get i := by
  cases parts with
  | nil => exact absurd rfl hne
  | cons =>
    obtain ⟨hfirst, hrest⟩ := List.forall_mem_cons.1 h
    refine (mem_foldl_add_iff hfirst.1 hfirst.2 fun part hpart => (hrest part hpart).1).trans ?_
    simp

end ValueList

section
variable {ctx : Context} {s : Session} {atoms : List Ty}

section
variable (hs : s.Over ctx atoms)
include hs

theorem Session.Over.eq_of_members {a b : Ty} (ha : s.types.MadeOf atoms a) (hb : s.types.MadeOf atoms b)
    (h : s.types.members a = s.types.members b) : a = b := by
  have hone {x y : Ty} (hx : s.types.MadeOf atoms x) (hmembers : s.types.members x = [y]) : x = y := by
    cases hx with
    | any => simpa [hs.types.members_any] using hmembers
    | atom hx => simpa [(hs.isAtom x hx).members hs.types] using hmembers
    | union hform _ hlen =>
      rw [members_of_union hform] at hmembers
      simp [hmembers] at hlen
  by_cases hkind : s.types.kind a = .union
  · by_cases hkind' : s.types.kind b = .union
    · refine hs.types.eq_of_lookup ((hs.single ha).has hs.types) ((hs.single hb).has hs.types) ?_
      rw [lookup_of_union hkind, lookup_of_union hkind', h]
    · exact hone ha (h.trans (members_eq_self hkind'))
  · exact (hone hb (h.symm.trans (members_eq_self hkind))).symm

theorem Session.Over.eq_of_denotes {a b : Ty} {values : Set LuaValue} (ha : s.types.Denotes atoms True a values)
    (hb : s.types.Denotes atoms True b values) : a = b := by
  have hheld : s.types.held a = s.types.held b := ha.held.trans hb.held.symm
  by_cases hany : a = Ty.any
  · exact hany.trans (hs.eq_any_of_subset hb.made (by rw [← hany, hheld])).symm
  by_cases hany' : b = Ty.any
  · exact (hs.eq_any_of_subset ha.made (by rw [← hany', hheld])).trans hany'.symm
  have hatoms : ∀ z ∈ s.types.members a, s.Atom ctx z := fun z hz => hs.isAtom z (hs.atom_of_member ha.made hany z hz)
  have hatoms' : ∀ z ∈ s.types.members b, s.Atom ctx z := fun z hz => hs.isAtom z (hs.atom_of_member hb.made hany' z hz)
  have ⟨hsettled, hsorted⟩ := ha.tidy trivial
  have ⟨hsettled', hsorted'⟩ := hb.tidy trivial
  have hcovered (x : Ty) (hx : s.Atom ctx x) : s.types.literalOf.Covered (s.types.members a) x ↔
      s.types.literalOf.Covered (s.types.members b) x := by
    rw [hs.covered_iff_values ha.made (ha.tidy trivial) hany hx, hheld,
      hs.covered_iff_values hb.made (hb.tidy trivial) hany' hx]
  have hperm : (s.types.members a).Perm (s.types.members b) :=
    (List.perm_ext_iff_of_nodup hsettled.nodup hsettled'.nodup).2 fun x =>
      ⟨hs.orders.mem_of_covered hsettled hatoms hatoms' hcovered,
        hs.orders.mem_of_covered hsettled' hatoms' hatoms fun x hx => (hcovered x hx).symm⟩
  refine hs.eq_of_members ha.made hb.made ?_
  rw [← hsorted, ← hsorted']
  exact sortByName_eq_of_perm (hs.names_members ha.made) (fun _ _ => rfl) hperm
end

/-- An atom, or a list of atoms that has a value and does not repeat its last type. -/
def TypeTable.FixedLength (t : TypeTable) (atoms : List Ty) (ty : Ty) : Prop :=
  ty ∈ atoms ∨ ∃ types, t.lookup ty = .results types false ∧ types ≠ [] ∧ types ⊆ atoms

theorem Session.Over.listed_fixedLength (hs : s.Over ctx atoms) {ty : Ty} (h : s.types.FixedLength atoms ty) :
    s.types.Listed atoms True ty ∧ (s.types.partOf ty).values.tail = none ∧ (s.types.partOf ty).values.fixed ≠ [] := by
  have hatom {z : Ty} (hz : z ∈ atoms) : s.types.Denotes atoms True z (s.types.held z) :=
    ⟨.atom hz, rfl, fun _ => hs.tidy_atom hz⟩
  rcases h with h | ⟨types, hform, hne, hsub⟩
  · refine ⟨.single (hatom h), ?_⟩
    rw [partOf_single ((hs.single (.atom h)).kind_ne hs.types)]
    simp [ListPart.values]
  · refine ⟨.list hform fun x hx => hatom (hsub hx), ?_⟩
    rw [partOf_list hform]
    simp [ListPart.values, listOf, fixedValues, hne]

theorem regular_resultAtUnion (i : Nat) : Regular (fun (S : Solver) (x : Ty × List Ty) => do
    let whole ← S.resultAt x.1 i
    let united ← S.unionAll (← x.2.mapM (S.resultAt · i))
    return decide (whole = united)) :=
  fun L _ _ hS _ _ _ _ => L.bind hS.resultAt <| L.bind (L.mapM hS.resultAt) <|
    L.bind (L.unionAll hS) L.pure

/-- What a union has in a position is the union of what its members have there. -/
theorem resultAt_union_eq (hs : s.Ready ctx atoms) {ty : Ty} {parts : List Ty} (hform : s.types.lookup ty = .union parts)
    (hne : parts ≠ []) (hparts : ∀ z ∈ parts, s.types.FixedLength atoms z) (i : Nat) :
    s.Sure ctx (fun S => do
      let whole ← S.resultAt ty i
      let united ← S.unionAll (← parts.mapM (S.resultAt · i))
      return decide (whole = united)) fun same _ => same = true := by
  refine Session.sure_of_ends (regular_resultAtUnion i) (x := (ty, parts)) ?_
  have hover := hs.over
  have hlisted (z : Ty) (hz : z ∈ parts) := hover.listed_fixedLength (hparts z hz)
  refine (hover.ends_resultAt hform (fun z hz => (hlisted z hz).1) i).bind fun whole u hu hwhole => ?_
  have hu' := hover.later hu
  have hresults : u.Ends ctx.uncancelled (fun S => parts.mapM (S.resultAt · i)) fun r v =>
      List.Forall₂ (fun z x => v.types.Denotes atoms True x ((s.types.partOf z).values.get i)) parts r := by
    refine ends_mapM_forall₂ hu.types (fun z _ x v w hv hw h => (hu'.later hv).denotes_later hw h) fun z hz v hv => ?_
    have hz' := hover.listed_later (hu.trans hv) (hlisted z hz).1
    have h := (hu'.later hv).ends_resultAt_part hz'.1 i
    rwa [hz'.2] at h
  refine hresults.bind fun r v hv hr => ?_
  have hv' := hu'.later hv
  replace hr := List.forall₂_map_right_iff.2 hr.flip
  refine (hv'.ends_unionAll (fun x hx => (Session.Over.denotes_held hr x hx).made) ?_).bind fun united w hw hunited => ?_
  · rintro rfl
    exact hne (List.map_eq_nil_iff.1 (List.forall₂_nil_left_iff.1 hr))
  have hvalues : { value | ∃ x ∈ r, value ∈ v.types.held x } = (ValueList.ofParts (parts.map s.types.partOf)).get i := by
    ext value
    have hmap : (∃ x ∈ r, value ∈ v.types.held x) ↔ ∃ values ∈ r.map v.types.held, value ∈ values := by simp
    refine hmap.trans ?_
    rw [Session.Over.map_held hr, ValueList.mem_ofParts_iff (by simpa using hne)]
    · simp
    · exact List.forall_mem_map.2 fun z hz => (hlisted z hz).2
  rw [hvalues] at hunited
  have hsame := (hv'.later hw).eq_of_denotes (hu'.denotes_later (hv.trans hw) hwhole) hunited
  exact .pure hw.types (decide_eq_true hsame)
end

/-- The session with the union of `(number, string, boolean)`, `(string)` and `boolean`, `⟨21⟩`. -/
def unitedStart : Session := .start (listTypes.intern (.union [⟨10⟩, ⟨14⟩, Ty.boolean])).2 Limits.standard

theorem unitedStart_ready : unitedStart.Ready undeclared listAtoms := by
  have hw : unitedStart.types.WF := Orderly.wf (by decide)
  refine ⟨hw, by decide, nofun, nofun, fun z hz => ?_, listStart_ready.nil, listStart_ready.boolean, ?_⟩
  · exact (listStart_ready.isAtom z hz).later listStart_ready.types ⟨hw, intern_extends _ _, rfl, rfl⟩
  · unfold NamesApart
    decide

/-- In the second position there is `nil | string`, as `string`, `nil` and `nil` are there. -/
theorem resultAt_union_eq_second : ∃ u,
    (do
      let whole ← (ofBudget 40).resultAt ⟨21⟩ 1
      let united ← (ofBudget 40).unionAll (← [⟨10⟩, ⟨14⟩, Ty.boolean].mapM ((ofBudget 40).resultAt · 1))
      return decide (whole = united) : Solve Bool) undeclared unitedStart = some (true, u) := by
  have hfixed : ∀ z ∈ [⟨10⟩, ⟨14⟩, Ty.boolean], unitedStart.types.FixedLength listAtoms z := by
    simp only [List.forall_mem_cons]
    exact ⟨.inr ⟨[Ty.number, Ty.string, Ty.boolean], by decide, by simp, by decide⟩,
      .inr ⟨[Ty.string], by decide, by simp, by decide⟩, .inl (by decide), nofun⟩
  have hform : unitedStart.types.lookup ⟨21⟩ = .union [⟨10⟩, ⟨14⟩, Ty.boolean] := by decide
  obtain ⟨_, u, hr, rfl⟩ := (resultAt_union_eq unitedStart_ready hform (by simp) hfixed 1).of_run 40 (by decide +kernel)
  exact ⟨u, hr⟩

/-- If looking the class `x` up cancels the query, what is left of `A | B | x` in the first position is `A | B`. Then
nothing is compared any more, and `A` is left of the three types. -/
theorem resultAt_union_ne : ((do
    let whole ← standard.resultAt ⟨14⟩ 0
    let united ← standard.unionAll (← [⟨10⟩, ⟨11⟩, ⟨13⟩].mapM (standard.resultAt · 0))
    return decide (whole = united) : Solve Bool)
      { undeclared with provider := { undeclared.provider with cancels := fun name => name == ⟨5⟩ } }
      (.start ((namedTypes.intern (.classRef ⟨5⟩ Marks.none)).2.intern (.union [⟨10⟩, ⟨11⟩, ⟨13⟩])).2 .standard)).map
        (fun r => (r.1, r.2.guard.exceeded)) = some (false, false) := by
  decide +kernel

end AnnotatedLua
