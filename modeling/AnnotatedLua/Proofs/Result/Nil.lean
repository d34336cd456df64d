/-
When `nil` stays in the positions of a union of lists (`nil_mem_resultAt_union`). A list whose last type repeats does
not bring it to the positions that earlier members have (`nil_not_mem_resultAt_union`), and a single type does not leave
it in the first position.
-/
import AnnotatedLua.Proofs.Query.Settled
import AnnotatedLua.Proofs.Result.Merge

namespace AnnotatedLua

open Solve Solver List TypeTable

variable {ctx : Context} {s : Session} {atoms : List Ty} {ty member : Ty} {before after : List Ty} {i : Nat}
  {t : TypeTable}

/-- Nothing takes `nil` at this position away from a member of a union. If it has got to the type that repeats, no earlier
member has more values before its own, and a single type does not come in a first position that there was not yet. -/
structure TypeTable.NilKept (t : TypeTable) (before : List Ty) (member : Ty) (after : List Ty) (i : Nat) : Prop where
  repeated : (t.resultsOf member).repeats = true → (t.resultsOf member).fixedCount ≤ i →
    ∀ other ∈ before, (t.resultsOf other).fixedCount ≤ i
  first : i = 0 → ∀ between single rest, after = between ++ single :: rest → t.kind single ≠ .results →
    ∃ other ∈ before ++ member :: between, 0 < (t.resultsOf other).fixedCount

theorem TypeTable.kind_of_partOf {values : Set LuaValue} (h : t.partOf ty = .single values) : t.kind ty ≠ .results := by
  intro hkind
  unfold kind at hkind
  unfold partOf at h
  cases hform : t.lookup ty with
  | results =>
    rw [hform] at h
    cases h
  | _ =>
    rw [hform] at hkind
    cases hkind

/-- `nil` that a member has in a position is there when the members are laid over each other. -/
theorem ValueList.nil_mem_ofParts
    (hkept : t.NilKept before member after i) (h : .nil ∈ (t.partOf member).values.get i) :
    .nil ∈ (ofParts ((before ++ member :: after).map t.partOf)).get i := by
  have hlength (ty : Ty) : (t.partOf ty).values.fixed.length = (t.resultsOf ty).fixedCount := by
    rw [t.values_partOf, t.length_listOf]
  rw [map_append, map_cons]
  refine mem_ofParts h ?_ ?_
  · rintro ⟨_, hmem, hlt⟩
    obtain ⟨other, hother, rfl⟩ := mem_map.1 hmem
    rw [hlength] at hlt
    unfold get share at *
    by_cases hi : i < (t.partOf member).values.fixed.length
    · rw [getElem?_eq_getElem hi] at h ⊢
      exact h
    · -- the member has come to its end, and cannot repeat
      have hstops : (t.resultsOf member).repeats = false := by
        by_contra hrepeats
        have := hkept.repeated (by simpa using hrepeats) (by rw [← hlength]; omega) other hother
        omega
      rw [getElem?_eq_none (by omega), t.values_partOf, tail_listOf hstops]
      rfl
  · intro hi _ _ _ hafter
    obtain ⟨between', _, hsplit, rfl, hrest⟩ := map_eq_append_iff.1 hafter
    obtain ⟨single, rest'', rfl, hsingle, rfl⟩ := map_eq_cons_iff.1 hrest
    obtain ⟨other, hother, hpos⟩ := hkept.first hi between' single rest'' hsplit (kind_of_partOf hsingle)
    refine ⟨t.partOf other, ?_, by rw [hlength]; exact hpos⟩
    rw [← map_cons, ← map_append]
    exact mem_map_of_mem hother

/-- A type made of the atoms holds `nil` just if that is a member or the type is `any`. -/
theorem Session.Over.nil_mem_held (hs : s.Over ctx atoms)
    (h : s.types.MadeOf atoms ty) : .nil ∈ s.types.held ty ↔ Ty.nil ∈ s.types.members ty ∨ ty = Ty.any := by
  have hnil : .nil ∈ s.types.valuesOf Ty.nil := by
    unfold valuesOf
    rw [hs.types.lookup_nil]
    rfl
  by_cases hany : ty = Ty.any
  · rw [hany, held_any]
    simp
  rw [mem_held hany, or_iff_left hany]
  constructor
  · rintro ⟨z, hz, hv⟩
    have hatom := hs.isAtom z ((hs.member h hz).elim (fun h => absurd h.1 hany) (·.2))
    rwa [owner_unique hs.types hatom hv rfl .nil hnil]
  · exact fun h => ⟨Ty.nil, h, hnil⟩

/-! ## Positions of a union -/

theorem Session.unlimited_types (s : Session) (k : Nat) : (s.unlimited k).types = s.types := rfl

theorem regular_resultAtBoth (i : Nat) :
    Regular fun (S : Solver) (x : Ty × Ty) => do return (← S.resultAt x.1 i, ← S.resultAt x.2 i) :=
  fun L _ _ hS _ _ _ _ => L.bind hS.resultAt <| L.bind hS.resultAt L.pure

/-- If a member of a union of lists may have no value in a position, then neither need the union have one there, unless
something takes `nil` away. -/
theorem nil_mem_resultAt_union (hs : s.Ready ctx atoms) (hform : s.types.lookup ty = .union (before ++ member :: after))
    (hlisted : ∀ z ∈ before ++ member :: after, s.types.Listed atoms False z)
    (hkept : s.types.NilKept before member after i) :
    s.Sure ctx (fun S => do return (← S.resultAt member i, ← S.resultAt ty i)) fun r t =>
      Ty.nil ∈ t.members r.1 → Ty.nil ∈ t.members r.2 ∨ r.2 = Ty.any := by
  refine Session.sure_of_ends (regular_resultAtBoth i) (x := (member, ty)) ?_
  have hover := hs.over
  refine (hover.ends_resultAt_part (hlisted member (by simp)) i).bind fun a u hu ha => ?_
  have hu' := hover.later hu
  have hform' : u.types.lookup ty = .union (before ++ member :: after) :=
    (hu.grown.lookup (TypeTable.has_of_lookup (by rw [Session.unlimited_types, hform]; simp))).trans hform
  have hparts : (before ++ member :: after).map u.types.partOf = (before ++ member :: after).map s.types.partOf :=
    List.map_congr_left fun z hz => (hover.listed_later hu (hlisted z hz)).2
  refine (hu'.ends_resultAt hform' (fun z hz => (hover.listed_later hu (hlisted z hz)).1) i).bind fun b w hw hb => ?_
  refine .pure hw.types fun hnil => ?_
  have ha' := hu'.denotes_later hw ha
  have hw' := hu'.later hw
  rw [hparts] at hb
  rw [← hw'.nil_mem_held hb.made, hb.held]
  refine ValueList.nil_mem_ofParts hkept ?_
  have hheld : .nil ∈ w.types.held a := (hw'.nil_mem_held ha'.made).2 (.inl hnil)
  rwa [ha'.held] at hheld

example : ((ofBudget 9).resultAt Ty.string 1 undeclared (.start initial .standard)).map Prod.fst = some Ty.nil := by
  decide +kernel

/-! ## Lists of primitive types -/

/-- A table with the lists `(number, string, boolean)` and `(string, number...)` and their union, the lists
`(boolean, number...)` and `(string)` and their union, the list `(number...)` and its union with `string`, and the lists
`(number, string...)`, `(number, string, string)` and `(...)`. -/
def listTypes : TypeTable :=
  .ofForms [] [.results [Ty.number, Ty.string, Ty.boolean] false, .results [Ty.string, Ty.number] true, .union [⟨10⟩, ⟨11⟩],
    .results [Ty.boolean, Ty.number] true, .results [Ty.string] false, .union [⟨13⟩, ⟨14⟩],
    .results [Ty.number] true, .union [⟨16⟩, Ty.string],
    .results [Ty.number, Ty.string] true, .results [Ty.number, Ty.string, Ty.string] false, .results [] true]

def listStart : Session := .start listTypes Limits.standard

def listAtoms : List Ty := [Ty.nil, Ty.boolean, Ty.number, Ty.string]

theorem listStart_ready : listStart.Ready undeclared listAtoms where
  types := Orderly.wf (by decide)
  room := by decide
  union key hkey := by cases hkey
  superClass key hkey := by cases hkey
  isAtom z hz := by
    simp only [listAtoms, mem_cons, not_mem_nil, or_false] at hz
    rcases hz with rfl | rfl | rfl | rfl
    · exact .nil
    · exact .primitive .boolean
    · exact .primitive .number
    · exact .primitive .string
  nil := by decide
  boolean := by decide
  names := by
    unfold NamesApart
    decide

theorem listed_listTypes (ty : Ty) (types : List Ty) (variadic : Bool)
    (hform : listTypes.lookup ty = .results types variadic) (h : types ⊆ listAtoms) : listTypes.Listed listAtoms False ty :=
  .list hform fun _ hx => ⟨.atom (h hx), rfl, False.elim⟩

/-- In its second position `(string)` has no value, so that the union with `(boolean, number...)` has `nil` there. -/
theorem nil_mem_resultAt_union_string : ∃ r u,
    (do return (← (ofBudget 30).resultAt ⟨14⟩ 1, ← (ofBudget 30).resultAt ⟨15⟩ 1) : Solve (Ty × Ty)) undeclared listStart =
      some (r, u) ∧ r.1 = Ty.nil ∧ (Ty.nil ∈ u.types.members r.2 ∨ r.2 = Ty.any) := by
  have hrun : ((do return (← (ofBudget 30).resultAt ⟨14⟩ 1, ← (ofBudget 30).resultAt ⟨15⟩ 1) : Solve (Ty × Ty)) undeclared
      listStart).map (fun r => (r.1.1, r.2.guard.exceeded, r.2.canceled, r.2.types.members r.1.1)) =
        some (Ty.nil, false, false, [Ty.nil]) := by
    decide +kernel
  obtain ⟨⟨r, u⟩, hr, hvalues⟩ := Option.map_eq_some_iff.1 hrun
  simp only [Prod.mk.injEq] at hvalues
  obtain ⟨hnil, hexceeded, hcanceled, hmembers⟩ := hvalues
  have hkept : listTypes.NilKept [⟨13⟩] ⟨14⟩ [] 1 := ⟨fun h => by revert h; decide, fun h => by cases h⟩
  have hlisted : ∀ z ∈ [⟨13⟩] ++ (⟨14⟩ : Ty) :: [], listTypes.Listed listAtoms False z := by
    simp only [List.cons_append, List.nil_append, List.forall_mem_cons]
    exact ⟨listed_listTypes ⟨13⟩ [Ty.boolean, Ty.number] true (by decide) (by decide),
      listed_listTypes ⟨14⟩ [Ty.string] false (by decide) (by decide), by simp⟩
  refine ⟨r, u, hr, hnil, ?_⟩
  exact (nil_mem_resultAt_union listStart_ready (by decide) hlisted hkept).2 30 r u hr ⟨hexceeded, hcanceled⟩
    (by rw [hmembers]; simp)

/-- The second of the lists `(number, string, boolean)` and `(string, number...)` may stop after its first value, and so may
`(number...)` before it. The unions with what comes before and after them have a value in these positions. -/
theorem nil_not_mem_resultAt_union :
    ((do
      let t ← Solve.ofTypes id
      let member ← Solver.standard.resultAt ⟨11⟩ 1
      let union ← Solver.standard.resultAt ⟨12⟩ 1
      return (t.lookup ⟨12⟩, (← members member), (← members union)) : Solve (Form × List Ty × List Ty)) undeclared
        listStart).map (fun r => (r.1, r.2.guard.exceeded)) =
      some ((.union [⟨10⟩, ⟨11⟩], [Ty.nil, Ty.number], [Ty.number, Ty.string]), false) ∧
    ((do
      let t ← Solve.ofTypes id
      let member ← Solver.standard.resultAt ⟨16⟩ 0
      let union ← Solver.standard.resultAt ⟨17⟩ 0
      return (t.lookup ⟨17⟩, (← members member), (← members union)) : Solve (Form × List Ty × List Ty)) undeclared
        listStart).map (fun r => (r.1, r.2.guard.exceeded)) =
      some ((.union [⟨16⟩, Ty.string], [Ty.nil, Ty.number], [Ty.string]), false) := by
  constructor <;> decide +kernel

end AnnotatedLua
