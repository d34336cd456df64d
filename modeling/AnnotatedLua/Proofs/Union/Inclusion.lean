/-
Strict acceptance of unions of atoms is inclusion of their values (`accepts_unionAll_iff`). A comparison that is under
way already is answered with `false` (`accepts_hindered`).
-/
import AnnotatedLua.Proofs.Result.Projection
import AnnotatedLua.Proofs.Union.Difference

namespace AnnotatedLua

open Solve Solver TypeTable

/-- Neither `nil` nor `any` is accepted everywhere. -/
def strict : Mode := { strictAny := true, strictNil := true }

section
variable {ctx : Context} {s : Session} {atoms : List Ty}

theorem Context.acceptsMember_strict {t : TypeTable} {target member : Ty} :
    ctx.acceptsMember t strict target member = true ↔
      target = Ty.any ∨ ∃ part ∈ t.members target, t.literalOf part member = true := by
  rw [Context.acceptsMember_iff]
  simp [Context.lets, takes, strict]

theorem Session.Over.acceptsMembers_strict (hs : s.Over ctx atoms) {target source : Ty} {own others : Set LuaValue}
    (ht : s.types.Denotes atoms True target own) (hsource : s.types.Denotes atoms True source others) :
    ctx.acceptsMembers s.types strict target source = true ↔ others ⊆ own := by
  unfold Context.acceptsMembers
  rw [← ht.held, ← hsource.held, List.all_eq_true]
  constructor
  · intro h value hvalue
    by_cases htarget : target = Ty.any
    · rw [htarget, held_any]
      trivial
    have hpart {member : Ty} (hmember : member ∈ s.types.members source) :
        ∃ part ∈ s.types.members target, s.types.literalOf part member = true :=
      (Context.acceptsMember_strict.1 (h member hmember)).resolve_left htarget
    by_cases hany : source = Ty.any
    · -- only `any` itself takes `any`
      obtain ⟨part, hpart, hliteral⟩ := hpart (show Ty.any ∈ _ by simp [hany, hs.types.members_any])
      obtain rfl : part = Ty.any := by simpa [literalOf, hs.types.lookup_any, FormOf.primitive?] using hliteral
      exact absurd rfl ((hs.isAtom _ (hs.atom_of_member ht.made htarget _ hpart)).ne hs.types).1
    · obtain ⟨member, hmember, hvalue⟩ := (mem_held hany).1 hvalue
      obtain ⟨part, hpart, hliteral⟩ := hpart hmember
      exact (mem_held htarget).2 ⟨part, hpart, hs.types.valuesOf_subset hliteral hvalue⟩
  · intro h member hmember
    by_cases hany : source = Ty.any
    · exact Context.acceptsMember_strict.2 (.inl (hs.eq_any_of_subset ht.made (hany ▸ h)))
    · refine hs.acceptsMember_of_values ht.made (ht.tidy trivial) (hs.atom_of_member hsource.made hany member hmember) ?_
      exact fun _ hvalue => h ((mem_held hany).2 ⟨member, hmember, hvalue⟩)

theorem Session.Over.ends_unionAll_atoms (hs : s.Over ctx atoms) {types : List Ty} (hsub : types ⊆ atoms) (hne : types ≠ []) :
    s.Ends ctx (·.unionAll types) fun r u => u.types.Denotes atoms True r (s.types.values types) := by
  have hnot {ty : Ty} (hty : ty ∈ types) : ty ≠ Ty.any := ((hs.isAtom ty (hsub hty)).ne hs.types).1
  have hvalues : { value | ∃ ty ∈ types, value ∈ s.types.held ty } = s.types.values types := by
    ext value
    exact exists_congr fun ty => and_congr_right fun hty => mem_held (hnot hty)
  rw [← hvalues]
  exact hs.ends_unionAll (fun ty hty => .atom (hsub hty)) hne

theorem Session.Over.values_later (hs : s.Over ctx atoms) {u : Session} (hu : u.Past ctx s) {types : List Ty}
    (hsub : types ⊆ atoms) : u.types.values types = s.types.values types := by
  ext value
  refine exists_congr fun ty => and_congr_right fun hty => ?_
  have hhas := hs.stored ty (hsub hty)
  rw [hu.grown.members hhas, (hs.isAtom ty (hsub hty)).members hs.types]
  simp [hu.grown.valuesOf hs.types hhas]

theorem regular_acceptsUnions (mode : Mode) : Regular (fun (S : Solver) (x : List Ty × List Ty) => do
    S.accepts (← S.unionAll x.1) (← S.unionAll x.2) mode) :=
  fun L _ _ hS _ _ _ _ => L.bind (L.unionAll hS) <| L.bind (L.unionAll hS) hS.accepts

/-- The union of some atoms strictly accepts the union of others just if all the values of the others are among its own. -/
theorem accepts_unionAll_iff (hs : s.Ready ctx atoms) {own others : List Ty} (hown : own ⊆ atoms) (hothers : others ⊆ atoms)
    (hne : own ≠ []) (hne' : others ≠ []) :
    s.Sure ctx (fun S => do S.accepts (← S.unionAll own) (← S.unionAll others) strict) fun answer _ =>
      answer = true ↔ s.types.values others ⊆ s.types.values own := by
  refine Session.sure_of_ends (regular_acceptsUnions strict) (x := (own, others)) ?_
  have hover := hs.over
  refine (hover.ends_unionAll_atoms hown hne).bind fun target u hu ht => ?_
  have hu' := hover.later hu
  refine (hu'.ends_unionAll_atoms hothers hne').bind fun source v hv hsource => ?_
  have hlast := hu'.later hv
  have ht' := hu'.denotes_later hv ht
  rw [hover.values_later hu hothers] at hsource
  have hasked : v.Always ctx.uncancelled (·.accepts target source strict) _ :=
    always_accepts hlast.free hlast.superClass (hlast.single ht'.made) (hlast.single hsource.made)
  exact (hasked.now hlast.types).imp fun answer w _ h => h ▸ hlast.acceptsMembers_strict ht' hsource
end

example : ((do
    let union ← (ofBudget 9).unionAll [Ty.string, Ty.nil]
    (ofBudget 9).accepts union Ty.boolean strict : Solve Bool)
    undeclared (.start .initial .standard)).map Prod.fst = some false := by
  decide +kernel

/-- All the values of `nil` and of `string` are among those of `string`, `nil` and `boolean`, so that the union of these
three accepts the union of the two. -/
theorem accepts_unionAll_iff_nil : ∃ u,
    (do
      (ofBudget 40).accepts (← (ofBudget 40).unionAll [Ty.string, Ty.nil, Ty.boolean])
        (← (ofBudget 40).unionAll [Ty.nil, Ty.string]) strict : Solve Bool) undeclared listStart = some (true, u) := by
  have hsub : listTypes.values [Ty.nil, Ty.string] ⊆ listTypes.values [Ty.string, Ty.nil, Ty.boolean] := by
    rintro value ⟨ty, hty, h⟩
    exact ⟨ty, (show [Ty.nil, Ty.string] ⊆ [Ty.string, Ty.nil, Ty.boolean] by decide) hty, h⟩
  have hsure := accepts_unionAll_iff listStart_ready (show [Ty.string, Ty.nil, Ty.boolean] ⊆ listAtoms by decide)
    (show [Ty.nil, Ty.string] ⊆ listAtoms by decide) (by simp) (by simp)
  obtain ⟨answer, u, hr, hiff⟩ := hsure.of_run 40 (by decide +kernel)
  exact ⟨u, hiff.2 hsub ▸ hr⟩

/-- While `string` is being compared with itself as a class, it does not accept its literal `"x"`. -/
theorem accepts_hindered : namedTypes.values [⟨12⟩] ⊆ namedTypes.values [Ty.string] ∧
    ((do standard.accepts (← standard.unionAll [Ty.string]) (← standard.unionAll [⟨12⟩]) strict : Solve Bool) undeclared
      { namedStart with guard := (namedStart.guard.enter ⟨.superClass, false, .pair Ty.string Ty.string⟩).2 }).map
        (fun r => (r.1, r.2.guard.exceeded)) = some (false, false) := by
  refine ⟨?_, by decide +kernel⟩
  rintro value ⟨ty, hty, member, hmember, h⟩
  obtain rfl := List.mem_singleton.1 hty
  obtain rfl : member = ⟨12⟩ := by
    rwa [show namedTypes.members ⟨12⟩ = [⟨12⟩] by decide +kernel, List.mem_singleton] at hmember
  exact ⟨Ty.string, by simp, Ty.string, by decide +kernel, namedTypes_wf.valuesOf_subset (by decide +kernel) h⟩

end AnnotatedLua
