/-
Unions and resolution end, if comparisons do wherever the guard has less room. Resolving a union may leave it as high as
it was, but then less is left to resolve (`ends_resolve`).
-/
import AnnotatedLua.Proofs.Termination.Size

namespace AnnotatedLua

open Solve Solver TypeTable List Session

variable {k b g room i j h : Nat} {u : Session} {flat : List Ty} {x y : Ty}

/-! ## Comparisons -/

section
variable (ctx : Context) (c : Heights)

/-- Where a `table<K, V>` has a height, its arguments are to be equal, not narrower. -/
def Heights.Admits (c : Heights) (mode : Mode) : Prop :=
  c.tables = true → mode.widenTables = false ∧ mode.openParams = false

def Compares (room m : Nat) : Prop :=
  ∀ s : Session, s.Measured ctx c → s.room ≤ room → ∀ x y i j, s.types.Sized c x i → s.types.Sized c y j → i + j < m →
    ∀ mode, c.Admits mode → s.Stops ctx fun S => S.accepts x y mode

def ComparesBelow (room : Nat) : Prop := ∀ r < room, ∀ m, Compares ctx c r m
end

structure Session.Under (ctx : Context) (c : Heights) (room : Nat) (s : Session) : Prop where
  below : ComparesBelow ctx c room
  le : s.room ≤ room

section
variable {ctx : Context} {c : Heights} {s : Session} (hs : s.Measured ctx c)

theorem Session.Under.later (h : s.Under ctx c room) (hu : u.Past ctx s) : u.Under ctx c room :=
  ⟨h.below, hu.room.trans_le h.le⟩

/-! ## Pending types -/

def Session.Loose (ctx : Context) (s : Session) (ty : Ty) : Prop := s.types.kind ty = .union ∨ s.next ctx ty ≠ ty

theorem Session.Past.loose (hu : u.Past ctx s) {ty : Ty} (hty : s.types.Has ty) : u.Loose ctx ty ↔ s.Loose ctx ty := by
  unfold Session.Loose
  rw [hu.kind hty, hu.next hty]

section
variable {G : Ty → Prop}

theorem Session.Measured.opens (hs : s.Measured ctx c) {name : Symbol} {marks : Marks} {target : Ty}
    (ht : s.standsFor ctx name marks = some target) (hb : c (s.types.text name) ≤ b) : s.types.Has target ∧
      ∀ z ∈ s.types.members target, s.Opens ctx (s.types.Sized c · b) c.name b z := by
  obtain ⟨-, hhas, hopens⟩ := hs.aliases name target (aliasSeen_of_standsFor ht)
  refine ⟨hhas, fun z hz => ?_⟩
  exact (hopens z hz).map hs.types (.refl _) rfl (fun _ _ h => h.mono hb) (fun _ h => h.trans hb)
    (hs.types.member_has hhas hz)

theorem Session.Opens.next (hs : s.Measured ctx c) {ty : Ty}
    (h : s.Opens ctx (s.types.Sized c · b) c.name b ty) : s.types.Tabular ty ∧
      (s.next ctx ty = ty ∧ s.types.Sized c ty b ∨ s.next ctx ty ≠ ty ∧ s.types.Has (s.next ctx ty) ∧
        ∀ z ∈ s.types.members (s.next ctx ty), s.Opens ctx (s.types.Sized c · b) c.name b z) := by
  cases h with
  | low h =>
    refine ⟨h.tabular, ?_⟩
    by_cases he : s.next ctx ty = ty
    · exact .inl ⟨he, h⟩
    refine .inr ⟨he, ?_⟩
    unfold Session.next at he ⊢
    split at he
    · rename_i name marks hl
      cases ht : s.standsFor ctx name marks with
      | none =>
        rw [ht] at he
        exact absurd rfl he
      | some => exact hs.opens ht (by have := h.name hl; omega)
    · rename_i target hl
      have htarget := h.part (p := target) (by rw [hl]; simp)
      exact ⟨htarget.has, fun z hz => .low ((htarget.members hz).mono (by omega))⟩
    · exact absurd rfl he
  | @named _ target name marks hl ht hne hb =>
    have hnext : s.next ctx ty = target := by
      unfold Session.next
      rw [hl]
      dsimp only
      rw [ht]
      rfl
    refine ⟨tabular_of_kind ?_, .inr ?_⟩
    · rw [kind_of hl]
      simp
    · rw [hnext]
      exact ⟨hne, hs.opens ht hb⟩
  | @aliasRef _ target name params hl hm =>
    have hnext : s.next ctx ty = target := by
      unfold Session.next
      rw [hl]
    obtain ⟨_, hhas⟩ : target.index < ty.index ∧ s.types.Has target :=
      hs.types.part_lt (by rw [hl]; simp)
    refine ⟨tabular_of_kind ?_, .inr ?_⟩
    · rw [kind_of hl]
      simp
    · rw [hnext]
      exact ⟨fun he => absurd (congrArg Ty.index he) (by omega), hhas, hm⟩

def Session.Done (ctx : Context) (c : Heights) (s : Session) (G : Ty → Prop) (b : Nat) (ty : Ty) : Prop :=
  G ty ∨ s.types.Sized c ty b ∧ s.next ctx ty = ty
end

/-! ## Unions -/

theorem PartFrom.sized (hs : s.Measured ctx c) (hflat : ∀ ty ∈ flat, s.types.Sized c ty k)
    (hk : 1 ≤ k) {ty : Ty} (h : PartFrom flat ty) : s.types.Sized c ty k := by
  rcases h with rfl | hm | ⟨rfl, literal, hl, hb⟩
  · exact hs.types.sized_void hk
  · exact hflat ty hm
  · refine (hs.types.sized_primitive .boolean).mono ?_
    have hliteral : ∃ text, s.types.lookup literal = .literal .boolean text := by
      unfold otherBoolean? at hb
      split at hb
      · rename_i he
        exact ⟨⟨1⟩, he ▸ (hs.types.base.lookup (by decide)).trans (by decide)⟩
      · split at hb
        · rename_i he
          exact ⟨⟨2⟩, he ▸ (hs.types.base.lookup (by decide)).trans (by decide)⟩
        · cases hb
    obtain ⟨_, htext⟩ := hliteral
    have := (hflat literal hl).literal_le htext
    omega

theorem TypeTable.UnionFrom.within (hs : s.Measured ctx c)
    (hflat : ∀ ty ∈ flat, s.types.Sized c ty k) (hk : 1 ≤ k) {ty : Ty} (h : s.types.UnionFrom flat ty) :
    s.types.Within c k ty := by
  rcases h with h | ⟨l, hl, -, hm⟩
  · exact (h.sized hs hflat hk).within
  · intro z hz
    unfold members at hz
    rw [hl] at hz
    exact (hm z hz).sized hs hflat hk

section
variable (hB : s.Under ctx c room)
include hB hs

theorem ends_guarded (hx : s.types.Sized c x i) (hy : s.types.Sized c y j) (activity : Activity)
    (subject : Subject) {mode : Mode} (hmode : c.Admits mode) :
    s.Stops ctx fun S => withGuard activity subject (S.accepts x y mode) := by
  refine (ends_withGuard (Q := fun _ => True) hs.types activity subject fun g hg => ?_).stops
  exact hB.below _ (hg.trans_le hB.le) (i + j + 1) _ (hs.setGuard g) (le_refl _) x y i j hx hy (by omega) mode hmode

theorem ends_subsumes (hx : s.types.Sized c x i) (hy : s.types.Sized c y j) : s.Stops ctx (·.subsumes x y) :=
  (ends_guarded hs hB hx hy .union (.pair x y) fun _ => ⟨rfl, rfl⟩).bind fun _ _ hu _ => .pure hu.types trivial

theorem Session.Measured.joins (hk : 1 ≤ k) :
    s.Joins ctx (fun t z => t.Sized c z k) fun t ty => t.Within c k ty where
  types := hs.types
  later _ _ hu hv _ hz := hz.extends hu.types hv.grown
  wholeLater _ _ hu hv _ hty := hty.extends hu.types hv.grown
  has _ _ _ hz := hz.has
  void _ hu := hu.types.sized_void hk
  nil _ hu := hu.types.sized_nil hk
  boolean u hu literal hl hb := by
    have hpart : PartFrom [literal] Ty.boolean := .inr (.inr ⟨rfl, literal, by simp, hb⟩)
    exact hpart.sized (hs.later hu) (by simpa using hl) hk
  members _ _ _ hty := hty
  single _ _ _ hz := hz.within
  union u _ ty l hl _ hz := by
    unfold Within TypeTable.members
    rw [hl]
    exact hz
  subsumes _ hu _ _ hx hy := ends_subsumes (hs.later hu) (hB.later hu) hx hy
end

/-! ## Resolution -/

def Session.Settling (ctx : Context) (c : Heights) (s : Session) (l k : Nat) (ty : Ty) : Prop :=
  (∀ z ∈ s.types.members ty, s.Loose ctx z → s.types.Sized c z l) ∧
    (s.types.kind ty = .union → (s.types.members ty).length < k)

section
variable (hB : s.Under ctx c room) {ty : Ty} {G : Ty → Prop}
include hs

omit hs in
theorem ends_anyM_willResolve {l : List Ty} (hl : ∀ z ∈ l, s.types.Has z ∧ s.types.Tabular z)
    (hu : u.Past ctx s) : u.Ends ctx (fun S => l.anyM S.willResolve) fun b _ => b = l.any (s.resolves ctx) := by
  refine ends_anyM_eq hu.types fun z hz v hv => ?_
  obtain ⟨hhas, htabular⟩ := hl z hz
  have hv := hu.trans hv
  refine (ends_willResolve hv.types (hv.tabular hhas htabular)).imp fun b _ _ hb => ?_
  rw [hb]
  unfold resolves
  rw [hv.grown.lookup hhas, hv.marksSeen]

section
variable (hty : s.types.Has ty) (hG : ∀ z, G z → s.types.Sized c z g ∧ s.next ctx z = z)
  (hparts : ∀ z ∈ s.types.members ty, G z ∨ s.Opens ctx (s.types.Sized c · b) c.name b z)
include hty hG hparts

omit hty hparts in
theorem resolvable {z : Ty} (hz : G z ∨ s.Opens ctx (s.types.Sized c · b) c.name b z) : s.types.Has z ∧ s.types.Tabular z := by
  rcases hz with hg | ho
  · exact ⟨(hG z hg).1.has, (hG z hg).1.tabular⟩
  · exact ⟨ho.has fun _ h => h.has, (ho.next hs).1⟩

omit hty hparts in
theorem unfolds_members : s.Unfolds ctx (fun _ z => (G z ∨ s.Opens ctx (s.types.Sized c · b) c.name b z) ∧
      ((∀ z ∈ s.types.members ty, s.next ctx z = z) → z ∈ s.types.members ty))
    (fun _ z => s.Done ctx c G b z ∧ ((∀ z ∈ s.types.members ty, s.next ctx z = z) → z ∈ s.types.members ty))
    ((fun i => s.types.tree ⟨i⟩) '' {i | i < s.types.size}) where
  types := hs.types
  finite := (Set.finite_lt_nat _).image _
  later _ _ _ _ _ := ⟨id, id⟩
  has u hu z hz := hu.grown.has (resolvable hs hG hz.1).1
  step u hu z hz := by
    obtain ⟨hhas, htabular⟩ := resolvable hs hG hz.1
    refine (ends_resolveOne hu.types (hu.tabular hhas htabular)).imp fun r v hv hr => ?_
    rw [hu.next hhas] at hr
    have hstep : s.next ctx z = z ∧ s.Done ctx c G b z ∨ s.next ctx z ≠ z ∧ s.types.Has (s.next ctx z) ∧
        ∀ p ∈ s.types.members (s.next ctx z), s.Opens ctx (s.types.Sized c · b) c.name b p := by
      rcases hz.1 with hg | ho
      · exact .inl ⟨(hG z hg).2, .inl hg⟩
      · exact (ho.next hs).2.imp (fun h => ⟨h.1, .inr ⟨h.2, h.1⟩⟩) id
    rw [← hr] at hstep
    refine hstep.imp (fun h => ⟨h.1, h.2, hz.2⟩) fun h => ⟨h.1, ⟨z.index, hhas, ?_⟩, fun p hp => ?_⟩
    · exact (hu.grown.tree_eq hs.types hu.types hhas).symm
    · rw [(hu.trans hv).grown.members h.2.1] at hp
      exact ⟨.inr (h.2.2 p hp), fun hall => absurd (hr.trans (hall z (hz.2 hall))) h.1⟩

theorem ends_resolvedMembers (hu : u.Past ctx s) : u.Ends ctx (·.resolvedMembers ty) fun r _ =>
    r = s.types.members ty ∨ (∀ z ∈ r, s.Done ctx c G b z) ∧ ((∀ z ∈ s.types.members ty, s.next ctx z = z) →
      r.length ≤ (s.types.members ty).length ∧ ∀ z ∈ r, z ∈ s.types.members ty) := by
  refine ((unfolds_members hs hG).resolvedMembers hu hty fun z hz => ⟨hparts z hz, fun _ => hz⟩).imp ?_
  refine fun r _ _ hr => hr.imp id fun ⟨hnodup, hr⟩ => ⟨fun z hz => (hr z hz).1, fun hall => ?_⟩
  have hsub : r ⊆ s.types.members ty := fun z hz => (hr z hz).2 hall
  exact ⟨(subperm_of_subset hnodup hsub).length_le, hsub⟩

include hB in
theorem ends_resolve_from : s.Ends ctx (·.resolve ty) fun r u => r = ty ∨
    (s.types.members ty).any (s.resolves ctx) = true ∧ ∃ l : List Ty, (∀ z ∈ l, s.Done ctx c G b z) ∧
      ((∀ z ∈ s.types.members ty, s.next ctx z = z) → l.length < (s.types.members ty).length) ∧
      u.types.UnionFrom (l.flatMap s.types.members) r := by
  refine (ends_members hs.types ty).bind ?_
  rintro _ _ - ⟨rfl, rfl⟩
  refine (ends_anyM_willResolve (fun z hz => resolvable hs hG (hparts z hz)) (.of_wf hs.types)).bind fun any u hu hany => ?_
  refine .early hu.types (.inl rfl) fun hn => ?_
  have hany : (s.types.members ty).any (s.resolves ctx) = true := by rw [← hany]; simpa using hn
  refine (ends_resolvedMembers hs hty hG hparts hu).bind fun l v hv hl => ?_
  have hv := hu.trans hv
  refine .early hv.types (.inl rfl) fun hne => ?_
  have hl : (∀ z ∈ l, s.Done ctx c G b z) ∧
      ((∀ z ∈ s.types.members ty, s.next ctx z = z) → l.length < (s.types.members ty).length) := by
    rcases hl with rfl | ⟨hdone, hlen⟩
    · exact absurd (by simp) hne
    · refine ⟨hdone, fun hnext => ?_⟩
      obtain ⟨hle, hsub⟩ := hlen hnext
      refine lt_of_le_of_ne hle fun he => hne ?_
      simpa [he] using hsub
  have hwithin : ∀ z ∈ l, v.types.Within c (max 1 (max b g)) z := by
    intro z hz
    rcases hl.1 z hz with hg | ⟨hsized, -⟩
    · exact (hs.sized hv ((hG z hg).1.mono (by omega))).within
    · exact (hs.sized hv (hsized.mono (by omega))).within
  have hmembers : ∀ z ∈ l, v.types.members z = s.types.members z := by
    intro z hz
    refine hv.grown.members ?_
    rcases hl.1 z hz with hg | ⟨hsized, -⟩
    · exact (hG z hg).1.has
    · exact hsized.has
  match l, hl, hwithin, hmembers with
  | [], hl, _, _ => exact .pure hv.types (.inr ⟨hany, [], hl.1, hl.2, .inl (.inl rfl)⟩)
  | [single], hl, _, hmembers =>
    exact .pure hv.types (.inr ⟨hany, [single], hl.1, hl.2, .of_members (by simp [hmembers])⟩)
  | x :: y :: rest, hl, hwithin, hmembers =>
    refine (ends_unionAll ((hs.later hv).joins (hB.later hv) (by omega)) hwithin).imp fun r w _ hfrom => ?_
    refine .inr ⟨hany, x :: y :: rest, hl.1, hl.2, ?_⟩
    rw [← flatMap_congr hmembers]
    exact hfrom.2.mono filter_sublist
end

omit hs in
theorem resolves_of_next (hnext : s.next ctx ty ≠ ty) : s.resolves ctx ty = true := by
  unfold Session.next at hnext
  unfold resolves
  split at hnext
  · rename_i name marks hl
    unfold standsFor at hnext
    split at hnext
    · exact absurd rfl hnext
    · rename_i hvariable
      simpa [hl] using hvariable
  · rfl
  · exact absurd rfl hnext

omit hs in
theorem height_of_resolves (hty : s.types.Sized c ty h) (hresolves : s.resolves ctx ty = true) : 3 ≤ h := by
  unfold resolves at hresolves
  split at hresolves
  · rename_i hl
    have := hty.name hl
    omega
  · rename_i target hl
    have := hty.part_compound (p := target) (by rw [kind_of hl]; nofun) (by rw [hl]; simp)
    have := this.1.pos
    omega
  · cases hresolves

omit hs in
theorem opens_of_next (hty : s.types.Sized c ty h) (hnext : s.next ctx ty ≠ ty) :
    s.Opens ctx (s.types.Sized c · (h - 2)) c.name (h - 2) ty := by
  unfold Session.next at hnext
  split at hnext
  · rename_i name marks hl
    cases ht : s.standsFor ctx name marks with
    | none =>
      rw [ht] at hnext
      exact absurd rfl hnext
    | some =>
      rw [ht] at hnext
      have := hty.name hl
      exact .named hl ht hnext (by omega)
  · rename_i target hl
    have hkind : s.types.kind ty ≠ .union := by
      rw [kind_of hl]
      nofun
    have htarget := (hty.part_compound (p := target) hkind (by rw [hl]; simp)).1
    exact .aliasRef hl fun z hz => .low (htarget.members hz)
  · exact absurd rfl hnext

include hB

theorem ends_resolve_single (hty : s.types.Sized c ty h) (hkind : s.types.kind ty ≠ .union) :
    s.Ends ctx (·.resolve ty) fun r u => r = ty ∨ u.types.Sized c r (h - 1) := by
  have hmembers := members_eq_self hkind
  by_cases hnext : s.next ctx ty = ty
  · -- it is left out or stays
    have hG : ∀ z, z = ty → s.types.Sized c z h ∧ s.next ctx z = z := by
      rintro z rfl
      exact ⟨hty, hnext⟩
    refine (ends_resolve_from (b := 0) hs hB hty.has hG (by simp [hmembers])).imp ?_
    rintro r u hu (rfl | ⟨hany, l, -, hlen, hfrom⟩)
    · exact .inl rfl
    rw [hmembers] at hany hlen
    have h3 := height_of_resolves hty (by simpa using hany)
    obtain rfl : l = [] := by
      have := hlen (by simpa using hnext)
      exact eq_nil_of_length_eq_zero (by simpa using this)
    exact .inr ((hfrom.within (k := 1) (hs.later hu) (by simp) (le_refl _)).sized.mono (by omega))
  · have h3 := height_of_resolves hty (resolves_of_next hnext)
    have hopens := opens_of_next hty hnext
    refine (ends_resolve_from (G := fun _ => False) (g := 0) hs hB hty.has (by simp) (by simpa [hmembers] using hopens)).imp ?_
    rintro r u hu (rfl | ⟨-, l, hdone, -, hfrom⟩)
    · exact .inl rfl
    refine .inr ((hfrom.within (k := h - 2) (hs.later hu) (fun z hz => ?_) (by omega)).sized.mono (by omega))
    obtain ⟨x, hx, hz⟩ := mem_flatMap.1 hz
    rcases hdone x hx with hfalse | ⟨hsized, -⟩
    · exact hfalse.elim
    · exact hs.sized hu (hsized.members hz)

theorem ends_resolve_union (hty : s.types.Sized c ty h) (hkind : s.types.kind ty = .union) :
    s.Ends ctx (·.resolve ty) fun r u => r = ty ∨ u.types.Within c (h - 1) r := by
  have hparts : ∀ z ∈ s.types.members ty, s.types.Sized c z (h - 1) := fun _ => hty.members_union hkind
  refine (ends_resolve_from (G := fun _ => False) (g := 0) hs hB hty.has (by simp)
    fun z hz => .inr (.low (hparts z hz))).imp ?_
  rintro r u hu (rfl | ⟨hany, l, hdone, -, hfrom⟩)
  · exact .inl rfl
  obtain ⟨z, hz, -⟩ := any_eq_true.1 hany
  refine .inr (hfrom.within (hs.later hu) (fun z hz => ?_) (hparts z hz).pos)
  obtain ⟨x, hx, hz⟩ := mem_flatMap.1 hz
  rcases hdone x hx with hfalse | ⟨hsized, -⟩
  · exact hfalse.elim
  · exact hs.sized hu (hsized.members hz)

variable (ctx ty) in
omit hs hB in
theorem not_loose_builtin (hw : s.types.WF) (hbuiltin : ty.isBuiltin = true)
    (hkind : initial.kind ty ∉ [Kind.union, .classRef, .aliasRef]) : s.types.Has ty ∧ ¬ s.Loose ctx ty := by
  obtain ⟨hhas, hl⟩ := hw.lookup_builtin ty hbuiltin
  rw [kind_of hl.symm] at hkind
  refine ⟨hhas, ?_⟩
  rintro (hunion | hnext)
  · exact hkind (by unfold TypeTable.kind at hunion; rw [hunion]; simp)
  · unfold Session.next at hnext
    split at hnext
    · rename_i hform
      exact hkind (by rw [hform]; simp)
    · rename_i hform
      exact hkind (by rw [hform]; simp)
    · exact hnext rfl

theorem ends_resolve_settles {l : Nat} (hty : s.types.Sized c ty h) (hkind : s.types.kind ty = .union)
    (hsettling : s.Settling ctx c l k ty) : s.Ends ctx (·.resolve ty) fun r u => r = ty ∨
      ∃ l' k', (l' < l ∨ l' = l ∧ k' < k) ∧ u.Settling ctx c l' k' r := by
  have hk := hsettling.2 hkind
  have hG : ∀ z, z ∈ s.types.members ty ∧ ¬ s.Loose ctx z → s.types.Sized c z h ∧ s.next ctx z = z := by
    rintro z ⟨hz, hloose⟩
    exact ⟨hty.members hz, by_contra fun hne => hloose (.inr hne)⟩
  have hparts : ∀ z ∈ s.types.members ty, (z ∈ s.types.members ty ∧ ¬ s.Loose ctx z) ∨
      s.Opens ctx (s.types.Sized c · l) c.name l z := by
    intro z hz
    by_cases hloose : s.Loose ctx z
    · exact .inr (.low (hsettling.1 z hz hloose))
    · exact .inl ⟨hz, hloose⟩
  refine (ends_resolve_from hs hB hty.has hG hparts).imp ?_
  rintro r u hu (rfl | ⟨-, parts, hdone, hlen, hfrom⟩)
  · exact .inl rfl
  refine .inr ?_
  have hmembers : ∀ x ∈ parts, s.types.kind x ≠ .union → s.types.members x = [x] ∧ ¬ s.Loose ctx x := by
    intro x hx hne
    refine ⟨members_eq_self hne, ?_⟩
    rcases hdone x hx with ⟨-, hloose⟩ | ⟨-, hnext⟩
    · exact hloose
    · rintro (hunion | hchange)
      · exact hne hunion
      · exact hchange hnext
  have hpart : ∀ z, PartFrom (parts.flatMap s.types.members) z → s.types.Has z ∧
      (s.Loose ctx z → 1 ≤ l ∧ s.types.Sized c z (l - 1)) := by
    rintro z (rfl | hz | ⟨rfl, -⟩)
    · obtain ⟨hhas, hloose⟩ := not_loose_builtin ctx Ty.void hs.types rfl (by decide)
      exact ⟨hhas, fun h => absurd h hloose⟩
    · obtain ⟨x, hx, hz⟩ := mem_flatMap.1 hz
      by_cases hunion : s.types.kind x = .union
      · rcases hdone x hx with ⟨-, hloose⟩ | ⟨hsized, -⟩
        · exact absurd (.inl hunion) hloose
        · exact ⟨(hsized.members hz).has, fun _ => ⟨hsized.pos, hsized.members_union hunion hz⟩⟩
      · obtain ⟨he, hloose⟩ := hmembers x hx hunion
        obtain rfl : z = x := by simpa [he] using hz
        refine ⟨?_, fun h => absurd h hloose⟩
        rcases hdone z hx with hg | ⟨hsized, -⟩
        · exact (hG z hg).1.has
        · exact hsized.has
    · obtain ⟨hhas, hloose⟩ := not_loose_builtin ctx Ty.boolean hs.types rfl (by decide)
      exact ⟨hhas, fun h => absurd h hloose⟩
  rcases hfrom with hr | ⟨union, hl, hle, hm⟩
  · obtain ⟨hhas, hlow⟩ := hpart r hr
    by_cases hloose : s.Loose ctx r
    · obtain ⟨h1, hsized⟩ := hlow hloose
      exact ⟨l - 1, _, .inl (by omega), fun z hz _ => (hs.sized hu hsized).members hz, fun _ => Nat.lt_succ_self _⟩
    · have hne : u.types.kind r ≠ .union := by
        rw [hu.kind hhas]
        exact fun h => hloose (.inl h)
      refine ⟨l, 0, .inr ⟨rfl, by omega⟩, fun z hz h => ?_, fun h => absurd h hne⟩
      obtain rfl : z = r := by simpa [members_eq_self hne] using hz
      exact absurd ((hu.loose hhas).1 h) hloose
  · have hunion : u.types.members r = union := by
      unfold TypeTable.members
      rw [hl]
    have hlow : ∀ z ∈ union, u.Loose ctx z → 1 ≤ l ∧ u.types.Sized c z (l - 1) := by
      intro z hz hloose
      obtain ⟨hhas, hlow⟩ := hpart z (hm z hz)
      obtain ⟨h1, hsized⟩ := hlow ((hu.loose hhas).1 hloose)
      exact ⟨h1, hs.sized hu hsized⟩
    by_cases h1 : 1 ≤ l
    · exact ⟨l - 1, _, .inl (by omega), fun z hz hloose => (hlow z (hunion ▸ hz) hloose).2, fun _ => Nat.lt_succ_self _⟩
    -- nothing can be resolved, so there are fewer members
    have hnone {z : Ty} (h : s.types.Sized c z l) : False := by
      have := h.pos
      omega
    have hfew := hlen fun z hz => by_contra fun hne => hnone (hsettling.1 z hz (.inr hne))
    have hflat : parts.flatMap s.types.members = parts := by
      have : ∀ x ∈ parts, s.types.members x = [x] := by
        intro x hx
        refine (hmembers x hx fun hunion => ?_).1
        rcases hdone x hx with ⟨-, hloose⟩ | ⟨hsized, -⟩
        · exact hloose (.inl hunion)
        · exact hnone hsized
      rw [flatMap_congr this, flatMap_singleton']
    rw [hflat] at hle
    refine ⟨l, union.length + 1, .inr ⟨rfl, by omega⟩, fun z hz hloose => ?_, fun _ => by rw [hunion]; omega⟩
    have := (hlow z (hunion ▸ hz) hloose).1
    omega

structure Session.Lower (ctx : Context) (c : Heights) (s : Session) (ty : Ty) (h : Nat) (u : Session) (r : Ty) :
    Prop where
  within : u.types.Within c (h - 1) r
  sized : s.types.kind ty ≠ .union → u.types.Sized c r (h - 1)
  settles : s.types.kind ty = .union → ∀ l k, s.Settling ctx c l k ty →
    ∃ l' k', (l' < l ∨ l' = l ∧ k' < k) ∧ u.Settling ctx c l' k' r

theorem ends_resolve (hty : s.types.Sized c ty h) : s.Ends ctx (·.resolve ty) fun r u =>
    r = ty ∨ s.Lower ctx c ty h u r := by
  by_cases hkind : s.types.kind ty = .union
  · have hsettles := Session.Ends.all (Q := fun (p : Nat × Nat) r u => s.Settling ctx c p.1 p.2 ty → r = ty ∨
        ∃ l' k', (l' < p.1 ∨ l' = p.1 ∧ k' < p.2) ∧ u.Settling ctx c l' k' r) fun p => by
      by_cases hp : s.Settling ctx c p.1 p.2 ty
      · exact (ends_resolve_settles hs hB hty hkind hp).imp fun _ _ _ h _ => h
      · exact (ends_resolve_union hs hB hty hkind).imp fun _ _ _ _ h => absurd h hp
    refine ((ends_resolve_union hs hB hty hkind).and hsettles).imp ?_
    rintro r u - ⟨hwithin, hsettles⟩
    by_cases he : r = ty
    · exact .inl he
    refine .inr ⟨hwithin.resolve_left he, fun hne => absurd hkind hne, fun _ l k hlk => ?_⟩
    exact (hsettles (l, k) hlk).resolve_left he
  · refine (ends_resolve_single hs hB hty hkind).imp fun r u _ hr => hr.imp_right fun hsized => ?_
    exact ⟨hsized.within, fun _ => hsized, fun h => absurd h hkind⟩
end

end

end AnnotatedLua
