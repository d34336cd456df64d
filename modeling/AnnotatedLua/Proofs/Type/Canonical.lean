/-
Stored unions. Types with different names make one union in whatever order they come (`TypeTable.WF.unionOf_perm`), and
a union is known by its members (`TypeTable.WF.unionOf_flat`). Canonical unions: two or more members in the order of
their names, none of them `void` or a union, and not both boolean literals. Storing keeps this (`Canonical.unionOf`).
The order is kept whatever the members are (`Sorted.unionOf`, `WF.unionOf_new`).
-/
import AnnotatedLua.Proofs.Type.Intern
import Mathlib.Data.List.Sort

namespace AnnotatedLua.TypeTable

open TypeTable List

variable {t t' u v : TypeTable} {types types' : List Ty}

/-- What a union of the types is made of: their members, `void` left out. -/
def flat (t : TypeTable) (types : List Ty) : List Ty := (types.flatMap t.members).filter (!·.isVoid)

/-- No two of the types have the same display name. -/
def NamesApart (t : TypeTable) (types : List Ty) : Prop :=
  ∀ a ∈ types, ∀ b ∈ types, t.name a = t.name b → a = b

/-! ## Display names in a table that grows -/

variable {ty : Ty}

theorem Extends.name (hx : t.Extends t') (h : t.WF) (h' : t'.WF) (hty : t.Has ty) : t'.name ty = t.name ty := by
  rw [h.name_eq, h'.name_eq]
  exact render_of_tree h'.toGrounded h.toGrounded (hx.tree_eq h h' hty)

theorem NamesApart.extends (hd : t.NamesApart types) (hx : t.Extends t') (h : t.WF) (h' : t'.WF)
    (hty : ∀ ty ∈ types, t.Has ty) : t'.NamesApart types := by
  intro a ha b hb e
  rw [hx.name h h' (hty a ha), hx.name h h' (hty b hb)] at e
  exact hd a ha b hb e

theorem NamesApart.subset (hd : t.NamesApart types) (hs : types' ⊆ types) : t.NamesApart types' :=
  fun a ha b hb => hd a (hs ha) b (hs hb)

theorem Extends.members (hx : t.Extends t') (hty : t.Has ty) : t'.members ty = t.members ty := by
  unfold TypeTable.members
  rw [hx.lookup hty]

theorem members_eq_self (hkind : t.kind ty ≠ .union) : t.members ty = [ty] := by
  unfold members
  split
  · rename_i hl
    exact absurd (kind_of hl) hkind
  · rfl

theorem lookup_of_union (hkind : t.kind ty = .union) : t.lookup ty = .union (t.members ty) := by
  unfold kind at hkind
  unfold members
  cases hl : t.lookup ty <;> rw [hl] at hkind <;> first | rfl | cases hkind

theorem WF.member_has (h : t.WF) {z : Ty} (hty : t.Has ty) (hz : z ∈ t.members ty) : t.Has z := by
  unfold members at hz
  split at hz
  · rename_i parts hl
    exact h.part_has hl hz
  · obtain rfl := mem_singleton.1 hz
    exact hty

theorem Extends.flat (hx : t.Extends t') (hty : ∀ ty ∈ types, t.Has ty) : t'.flat types = t.flat types := by
  unfold TypeTable.flat
  rw [flatMap_congr fun ty h => hx.members (hty ty h)]

/-! ## The order of names -/

theorem insertByName_perm (t : TypeTable) (ty : Ty) (l : List Ty) : (t.insertByName ty l).Perm (ty :: l) := by
  induction l with
  | nil => exact .refl _
  | cons head rest ih =>
    unfold insertByName
    split
    · exact .refl _
    · exact (ih.cons head).trans (.swap ty head rest)

theorem sortByName_perm (t : TypeTable) (l : List Ty) : (t.sortByName l).Perm l := by
  induction l with
  | nil => exact .refl _
  | cons ty l ih => exact (t.insertByName_perm ty _).trans (ih.cons ty)

theorem insertByName_sorted (t : TypeTable) (ty : Ty) {l : List Ty} (h : l.Pairwise fun a b => t.name a ≤ t.name b) :
    (t.insertByName ty l).Pairwise fun a b => t.name a ≤ t.name b := by
  induction l with
  | nil => exact pairwise_singleton ..
  | cons head rest ih =>
    rw [pairwise_cons] at h
    unfold insertByName
    split
    · rename_i hle
      refine pairwise_cons.2 ⟨fun b hb => ?_, pairwise_cons.2 h⟩
      rcases mem_cons.1 hb with rfl | hb
      · exact hle
      · exact hle.trans (h.1 b hb)
    · rename_i hle
      refine pairwise_cons.2 ⟨fun b hb => ?_, ih h.2⟩
      rcases mem_cons.1 ((t.insertByName_perm ty rest).subset hb) with rfl | hb
      · exact le_of_not_ge hle
      · exact h.1 b hb

theorem sortByName_sorted (t : TypeTable) (l : List Ty) : (t.sortByName l).Pairwise fun a b => t.name a ≤ t.name b := by
  induction l with
  | nil => exact Pairwise.nil
  | cons ty l ih => exact t.insertByName_sorted ty ih

theorem sortByName_ordered (hd : t.NamesApart types) (hn : types.Nodup) :
    (t.sortByName types).Pairwise fun a b => t.name a < t.name b := by
  have hperm := t.sortByName_perm types
  refine Pairwise.imp_of_mem ?_ ((t.sortByName_sorted types).and (hperm.nodup_iff.2 hn))
  rintro a b ha hb ⟨hle, hne⟩
  exact lt_of_le_of_ne hle fun e => hne (hd a (hperm.subset ha) b (hperm.subset hb) e)

theorem sortByName_eq_of_perm (hd : t.NamesApart types) (hname : ∀ ty ∈ types, t'.name ty = t.name ty)
    (hp : types.Perm types') : t.sortByName types = t'.sortByName types' := by
  have hperm := (t.sortByName_perm types).trans (hp.trans (t'.sortByName_perm types').symm)
  refine hperm.eq_of_pairwise (fun a b ha hb hab hba => ?_) (t.sortByName_sorted types) ?_
  · have ha := (t.sortByName_perm types).subset ha
    have hb := hp.symm.subset ((t'.sortByName_perm types').subset hb)
    exact hd a ha b hb (le_antisymm hab hba)
  · refine Pairwise.imp_of_mem ?_ (t'.sortByName_sorted types')
    intro a b ha hb hab
    rw [hname a (hp.symm.subset ((t'.sortByName_perm types').subset ha)),
      hname b (hp.symm.subset ((t'.sortByName_perm types').subset hb))] at hab
    exact hab

/-! ## The union of several types -/

section
variable (h : t.WF) (hty : ∀ ty ∈ types, t.Has ty) (hd : t.NamesApart types) (hn : types.Nodup)
include h hty hd hn

theorem WF.unionOf_several (hlen : 2 ≤ types.length) :
    t.unionOf types = (types.foldl TypeTable.keepName t).intern (.union (t.sortByName types)) := by
  obtain ⟨hw, hx, -, -⟩ := h.keepNames hty
  have hd' := hd.extends hx h hw hty
  have hsort : (types.foldl TypeTable.keepName t).sortByName types = t.sortByName types :=
    sortByName_eq_of_perm hd' (fun ty hm => (hx.name h hw (hty ty hm)).symm) (.refl _)
  have hdrop : (types.foldl TypeTable.keepName t).dropRepeats (t.sortByName types) = t.sortByName types := by
    rw [← hsort]
    exact dropRepeats_of_ordered (sortByName_ordered hd' hn)
  have hlen' : 2 ≤ (t.sortByName types).length := by rwa [(t.sortByName_perm types).length_eq]
  obtain ⟨a, b, rest, hl⟩ : ∃ a b rest, types = a :: b :: rest := by
    match types, hlen with
    | a :: b :: rest, _ => exact ⟨a, b, rest, rfl⟩
  have hunion : t.unionOf types = t.unionOfSeveral types := by
    rw [hl]
    rfl
  rw [hunion]
  unfold unionOfSeveral
  dsimp only
  rw [hsort, hdrop]
  match t.sortByName types, hlen' with
  | a :: b :: rest, _ => rfl

theorem WF.unionOf (hlen : 2 ≤ types.length) :
    (t.unionOf types).2.WF ∧ (t.unionOf types).2.Has (t.unionOf types).1 ∧
      (t.unionOf types).2.lookup (t.unionOf types).1 = .union (t.sortByName types) := by
  obtain ⟨hw, hx, -, -⟩ := h.keepNames hty
  rw [h.unionOf_several hty hd hn hlen]
  refine ⟨hw.intern ⟨fun ty hm => hx.has (hty ty ((t.sortByName_perm types).subset hm)), ?_⟩, intern_has _ _,
    lookup_of_form (intern_form _ _)⟩
  intro s hs
  cases hs

theorem WF.unionOf_perm (hp : types.Perm types') (hv : v.WF) (hx : (t.unionOf types).2.Extends v) :
    (v.unionOf types').1 = (t.unionOf types).1 := by
  match types, hp.length_eq with
  | [], _ =>
    obtain rfl : types' = [] := nil_perm.1 hp
    rfl
  | [ty], _ =>
    obtain rfl : types' = [ty] := (singleton_perm.1 hp).symm
    rfl
  | a :: b :: rest, hlength =>
    have hlen : 2 ≤ (a :: b :: rest).length := by simp
    obtain ⟨-, hhas, hform⟩ := h.unionOf hty hd hn hlen
    have htv := (unionOf_extends t (a :: b :: rest)).trans hx
    have hmem {ty : Ty} (hm : ty ∈ types') : ty ∈ a :: b :: rest := hp.symm.subset hm
    have hty' : ∀ ty ∈ types', v.Has ty := fun ty hm => htv.has (hty ty (hmem hm))
    have hd' : v.NamesApart types' := (hd.extends htv h hv hty).subset fun _ => hmem
    have hsort : v.sortByName types' = t.sortByName (a :: b :: rest) :=
      (sortByName_eq_of_perm hd (fun ty hm => htv.name h hv (hty ty hm)) hp).symm
    obtain ⟨hw, hxw, -, -⟩ := hv.keepNames hty'
    -- the union is already stored, under the handle it got first
    have hstored : (types'.foldl TypeTable.keepName v).lookup (t.unionOf (a :: b :: rest)).1 =
        .union (v.sortByName types') := by
      rw [(hx.trans hxw).lookup hhas, hform, hsort]
    rw [hv.unionOf_several hty' hd' (hp.nodup_iff.1 hn) (by omega)]
    rw [hw.intern_of_stored (by rw [← hstored]; exact ((hx.trans hxw).has hhas).form)]

theorem WF.members_unionOf (hne : types ≠ []) (hsingle : ∀ ty ∈ types, t.members ty = [ty]) :
    ((t.unionOf types).2.members (t.unionOf types).1).Perm types := by
  match types with
  | [ty] => exact .of_eq (hsingle ty (by simp))
  | a :: b :: rest =>
    obtain ⟨-, -, hform⟩ := h.unionOf hty hd hn (by simp)
    unfold members
    rw [hform]
    exact t.sortByName_perm _

theorem WF.unionOf_flat (hsingle : ∀ ty ∈ types, t.members ty = [ty]) (hvoid : ∀ ty ∈ types, ty.isVoid = false) :
    ((t.unionOf types).2.flat [(t.unionOf types).1]).Perm types := by
  unfold flat
  rw [flatMap_singleton]
  by_cases hne : types = []
  · have hlookup : t.lookup Ty.void = .void := by
      rw [h.base.lookup (by decide : initial.Has Ty.void)]
      decide
    have hflat : (t.members Ty.void).filter (!·.isVoid) = [] := by simp [members, hlookup, Ty.isVoid]
    rw [hne]
    exact .of_eq hflat
  · refine ((h.members_unionOf hty hd hn hne hsingle).filter _).trans (.of_eq (filter_eq_self.2 fun ty hm => ?_))
    rw [hvoid ty hm]
    rfl
end

/-! ## The union of any types -/

theorem dropRepeatsAfter_sublist (t : TypeTable) (last : Ty) (l : List Ty) : (t.dropRepeatsAfter last l).Sublist l := by
  induction l generalizing last with
  | nil => exact .slnil
  | cons ty rest ih =>
    unfold dropRepeatsAfter
    split
    · exact (ih last).cons ty
    · exact (ih ty).cons_cons ty

theorem dropRepeats_sublist (t : TypeTable) (l : List Ty) : (t.dropRepeats l).Sublist l := by
  cases l with
  | nil => exact .slnil
  | cons ty rest => exact (t.dropRepeatsAfter_sublist ty rest).cons_cons ty

/-! ## Unions in canonical form -/

/-- Two or more, in the order of their names, without `void`, unions or both booleans. -/
structure CanonicalMembers (t : TypeTable) (members : List Ty) : Prop where
  several : 2 ≤ members.length
  ordered : members.Pairwise fun a b => t.name a < t.name b
  noVoid : ∀ m ∈ members, t.kind m ≠ .void
  noUnion : ∀ m ∈ members, t.kind m ≠ .union
  booleans : ¬ (Ty.trueLiteral ∈ members ∧ Ty.falseLiteral ∈ members)

def Canonical (t : TypeTable) : Prop :=
  ∀ (ty : Ty) members, t.lookup ty = .union members → t.CanonicalMembers members

instance (t : TypeTable) (members : List Ty) : Decidable (t.CanonicalMembers members) :=
  decidable_of_iff (2 ≤ members.length ∧ (members.Pairwise fun a b => t.name a < t.name b) ∧
      (∀ m ∈ members, t.kind m ≠ .void) ∧ (∀ m ∈ members, t.kind m ≠ .union) ∧
      ¬ (Ty.trueLiteral ∈ members ∧ Ty.falseLiteral ∈ members))
    ⟨fun ⟨a, b, c, d, e⟩ => ⟨a, b, c, d, e⟩, fun h => ⟨h.several, h.ordered, h.noVoid, h.noUnion, h.booleans⟩⟩

theorem canonical_iff : t.Canonical ↔ ∀ i < t.size, t.kind ⟨i⟩ = .union → t.CanonicalMembers (t.members ⟨i⟩) := by
  constructor
  · intro h i _ hkind
    unfold kind at hkind
    cases hl : t.lookup ⟨i⟩ with
    | union =>
      unfold members
      rw [hl]
      exact h _ _ hl
    | _ => simp [hl] at hkind
  · intro h ty _ hl
    have hty : t.Has ty := has_of hl
    have hmembers := h ty.index hty (by simp [kind, hl])
    unfold TypeTable.members at hmembers
    rwa [hl] at hmembers

instance (t : TypeTable) : Decidable t.Canonical := decidable_of_iff' _ canonical_iff

structure Single (t : TypeTable) (ty : Ty) : Prop where
  stored : t.Has ty
  noVoid : t.kind ty ≠ .void
  noUnion : t.kind ty ≠ .union

structure Joinable (t : TypeTable) (types : List Ty) : Prop where
  single : ∀ ty ∈ types, t.Single ty
  booleans : ¬ (Ty.trueLiteral ∈ types ∧ Ty.falseLiteral ∈ types)

theorem Joinable.of_subset {types' : List Ty} (h : t.Joinable types) (hsub : types' ⊆ types) : t.Joinable types' :=
  ⟨fun ty hty => h.single ty (hsub hty), fun hb => h.booleans ⟨hsub hb.1, hsub hb.2⟩⟩

theorem CanonicalMembers.joinable {members : List Ty} (h : t.CanonicalMembers members)
    (hstored : ∀ m ∈ members, t.Has m) : t.Joinable members :=
  ⟨fun m hm => ⟨hstored m hm, h.noVoid m hm, h.noUnion m hm⟩, h.booleans⟩

theorem Joinable.canonical {members : List Ty} (h : t.Joinable members) (hlen : 2 ≤ members.length)
    (hord : members.Pairwise fun a b => t.name a < t.name b) : t.CanonicalMembers members :=
  ⟨hlen, hord, fun m hm => (h.single m hm).noVoid, fun m hm => (h.single m hm).noUnion, h.booleans⟩

/-! ## Growth -/

section

theorem Extends.kind (hx : t.Extends t') (hty : t.Has ty) : t'.kind ty = t.kind ty :=
  kind_of (hx.lookup hty)

theorem Single.later (hx : t.Extends t') (h : t.Single ty) : t'.Single ty := by
  refine ⟨hx.has h.stored, ?_, ?_⟩
  · rw [hx.kind h.stored]
    exact h.noVoid
  · rw [hx.kind h.stored]
    exact h.noUnion

theorem Joinable.later (hx : t.Extends t') (h : t.Joinable types) : t'.Joinable types :=
  ⟨fun ty hty => (h.single ty hty).later hx, h.booleans⟩

variable {members : List Ty}

theorem CanonicalMembers.later (hx : t.Extends t') (h : t.WF) (h' : t'.WF)
    (hstored : ∀ m ∈ members, t.Has m) (hm : t.CanonicalMembers members) : t'.CanonicalMembers members := by
  refine ((hm.joinable hstored).later hx).canonical hm.several (hm.ordered.imp_of_mem ?_)
  intro a b ha hb hab
  rw [hx.name h h' (hstored a ha), hx.name h h' (hstored b hb)]
  exact hab

theorem has_of_union (hl : t.lookup ty = .union members) : t.Has ty :=
  has_of hl

theorem Grounded.union_has (h : t.Grounded) (hl : t.lookup ty = .union members) : ∀ m ∈ members, t.Has m :=
  fun _ hm => h.part_has hl hm

def Downward (I : TypeTable → Prop) : Prop := ∀ t t' : TypeTable, t.WF → t'.WF → t.Extends t' → I t' → I t

theorem downward_true : Downward fun _ => True := fun _ _ _ _ _ _ => trivial

theorem canonical_downward : Downward Canonical := by
  intro t _ h h' hx hc ty members hl
  have hty : t.Has ty := has_of_union hl
  have hstored := h.union_has hl
  have hm := hc ty members (by rw [hx.lookup hty, hl])
  refine ⟨hm.several, hm.ordered.imp_of_mem fun ha hb hab => ?_, fun m hm' => ?_, fun m hm' => ?_, hm.booleans⟩
  · rwa [hx.name h h' (hstored _ ha), hx.name h h' (hstored _ hb)] at hab
  · rw [← hx.kind (hstored m hm')]
    exact hm.noVoid m hm'
  · rw [← hx.kind (hstored m hm')]
    exact hm.noUnion m hm'

/-! ## Conditions on all unions -/

def Unions (Q : TypeTable → List Ty → Prop) (t : TypeTable) : Prop :=
  ∀ (ty : Ty) members, t.lookup ty = .union members → Q t members

def Lasting (Q : TypeTable → List Ty → Prop) : Prop :=
  ∀ t t' : TypeTable, t.Extends t' → t.WF → t'.WF → ∀ members, (∀ m ∈ members, t.Has m) → Q t members → Q t' members

/-- Two or more members, in the order of their names. -/
structure InOrder (t : TypeTable) (members : List Ty) : Prop where
  several : 2 ≤ members.length
  ordered : members.Pairwise fun a b => t.name a < t.name b

/-- Every union has two or more members, in the order of their names. -/
def Sorted : TypeTable → Prop := Unions InOrder

theorem inOrder_lasting : Lasting InOrder := by
  intro t _ hx h h' _ hstored hm
  refine ⟨hm.several, hm.ordered.imp_of_mem ?_⟩
  intro a b ha hb hab
  rw [hx.name h h' (hstored a ha), hx.name h h' (hstored b hb)]
  exact hab

theorem canonicalMembers_lasting : Lasting CanonicalMembers :=
  fun _ _ hx h h' _ hstored hm => hm.later hx h h' hstored

theorem Canonical.sorted (hc : t.Canonical) : t.Sorted :=
  fun ty members hl => ⟨(hc ty members hl).several, (hc ty members hl).ordered⟩

variable {Q : TypeTable → List Ty → Prop}

theorem Unions.later (hQ : Lasting Q) (hx : t.Extends t') (h : t.WF) (h' : t'.WF) (hu : t.Unions Q)
    (hnew : ∀ (ty : Ty) members, ¬ t.Has ty → t'.lookup ty = .union members → Q t' members) : t'.Unions Q := by
  intro ty members hl
  by_cases hty : t.Has ty
  · rw [hx.lookup hty] at hl
    exact hQ t t' hx h h' members (h.union_has hl) (hu ty members hl)
  · exact hnew ty members hty hl

theorem Unions.of_forms (hQ : Lasting Q) (hx : t.Extends t') (h : t.WF) (h' : t'.WF) (hf : t'.forms = t.forms)
    (hu : t.Unions Q) : t'.Unions Q := by
  refine hu.later hQ hx h h' fun ty _ hno hl => absurd ?_ hno
  have hty : t'.Has ty := has_of_union hl
  unfold Has size at hty ⊢
  rwa [hf] at hty

theorem Canonical.of_forms (hx : t.Extends t') (h : t.WF) (h' : t'.WF) (hf : t'.forms = t.forms) (hc : t.Canonical) :
    t'.Canonical :=
  Unions.of_forms canonicalMembers_lasting hx h h' hf hc
end

/-! ## Storing -/

section
variable {Q : TypeTable → List Ty → Prop}

theorem initial_canonical : initial.Canonical := by decide

variable {form : Form}

theorem eq_intern_of_new (hty : (t.intern form).2.Has ty) (hno : ¬ t.Has ty) : ty = (t.intern form).1 := by
  unfold intern at hty ⊢
  split at hty
  · exact absurd hty hno
  · have hsize : (t.push form).size = t.size + 1 := by simp [push, size]
    have hi : ty.index = t.size := by
      unfold Has at hty hno
      simp only [hsize] at hty
      omega
    exact congrArg Ty.mk hi

theorem lookup_intern_new (hty : (t.intern form).2.Has ty) (hno : ¬ t.Has ty) : (t.intern form).2.lookup ty = form := by
  rw [eq_intern_of_new hty hno]
  exact lookup_of_form (intern_form t form)

theorem WF.members_void (h : t.WF) : t.members Ty.void = [Ty.void] := by
  apply members_eq_self
  unfold kind
  rw [(h.lookup_builtin Ty.void rfl).2]
  decide

/-- The members of a type that is no `void` may stand in a union. -/
theorem Canonical.members (h : t.WF) (hc : t.Canonical) (hty : t.Has ty) (hvoid : ty ≠ Ty.void) :
    t.Joinable (t.members ty) := by
  unfold TypeTable.members
  split
  · rename_i members hl
    exact (hc ty members hl).joinable (h.union_has hl)
  · rename_i hl
    have hsingle : t.Single ty := by
      refine ⟨hty, fun hk => hvoid ?_, fun hk => ?_⟩
      · -- only one handle reads as `void`
        obtain ⟨hv, hlv⟩ := h.lookup_builtin Ty.void rfl
        have hform : t.lookup ty = .void := by
          unfold kind at hk
          cases hl : t.lookup ty <;> simp_all
        exact h.eq_of_lookup hty hv (hform.trans (hlv.trans (by decide)).symm)
      · unfold kind at hk
        cases hl : t.lookup ty <;> simp_all
    refine ⟨by simpa using hsingle, ?_⟩
    rintro ⟨htrue, hfalse⟩
    rw [mem_singleton] at htrue hfalse
    exact absurd (htrue.trans hfalse.symm) (by decide)

theorem Canonical.nodup_names (hc : t.Canonical) (ty : Ty) : ((t.members ty).map t.name).Nodup := by
  by_cases hunion : t.kind ty = .union
  · rw [nodup_iff_pairwise_ne, pairwise_map]
    exact (hc ty _ (lookup_of_union hunion)).ordered.imp ne_of_lt
  · simp [members_eq_self hunion]

theorem Canonical.members_member (hc : t.Canonical) {z : Ty} (hz : z ∈ t.members ty) : t.members z = [z] := by
  by_cases hunion : t.kind ty = .union
  · exact members_eq_self ((hc ty _ (lookup_of_union hunion)).noUnion z hz)
  · have hself := members_eq_self hunion
    rw [hself, mem_singleton] at hz
    rw [hz, hself]

theorem Canonical.single_flat (h : t.WF) (hc : t.Canonical) (hty : ∀ ty ∈ types, t.Has ty) :
    ∀ z ∈ t.flat types, t.Single z := by
  intro z hz
  obtain ⟨hmem, hvoid⟩ := mem_filter.1 hz
  obtain ⟨ty, hty', hzty⟩ := mem_flatMap.1 hmem
  refine (hc.members h (hty ty hty') ?_).single z hzty
  rintro rfl
  rw [h.members_void, mem_singleton] at hzty
  subst hzty
  cases hvoid

theorem Unions.intern (hQ : Lasting Q) (h : t.WF) (hu : t.Unions Q) (hf : t.Holds form)
    (hform : ∀ members, form = .union members → Q t members) : (t.intern form).2.Unions Q := by
  have hx := intern_extends t form
  refine hu.later hQ hx h (h.intern hf) fun ty members hno hl => ?_
  have hty : (t.intern form).2.Has ty := has_of_union hl
  have he : form = .union members := (lookup_intern_new hty hno).symm.trans hl
  subst he
  exact hQ _ _ hx h (h.intern hf) _ hf.parts (hform members rfl)

theorem Canonical.intern (h : t.WF) (hc : t.Canonical) (hf : t.Holds form)
    (hform : ∀ members, form = .union members → t.CanonicalMembers members) : (t.intern form).2.Canonical :=
  Unions.intern canonicalMembers_lasting h hc hf hform

/-! ## Members in order -/

theorem dropRepeatsAfter_ordered {last : Ty} (h : (last :: types).Pairwise fun a b => t.name a ≤ t.name b) :
    (last :: t.dropRepeatsAfter last types).Pairwise fun a b => t.name a < t.name b := by
  induction types generalizing last with
  | nil => simp [dropRepeatsAfter]
  | cons ty rest ih =>
    rw [pairwise_cons, pairwise_cons] at h
    obtain ⟨hlast, hty, hrest⟩ := h
    unfold dropRepeatsAfter
    split
    · exact ih (pairwise_cons.2 ⟨fun b hb => hlast b (mem_cons_of_mem _ hb), hrest⟩)
    · rename_i hne
      have ih := ih (pairwise_cons.2 ⟨hty, hrest⟩)
      have hlt : t.name last < t.name ty := lt_of_le_of_ne (hlast ty (by simp)) (Ne.symm hne)
      refine pairwise_cons.2 ⟨fun b hb => ?_, ih⟩
      rcases mem_cons.1 hb with rfl | hb
      · exact hlt
      · exact hlt.trans ((pairwise_cons.1 ih).1 b hb)

theorem dropRepeats_ordered (h : types.Pairwise fun a b => t.name a ≤ t.name b) :
    (t.dropRepeats types).Pairwise fun a b => t.name a < t.name b := by
  cases types with
  | nil => exact .nil
  | cons => exact dropRepeatsAfter_ordered h

theorem dropRepeats_ne_nil (h : types ≠ []) : t.dropRepeats types ≠ [] := by
  cases types with
  | nil => exact absurd rfl h
  | cons => exact cons_ne_nil _ _

theorem unionOf_inv (t : TypeTable) (types : List Ty) :
    (((t.unionOf types).1 = Ty.void ∧ types = [] ∨ (t.unionOf types).1 ∈ types) ∧
        ((t.unionOf types).2 = t ∨ (t.unionOf types).2 = types.foldl TypeTable.keepName t)) ∨
      ∃ members, members.Subperm types ∧ (types.foldl TypeTable.keepName t).InOrder members ∧
        t.unionOf types = (types.foldl TypeTable.keepName t).intern (.union members) := by
  match types with
  | [] => exact .inl ⟨.inl ⟨rfl, rfl⟩, .inl rfl⟩
  | [ty] => exact .inl ⟨.inr (mem_singleton.2 rfl), .inl rfl⟩
  | a :: b :: rest =>
    have hne : a :: b :: rest ≠ [] := cons_ne_nil a _
    generalize e : a :: b :: rest = types at hne
    rw [show t.unionOf types = t.unionOfSeveral types by rw [← e]; rfl, unionOfSeveral]
    generalize types.foldl TypeTable.keepName t = v
    have hsub := (v.dropRepeats_sublist (v.sortByName types)).subperm.trans (v.sortByName_perm types).subperm
    have hord := dropRepeats_ordered (v.sortByName_sorted types)
    have hnil : v.dropRepeats (v.sortByName types) ≠ [] :=
      dropRepeats_ne_nil fun hnil => hne (List.Perm.nil_eq (hnil ▸ v.sortByName_perm types)).symm
    generalize v.dropRepeats (v.sortByName types) = members at hsub hord hnil
    match members with
    | [ty] => exact .inl ⟨.inr (hsub.subset (mem_singleton.2 rfl)), .inr rfl⟩
    | c :: d :: more => exact .inr ⟨_, hsub, ⟨by simp, hord⟩, rfl⟩

theorem WF.unionOf_cases (h : t.WF) (hty : ∀ ty ∈ types, t.Has ty) : (t.unionOf types).2.WF ∧
    ((t.unionOf types).1 = Ty.void ∧ types = [] ∨ (t.unionOf types).1 ∈ types ∨
      ∃ l, (t.unionOf types).2.lookup (t.unionOf types).1 = .union l ∧ l.Subperm types) := by
  obtain ⟨hw, hx, -, -⟩ := h.keepNames hty
  rcases t.unionOf_inv types with ⟨hty, htable⟩ | ⟨l, hsub, -, he⟩
  · refine ⟨?_, hty.imp_right .inl⟩
    rcases htable with e | e <;> rwa [e]
  · rw [he]
    exact ⟨hw.intern ⟨fun ty hm => hx.has (hty ty (hsub.subset hm)), nofun⟩,
      .inr (.inr ⟨l, lookup_of_form (intern_form _ _), hsub⟩)⟩

theorem WF.unionOf_new (h : t.WF) (hty : ∀ ty ∈ types, t.Has ty) {members : List Ty}
    (hno : ¬ t.Has ty) (hl : (t.unionOf types).2.lookup ty = .union members) :
    ty = (t.unionOf types).1 ∧ members ⊆ types ∧ (t.unionOf types).2.InOrder members := by
  -- Keeping the names adds no form, so what comes new is the union itself.
  obtain ⟨hw, hx, hforms, -⟩ := h.keepNames hty
  have hno' : ¬ (types.foldl TypeTable.keepName t).Has ty := by
    unfold Has size at hno ⊢
    rwa [hforms]
  rcases t.unionOf_inv types with ⟨-, htable⟩ | ⟨kept, hsub, hord, he⟩
  · rcases htable with e | e <;> rw [e] at hl
    · exact absurd (has_of_union hl) hno
    · exact absurd (has_of_union hl) hno'
  · rw [he] at hl ⊢
    have hnew := has_of_union hl
    cases (lookup_intern_new hnew hno').symm.trans hl
    have hstored : ∀ m ∈ members, (types.foldl TypeTable.keepName t).Has m := fun m hm => hx.has (hty m (hsub.subset hm))
    have hholds : (types.foldl TypeTable.keepName t).Holds (.union members) := ⟨hstored, nofun⟩
    refine ⟨eq_intern_of_new hnew hno', hsub.subset, ?_⟩
    exact inOrder_lasting _ _ (intern_extends _ _) hw (hw.intern hholds) _ hstored hord

theorem Sorted.unionOf (h : t.WF) (hs : t.Sorted) (hty : ∀ ty ∈ types, t.Has ty) : (t.unionOf types).2.Sorted :=
  hs.later inOrder_lasting (unionOf_extends t types) h (h.unionOf_cases hty).1
    fun _ _ hno hl => (h.unionOf_new hty hno hl).2.2

theorem Canonical.unionOf (h : t.WF) (hc : t.Canonical) (hm : t.Joinable types) : (t.unionOf types).2.Canonical := by
  have hty : ∀ ty ∈ types, t.Has ty := fun ty hty => (hm.single ty hty).stored
  have hx := unionOf_extends t types
  refine Unions.later canonicalMembers_lasting hx h (h.unionOf_cases hty).1 hc fun ty _ hno hl => ?_
  obtain ⟨-, hsub, hord⟩ := h.unionOf_new hty hno hl
  exact ((hm.of_subset hsub).later hx).canonical hord.several hord.ordered

theorem Canonical.unionOf_iff (h : t.WF) (hc : t.Canonical) (hty : ∀ ty ∈ types, t.Has ty) :
    (t.unionOf types).2.Canonical ↔ ∀ members, (t.unionOf types).2.lookup (t.unionOf types).1 = .union members →
      (t.unionOf types).2.CanonicalMembers members := by
  constructor
  · exact fun hc members hl => hc _ members hl
  · intro hlook
    refine Unions.later canonicalMembers_lasting (unionOf_extends t types) h (h.unionOf_cases hty).1 hc ?_
    intro _ members hno hl
    obtain ⟨rfl, -, -⟩ := h.unionOf_new hty hno hl
    exact hlook members hl
end

end AnnotatedLua.TypeTable
