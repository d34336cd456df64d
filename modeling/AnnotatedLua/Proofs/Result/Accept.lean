/-
Lists that accept lists (`Results.accepts`). The type at a position of the one accepts the type at that position of the
other (`resultAt_accepts_of_accepts`), as far as the types that are compared reach: a source may begin to repeat its
last type before that (`resultAt_not_accepts_of_accepts`).
-/
import AnnotatedLua.Proofs.Result.Nil

namespace AnnotatedLua

open Solve Solver List Option Bool Context Session.Always
open TypeTable (has_of held_any kind_of literalOf mem_held takes valuesOf)

variable {ctx : Context} {s : Session} {atoms targets sources : List Ty} {target source x y : Ty} {T R r : Results}
  {i : Nat} {last : Option Ty} {t : TypeTable} {value : LuaValue} {mode : Mode}

namespace Results

/-! ## Comparing lists -/

/-- The type that a list has for a position, if there is one: what comes after the types of a variadic list is its last
type. -/
def slot (r : Results) (i : Nat) : Option Ty := r.types[i]?.or (if r.variadic then r.types.getLast? else none)

/-- Whether the types of a list accept those of another one, with `last` after the types of the target. -/
def acceptsAll (A : Ty → Ty → Bool) (last : Option Ty) : List Ty → List Ty → Bool
  | _, [] => true
  | target :: targets, source :: sources => A target source && acceptsAll A last targets sources
  | [], source :: sources => last.all (A · source) && acceptsAll A last [] sources

/-- Whether a list accepts another one, where `A` says which types accept which. -/
def accepts (A : Ty → Ty → Bool) (target source : Results) : Bool :=
  (target.variadic || !source.variadic) && (source.variadic || decide (target.fixedCount ≤ source.types.length)) &&
    acceptsAll A (if target.variadic then target.types.getLast? else none) target.types source.types

/-- The types that are compared reach the position: the source goes on as long as the target does, or the position is
before its last type. -/
def Compared (target source : Results) (i : Nat) : Prop :=
  source.variadic = true → target.types.length ≤ source.types.length ∨ i + 1 < source.types.length

variable {A : Ty → Ty → Bool} {target source : Results}

theorem acceptsAll_iff : acceptsAll A last targets sources = true ↔
    ∀ (k : Nat) (x y : Ty), sources[k]? = some y → targets[k]?.or last = some x → A x y = true := by
  induction sources generalizing targets with
  | nil => cases targets <;> simp [acceptsAll]
  | cons source sources ih =>
    have hsplit (first : Option Ty) {rest : List Ty} (hfirst : first = targets[0]?.or last)
        (hrest : ∀ k : Nat, rest[k]? = targets[k + 1]?) :
        (first.all (A · source) = true ∧
          ∀ (k : Nat) (x y : Ty), sources[k]? = some y → rest[k]?.or last = some x → A x y = true) ↔
          ∀ (k : Nat) (x y : Ty), (source :: sources)[k]? = some y → targets[k]?.or last = some x → A x y = true := by
      constructor
      · rintro ⟨hx, h⟩ k x y hy ht
        cases k with
        | zero =>
          cases hy
          rw [← hfirst] at ht
          simpa [ht] using hx
        | succ k => exact h k x y hy (by rwa [hrest])
      · intro h
        refine ⟨?_, fun k x y hy _ => h (k + 1) x y hy (by rwa [← hrest])⟩
        cases hf : first with
        | none => rfl
        | some x => exact h 0 x source rfl (by rw [← hfirst, hf])
    cases targets with
    | nil =>
      rw [acceptsAll, and_eq_true, ih]
      exact hsplit last rfl fun k => rfl
    | cons first =>
      rw [acceptsAll, and_eq_true, ih]
      exact hsplit (some first) rfl fun k => rfl

theorem accepts_iff : target.accepts A source = true ↔ (source.variadic = true → target.variadic = true) ∧
    (source.variadic = false → target.fixedCount ≤ source.types.length) ∧
    ∀ (k : Nat) (x y : Ty), source.types[k]? = some y → target.slot k = some x → A x y = true := by
  unfold accepts slot
  rw [and_eq_true, and_eq_true, acceptsAll_iff]
  cases source.variadic <;> cases target.variadic <;> simp

theorem accepts_self (h : ∀ x ∈ target.types, A x x = true) : target.accepts A target = true := by
  refine accepts_iff.2 ⟨id, fun hstops => ?_, fun k x y hy hx => ?_⟩
  · simp [fixedCount, hstops]
  · rw [slot, hy, some_or, some.injEq] at hx
    subst hx
    exact h y (mem_of_getElem? hy)

theorem mem_of_slot (h : target.slot i = some x) : x ∈ target.types := by
  unfold slot at h
  rcases or_eq_some_iff.1 h with h | ⟨-, h⟩
  · exact mem_of_getElem? h
  · split at h
    · exact mem_of_getLast? h
    · cases h

theorem accepts_slot (h : target.accepts A source = true) (hcompared : target.Compared source i)
    (hx : target.slot i = some x) (hy : source.slot i = some y) : A x y = true := by
  obtain ⟨-, -, hall⟩ := accepts_iff.1 h
  by_cases hi : i < source.types.length
  · refine hall i x y ?_ hx
    rwa [slot, getElem?_eq_getElem hi, some_or, ← getElem?_eq_getElem hi] at hy
  -- both repeat their last types
  rw [slot, getElem?_eq_none (by omega), none_or] at hy
  split at hy
  · rename_i hvariadic
    have hle : target.types.length ≤ source.types.length := by
      have := hcompared hvariadic
      omega
    rw [slot, getElem?_eq_none (by omega), none_or] at hx
    split at hx
    · rename_i hvariadic'
      refine hall (source.types.length - 1) x y (by rw [← getLast?_eq_getElem?, hy]) ?_
      unfold slot
      by_cases he : target.types.length = source.types.length
      · rw [← he, ← getLast?_eq_getElem?, hx, some_or]
      · rw [getElem?_eq_none (by omega), none_or, if_pos hvariadic', hx]
    · cases hx
  · cases hy

theorem fixedCount_le (h : target.accepts A source = true) (hcompared : target.Compared source i)
    (hi : source.fixedCount ≤ i) : target.fixedCount ≤ i := by
  obtain ⟨hvariadic, hfixed, -⟩ := accepts_iff.1 h
  unfold fixedCount at *
  cases hs : source.variadic with
  | false =>
    have := hfixed hs
    simp only [hs, false_eq_true, if_false] at hi
    omega
  | true =>
    have := hcompared hs
    simp only [hvariadic hs, hs, if_true] at hi ⊢
    omega

end Results

/-- A list holds the values of its type for the position, and `nil` where it need not go on. -/
theorem TypeTable.mem_get_listOf :
    value ∈ (t.listOf r).get i ↔
      (value = .nil ∧ r.fixedCount ≤ i) ∨ ∃ x, r.slot i = some x ∧ value ∈ t.held x := by
  obtain ⟨types, variadic⟩ := r
  unfold listOf fixedValues ValueList.get Results.fixedCount Results.slot
  cases variadic with
  | false =>
    by_cases hi : i < types.length
    · simp [hi, Nat.not_le.2 hi]
    · simp [hi, Nat.le_of_not_lt hi]
  | true =>
    by_cases hi : i < types.length - 1
    · have hlt : i < types.length := by omega
      have hgoes : ¬ types.length ≤ i + 1 := by omega
      simp [hi, hlt, hgoes]
    · have hlast : types[i]?.or types.getLast? = types.getLast? := by
        rw [getLast?_eq_getElem?]
        by_cases he : i = types.length - 1
        · rw [he, Option.or_self]
        · rw [getElem?_eq_none (by omega), Option.none_or]
      simp only [if_true, hlast, Nat.le_of_not_lt hi]
      cases types.getLast? <;> simp [hi]

theorem TypeTable.Denotes.mem_position {t' : TypeTable} {neat : Prop} {ty : Ty}
    (h : t.Denotes atoms neat ty ((t'.listOf r).get i)) : value ∈ t.held ty ↔
      (value = .nil ∧ r.fixedCount ≤ i) ∨ ∃ x, r.slot i = some x ∧ value ∈ t'.held x := by
  rw [h.held]
  exact mem_get_listOf

/-! ## Queries about lists -/

section
variable {A : Ty → Ty → Bool}

theorem always_positionsAccept (htargets : ∀ x ∈ targets, ∀ y ∈ sources, s.Always ctx (·.accepts x y mode) (A x y))
    (hlast : ∀ x ∈ last, ∀ y ∈ sources, s.Always ctx (·.accepts x y mode) (A x y)) :
    s.Always ctx (·.positionsAccept mode last targets sources) (Results.acceptsAll A last targets sources) := by
  induction sources generalizing targets with
  | nil =>
    cases targets with
    | nil => exact .pure true
    | cons => exact .pure true
  | cons y sources ih =>
    have hrest (targets : List Ty)
        (h : ∀ x ∈ targets, ∀ y' ∈ y :: sources, s.Always ctx (·.accepts x y' mode) (A x y')) :
        s.Always ctx (·.positionsAccept mode last targets sources)
          (Results.acceptsAll A last targets sources) :=
      ih (fun x hx z hz => h x hx z (mem_cons_of_mem y hz))
        fun x hx z hz => hlast x hx z (mem_cons_of_mem y hz)
    have hstep {x : Ty} {targets : List Ty} (hx : s.Always ctx (·.accepts x y mode) (A x y))
        (h : s.Always ctx (·.positionsAccept mode last targets sources)
          (Results.acceptsAll A last targets sources)) :
        s.Always ctx (fun S => do
          if ← S.accepts x y mode then S.positionsAccept mode last targets sources else return false)
          (A x y && Results.acceptsAll A last targets sources) := by
      refine hx.after ?_
      cases A x y with
      | true => exact h
      | false => exact .pure false
    cases targets with
    | cons x targets =>
      exact hstep (htargets x mem_cons_self y mem_cons_self)
        (hrest targets fun z hz => htargets z (mem_cons_of_mem x hz))
    | nil =>
      have hend := hrest [] (by simp)
      cases hx : last with
      | some x =>
        rw [hx] at hend hstep
        exact hstep (hlast x hx y mem_cons_self) hend
      | none =>
        -- nothing more is asked
        have hall : Results.acceptsAll A none [] (y :: sources) = true := by
          simp [Results.acceptsAll_iff]
        rw [hall]
        exact .pure true

theorem always_accepts_list
    (ht : s.types.lookup target = .results T.types T.variadic) (hr : s.types.lookup source = .results R.types R.variadic)
    (hw : s.types.WF) (hA : ∀ x ∈ T.types, ∀ y ∈ R.types, s.Always ctx (·.accepts x y mode) (A x y)) :
    s.Always ctx (·.accepts target source mode) (T.accepts A R) := by
  have hhas : s.types.Has target := has_of ht
  have hhas' : s.types.Has source := has_of hr
  refine .ask (.ite (fun he => ?_) fun _ => ?_)
  · have hsame : T = R := by
      obtain ⟨_, _⟩ := T
      obtain ⟨_, _⟩ := R
      rw [he, hr] at ht
      cases ht
      rfl
    subst hsame
    rw [Results.accepts_self fun x hx => (hA x hx x hx).unique always_accepts_self hw]
    exact .pure true
  · refine (lookup hhas).after ?_
    rw [ht]
    have hmerge : s.Always ctx (·.mergeResults source) source := by
      refine (lookup hhas').after ?_
      rw [hr]
      exact .pure source
    refine hmerge.after ((lookup hhas').after ?_)
    rw [hr]
    have hrepeats : (T.variadic || !R.variadic) = !(R.variadic && !T.variadic) := by simp [Bool.or_comm]
    have henough : (R.variadic || decide (T.fixedCount ≤ R.types.length)) =
        !(!R.variadic && decide (R.types.length < T.fixedCount)) := by
      simp only [Bool.not_and, Bool.not_not, ← decide_not, Nat.not_lt]
    unfold Results.accepts
    rw [hrepeats, henough]
    refine .ite (fun h => ?_) fun h => .ite (fun h' => ?_) fun h' => ?_
    · rw [h]
      exact .pure false
    · have h' : (!R.variadic && decide (R.types.length < T.fixedCount)) = true := h'
      rw [h', Bool.not_true, Bool.and_false]
      exact .pure false
    · have h' : (!R.variadic && decide (R.types.length < T.fixedCount)) = false := eq_false_iff.2 h'
      rw [eq_false_iff.2 h, h', Bool.not_false, Bool.true_and, Bool.true_and]
      refine always_positionsAccept hA fun x hx y hy => hA x ?_ y hy
      split at hx
      · exact mem_of_getLast? hx
      · cases hx
end

/-! ## Acceptance by values -/

namespace Session.Over

variable {r : Ty}

section
variable (hs : s.Over ctx atoms)
include hs

/-- The members of a type other than `any` are atoms. -/
theorem atom_of_member (h : s.types.MadeOf atoms x) (hany : x ≠ Ty.any) : ∀ z ∈ s.types.members x, z ∈ atoms :=
  fun _ hz => (hs.member h hz).elim (fun h => absurd h.1 hany) (·.2)

/-- A type that holds objects of all classes is `any`. -/
theorem eq_any_of_objects (h : s.types.MadeOf atoms x) (hobjects : ∀ name, .object name 0 ∈ s.types.held x) :
    x = Ty.any := by
  by_contra hany
  -- a class that is not among the atoms
  obtain ⟨fresh, hfresh⟩ := Infinite.exists_notMem_finset
    (atoms.flatMap fun z => (s.types.lookup z).names.map s.types.text).toFinset
  obtain ⟨z, hz, hv⟩ := (mem_held hany).1 (hobjects fresh)
  have hatom := hs.atom_of_member h hany z hz
  obtain ⟨-, _, hl, hf⟩ := (hs.isAtom z hatom).form hs.types
  refine hfresh (mem_toFinset.2 (mem_flatMap.2 ⟨z, hatom, ?_⟩))
  unfold valuesOf at hv
  rw [hl] at hv ⊢
  cases hf with
  | nil => cases hv
  | primitive => cases LuaValue.mem_ofPrimitive.1 hv
  | literal => cases LuaValue.mem_ofPrimitive.1 (LuaValue.ofLiteral_subset _ _ hv)
  | undeclared =>
    obtain ⟨_, hid⟩ := hv
    simp [(LuaValue.object.inj hid).1]

theorem eq_any_of_subset (h : s.types.MadeOf atoms r) (hsub : s.types.held Ty.any ⊆ s.types.held r) : r = Ty.any :=
  hs.eq_any_of_objects h fun _ => hsub (by rw [held_any]; trivial)

theorem eq_of_covered_literal (hkind : s.types.kind r = .literal) (h : s.types.literalOf.Covered [r] x) : x = r := by
  obtain ⟨_, hr, h⟩ := h
  obtain rfl := mem_singleton.1 hr
  rcases h with h | h
  · exact h
  simp only [literalOf, or_eq_true, beq_iff_eq] at h
  rcases h with h | h
  · exact h.symm
  · -- what has literals is a primitive
    unfold FormOf.primitive? at h
    split at h
    · obtain rfl := some.inj h
      rw [kind_of (hs.types.lookup_primitive _)] at hkind
      cases hkind
    · cases h

theorem eq_of_forall_member (hx : s.types.MadeOf atoms x) (hxany : x ≠ Ty.any)
    (hall : ∀ z ∈ s.types.members x, z = r) : x = r := by
  cases hx with
  | any => exact absurd rfl hxany
  | atom h => exact hall x (by simp [(hs.isAtom x h).members hs.types])
  | union hform hnodup =>
    rw [TypeTable.members_of_union hform] at hall
    rw [eq_replicate_of_mem hall, nodup_replicate] at hnodup
    omega

theorem eq_of_literal (hx : s.types.MadeOf atoms x) (hr : r ∈ atoms) (hkind : s.types.kind r = .literal)
    (hsub : s.types.held x ⊆ s.types.held r) : x = r := by
  have hratom := hs.isAtom r hr
  have hany := (hratom.ne hs.types).1
  have hxany : x ≠ Ty.any := by
    rintro rfl
    exact hany (hs.eq_any_of_subset (.atom hr) hsub)
  have hall : ∀ z ∈ s.types.members x, z = r := by
    intro z hz
    have hatom := hs.isAtom z (hs.atom_of_member hx hxany z hz)
    have hspans : s.types.literalOf.Spans [r] z := by
      rw [spans_iff_values hs.types (by simpa using hratom) hatom]
      intro _ hv
      have hmem := (mem_held hany).1 (hsub ((mem_held hxany).2 ⟨z, hz, hv⟩))
      rwa [hratom.members hs.types] at hmem
    rcases hspans with h | ⟨htrue, hfalse, -⟩
    · exact hs.eq_of_covered_literal hkind h
    · have htrue := hs.eq_of_covered_literal hkind htrue
      have hfalse := hs.eq_of_covered_literal hkind hfalse
      exact absurd (htrue.trans hfalse.symm) (by decide)
  exact hs.eq_of_forall_member hx hxany hall

theorem atom_of_literal (hr : s.types.MadeOf atoms r) (hkind : s.types.kind r = .literal) : r ∈ atoms := by
  unfold TypeTable.kind at hkind
  cases hr with
  | any =>
    rw [hs.types.lookup_any] at hkind
    cases hkind
  | atom h => exact h
  | union hform =>
    rw [hform] at hkind
    cases hkind

section
variable (hr : s.types.MadeOf atoms r) (htidy : s.types.Tidy r)
include hr htidy

theorem covered_iff_values (hany : r ≠ Ty.any) (hx : s.Atom ctx x) :
    s.types.literalOf.Covered (s.types.members r) x ↔ s.types.valuesOf x ⊆ s.types.held r := by
  have hatoms : ∀ z ∈ s.types.members r, s.Atom ctx z := fun z hz => hs.isAtom z (hs.atom_of_member hr hany z hz)
  rw [← hs.orders.spans_iff_covered htidy.settled hatoms hx, spans_iff_values hs.types hatoms hx]
  exact forall₂_congr fun _ _ => (mem_held hany).symm

theorem acceptsMember_of_values (hx : x ∈ atoms) (hsub : s.types.valuesOf x ⊆ s.types.held r) :
    ctx.acceptsMember s.types mode r x = true := by
  rw [acceptsMember_iff]
  by_cases hany : r = Ty.any
  · exact .inl hany
  obtain ⟨z, hz, h⟩ := (hs.covered_iff_values hr htidy hany (hs.isAtom x hx)).2 hsub
  refine .inr (.inr ⟨z, hz, ?_⟩)
  rcases h with rfl | h
  · exact TypeTable.takes_self
  · simp [takes, h]

theorem acceptsMember_mono (hx : s.types.MadeOf atoms x) (hsub : s.types.held x ⊆ s.types.held r) (hy : y = Ty.any ∨ y ∈ atoms)
    (h : ctx.acceptsMember s.types mode x y = true) : ctx.acceptsMember s.types mode r y = true := by
  by_cases hany : r = Ty.any
  · exact acceptsMember_iff.2 (.inl hany)
  have hxany : x ≠ Ty.any := by
    rintro rfl
    exact hany (hs.eq_any_of_subset hr hsub)
  rcases acceptsMember_iff.1 h with h' | hlets | ⟨part, hpart, htakes⟩
  · exact absurd h' hxany
  · by_cases hkind : s.types.kind r = .literal
    · rwa [← hs.eq_of_literal hx (hs.atom_of_literal hr hkind) hkind hsub]
    · refine acceptsMember_iff.2 (.inr (.inl ?_))
      rw [beq_eq_false_iff_ne.2 hkind]
      exact lets_mono hlets
  · have hatom := hs.atom_of_member hx hxany part hpart
    obtain ⟨z, hz, hcovers⟩ := (hs.covered_iff_values hr htidy hany (hs.isAtom _ hatom)).2 fun _ hv =>
      hsub ((mem_held hxany).2 ⟨part, hpart, hv⟩)
    refine acceptsMember_iff.2 (.inr (.inr ⟨z, hz, ?_⟩))
    rcases hcovers with rfl | hcovers
    · exact htakes
    simp only [takes, or_eq_true] at htakes ⊢
    rcases htakes with htakes | htable
    · left
      rcases hy with rfl | hy
      · have hpart : part = Ty.any := by simpa [literalOf, hs.types.lookup_any, FormOf.primitive?] using htakes
        exact absurd hpart ((hs.isAtom part hatom).ne hs.types).1
      · exact hs.orders.trans z part y (hs.isAtom z (hs.atom_of_member hr hany z hz)) (hs.isAtom part hatom)
          (hs.isAtom y hy) hcovers htakes
    · -- `table` is no literal
      right
      have htable' : part = Ty.table := by
        simp only [and_eq_true, beq_iff_eq] at htable
        exact htable.1.2
      have hsame : z = part := by
        rw [htable'] at hcovers ⊢
        simpa [literalOf, show s.types.lookup Ty.table = _ from hs.types.lookup_primitive .table,
          FormOf.primitive?] using hcovers
      rwa [hsame]
end

/-- What a type accepts it holds, but for `nil` and objects. -/
theorem values_of_acceptsMember (hy : y ∈ atoms) (h : ctx.acceptsMember s.types mode x y = true) :
    s.types.valuesOf y ⊆ s.types.held x ∨ ∀ value ∈ s.types.valuesOf y, value.kind? = none := by
  by_cases hany : x = Ty.any
  · left
    rw [hany, held_any]
    exact Set.subset_univ _
  rcases acceptsMember_iff.1 h with h | hlets | ⟨part, hpart, htakes⟩
  · exact absurd h hany
  · right
    have hnil : y = Ty.nil := by
      simp only [lets, or_eq_true, and_eq_true] at hlets
      rcases hlets with ⟨h, -⟩ | ⟨h, -⟩
      · exact absurd (by simpa [Ty.isAny] using h) ((hs.isAtom y hy).ne hs.types).1
      · simpa [Ty.isNil] using h
    unfold valuesOf
    rw [hnil, hs.types.lookup_nil]
    rintro _ rfl
    rfl
  · simp only [takes, or_eq_true] at htakes
    rcases htakes with htakes | htable
    · exact .inl fun _ hv => (mem_held hany).2 ⟨part, hpart, hs.types.valuesOf_subset htakes hv⟩
    · right
      have hkind : s.types.kind y = .classRef := by
        simp only [and_eq_true, beq_iff_eq] at htable
        exact htable.2
      obtain ⟨-, _, hl, hf⟩ := (hs.isAtom y hy).form hs.types
      unfold TypeTable.kind at hkind
      unfold valuesOf
      rw [hl] at hkind ⊢
      cases hf with
      | undeclared =>
        rintro _ ⟨id, rfl⟩
        rfl
      | _ => cases hkind

theorem acceptsMembers_position {a b : Ty}
    (hT : ∀ x ∈ T.types, s.types.MadeOf atoms x) (hR : ∀ x ∈ R.types, s.types.MadeOf atoms x)
    (h : T.accepts (ctx.acceptsMembers s.types mode) R = true) (hcompared : T.Compared R i) (hdeclared : T.slot i ≠ none)
    (ha : s.types.Denotes atoms True a ((s.types.listOf T).get i))
    (hb : s.types.Denotes atoms True b ((s.types.listOf R).get i)) : ctx.acceptsMembers s.types mode a b = true := by
  obtain ⟨x, hx⟩ := ne_none_iff_exists'.1 hdeclared
  have hxmade := hT x (Results.mem_of_slot hx)
  have hxheld : s.types.held x ⊆ s.types.held a := fun value hv => ha.mem_position.2 (.inr ⟨x, hx, hv⟩)
  have haccepts {y z : Ty} (hy : R.slot i = some y) (hz : z ∈ s.types.members y) :
      ctx.acceptsMember s.types mode x z = true :=
    all_eq_true.1 (Results.accepts_slot h hcompared hx hy) z hz
  refine all_eq_true.2 fun m hm => ?_
  rcases hs.member hb.made hm with ⟨rfl, rfl⟩ | ⟨hbany, hatom⟩
  · have hobjects (name : String) : ∃ y, R.slot i = some y ∧ .object name 0 ∈ s.types.held y :=
      (hb.mem_position.1 (by rw [held_any]; trivial)).resolve_left fun h => by cases h.1
    obtain ⟨y, hy, -⟩ := hobjects ""
    obtain rfl : y = Ty.any := by
      refine hs.eq_any_of_objects (hR y (Results.mem_of_slot hy)) fun name => ?_
      obtain ⟨_, hy', hv⟩ := hobjects name
      cases hy.symm.trans hy'
      exact hv
    exact hs.acceptsMember_mono ha.made (ha.tidy trivial) hxmade hxheld (.inl rfl)
      (haccepts hy (by simp [hs.types.members_any]))
  · by_cases hown : ∃ y, R.slot i = some y ∧ m ∈ s.types.members y
    · obtain ⟨y, hy, hmy⟩ := hown
      exact hs.acceptsMember_mono ha.made (ha.tidy trivial) hxmade hxheld (.inr hatom) (haccepts hy hmy)
    refine hs.acceptsMember_of_values ha.made (ha.tidy trivial) hatom fun value hv => ?_
    rcases hb.mem_position.1 ((mem_held hbany).2 ⟨m, hm, hv⟩) with ⟨rfl, hi⟩ | ⟨y, hy, hvy⟩
    · exact ha.mem_position.2 (.inl ⟨rfl, Results.fixedCount_le h hcompared hi⟩)
    have hyany : y ≠ Ty.any := by
      rintro rfl
      exact hbany (hs.eq_any_of_subset hb.made fun value hv => hb.mem_position.2 (.inr ⟨Ty.any, hy, hv⟩))
    obtain ⟨z, hz, hvz⟩ := (mem_held hyany).1 hvy
    have hzatom := hs.atom_of_member (hR y (Results.mem_of_slot hy)) hyany z hz
    rcases hs.values_of_acceptsMember hzatom (haccepts hy hz) with hsub | hkind
    · exact hxheld (hsub hvz)
    · -- what is accepted beyond the values of the target is a member itself
      obtain rfl := owner_unique hs.types (hs.isAtom z hzatom) hvz (hkind value hvz) (hs.isAtom m hatom) hv
      exact absurd ⟨y, hy, hz⟩ hown

theorem always_accepts_results
    (ht : s.types.lookup target = .results T.types T.variadic) (hr : s.types.lookup source = .results R.types R.variadic)
    (hT : ∀ x ∈ T.types, s.types.MadeOf atoms x) (hR : ∀ x ∈ R.types, s.types.MadeOf atoms x) :
    s.Always ctx (·.accepts target source mode) (T.accepts (ctx.acceptsMembers s.types mode) R) :=
  always_accepts_list ht hr hs.types fun x hx y hy =>
    always_accepts hs.free hs.superClass (hs.single (hT x hx)) (hs.single (hR y hy))
end

end Session.Over

/-! ## Positions of lists -/

theorem regular_acceptsAt (mode : Mode) (i : Nat) : Regular fun (S : Solver) (x : Ty × Ty) => do
    return (← S.accepts x.1 x.2 mode, ← S.accepts (← S.resultAt x.1 i) (← S.resultAt x.2 i) mode) :=
  fun L _ _ hS _ _ _ _ => L.bind hS.accepts <| L.bind hS.resultAt <| L.bind hS.resultAt <|
      L.bind hS.accepts L.pure

/-- If a list of types accepts another one, then in every position for which it has a type and as far as they are compared,
its type there accepts that of the other one. -/
theorem resultAt_accepts_of_accepts (hs : s.Ready ctx atoms) (mode : Mode)
    (ht : s.types.lookup target = .results T.types T.variadic) (hr : s.types.lookup source = .results R.types R.variadic)
    (hT : ∀ x ∈ T.types, s.types.MadeOf atoms x) (hR : ∀ x ∈ R.types, s.types.MadeOf atoms x)
    (hdeclared : T.slot i ≠ none) (hcompared : T.Compared R i) :
    s.Sure ctx (fun S => do
      return (← S.accepts target source mode, ← S.accepts (← S.resultAt target i) (← S.resultAt source i) mode))
      fun r _ => r.1 = true → r.2 = true := by
  refine Session.sure_of_ends (regular_acceptsAt mode i) (x := (target, source)) ?_
  have hover := hs.over
  have hlist : (s.unlimited 0).Always ctx.uncancelled (fun S => S.accepts target source mode) _ :=
    hover.always_accepts_results ht hr hT hR
  have htarget : (s.unlimited 0).types.Listed atoms False target := .list ht fun x hx => ⟨hT x hx, rfl, False.elim⟩
  have hsource : (s.unlimited 0).types.Listed atoms False source := .list hr fun x hx => ⟨hR x hx, rfl, False.elim⟩
  refine (hlist.now hover.types).bind ?_
  rintro _ u hu rfl
  refine ((hover.later hu).ends_resultAt_part (hover.listed_later hu htarget).1 i).bind fun a v hv ha => ?_
  have hv' := hu.trans hv
  refine ((hover.later hv').ends_resultAt_part (hover.listed_later hv' hsource).1 i).bind fun b w hw hb => ?_
  have hw' := hv'.trans hw
  have hlast := hover.later hw'
  -- the lists are the same in the last session
  have hstill {ty : Ty} {L : Results} (h : s.types.lookup ty = .results L.types L.variadic) :
      w.types.lookup ty = .results L.types L.variadic :=
    (hw'.grown.lookup (TypeTable.has_of_lookup (by rw [Session.unlimited_types, h]; simp))).trans h
  have hmade {L : Results} (h : ∀ x ∈ L.types, s.types.MadeOf atoms x) : ∀ x ∈ L.types, w.types.MadeOf atoms x :=
    fun x hx => hover.made_later hw' (h x hx)
  replace ha := (hover.later hv').denotes_later hw ha
  rw [(hover.listed_later hu htarget).2, ← (hover.listed_later hw' htarget).2, TypeTable.partOf_list (hstill ht)] at ha
  rw [(hover.listed_later hv' hsource).2, ← (hover.listed_later hw' hsource).2, TypeTable.partOf_list (hstill hr)] at hb
  refine ((always_accepts hlast.free hlast.superClass (hlast.single ha.made) (hlast.single hb.made)).now hw.types).bind ?_
  rintro _ z hz rfl
  refine .pure hz.types fun haccepts => ?_
  have hsame := (hlist.later hw').unique
    (hlast.always_accepts_results (hstill ht) (hstill hr) (hmade hT) (hmade hR)) hw.types
  refine hlast.acceptsMembers_position (hmade hT) (hmade hR) ?_ hcompared hdeclared ha hb
  rw [← hsame]
  exact haccepts

example : ((do (ofBudget 9).accepts (← (ofBudget 9).resultAt Ty.string 1) (← (ofBudget 9).resultAt Ty.number 1) {} : Solve Bool)
    undeclared (.start .initial .standard)).map Prod.fst = some true := by
  decide +kernel

/-- The list `(number, string...)` accepts `(number, string, string)`, and in the third position `nil | string` accepts
`string`. -/
theorem resultAt_accepts_of_accepts_string : ∃ r u,
    (do return (← (ofBudget 30).accepts ⟨18⟩ ⟨19⟩ {}, ← (ofBudget 30).accepts (← (ofBudget 30).resultAt ⟨18⟩ 2)
      (← (ofBudget 30).resultAt ⟨19⟩ 2) {}) : Solve (Bool × Bool)) undeclared listStart = some (r, u) ∧
      r.1 = true ∧ r.2 = true := by
  have hrun : ((do return (← (ofBudget 30).accepts ⟨18⟩ ⟨19⟩ {}, ← (ofBudget 30).accepts (← (ofBudget 30).resultAt ⟨18⟩ 2)
      (← (ofBudget 30).resultAt ⟨19⟩ 2) {}) : Solve (Bool × Bool)) undeclared listStart).map
        (fun r => (r.1.1, r.2.guard.exceeded, r.2.canceled)) = some (true, false, false) := by
    decide +kernel
  obtain ⟨⟨r, u⟩, hr, hvalues⟩ := Option.map_eq_some_iff.1 hrun
  simp only [Prod.mk.injEq] at hvalues
  obtain ⟨haccepts, hexceeded, hcanceled⟩ := hvalues
  have hmade {types : List Ty} (h : types ⊆ listAtoms) : ∀ x ∈ types, listTypes.MadeOf listAtoms x :=
    fun x hx => .atom (h hx)
  refine ⟨r, u, hr, haccepts, ?_⟩
  exact (resultAt_accepts_of_accepts (T := ⟨[Ty.number, Ty.string], true⟩) (R := ⟨[Ty.number, Ty.string, Ty.string], false⟩)
    listStart_ready {} (by decide) (by decide) (hmade (by decide)) (hmade (by decide)) (by decide)
    fun h => by cases h).2 30 r u hr ⟨hexceeded, hcanceled⟩ haccepts

/-- The list `(number, string...)` accepts `(number...)`, but in the second position `nil | string` does not accept
`nil | number`. Without any types `(...)` accepts `(string)`, but has no value in the first position. -/
theorem resultAt_not_accepts_of_accepts :
    ((do return (← standard.accepts ⟨18⟩ ⟨16⟩ {}, ← standard.accepts (← standard.resultAt ⟨18⟩ 1)
      (← standard.resultAt ⟨16⟩ 1) {}) : Solve (Bool × Bool)) undeclared listStart).map
        (fun r => (r.1, r.2.guard.exceeded)) = some ((true, false), false) ∧
    ((do return (← standard.accepts ⟨20⟩ ⟨14⟩ {}, ← standard.accepts (← standard.resultAt ⟨20⟩ 0)
      (← standard.resultAt ⟨14⟩ 0) {}) : Solve (Bool × Bool)) undeclared listStart).map
        (fun r => (r.1, r.2.guard.exceeded)) = some ((true, false), false) := by
  constructor <;> decide +kernel

end AnnotatedLua
