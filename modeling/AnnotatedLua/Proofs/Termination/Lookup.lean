/-
Equality and the members of a type come to an end, if comparisons do. Equality goes to lower types on its left side,
or leads to a guarded comparison (`ends_equal_below`).
-/
import AnnotatedLua.Proofs.Termination.Member

namespace AnnotatedLua

open Solve Solver SignatureOf List

variable {j k h : Nat} {u : Session} {ty a other index : Ty} {member : Member} {found : Option Member}
  {signature : Signature} {i : Nat}

section
variable {ctx : Context} {c : Heights} {s : Session} (hs : s.Measured ctx c) {room : Nat}
  (hB : s.Under ctx c room)

/-! ## Parts of forms -/

variable {b : Ty} {p : Parameter}

theorem SignatureOf.parts_params (hp : p ∈ signature.params) (hty : p.type = some ty) : ty ∈ signature.parts := by
  simp only [parts, mem_append, mem_flatMap]
  exact .inl (.inl (.inr ⟨p, hp, by simp [hty]⟩))

theorem SignatureOf.parts_typeParams (hty : ty ∈ signature.typeParams) : ty ∈ signature.parts := by
  simp [parts, hty]

theorem SignatureOf.parts_variadic (hty : signature.variadic = some ty) : ty ∈ signature.parts := by
  simp [parts, hty]

theorem SignatureOf.parts_returns (hty : signature.returns = some ty) : ty ∈ signature.parts := by
  simp [parts, hty]

theorem typeOrAny_sized (hw : s.types.WF) (hk : 1 ≤ k)
    (hparts : ∀ ty ∈ signature.parts, s.types.Sized c ty k) (hp : p ∈ signature.params) :
    s.types.Sized c p.typeOrAny k := by
  unfold ParameterOf.typeOrAny
  cases hty : p.type with
  | none => exact hw.sized_any hk
  | some ty => exact hparts ty (parts_params hp hty)

include hs hB in
theorem ends_resolve_sized (hty : s.types.Sized c ty h) : s.Ends ctx (·.resolve ty) fun r u => u.types.Sized c r h := by
  refine (ends_resolve hs hB hty).imp ?_
  rintro r u hu (rfl | hlower)
  · exact hs.sized hu hty
  · have := hty.pos
    exact hlower.within.sized.mono (by omega)

include hs hB in
theorem ends_resolved_form (hty : s.types.Sized c ty h) {f : Solver → Form → Solve Bool}
    (hf : ∀ (u : Session) form, u.Past ctx s → (∀ p ∈ form.parts, u.types.Sized c p (h - 1)) → u.Stops ctx fun S => f S form) :
    s.Stops ctx fun S => S.resolve ty >>= fun r => lookup r >>= fun form => f S form := by
  refine (ends_resolve_sized hs hB hty).bind fun r u hu hsized => ?_
  refine (ends_lookup hu.types r).bind ?_
  rintro form _ - ⟨rfl, rfl⟩
  exact hf u _ hu fun p hp => hsized.part hp

/-! ## Equality -/

theorem ends_allEqual {α : Type} {f : Solver → α → α → Solve Bool} (hw : s.types.WF) {as bs : List α}
    (hf : ∀ a ∈ as, ∀ b ∈ bs, ∀ u : Session, u.Past ctx s → u.Stops ctx fun S => f S a b) :
    s.Stops ctx fun S => allEqual (f S) as bs := by
  refine .ite (fun _ => ?_) fun _ => .pure hw trivial
  exact ends_allM hw fun (a, b) hab u hu => hf a (of_mem_zip hab).1 b (of_mem_zip hab).2 u hu

include hs hB in
theorem ends_shapesEqual (ha : s.types.Sized c a i) (hb : s.types.Sized c b j) : s.Stops ctx (·.shapesEqual a b) := by
  refine (ends_isShape hs hB ha).bind fun shape u hu _ => ?_
  refine .early hu.types trivial fun _ => ?_
  refine (ends_isShape (hs.later hu) (hB.later hu) (hs.sized hu hb)).bind fun _ v hv _ => ?_
  have hv := hu.trans hv
  refine .early hv.types trivial fun _ => ?_
  refine (ends_withGuard (Q := fun _ => True) hv.types .shapeEquality (.pair a b) fun g hg => ?_).bind
    fun _ _ hw _ => .pure hw.types trivial
  have hsg := (hs.later hv).setGuard g
  have hlt : Session.room { v with guard := g } < room := hg.trans_le (hB.later hv).le
  refine .andM (hB.below _ hlt (i + j + 1) _ hsg (le_refl _) a b i j (hs.sized hv ha) (hs.sized hv hb) (by omega) _
    fun _ => ⟨rfl, rfl⟩) ?_
  intro w hw
  exact hB.below _ hlt (j + i + 1) w (hsg.later hw) hw.room.le b a j i (hsg.sized hw (hs.sized hv hb))
    (hsg.sized hw (hs.sized hv ha)) (by omega) _ fun _ => ⟨rfl, rfl⟩

section
def Session.EqualsBelow (ctx : Context) (c : Heights) (s : Session) (h : Nat) : Prop :=
  ∀ u : Session, u.Past ctx s → ∀ a b i j, u.types.Sized c a i → i < h → u.types.Sized c b j →
    u.Stops ctx fun S => S.equal a b

variable (heq : s.EqualsBelow ctx c h)
include hs heq

theorem ends_optionalEqual {a b : Option Ty} (hk : k < h) (ha : ∀ x, a = some x → s.types.Sized c x k)
    (hb : ∀ x, b = some x → s.types.Sized c x j) : s.Stops ctx (·.optionalEqual a b) := by
  match a, b with
  | some a, some b => exact heq s (.of_wf hs.types) a b k j (ha a rfl) hk (hb b rfl)
  | some _, none => exact .pure hs.types trivial
  | none, some _ => exact .pure hs.types trivial
  | none, none => exact .pure hs.types trivial

theorem ends_signatureEqual {a b : Signature} (h1 : 1 ≤ k) (hk : k < h)
    (ha : ∀ x ∈ a.parts, s.types.Sized c x k) (hb : ∀ x ∈ b.parts, s.types.Sized c x j) :
    s.Stops ctx (·.signatureEqual a b) := by
  have heq' {u : Session} (hu : u.Past ctx s) : u.EqualsBelow ctx c h := fun v hv => heq v (hu.trans hv)
  refine .ite (fun _ => ?_) fun _ => .pure hs.types trivial
  refine .andM (ends_optionalEqual hs heq hk (fun x hx => ha x (parts_returns hx))
    fun x hx => hb x (parts_returns hx)) fun u hu => ?_
  refine .andM (ends_optionalEqual (hs.later hu) (heq' hu) hk (fun x hx => hs.sized hu (ha x (parts_variadic hx)))
    fun x hx => hs.sized hu (hb x (parts_variadic hx))) fun v hv => ?_
  have hv := hu.trans hv
  refine .andM (ends_allEqual hv.types fun p hp q hq w hw => ?_) fun w hw => ends_allEqual (hv.trans hw).types
    fun x hx y hy w' hw' => ?_
  · have hw := hv.trans hw
    refine .ite (fun _ => ?_) fun _ => .pure hw.types trivial
    exact heq w hw _ _ k (max 1 j) (hs.sized hw (typeOrAny_sized hs.types h1 ha hp)) hk
      (hs.sized hw (typeOrAny_sized hs.types (by omega) (fun x hx => (hb x hx).mono (by omega)) hq))
  · have hw' := (hv.trans hw).trans hw'
    exact heq w' hw' x y k j (hs.sized hw' (ha x (parts_typeParams hx))) hk
      (hs.sized hw' (hb y (parts_typeParams hy)))

theorem ends_unionsEqual {own other : List Ty} (hk : k < h) (ha : ∀ x ∈ own, s.types.Sized c x k)
    (hb : ∀ x ∈ other, s.types.Sized c x j) : s.Stops ctx (·.unionsEqual own other) := by
  refine .ite (fun _ => ?_) fun _ => .pure hs.types trivial
  refine ends_allM hs.types fun x hx u hu => .early hu.types trivial fun _ => ?_
  refine ends_anyM hu.types fun y hy v hv => ?_
  have hv := hu.trans hv
  exact heq v hv x y k j (hs.sized hv (ha x hx)) hk (hs.sized hv (hb y hy))

include hB in
theorem ends_instanceEqual {base : Ty} {args : List Ty} (ha : s.types.Sized c a i)
    (ho : s.types.Sized c other j) (hk : k < h) (hparts : ∀ x ∈ base :: args, s.types.Sized c x k) :
    s.Stops ctx (·.instanceEqual a base args other) := by
  have hshapes {u : Session} (hu : u.Past ctx s) : u.Stops ctx (·.shapesEqual a other) :=
    ends_shapesEqual (hs.later hu) (hB.later hu) (hs.sized hu ha) (hs.sized hu ho)
  refine .lookup hs.types other fun form hform => ?_
  cases form with
  | generic otherBase otherArgs =>
    have hother : ∀ x ∈ otherBase :: otherArgs, s.types.Sized c x (j - 1) := fun x hx => ho.part (by rw [← hform]; exact hx)
    have hpart {u : Session} (hu : u.Past ctx s) {x y : Ty} (hx : x ∈ base :: args) (hy : y ∈ otherBase :: otherArgs) :
        u.Stops ctx (·.equal x y) :=
      heq u hu x y k (j - 1) (hs.sized hu (hparts x hx)) hk (hs.sized hu (hother y hy))
    refine .ite (fun _ => ?_) fun _ => hshapes (.of_wf hs.types)
    refine Session.Ends.bind (Q := fun _ _ => True) (.andM (hpart (.of_wf hs.types) (.head _) (.head _)) fun u hu => ?_)
      fun _ v hv _ => .early hv.types trivial fun _ => hshapes hv
    exact ends_allEqual hu.types fun x hx y hy v hv => hpart (hu.trans hv) (.tail _ hx) (.tail _ hy)
  | _ => exact hshapes (.of_wf hs.types)
end

include hs hB in
theorem ends_classEqual (ha : s.types.Sized c a i) (ho : s.types.Sized c other j)
    (name : Symbol) : s.Stops ctx (·.classEqual a name other) := by
  refine .early hs.types trivial fun _ => ?_
  have hshapes {u : Session} (hu : u.Past ctx s) : u.Stops ctx (·.shapesEqual a other) :=
    ends_shapesEqual (hs.later hu) (hB.later hu) (hs.sized hu ha) (hs.sized hu ho)
  refine .lookup hs.types other fun form _ => ?_
  cases form with
  | classRef otherName marks =>
    refine .ite (fun _ => ?_) fun _ => hshapes (.of_wf hs.types)
    refine (ends_classMarks hs.types a).bind fun _ u hu _ => ?_
    refine (ends_classMarks hu.types other).bind fun _ v hv _ => ?_
    exact .early hv.types trivial fun _ => hshapes (hu.trans hv)
  | _ => exact hshapes (.of_wf hs.types)

include hs hB in
theorem ends_equal_below (ha : s.types.Sized c a h) (hb : s.types.Sized c b j) : s.Stops ctx (·.equal a b) := by
  induction h using Nat.strong_induction_on generalizing s a b j with
  | _ h ih =>
    have heq {u : Session} (hu : u.Past ctx s) : u.EqualsBelow ctx c h := fun v hv a b i j ha hi hb =>
      ih i hi (hs.later (hu.trans hv)) (hB.later (hu.trans hv)) ha hb
    refine .ask rfl (.early hs.types trivial fun _ => .lookup hs.types a fun form hform => ?_)
    have hkind := TypeTable.kind_of hform.symm
    have hpos := ha.pos
    have hpart : ∀ p ∈ form.parts, s.types.Sized c p (h - 1) := fun p hp => ha.part (hform ▸ hp)
    have hfollow (hunion : form.kind ≠ .union) {m : Solver → Ty → Solve Bool}
        (hm : ∀ r (v : Session), v.Past ctx s → v.types.Sized c r j → v.Stops ctx (m · r)) :
        s.Stops ctx fun S => S.resolve a >>= fun r => if r ≠ a then S.equal r b else S.resolve b >>= m S := by
      refine (ends_resolve hs hB ha).bind fun r u hu hlower => .ite (fun hne => ?_) fun _ => ?_
      · exact heq hu u (.of_wf hu.types) r b (h - 1) j ((hlower.resolve_left hne).sized (by rwa [hkind]))
          (by omega) (hs.sized hu hb)
      · exact (ends_resolve_sized (hs.later hu) (hB.later hu) (hs.sized hu hb)).bind
          fun r v hv hsized => hm r v (hu.trans hv) hsized
    cases form with
    | snippet => exact .pure hs.types trivial
    | array element =>
      refine ends_resolved_form hs hB hb fun u form' hu hb' => ?_
      cases form' with
      | array other =>
        exact heq hu u (.of_wf hu.types) element other (h - 1) (j - 1) (hs.sized hu (hpart element (by simp)))
          (by omega) (hb' other (by simp))
      | _ => exact .pure hu.types trivial
    | classRef name =>
      exact hfollow (by simp) fun r v hv hsized =>
        ends_classEqual (hs.later hv) (hB.later hv) (hs.sized hv ha) hsized name
    | param =>
      refine ends_resolved_form hs hB hb fun u form' hu hb' => ?_
      cases form' with
      | param =>
        refine .ite (fun _ => ?_) fun _ => .pure hu.types trivial
        exact ends_optionalEqual (hs.later hu) (heq hu) (k := h - 1) (by omega)
          (fun x hx => hs.sized hu (hpart x (by simp [hx]))) fun x hx => hb' x (by simp [hx])
      | _ => exact .pure hu.types trivial
    | aliasRef name params target =>
      refine (ends_withGuard (Q := fun _ => True) hs.types .aliasEquality (.pair a b) fun g hg => ?_).bind
        fun _ _ hu _ => .pure hu.types trivial
      exact ih (h - 1) (by omega) (hs.setGuard g) ⟨hB.below, hg.le.trans hB.le⟩ (hpart target (by simp)) hb
    | union =>
      have hunion : s.types.kind a = .union := hkind
      refine (ends_resolve hs hB ha).bind fun r u hu hlower => ?_
      refine (ends_members hu.types r).bind ?_
      rintro own _ - ⟨rfl, rfl⟩
      have hown : ∀ x ∈ u.types.members r, u.types.Sized c x (h - 1) := by
        rcases hlower with rfl | hlower
        · exact fun x hx => (hs.sized hu ha).members_union ((hu.kind ha.has).trans hunion) hx
        · exact hlower.within
      refine (ends_resolve_sized (hs.later hu) (hB.later hu) (hs.sized hu hb)).bind fun r' v hv hsized => ?_
      have hv' := hu.trans hv
      refine (ends_members hv'.types r').bind ?_
      rintro other _ - ⟨rfl, rfl⟩
      exact ends_unionsEqual (hs.later hv') (heq hv') (k := h - 1) (by omega)
        (fun x hx => (hs.later hu).sized hv (hown x hx)) fun x hx => hsized.members hx
    | generic =>
      refine hfollow (by simp) fun r v hv hsized => ?_
      exact ends_instanceEqual (hs.later hv) (hB.later hv) (heq hv) (hs.sized hv ha) hsized (k := h - 1) (by omega)
        fun x hx => hs.sized hv (hpart x hx)
    | function main overloads =>
      have h2 := ha.two_le (by rw [hkind]; simp)
      refine ends_resolved_form hs hB hb fun u form' hu hb' => ?_
      cases form' with
      | function otherMain otherOverloads =>
        have hsignature {v : Session} (hv : v.Past ctx u) {x y : Signature} (hx : x ∈ main :: overloads)
            (hy : y ∈ otherMain :: otherOverloads) : v.Stops ctx (·.signatureEqual x y) := by
          have hv' := hu.trans hv
          refine ends_signatureEqual (hs.later hv') (heq hv') (k := h - 1) (j := j - 1) (by omega) (by omega)
            (fun z hz => hs.sized hv' (hpart z (mem_flatMap.2 ⟨x, hx, hz⟩))) fun z hz => ?_
          exact (hs.later hu).sized hv (hb' z (mem_flatMap.2 ⟨y, hy, hz⟩))
        refine .andM (hsignature (.of_wf hu.types) (by simp) (by simp)) fun v hv => ?_
        exact ends_allEqual hv.types fun x hx y hy w hw =>
          hsignature (hv.trans hw) (mem_cons_of_mem _ hx) (mem_cons_of_mem _ hy)
      | _ => exact .pure hu.types trivial
    | results types =>
      refine ends_resolved_form hs hB hb fun u form' hu hb' => ?_
      cases form' with
      | results =>
        refine .ite (fun _ => ?_) fun _ => .pure hu.types trivial
        refine ends_allEqual hu.types fun x hx y hy v hv => ?_
        exact heq hu v hv x y (h - 1) (j - 1) (hs.sized (hu.trans hv) (hpart x hx)) (by omega)
          ((hs.later hu).sized hv (hb' y hy))
      | _ => exact .pure hu.types trivial
    | _ => exact (ends_resolve_sized hs hB hb).bind fun r u hu _ => .pure hu.types trivial

/-! ## Members by their keys -/

theorem Member.key_of_index? (h : member.index? = some index) : member.key = .index index := by
  unfold Member.index? at h
  split at h
  · cases h
  · cases h
    assumption

def FoundIn (M : Member → Session → Prop) (found : Option Member) (u : Session) : Prop :=
  ∀ member, found = some member → M member u

namespace FoundIn

variable {M : Member → Session → Prop}

theorem none : FoundIn M none u := nofun

theorem some (h : M member u) : FoundIn M (some member) u := by
  rintro _ ⟨⟩
  exact h

theorem or {found' : Option Member} (h : FoundIn M found u) (h' : FoundIn M found' u) : FoundIn M (found.or found') u := by
  cases found with
  | none => exact h'
  | some => exact h

theorem lasting (hM : s.Lasting ctx M) : s.Lasting ctx (FoundIn M) := fun _ u v hu hv h member hm =>
  hM member u v hu hv (h member hm)

end FoundIn

def Indexed (M : Member → Session → Prop) (member : Member) (u : Session) : Prop :=
  M member u ∧ ∃ index, member.key = .index index

theorem Indexed.lasting {M : Member → Session → Prop} (hM : s.Lasting ctx M) : s.Lasting ctx (Indexed M) :=
  fun member u v hu hv h => ⟨hM member u v hu hv h.1, h.2⟩

def TypeTable.HasMembers (t : TypeTable) (ty : Ty) : Prop := t.kind ty = .classRef ∨ t.kind ty = .generic

theorem Session.Past.hasMembers (hu : u.Past ctx s) (hty : s.types.Has ty) (h : s.types.HasMembers ty) :
    u.types.HasMembers ty := by
  unfold TypeTable.HasMembers
  rwa [hu.kind hty]

section
variable {top : Nat} {M : Member → Session → Prop} (hA : ∀ m, Compares ctx c room m) (hM : s.Shows ctx c top k M)
  (hT : s.ShowsTables ctx c top M) (hty : s.types.Sized c ty top)
include hs

omit hs in
theorem ends_tableArgs (hw : s.types.WF) (ty : Ty) : s.Ends ctx (fun _ => tableArgs ty) fun r u => s = u ∧
    ∀ key value, r = some (key, value) → s.types.lookup ty = .generic Ty.table [key, value] := by
  refine .lookup hw ty fun form hform => ?_
  match form with
  | .generic base [key, value] =>
    refine .pure hw ⟨rfl, fun _ _ h => ?_⟩
    split at h
    · rename_i hbase
      cases h
      rw [← hform, hbase]
    · cases h
  | .generic _ [] | .generic _ [_] | .generic _ (_ :: _ :: _ :: _) => exact .pure hw ⟨rfl, nofun⟩
  | .any | .nil | .void | .primitive _ | .literal _ _ | .array _ | .classRef _ _ | .aliasRef _ _ _ | .union _ |
    .function _ _ _ | .results _ _ | .param _ _ _ | .snippet _ => exact .pure hw ⟨rfl, nofun⟩

omit hs in
/-- If the key of a `table<K, V>` can be tested, its member can be found. -/
theorem ends_tableMember (hw : s.types.WF) {test : Solver → Ty → Solve Bool}
    (htest : ∀ key value, s.types.lookup ty = .generic Ty.table [key, value] → s.Stops ctx fun S => test S key) :
    s.Ends ctx (fun S => tableMember ty (test S)) fun r _ => ∀ member, r = some member →
      ∃ key value, s.types.lookup ty = .generic Ty.table [key, value] ∧ member = Member.indexed key value := by
  refine (ends_tableArgs hw ty).bind ?_
  rintro args _ - ⟨rfl, hargs⟩
  cases args with
  | none => exact .pure hw nofun
  | some args =>
    obtain ⟨key, value⟩ := args
    have hl := hargs key value rfl
    refine (htest key value hl).bind fun _ u hu _ => .pure hu.types fun _ hm => ?_
    split at hm
    · cases hm
      exact ⟨key, value, hl, rfl⟩
    · cases hm

variable {name : Symbol}

theorem ends_literal (hname : s.types.HasSymbol name) :
    s.Ends ctx (fun _ => intern (.literal .string name)) fun r u => u.types.Sized c r (c Primitive.string.name + 5) := by
  have hform : s.types.Holds (.literal .string name) := ⟨nofun, by simpa using hname⟩
  refine (ends_intern hs.types hform).imp ?_
  rintro r u - ⟨-, hl⟩
  exact .literal hl le_rfl

variable {key : Ty}

include hB hA in
theorem ends_keyTakesField (hkey : s.types.Sized c key i) (hname : s.types.HasSymbol name) :
    s.Stops ctx (·.keyTakesField name key) := by
  refine .early hs.types trivial fun _ => ?_
  refine (ends_literal hs hname).bind fun literal u hu hliteral => ?_
  exact hA (i + (c Primitive.string.name + 5) + 1) u (hs.later hu) (hB.later hu).le key literal i _ (hs.sized hu hkey)
    hliteral (by omega) _ fun _ => ⟨rfl, rfl⟩

include hB hA hM hT hty

theorem ends_member? (hname : s.types.HasSymbol name) : s.Ends ctx (·.member? ty name) (FoundIn M) := by
  refine (ends_tableMember hs.types fun key value hl => ?_).bind fun found u hu hfound => ?_
  · exact ends_keyTakesField hs hB hA (hty.part (p := key) (by rw [hl]; simp)) hname
  cases found with
  | some member =>
    obtain ⟨key, value, hl, rfl⟩ := hfound member rfl
    have hl := (hu.grown.lookup hty.has).trans hl
    exact .pure hu.types (.some ((hT u hu ty key value (hs.sized hu hty) hl).2 name (hu.grown.hasSymbol hname)))
  | none =>
    have hlasting := FoundIn.lasting (hM.lasting.later hu)
    have hJ : u.Lasting ctx fun (found : FieldSearch) u => FoundIn M found.declared u ∧ FoundIn M found.inferred u :=
      fun _ v w hv hw h => ⟨hlasting _ v w hv hw h.1, hlasting _ v w hv hw h.2⟩
    have hvisit : u.Visits ctx M (fun _ => visitField name) fun found u =>
        FoundIn M found.declared u ∧ FoundIn M found.inferred u := by
      rintro v hv found member ⟨hdeclared, hinferred⟩ hmember
      exact .early hv.types ⟨hdeclared, hinferred⟩ fun _ =>
        .early hv.types ⟨.some hmember, hinferred⟩ fun _ =>
          .pure hv.types ⟨hdeclared, hinferred.or (.some hmember)⟩
    refine (ends_visitMembers (hs.later hu) (hB.later hu) (hA _) (hM.later hu) hJ hvisit (hs.sized hu hty)
      ⟨.none, .none⟩ true).bind ?_
    rintro ⟨_, _⟩ v hv ⟨hdeclared, hinferred⟩
    exact .pure hv.types (hdeclared.or hinferred)

omit hT hty in
theorem ends_isNarrower (hu : u.Past ctx s) (hfound : FoundIn (Indexed M) found u)
    (hkey : u.types.Sized c key k) : u.Stops ctx (·.isNarrower found key) := by
  cases found with
  | none => exact .pure hu.types trivial
  | some earlier =>
    have hearlier := hM.sized u hu earlier (hfound earlier rfl).1
    unfold Solver.isNarrower
    dsimp only
    cases he : earlier.index? with
    | none => exact .pure hu.types trivial
    | some index =>
      exact hA (k + k + 1) u (hs.later hu) (hB.later hu).le index key k k (hearlier.index index (Member.key_of_index? he)).1
        hkey (by omega) _ fun _ => ⟨rfl, rfl⟩

omit hM hT hty in
theorem ends_keyMatches (hu : u.Past ctx s) (hindex : u.types.Sized c index i)
    (hkey : u.types.Sized c key k) (exact : Bool) : u.Stops ctx (·.keyMatches index exact key) := by
  refine .ite (fun _ => .early hu.types trivial fun _ => ?_) fun _ => ?_
  · exact ends_equal_below (hs.later hu) (hB.later hu) hkey hindex
  · exact hA (k + i + 1) u (hs.later hu) (hB.later hu).le key index k i hkey hindex (by omega) _ fun _ => ⟨rfl, rfl⟩

omit hT in
theorem ends_classIndexer (hindex : s.types.Sized c index i) (exact : Bool) :
    s.Ends ctx (·.classIndexer ty index exact) (FoundIn (Indexed M)) := by
  have hlasting := FoundIn.lasting (Indexed.lasting hM.lasting)
  have hJ : s.Lasting ctx fun (found : IndexSearch) u =>
      FoundIn (Indexed M) found.declared u ∧ FoundIn (Indexed M) found.inferred u :=
    fun _ v w hv hw h => ⟨hlasting _ v w hv hw h.1, hlasting _ v w hv hw h.2⟩
  have hvisit : s.Visits ctx M (·.visitIndexer index exact) fun found u =>
      FoundIn (Indexed M) found.declared u ∧ FoundIn (Indexed M) found.inferred u := by
    rintro u hu found member ⟨hdeclared, hinferred⟩ hmember
    unfold Solver.visitIndexer
    dsimp only
    cases he : member.index? with
    | none => exact .pure hu.types ⟨hdeclared, hinferred⟩
    | some key =>
      have hkey := ((hM.sized u hu member hmember).index key (Member.key_of_index? he)).1
      refine (ends_keyMatches hs hB hA hu (hs.sized hu hindex) hkey exact).bind fun b v hv _ => ?_
      have hv' := hu.trans hv
      have hfound := hJ found u v hu hv ⟨hdeclared, hinferred⟩
      have hmember' : Indexed M member v := ⟨hM.lasting member u v hu hv hmember, key, Member.key_of_index? he⟩
      have hkey' := (hs.later hu).sized hv hkey
      refine .early hv'.types hfound fun _ => .ite (fun _ => ?_) fun _ => ?_
      · refine (ends_isNarrower hs hB hA hM hv' hfound.1 hkey').bind fun b w hw _ => ?_
        have hfound' := hJ found v w hv' hw hfound
        exact .early hw.types ⟨.some (Indexed.lasting hM.lasting member v w hv' hw hmember'), hfound'.2⟩ fun _ =>
          .pure hw.types hfound'
      · refine (ends_isNarrower hs hB hA hM hv' hfound.2 hkey').bind fun b w hw _ => ?_
        have hfound' := hJ found v w hv' hw hfound
        exact .early hw.types ⟨hfound'.1, .some (Indexed.lasting hM.lasting member v w hv' hw hmember')⟩ fun _ =>
          .pure hw.types hfound'
  refine (ends_visitMembers hs hB (hA _) hM hJ hvisit hty ⟨.none, .none⟩ true).bind ?_
  rintro ⟨_, _⟩ v hv ⟨hdeclared, hinferred⟩
  exact .pure hv.types (hdeclared.or hinferred)

theorem ends_indexer? (hmembers : s.types.HasMembers ty) (hindex : s.types.Sized c index i)
    (exact : Bool) : s.Ends ctx (·.indexer? ty index exact) (FoundIn (Indexed M)) := by
  refine .lookup hs.types ty fun form hform => ?_
  have hkind : form.kind = .classRef ∨ form.kind = .generic := by
    rw [hform]
    exact hmembers
  cases form with
  | classRef => exact ends_classIndexer hs hB hA hM hty hindex exact
  | generic =>
    have htest (key value : Ty) (hl : s.types.lookup ty = .generic Ty.table [key, value]) :
        s.Stops ctx (·.tableKeyTakes index exact key) := by
      refine .early hs.types trivial fun _ => .early hs.types trivial fun _ => ?_
      have hkey := hty.part (p := key) (by rw [hl]; simp)
      exact hA (top - 1 + i + 1) s hs hB.le key index _ i hkey hindex (by omega) _ fun _ => ⟨rfl, rfl⟩
    refine (ends_tableMember hs.types htest).bind fun found u hu hfound => ?_
    cases found with
    | some member =>
      obtain ⟨key, value, hl, rfl⟩ := hfound member rfl
      have hl := (hu.grown.lookup hty.has).trans hl
      exact .pure hu.types (.some ⟨(hT u hu ty key value (hs.sized hu hty) hl).1, key, rfl⟩)
    | none =>
      exact ends_classIndexer (hs.later hu) (hB.later hu) hA (hM.later hu) (hs.sized hu hty) (hs.sized hu hindex)
        exact
  | _ => rcases hkind with h | h <;> cases h

theorem ends_memberAt? (hmembers : s.types.HasMembers ty) {key : Key}
    (hfield : ∀ name, key = .field name → s.types.HasSymbol name)
    (hkey : ∀ index, key = .index index → s.types.Sized c index i) (exact : Bool) :
    s.Ends ctx (·.memberAt? ty exact key) (FoundIn M) := by
  cases key with
  | field name => exact ends_member? hs hB hA hM hT hty (hfield name rfl)
  | index index =>
    refine (ends_indexer? hs hB hA hM hT hty hmembers (hkey index rfl) exact).imp fun _ _ _ hfound => ?_
    exact fun member hm => (hfound member hm).1

omit hB hA hM hT hty in
theorem ends_missingMemberType : s.Ends ctx (fun _ => missingMemberType ty) fun r _ => ∀ t, r = some t → t = Ty.any := by
  refine (ends_settings hs.types).bind fun _ u hu _ => ?_
  refine .early hu.types nofun fun _ => ?_
  refine (ends_classMarks hu.types ty).bind fun _ v hv _ => .pure hv.types fun t ht => ?_
  split at ht <;> cases ht
  rfl

theorem ends_indexedTypes (hmembers : s.types.HasMembers ty) (hk : 1 ≤ k) {indexes : List Ty}
    (hindexes : ∀ index ∈ indexes, s.types.Sized c index i) (exact : Bool)
    {found : Option Ty} (hfound : ∀ t, found = some t → s.types.Within c k t) :
    s.Ends ctx (·.indexedTypes ty exact indexes found) fun r u => ∀ t, r = some t → u.types.Within c k t := by
  have hany {u : Session} (hu : u.Past ctx s) : u.types.Within c k Ty.any :=
    (hu.types.sized_any hk).within
  induction indexes generalizing s found with
  | nil => exact .pure hs.types hfound
  | cons index rest ih =>
    obtain ⟨hindex, hrest⟩ := forall_mem_cons.1 hindexes
    have hnext {u : Session} (hu : u.Past ctx s) {found : Option Ty} (hfound : ∀ t, found = some t → u.types.Within c k t) :
        u.Ends ctx (·.indexedTypes ty exact rest found) fun r v => ∀ t, r = some t → v.types.Within c k t :=
      ih (hs.later hu) (hB.later hu) (hM.later hu) (hT.later hu) (hs.sized hu hty) (hu.hasMembers hty.has hmembers)
        (fun x hx => hs.sized hu (hrest x hx)) hfound fun hv => hany (hu.trans hv)
    refine (ends_indexer? hs hB hA hM hT hty hmembers hindex exact).bind fun member u hu hmember => ?_
    have hfound' : ∀ t, found = some t → u.types.Within c k t := fun t ht => hs.within hu (hfound t ht)
    cases member with
    | none =>
      refine (ends_missingMemberType (hs.later hu)).bind fun missing v hv hmissing => ?_
      cases missing with
      | some t =>
        refine .pure hv.types ?_
        rintro _ ⟨⟩
        rw [hmissing t rfl]
        exact hany (hu.trans hv)
      | none => exact hnext (hu.trans hv) fun t ht => (hs.later hu).within hv (hfound' t ht)
    | some member =>
      refine .early hu.types ?_ fun htype => ?_
      · rintro _ ⟨⟩
        exact hany hu
      · obtain ⟨hm, index, hkey⟩ := hmember member rfl
        refine (ends_memberType (hs.later hu) (hs.sized hu hty) member).bind fun type v hv he => ?_
        have hv' := hu.trans hv
        have hwithin : v.types.Within c k type := by
          cases ht : member.type with
          | none => simp [ht] at htype
          | some t =>
            rw [he, ht]
            exact ((hs.later hu).sized hv (((hM.sized u hu member hm).index index hkey).2 t ht)).within
        refine (ends_unionWith ((hs.later hv').joins (hB.later hv') hk)
          (fun t ht => (hs.later hu).within hv (hfound' t ht)) hwithin).bind fun _ w hw hunited => ?_
        refine hnext (hv'.trans hw) ?_
        rintro _ ⟨⟩
        exact hunited

omit hB hA hM hT hty in
theorem ends_resolvedMembers_sized {x : Ty} (hx : s.types.Sized c x i) :
    s.Ends ctx (·.resolvedMembers x) fun r u => ∀ z ∈ r, u.types.Sized c z i := by
  have hparts : ∀ z ∈ s.types.members x, False ∨ s.Opens ctx (s.types.Sized c · i) c.name i z :=
    fun z hz => .inr (.low (hx.members hz))
  refine (ends_resolvedMembers (G := fun _ => False) (g := 0) hs hx.has (by simp) hparts (.of_wf hs.types)).imp ?_
  rintro r u hu (rfl | ⟨hdone, -⟩) z hz
  · exact hs.sized hu (hx.members hz)
  · exact hs.sized hu ((hdone z hz).resolve_left id).1

theorem ends_indexedType (hmembers : s.types.HasMembers ty) (hk : 1 ≤ k)
    (hindex : s.types.Sized c index i) (exact : Bool) :
    s.Ends ctx (·.indexedType ty index exact) fun r u => ∀ t, r = some t → u.types.Within c k t := by
  refine .ask rfl (.lookup hs.types ty fun form hform => ?_)
  have hkind : form.kind = .classRef ∨ form.kind = .generic := by
    rw [hform]
    exact hmembers
  have hindexed : s.Ends ctx (fun S => S.resolvedMembers index >>= fun indexes => S.indexedTypes ty exact indexes none)
      fun r u => ∀ t, r = some t → u.types.Within c k t := by
    refine (ends_resolvedMembers_sized hs hindex).bind fun _ u hu hindexes => ?_
    exact ends_indexedTypes (hs.later hu) (hB.later hu) hA (hM.later hu) (hT.later hu) (hs.sized hu hty)
      (hu.hasMembers hty.has hmembers) hk hindexes exact nofun
  cases form with
  | classRef => exact hindexed
  | generic => exact hindexed
  | _ => rcases hkind with h | h <;> cases h
end

/-! ## Arrays -/

include hs in
theorem ends_integerKey (index : Ty) : s.Stops ctx fun _ => integerKey index := by
  refine .lookup hs.types index fun form _ => ?_
  match form with
  | .literal .number value =>
    exact (ends_ofTypes hs.types (Q := fun _ _ => True) trivial).bind fun _ _ hu _ => .pure hu.types trivial
  | .literal .string _ | .literal .boolean _ | .literal .table _ | .literal .function _ => exact .pure hs.types trivial
  | .any | .nil | .void | .primitive _ | .array _ | .classRef _ _ | .aliasRef _ _ _ | .union _ | .generic _ _ |
    .function _ _ _ | .results _ _ | .param _ _ _ | .snippet _ => exact .pure hs.types trivial

include hs hB in
theorem ends_isArray (hty : s.types.Sized c ty h) (hC : Compares ctx c room h) : s.Stops ctx (·.isArray ty) := by
  refine (ends_resolve_sized hs hB hty).bind fun r u hu hsized => ?_
  refine .lookup hu.types r fun form hform => ?_
  cases form with
  | array => exact .pure hu.types trivial
  | classRef name =>
    refine (ends_isShape (hs.later hu) (hB.later hu) hsized).bind fun _ v hv _ => ?_
    have hv' := hu.trans hv
    refine .early hv'.types trivial fun _ => ?_
    have hle := hsized.name hform.symm
    have hC' : Compares ctx c room (2 * ((h - 7) / 2) + 1) := fun s hs hr x y i j hx hy _ =>
      hC s hs hr x y i j hx hy (by omega)
    have hvisit : v.Visits ctx (fun member u => u.types.SizedMember c ((h - 7) / 2) member) (fun _ => visitElementKey)
        fun _ _ => True := by
      intro w hw _ member _ _
      unfold visitElementKey
      dsimp only
      cases member.index? with
      | none => exact .pure hw.types trivial
      | some index =>
        refine .early hw.types trivial fun _ => ?_
        refine (ends_integerKey ((hs.later hv').later hw) index).bind fun key _ hw' _ => ?_
        cases key <;> exact .pure hw'.types trivial
    exact (ends_visitMembers (hs.later hv') (hB.later hv') hC' ((hs.later hv').shows h le_rfl)
      (fun _ _ _ _ _ _ => trivial) hvisit ((hs.later hu).sized hv hsized) trivial true).bind
        fun _ _ hw _ => .pure hw.types trivial
  | _ => exact .pure hu.types trivial
end

end AnnotatedLua
