/-
Unions of atoms are in canonical form. An atom is read as the set of its values. Two unions of atoms are the same type
just if they have the same values (`unionAll_eq_iff_values`).
-/
import AnnotatedLua.Proofs.Union.Atoms
import Mathlib.Data.Fintype.EquivFin
import Mathlib.Data.Set.Basic

namespace AnnotatedLua

open TypeTable List
open Solver (ofBudget standard)

variable {types : List Ty} {x y ty : Ty} {ctx : Context} {s : Session} {value : LuaValue} {text : Symbol}
  {kind : Primitive}

/-! ## Values -/

/-- A value, as far as types tell values apart. -/
inductive LuaValue where
  | nil
  | boolean (value : Bool)
  | string (text : String)
  | number (text : String)
  | table (id : Nat)
  | function (id : Nat)
  /-- An object of a class. -/
  | object (className : String) (id : Nat)

namespace LuaValue

def ofPrimitive : Primitive → Set LuaValue
  | .string => Set.range string
  | .number => Set.range number
  | .boolean => Set.range boolean
  | .table => Set.range table
  | .function => Set.range function

def ofLiteral (kind : Primitive) (text : String) : Set LuaValue :=
  match kind with
  | .string => {string text}
  | .number => {number text}
  | .boolean => {boolean (text == "true")}
  | _ => ∅

def kind? : LuaValue → Option Primitive
  | .string _ => some .string
  | .number _ => some .number
  | .boolean _ => some .boolean
  | .table _ => some .table
  | .function _ => some .function
  | _ => none

theorem mem_ofPrimitive : value ∈ ofPrimitive kind ↔ value.kind? = some kind := by
  cases kind <;> cases value <;> simp [ofPrimitive, kind?]

theorem ofLiteral_subset (kind : Primitive) (text : String) : ofLiteral kind text ⊆ ofPrimitive kind := by
  intro _ h
  rw [mem_ofPrimitive]
  cases kind <;> simp_all [ofLiteral, kind?]

theorem exists_other (hkind : kind = .string ∨ kind = .number) (texts : List String) :
    ∃ value ∈ ofPrimitive kind, ∀ text ∈ texts, value ∉ ofLiteral kind text := by
  obtain ⟨fresh, hfresh⟩ := Infinite.exists_notMem_finset texts.toFinset
  rw [mem_toFinset] at hfresh
  rcases hkind with rfl | rfl
  · refine ⟨.string fresh, ⟨fresh, rfl⟩, fun text ht h => hfresh ?_⟩
    rwa [string.inj (Set.mem_singleton_iff.1 h)]
  · refine ⟨.number fresh, ⟨fresh, rfl⟩, fun _ _ h => hfresh ?_⟩
    rwa [number.inj (Set.mem_singleton_iff.1 h)]

end LuaValue

namespace TypeTable

def valuesOf (t : TypeTable) (ty : Ty) : Set LuaValue :=
  match t.lookup ty with
  | .nil => {.nil}
  | .primitive kind => LuaValue.ofPrimitive kind
  | .literal kind text => LuaValue.ofLiteral kind (t.text text)
  | .classRef name _ => Set.range (LuaValue.object (t.text name))
  | _ => ∅

/-- The values of any of the types, a union having those of its members. -/
def values (t : TypeTable) (types : List Ty) : Set LuaValue :=
  { value | ∃ ty ∈ types, ∃ member ∈ t.members ty, value ∈ t.valuesOf member }

variable {t t' : TypeTable}

theorem WF.valuesOf_void (h : t.WF) : t.valuesOf Ty.void = ∅ := by
  have : t.lookup Ty.void = .void := (h.lookup_builtin Ty.void rfl).2.trans (by decide)
  unfold valuesOf
  rw [this]

theorem WF.mem_values (h : t.WF) : value ∈ t.values types ↔ ∃ ty ∈ t.flat types, value ∈ t.valuesOf ty := by
  constructor
  · rintro ⟨ty, hty, member, hm, hv⟩
    refine ⟨member, mem_filter.2 ⟨mem_flatMap.2 ⟨ty, hty, hm⟩, ?_⟩, hv⟩
    by_contra hvoid
    have : member = Ty.void := by simpa [Ty.isVoid] using hvoid
    rw [this, h.valuesOf_void] at hv
    exact hv
  · rintro ⟨member, hm, hv⟩
    obtain ⟨ty, hty, hmember⟩ := mem_flatMap.1 (mem_filter.1 hm).1
    exact ⟨ty, hty, member, hmember, hv⟩

theorem Extends.valuesOf (hx : t.Extends t') (h : t.WF) (hty : t.Has ty) : t'.valuesOf ty = t.valuesOf ty := by
  have htext {name : Symbol} (hname : name ∈ (t.lookup ty).names) : t'.text name = t.text name :=
    hx.text (h.hasSymbol hname)
  unfold TypeTable.valuesOf
  rw [hx.lookup hty]
  generalize t.lookup ty = form at htext
  cases form with
  | literal kind text => simp only [htext (show text ∈ (FormOf.literal kind text : Form).names by simp)]
  | classRef name marks =>
    simp only [htext (show name ∈ (FormOf.classRef name marks : Form).names by simp)]
  | _ => rfl

theorem WF.valuesOf_subset (h : t.WF) (hr : t.literalOf y x = true) : t.valuesOf x ⊆ t.valuesOf y := by
  simp only [literalOf, Bool.or_eq_true, beq_iff_eq] at hr
  rcases hr with rfl | hr
  · exact subset_rfl
  · unfold FormOf.primitive? at hr
    split at hr
    · rename_i kind text hl
      obtain rfl := Option.some.inj hr
      unfold valuesOf
      rw [hl, h.lookup_primitive]
      exact LuaValue.ofLiteral_subset kind _
    · cases hr

theorem WF.eq_of_names (h : t.WF) {form form' : Form} {name name' : Symbol} (hx : t.lookup x = form)
    (hy : t.lookup y = form') (hname : name ∈ form.names) (hname' : name' ∈ form'.names)
    (he : t.text name = t.text name') : name = name' :=
  h.eq_of_text (h.hasSymbol (hx ▸ hname)) (h.hasSymbol (hy ▸ hname')) he

theorem WF.valuesOf_boolean (h : t.WF) : t.valuesOf Ty.boolean = Set.range LuaValue.boolean := by
  unfold valuesOf
  rw [show t.lookup Ty.boolean = .primitive .boolean from h.lookup_primitive .boolean]
  rfl

theorem WF.lookup_trueLiteral (h : t.WF) : t.lookup Ty.trueLiteral = .literal .boolean ⟨1⟩ :=
  (h.lookup_builtin Ty.trueLiteral rfl).2.trans (by decide)

theorem WF.valuesOf_trueLiteral (h : t.WF) : t.valuesOf Ty.trueLiteral = {.boolean true} := by
  have ht : t.text ⟨1⟩ = "true" := (h.base.text (by decide)).trans (by decide)
  unfold valuesOf
  rw [h.lookup_trueLiteral]
  simp [LuaValue.ofLiteral, ht]

theorem WF.lookup_falseLiteral (h : t.WF) : t.lookup Ty.falseLiteral = .literal .boolean ⟨2⟩ :=
  (h.lookup_builtin Ty.falseLiteral rfl).2.trans (by decide)

theorem WF.valuesOf_falseLiteral (h : t.WF) : t.valuesOf Ty.falseLiteral = {.boolean false} := by
  have ht : t.text ⟨2⟩ = "false" := (h.base.text (by decide)).trans (by decide)
  unfold valuesOf
  rw [h.lookup_falseLiteral]
  simp [LuaValue.ofLiteral, ht]

end TypeTable

/-! ## Atoms by their values -/

section
variable (hw : s.types.WF) (hy : s.Atom ctx y) (hv : value ∈ s.types.valuesOf y)
include hw hy hv

theorem owner_of_kind (hk : value.kind? = some kind) : y = kind.type ∨
    ∃ text, s.types.lookup y = .literal kind text ∧ value ∈ LuaValue.ofLiteral kind (s.types.text text) := by
  obtain ⟨-, _, hl, hf⟩ := hy.form hw
  unfold valuesOf at hv
  rw [hl] at hv
  cases hf with
  | nil =>
    obtain rfl := hv
    cases hk
  | primitive h =>
    obtain rfl := Option.some.inj ((LuaValue.mem_ofPrimitive.1 hv).symm.trans hk)
    exact .inl h
  | literal =>
    obtain rfl := Option.some.inj ((LuaValue.mem_ofPrimitive.1 (LuaValue.ofLiteral_subset _ _ hv)).symm.trans hk)
    exact .inr ⟨_, hl, hv⟩
  | undeclared =>
    obtain ⟨_, rfl⟩ := hv
    cases hk

theorem owner_unique (hk : value.kind? = none) (hx : s.Atom ctx x) (hv' : value ∈ s.types.valuesOf x) : x = y := by
  obtain ⟨hhas, _, hl, hf⟩ := hy.form hw
  obtain ⟨hhas', _, hl', hf'⟩ := hx.form hw
  have primitive {kind : Primitive} (h : value ∈ LuaValue.ofPrimitive kind) : False := by
    cases hk.symm.trans (LuaValue.mem_ofPrimitive.1 h)
  unfold valuesOf at hv hv'
  rw [hl] at hv
  rw [hl'] at hv'
  cases hf with
  | primitive => exact (primitive hv).elim
  | literal => exact (primitive (LuaValue.ofLiteral_subset _ _ hv)).elim
  | nil h =>
    obtain rfl := hv
    cases hf' with
    | nil h' => rw [h, h']
    | primitive => exact (primitive hv').elim
    | literal => exact (primitive (LuaValue.ofLiteral_subset _ _ hv')).elim
    | undeclared => obtain ⟨id, hid⟩ := hv'; cases hid
  | undeclared =>
    obtain ⟨_, rfl⟩ := hv
    cases hf' with
    | nil => cases hv'
    | primitive => exact (primitive hv').elim
    | literal => exact (primitive (LuaValue.ofLiteral_subset _ _ hv')).elim
    | undeclared =>
      obtain ⟨_, hid⟩ := hv'
      obtain rfl := hw.eq_of_names hl' hl (by simp) (by simp) (LuaValue.object.inj hid).1
      exact hw.eq_of_lookup hhas' hhas (hl'.trans hl.symm)

theorem literalOf_of_literal (hx : s.Atom ctx x) (hl : s.types.lookup x = .literal kind text)
    (hv' : value ∈ LuaValue.ofLiteral kind (s.types.text text)) : s.types.literalOf y x = true := by
  have hk := LuaValue.mem_ofPrimitive.1 (LuaValue.ofLiteral_subset _ _ hv')
  unfold literalOf
  rw [hl]
  rcases owner_of_kind hw hy hv hk with rfl | ⟨text', hl', hv''⟩
  · simp [FormOf.primitive?]
  · have : s.types.text text' = s.types.text text := by
      obtain ⟨-, _, rfl, hf⟩ := hx.form hw
      obtain ⟨-, _, rfl, hf'⟩ := hy.form hw
      rw [hl] at hf
      rw [hl'] at hf'
      cases hf with | literal hb =>
      cases hf' with | literal hb' =>
      cases kind <;> simp_all [LuaValue.ofLiteral]
      rcases hb with h | h <;> rcases hb' with h' | h' <;> simp_all
    obtain rfl := hw.eq_of_names hl' hl (by simp) (by simp) this
    simp [hw.eq_of_lookup (hx.form hw).1 (hy.form hw).1 (hl.trans hl'.symm)]
end

section
variable (hw : s.types.WF) (ht : ∀ z ∈ types, s.Atom ctx z)
include hw

theorem values_of_covered (h : s.types.literalOf.Covered types x) :
    ∀ value ∈ s.types.valuesOf x, ∃ z ∈ types, value ∈ s.types.valuesOf z := by
  obtain ⟨z, hz, h⟩ := h
  intro _ hv
  refine ⟨z, hz, ?_⟩
  rcases h with rfl | h
  · exact hv
  · exact hw.valuesOf_subset h hv

include ht

theorem primitive_mem (hkind : kind ≠ .boolean)
    (hv : ∀ value ∈ LuaValue.ofPrimitive kind, ∃ z ∈ types, value ∈ s.types.valuesOf z) : kind.type ∈ types := by
  -- a value that is none of the literals among the types
  obtain ⟨value, hvalue, hother⟩ : ∃ value ∈ LuaValue.ofPrimitive kind, ∀ text ∈
      types.flatMap fun z => (s.types.lookup z).names.map s.types.text, value ∉ LuaValue.ofLiteral kind text := by
    cases kind with
    | string => exact LuaValue.exists_other (.inl rfl) _
    | number => exact LuaValue.exists_other (.inr rfl) _
    | boolean => exact absurd rfl hkind
    | table => exact ⟨.table 0, ⟨0, rfl⟩, fun _ _ => id⟩
    | function => exact ⟨.function 0, ⟨0, rfl⟩, fun _ _ => id⟩
  obtain ⟨z, hz, hzv⟩ := hv value hvalue
  rcases owner_of_kind hw (ht z hz) hzv (LuaValue.mem_ofPrimitive.1 hvalue) with rfl | ⟨text, hl, hv⟩
  · exact hz
  · refine absurd hv (hother _ (mem_flatMap.2 ⟨z, hz, mem_map.2 ⟨text, ?_, rfl⟩⟩))
    rw [hl]
    simp

theorem covered_of_literal (hx : s.Atom ctx x) (hkind : kind ≠ .table ∧ kind ≠ .function)
    (hl : s.types.lookup x = .literal kind text)
    (hv : ∀ value ∈ s.types.valuesOf x, ∃ z ∈ types, value ∈ s.types.valuesOf z) : s.types.literalOf.Covered types x := by
  have hvalues : s.types.valuesOf x = LuaValue.ofLiteral kind (s.types.text text) := by
    unfold valuesOf
    rw [hl]
  obtain ⟨value, hvalue⟩ : (LuaValue.ofLiteral kind (s.types.text text)).Nonempty := by
    cases kind with
    | table => exact absurd rfl hkind.1
    | function => exact absurd rfl hkind.2
    | _ => exact Set.singleton_nonempty _
  obtain ⟨z, hz, hzv⟩ := hv value (hvalues ▸ hvalue)
  exact ⟨z, hz, .inr (literalOf_of_literal hw (ht z hz) hzv hx hl hvalue)⟩

theorem spans_iff_values (hx : s.Atom ctx x) : s.types.literalOf.Spans types x ↔
    ∀ value ∈ s.types.valuesOf x, ∃ z ∈ types, value ∈ s.types.valuesOf z := by
  constructor
  · intro h
    rcases h with h | ⟨htrue, hfalse, hboolean⟩
    · exact values_of_covered hw h
    · intro value hv
      obtain ⟨_, hz, hv⟩ := values_of_covered hw hboolean value hv
      rw [mem_singleton.1 hz, hw.valuesOf_boolean] at hv
      obtain ⟨bit, rfl⟩ := hv
      cases bit with
      | true => exact values_of_covered hw htrue _ (by rw [hw.valuesOf_trueLiteral]; rfl)
      | false => exact values_of_covered hw hfalse _ (by rw [hw.valuesOf_falseLiteral]; rfl)
  · intro h
    have unique (value : LuaValue) (hk : value.kind? = none) (hv : value ∈ s.types.valuesOf x) :
        s.types.literalOf.Spans types x := by
      obtain ⟨z, hz, hzv⟩ := h value hv
      exact .inl ⟨z, hz, .inl (owner_unique hw (ht z hz) hzv hk hx hv)⟩
    have hatom := hx
    cases hx with
    | nil =>
      exact unique .nil rfl (by unfold valuesOf; rw [hw.lookup_nil]; rfl)
    | primitive kind =>
      by_cases hkind : kind = .boolean
      · subst hkind
        rw [show Primitive.boolean.type = Ty.boolean from rfl, hw.valuesOf_boolean] at h
        refine .inr ⟨covered_of_literal hw ht .trueLiteral (by simp) hw.lookup_trueLiteral ?_,
          covered_of_literal hw ht .falseLiteral (by simp) hw.lookup_falseLiteral ?_, .of_mem (mem_singleton.2 rfl)⟩
        · rw [hw.valuesOf_trueLiteral]
          rintro _ rfl
          exact h _ ⟨true, rfl⟩
        · rw [hw.valuesOf_falseLiteral]
          rintro _ rfl
          exact h _ ⟨false, rfl⟩
      · refine .inl (.of_mem (primitive_mem hw ht hkind ?_))
        unfold valuesOf at h
        rwa [hw.lookup_primitive] at h
    | trueLiteral => exact .inl (covered_of_literal hw ht hatom (by simp) hw.lookup_trueLiteral h)
    | falseLiteral => exact .inl (covered_of_literal hw ht hatom (by simp) hw.lookup_falseLiteral h)
    | literal hkind hl => exact .inl (covered_of_literal hw ht hatom (by rcases hkind with rfl | rfl <;> simp) hl h)
    | undeclared hl => exact unique (.object _ 0) rfl (by unfold valuesOf; rw [hl]; exact ⟨0, rfl⟩)

theorem values_insertAll (value : LuaValue) : (∃ z ∈ s.types.literalOf.insertAll types, value ∈ s.types.valuesOf z) ↔
    ∃ z ∈ types, value ∈ s.types.valuesOf z := by
  have hR : s.types.literalOf.Orders (s.Atom ctx) := hw.literalOf_orders (.primitive .boolean) .trueLiteral .falseLiteral
  obtain ⟨-, hm⟩ := hR.settled_insertAll ht
  constructor
  · rintro ⟨z, hz, hv⟩
    have hspans := (hR.covered_insertAll ht (hm z hz)).1 (.of_mem hz)
    exact (spans_iff_values hw ht (hm z hz)).1 hspans value hv
  · rintro ⟨z, hz, hv⟩
    have hcovered := (hR.covered_insertAll ht (ht z hz)).2 (.inl (.of_mem hz))
    exact values_of_covered hw hcovered value hv
end

/-! ## Unions of atoms -/

namespace Session

variable {base : Session}

/-- All members are atoms or `void`. -/
structure Ground (ctx : Context) (s : Session) (ty : Ty) : Prop where
  stored : s.types.Has ty
  atoms : ∀ member ∈ s.types.members ty, member = Ty.void ∨ s.Atom ctx member

theorem Atom.later (ha : base.Atom ctx ty) (hw : base.types.WF) (h : s.From ctx base) : s.Atom ctx ty := by
  obtain ⟨hhas, -⟩ := ha.form hw
  have hl : s.types.lookup ty = base.types.lookup ty := h.grown.lookup hhas
  cases ha with
  | nil => exact .nil
  | primitive kind => exact .primitive kind
  | trueLiteral => exact .trueLiteral
  | falseLiteral => exact .falseLiteral
  | literal hkind hform => exact .literal hkind (hl.trans hform)
  | undeclared hform hclass halias hname =>
    have hsymbol := hw.hasSymbol (by rw [hform]; exact mem_singleton.2 rfl)
    exact .undeclared (hl.trans hform) (h.classes ▸ hclass) (h.aliases ▸ halias) (h.grown.text hsymbol ▸ hname)

theorem Ground.later (hg : base.Ground ctx ty) (hw : base.types.WF) (h : s.From ctx base) : s.Ground ctx ty where
  stored := h.grown.has hg.stored
  atoms member hm := by
    rw [h.grown.members hg.stored] at hm
    exact (hg.atoms member hm).imp id fun ha => ha.later hw h

theorem Ground.values (hg : base.Ground ctx ty) (hw : base.types.WF) (h : s.From ctx base) :
    s.types.values [ty] = base.types.values [ty] := by
  have hvalues {member : Ty} (hm : member ∈ base.types.members ty) :
      s.types.valuesOf member = base.types.valuesOf member := by
    rcases hg.atoms member hm with rfl | ha
    · rw [h.types.valuesOf_void, hw.valuesOf_void]
    · exact h.grown.valuesOf hw (ha.form hw).1
  ext value
  simp only [TypeTable.values, mem_singleton, exists_eq_left, Set.mem_ofPred_eq, h.grown.members hg.stored]
  exact exists_congr fun _ => and_congr_right fun hm => by rw [hvalues hm]

theorem Ground.flat (hg : ∀ ty ∈ types, s.Ground ctx ty) : ∀ z ∈ s.types.flat types, s.Atom ctx z := by
  intro z hz
  obtain ⟨hz, hvoid⟩ := mem_filter.1 hz
  obtain ⟨ty, hty, hmember⟩ := mem_flatMap.1 hz
  rcases (hg ty hty).atoms z hmember with rfl | h
  · cases hvoid
  · exact h

theorem Ground.of_flat (hty : s.types.Has ty) (h : ∀ z ∈ s.types.flat [ty], s.Atom ctx z) : s.Ground ctx ty where
  stored := hty
  atoms member hm := by
    by_cases hvoid : member = Ty.void
    · exact .inl hvoid
    · refine .inr (h member (mem_filter.2 ⟨by simpa using hm, ?_⟩))
      simpa [Ty.isVoid] using hvoid

/-- No atom is `any` or `void`. -/
theorem Atom.ne (ha : s.Atom ctx ty) (hw : s.types.WF) : ty ≠ Ty.any ∧ ty ≠ Ty.void := by
  obtain ⟨-, _, hl, hf⟩ := ha.form hw
  constructor <;> rintro rfl <;> rw [(hw.lookup_builtin _ rfl).2] at hl
  · rw [show initial.lookup Ty.any = .any by decide] at hl
    subst hl
    cases hf
  · rw [show initial.lookup Ty.void = .void by decide] at hl
    subst hl
    cases hf

theorem Ground.absorbs (hw : s.types.WF) (hg : ∀ ty ∈ types, s.Ground ctx ty) :
    s.types.absorbs (s.types.flat types) = false := by
  have hany : (s.types.flat types).any Ty.isAny = false := by
    rw [any_eq_false]
    intro z hz h
    exact ((Ground.flat hg z hz).ne hw).1 (by simpa [Ty.isAny] using h)
  unfold TypeTable.absorbs
  rw [hany, Bool.and_false]

theorem Along.unionOf {active : List GuardKey} (h : s.Along ctx base active) (hty : ∀ z ∈ types, s.types.Has z) :
    Along ctx { s with types := (s.types.unionOf types).2 } base active :=
  { h with types := (h.types.unionOf_stored hty).1, grown := h.grown.trans (unionOf_extends _ _) }

end Session

section
variable (hw : s.types.WF) {atoms : List Ty} (hg : ∀ ty ∈ types, s.Ground ctx ty)
include hw hg

theorem unionAll_ground (hatoms : ∀ z ∈ Ty.boolean :: atoms, s.Atom ctx z)
    (hcomparing : s.NotComparing (· ∈ Ty.boolean :: atoms)) (hsub : s.types.flat types ⊆ atoms) (n : Nat) {w : Session}
    (hwl : w.Along ctx s s.guard.active) : ∃ children v, v.Along ctx s s.guard.active ∧ w.Kept v ∧
      (∀ z ∈ children, z ∈ Ty.boolean :: atoms) ∧
      (v.guard.exceeded = false → children = s.types.literalOf.insertAll (s.types.flat types)) ∧
      (ofBudget (n + 5)).unionAll types ctx w =
        some ((v.types.unionOf children).1, { v with types := (v.types.unionOf children).2 }) := by
  have hflat : w.types.flat types = s.types.flat types := hwl.grown.flat fun ty hty => (hg ty hty).stored
  have hJ := finds_subsumes hw hatoms hcomparing n
  have hboolean : Ty.boolean ∈ Ty.boolean :: atoms := mem_cons_self
  have ht : ∀ z ∈ w.types.flat types, z ∈ Ty.boolean :: atoms := fun z hz => mem_cons_of_mem _ (hsub (hflat ▸ hz))
  have habsorbs : w.types.absorbs (w.types.flat types) = false :=
    Session.Ground.absorbs hwl.types fun ty hty => (hg ty hty).later hw hwl.toFrom
  obtain ⟨⟨r, u⟩, hr⟩ := unionAll_ends hJ hboolean hwl ht habsorbs trivial
  obtain ⟨children, v, hv, hk, hc, hR, rfl, rfl⟩ := unionAll_run hJ hboolean hwl ht habsorbs hr
  refine ⟨children, v, hv, hk, hc, fun he => ?_, hr⟩
  rw [← hflat]
  exact hR ⟨he, hv.canceled⟩

theorem unionOf_values {children : List Ty} (hc : children = s.types.literalOf.insertAll (s.types.flat types))
    (hnames : s.types.NamesApart children) {v : Session} (hv : v.From ctx s) :
    Session.Ground ctx { v with types := (v.types.unionOf children).2 } (v.types.unionOf children).1 ∧
      (v.types.unionOf children).2.values [(v.types.unionOf children).1] = s.types.values types := by
  have hR : s.types.literalOf.Orders (s.Atom ctx) := hw.literalOf_orders (.primitive .boolean) .trueLiteral .falseLiteral
  have ht := Session.Ground.flat hg
  have hvalues := values_insertAll hw ht
  obtain ⟨hsettled, hm⟩ := hR.settled_insertAll ht
  rw [← hc] at hvalues hsettled hm
  have hhas : ∀ z ∈ children, s.types.Has z := fun z hz => ((hm z hz).form hw).1
  have hhas' : ∀ z ∈ children, v.types.Has z := fun z hz => hv.grown.has (hhas z hz)
  obtain ⟨hw', hstored⟩ := hv.types.unionOf_stored hhas'
  have hx := hv.grown.trans (unionOf_extends v.types children)
  have hflat := hv.types.unionOf_flat hhas' (hnames.extends hv.grown hw hv.types hhas) hsettled.nodup
    (fun z hz => ((hm z hz).later hw hv).members hv.types)
    (fun z hz => by simpa [Ty.isVoid] using ((hm z hz).ne hw).2)
  refine ⟨.of_flat hstored fun z hz => ?_, ?_⟩
  · exact (hm z (hflat.subset hz)).later hw ⟨hw', hx, hv.classes, hv.aliases⟩
  · ext value
    rw [hw'.mem_values, hw.mem_values, ← hvalues]
    constructor
    · rintro ⟨z, hz, hvalue⟩
      have hz := hflat.subset hz
      exact ⟨z, hz, hx.valuesOf hw (hhas z hz) ▸ hvalue⟩
    · rintro ⟨z, hz, hvalue⟩
      exact ⟨z, hflat.symm.subset hz, (hx.valuesOf hw (hhas z hz)).symm ▸ hvalue⟩
end

/-- Unions of ground types are in canonical form, where nothing cancels the query and no two of the atoms are
being compared already: there is an answer, it has the values that were put in, and two answers are one type
if and only if they have the same values. -/
theorem unionAll_eq_iff_values {ctx : Context} {s : Session} (hw : s.types.WF) (hu : s.Undisturbed ctx)
    {types types' : List Ty} (hg : ∀ ty ∈ types, s.Ground ctx ty) (hg' : ∀ ty ∈ types', s.Ground ctx ty)
    (hnames : s.types.NamesApart (Ty.boolean :: s.types.flat (types ++ types')))
    (hcomparing : s.NotComparing (· ∈ Ty.boolean :: s.types.flat (types ++ types'))) (n : Nat) :
    ∃ r u r' u', (ofBudget (n + 5)).unionAll types ctx s = some (r, u) ∧
      (ofBudget (n + 5)).unionAll types' ctx u = some (r', u') ∧
      (u'.guard.exceeded = false →
        u.Ground ctx r ∧ u'.Ground ctx r' ∧
        u.types.values [r] = s.types.values types ∧ u'.types.values [r'] = s.types.values types' ∧
        (r = r' ↔ s.types.values types = s.types.values types')) := by
  have hgs : ∀ ty ∈ types ++ types', s.Ground ctx ty := fun ty hty => (List.mem_append.1 hty).elim (hg ty) (hg' ty)
  have hatoms : ∀ z ∈ Ty.boolean :: s.types.flat (types ++ types'), s.Atom ctx z := by
    intro z hz
    rcases List.mem_cons.1 hz with rfl | hz
    · exact .primitive .boolean
    · exact Session.Ground.flat hgs z hz
  have hsub : s.types.flat types ⊆ s.types.flat (types ++ types') := by
    simp [TypeTable.flat, List.filter_append]
  have hsub' : s.types.flat types' ⊆ s.types.flat (types ++ types') := by
    simp [TypeTable.flat, List.filter_append]
  have hstored {children : List Ty} (hc : ∀ z ∈ children, z ∈ Ty.boolean :: s.types.flat (types ++ types'))
      {v : Session} (hv : v.From ctx s) : ∀ z ∈ children, v.types.Has z :=
    fun z hz => hv.grown.has ((hatoms z (hc z hz)).form hw).1
  obtain ⟨children, v, hv, -, hc, hR, hr⟩ := unionAll_ground hw hg hatoms hcomparing hsub n (.refl hw hu)
  have hu := hv.unionOf (hstored hc hv.toFrom)
  obtain ⟨children', v', hv', hk', hc', hR', hr'⟩ := unionAll_ground hw hg' hatoms hcomparing hsub' n hu
  refine ⟨_, _, _, _, hr, hr', fun he => ?_⟩
  have hR := hR (hk'.unexceeded he)
  have hR' := hR' he
  obtain ⟨hground, hvalues⟩ := unionOf_values hw hg hR (hnames.subset hc) hv.toFrom
  obtain ⟨hground', hvalues'⟩ := unionOf_values hw hg' hR' (hnames.subset hc') hv'.toFrom
  refine ⟨hground, hground', hvalues, hvalues', fun h => ?_, fun h => ?_⟩
  · have hu' := hv'.unionOf (hstored hc' hv'.toFrom)
    rw [← hvalues, ← hvalues', ← h]
    refine (hground.values hu.types ⟨hu'.types, ?_, hu'.classes.trans hu.classes.symm,
      hu'.aliases.trans hu.aliases.symm⟩).symm
    exact hk'.types.trans (TypeTable.unionOf_extends _ _)
  · have horders : s.types.literalOf.Orders (s.Atom ctx) :=
      hw.literalOf_orders (.primitive .boolean) .trueLiteral .falseLiteral
    have hflat := Session.Ground.flat hg
    have hflat' := Session.Ground.flat hg'
    obtain ⟨hsettled, -⟩ := horders.settled_insertAll hflat
    have hperm : children.Perm children' := by
      rw [hR, hR']
      refine horders.insertAll_perm hflat hflat' fun x hx => ?_
      simp only [spans_iff_values hw hflat hx, spans_iff_values hw hflat' hx, ← hw.mem_values, h]
    have hnames := (hnames.subset hc).extends hv.grown hw hv.types fun z hz => ((hatoms z (hc z hz)).form hw).1
    exact (hv.types.unionOf_perm (hstored hc hv.toFrom) hnames (hR ▸ hsettled.nodup) hperm hv'.types hk'.types).symm

example : ((ofBudget 5).unionAll [Ty.trueLiteral, Ty.falseLiteral] ⟨Declarations.empty.provider, {}, true⟩
    (.start initial .standard)).map Prod.fst = some Ty.boolean := by
  decide +kernel

/-- The classes `A`, `⟨10⟩`, and `B`, `⟨11⟩`, and the string `x`, `⟨12⟩`. -/
def namedTypes : TypeTable :=
  .ofForms ["A", "B", "x"] [.classRef ⟨3⟩ Marks.none, .classRef ⟨4⟩ Marks.none, .literal .string ⟨5⟩]

def namedStart : Session := .start namedTypes Limits.standard

def undeclared : Context := { provider := { classDecl := fun _ => none, aliasType := fun _ => none } }

theorem namedTypes_wf : namedTypes.WF := Orderly.wf (by decide)

theorem namedStart_atom : ∀ ty ∈ [Ty.boolean, Ty.string, Ty.trueLiteral, Ty.falseLiteral, ⟨10⟩, ⟨12⟩],
    namedStart.Atom undeclared ty := by
  have hclass : namedStart.types.lookup ⟨10⟩ = .classRef ⟨3⟩ Marks.none := by decide
  have hliteral : namedStart.types.lookup ⟨12⟩ = .literal .string ⟨5⟩ := by decide
  intro _ hty
  simp only [mem_cons, not_mem_nil, or_false] at hty
  rcases hty with rfl | rfl | rfl | rfl | rfl | rfl
  · exact .primitive .boolean
  · exact .primitive .string
  · exact .trueLiteral
  · exact .falseLiteral
  · refine .undeclared hclass ?_ ?_ (by decide)
    · unfold Session.classOf
      rw [show namedStart.classes[(⟨3⟩ : Symbol)]? = none from Std.TreeMap.getElem?_emptyc]
      rfl
    · unfold Session.aliasOf
      rw [show namedStart.aliases[(⟨3⟩ : Symbol)]? = none from Std.TreeMap.getElem?_emptyc]
      rfl
  · exact .literal (.inl rfl) hliteral

/-- The union of the string `x`, `A`, `true`, `string` and `false` is that of `boolean`, `void`, `A`, `string` and
`A` again. -/
theorem unionAll_eq_iff_values_named : ∃ r u u',
    (ofBudget 5).unionAll [⟨12⟩, ⟨10⟩, Ty.trueLiteral, Ty.string, Ty.falseLiteral] undeclared namedStart =
      some (r, u) ∧
    (ofBudget 5).unionAll [Ty.boolean, Ty.void, ⟨10⟩, Ty.string, ⟨10⟩] undeclared u = some (r, u') ∧
    namedTypes.values [⟨12⟩, ⟨10⟩, Ty.trueLiteral, Ty.string, Ty.falseLiteral] =
      namedTypes.values [Ty.boolean, Ty.void, ⟨10⟩, Ty.string, ⟨10⟩] := by
  have hground : ∀ ty ∈ [Ty.boolean, Ty.string, Ty.trueLiteral, Ty.falseLiteral, ⟨10⟩, ⟨12⟩, Ty.void],
      namedStart.Ground undeclared ty := by
    intro ty hty
    refine .of_flat ?_ fun z hz => namedStart_atom z ?_
    · revert ty
      decide +kernel
    · revert z ty
      decide +kernel
  have hnames : namedStart.types.NamesApart (Ty.boolean :: namedStart.types.flat
      ([⟨12⟩, ⟨10⟩, Ty.trueLiteral, Ty.string, Ty.falseLiteral] ++ [Ty.boolean, Ty.void, ⟨10⟩, Ty.string, ⟨10⟩])) := by
    unfold TypeTable.NamesApart
    decide +kernel
  obtain ⟨r, u, r', u', hr, hr', h⟩ := unionAll_eq_iff_values namedTypes_wf (fun _ => ⟨rfl, fun _ => rfl⟩)
    (fun ty hty => hground ty (by revert ty; decide)) (fun ty hty => hground ty (by revert ty; decide)) hnames
    (fun key hkey => by cases hkey) 0
  have hrun : ((do
      let r ← (ofBudget 5).unionAll [⟨12⟩, ⟨10⟩, Ty.trueLiteral, Ty.string, Ty.falseLiteral]
      let r' ← (ofBudget 5).unionAll [Ty.boolean, Ty.void, ⟨10⟩, Ty.string, ⟨10⟩]
      return decide (r = r') : Solve Bool) undeclared namedStart).map (fun r => (r.1, r.2.guard.exceeded)) = some (true, false) := by
    decide +kernel
  rw [Solve.run_bind hr, Solve.run_bind hr'] at hrun
  obtain ⟨he, hexceeded⟩ := Prod.mk.inj (Option.some.inj hrun)
  obtain rfl := of_decide_eq_true he
  exact ⟨r, u, u', hr, hr', (h hexceeded).2.2.2.2.1 rfl⟩

/-- Without these conditions order and repetition matter. A query that is canceled does not compare, so of two
classes the first one stays. A string stays beside `string` while `string` is being compared with itself. -/
theorem unionAll_hindered_ne :
    (namedTypes.values [⟨10⟩, ⟨11⟩] = namedTypes.values [⟨11⟩, ⟨10⟩] ∧
      ((do
        let r ← standard.unionAll [⟨10⟩, ⟨11⟩]
        let r' ← standard.unionAll [⟨11⟩, ⟨10⟩]
        return (r, r') : Solve (Ty × Ty)) undeclared { namedStart with canceled := true }).map
          (fun r => (r.1, r.2.guard.exceeded)) = some ((⟨10⟩, ⟨11⟩), false)) ∧
    (namedTypes.values [⟨12⟩, Ty.string] = namedTypes.values [Ty.string] ∧
      ((do
        let r ← standard.unionAll [⟨12⟩, Ty.string]
        let r' ← standard.unionAll [Ty.string]
        return decide (r = r') : Solve Bool) undeclared { namedStart with
          guard := (namedStart.guard.enter ⟨.superClass, false, .pair Ty.string Ty.string⟩).2 }).map
          (fun r => (r.1, r.2.guard.exceeded)) = some (false, false)) := by
  refine ⟨⟨?_, by decide +kernel⟩, ?_, by decide +kernel⟩
  · ext value
    simp [TypeTable.values, or_comm]
  · have hliteral : namedTypes.members ⟨12⟩ = [⟨12⟩] := by decide +kernel
    have hstring : namedTypes.members Ty.string = [Ty.string] := by decide +kernel
    have hsub : namedTypes.valuesOf ⟨12⟩ ⊆ namedTypes.valuesOf Ty.string :=
      namedTypes_wf.valuesOf_subset (by decide +kernel)
    ext value
    simpa [TypeTable.values, hliteral, hstring] using fun h => hsub h

end AnnotatedLua
