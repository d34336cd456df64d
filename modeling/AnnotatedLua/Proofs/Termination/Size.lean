/-
Heights of types. A type is higher than its parts, and a name is higher than what it unfolds to without a guard
(`Session.Measured`). There are such heights if the names can be put in layers, each of which unfolds to names of lower
layers (`Session.Layered.measured`).
-/
import AnnotatedLua.Proofs.Termination.Name

namespace AnnotatedLua

open TypeTable List

variable {decl : ClassDecl} {u : Session} {z : Ty} {k' bound d l l' : Nat} {t' : TypeTable}

/-! ## Heights -/

theorem FormOf.parts_of_leaf {form : Form} (h : form.kind ∈ [Kind.any, .nil, .void, .snippet]) : form.parts = [] := by
  cases form <;> first | rfl | simp at h

structure Heights where
  name : String → Nat
  tables : Bool

instance : CoeFun Heights fun _ => String → Nat := ⟨Heights.name⟩

namespace TypeTable

variable (c : Heights) (t : TypeTable)

/-- The type is at most this high, where a name is as high as `c` says. Instances of anything but `table` have no height. -/
inductive Sized : Ty → Nat → Prop
  | leaf {ty h} (hty : t.Has ty) (hkind : t.kind ty ∈ [Kind.any, .nil, .void, .snippet]) (hh : 1 ≤ h) :
    Sized ty h
  | primitive {ty kind h} (hl : t.lookup ty = .primitive kind) (hh : c kind.name + 4 ≤ h) :
    Sized ty h
  | literal {ty kind text h} (hl : t.lookup ty = .literal kind text)
      (hh : c kind.name + 5 ≤ h) : Sized ty h
  | classRef {ty name marks h} (hl : t.lookup ty = .classRef name marks)
      (hh : c (t.text name) + 3 ≤ h) : Sized ty h
  | union {ty parts k h} (hl : t.lookup ty = .union parts) (hparts : ∀ p ∈ parts, Sized p k)
      (hh : k + 1 ≤ h) : Sized ty h
  | compound {ty k h} (hkind : t.kind ty ∈ [Kind.array, .param, .aliasRef, .function, .results])
      (hparts : ∀ p ∈ (t.lookup ty).parts, Sized p k) (hh : k + 2 ≤ h) : Sized ty h
  | table {ty args k h} (hc : c.tables = true) (hl : t.lookup ty = .generic Ty.table args)
      (hparts : ∀ p ∈ Ty.table :: args, Sized p k) (hh : k + 2 ≤ h) : Sized ty h

variable {c t}

namespace Sized

variable {ty p : Ty} {h k : Nat}

section
variable (hs : t.Sized c ty h)
include hs

theorem mono (hk : h ≤ k) : t.Sized c ty k := by
  cases hs with
  | leaf hty hkind hh => exact .leaf hty hkind (hh.trans hk)
  | primitive hl hh => exact .primitive hl (hh.trans hk)
  | literal hl hh => exact .literal hl (hh.trans hk)
  | classRef hl hh => exact .classRef hl (hh.trans hk)
  | union hl hparts hh => exact .union hl hparts (hh.trans hk)
  | compound hkind hparts hh => exact .compound hkind hparts (hh.trans hk)
  | table hc hl hparts hh => exact .table hc hl hparts (hh.trans hk)

theorem pos : 1 ≤ h := by
  cases hs <;> omega

theorem has : t.Has ty := by
  by_contra hn
  have hl := lookup_of_not_has hn
  cases hs with
  | leaf hty => exact hn hty
  | primitive hl' | literal hl' | classRef hl' | union hl' | table _ hl' => rw [hl] at hl'; cases hl'
  | compound hkind =>
    rw [kind_of hl] at hkind
    revert hkind
    decide

/-- What the height says of the form. -/
theorem form : match t.lookup ty with
    | .classRef name _ => c (t.text name) + 3 ≤ h
    | .literal kind _ => c kind.name + 5 ≤ h
    | .primitive kind => c kind.name + 4 ≤ h
    | .generic base _ => c.tables = true ∧ base = Ty.table
    | _ => True := by
  cases hs with
  | leaf _ hkind | compound hkind =>
    unfold TypeTable.kind at hkind
    cases hl : t.lookup ty <;> simp [hl] at hkind ⊢
  | primitive hl hh | literal hl hh | classRef hl hh => rwa [hl]
  | union hl => rw [hl]; trivial
  | table hc hl => rw [hl]; exact ⟨hc, rfl⟩

/-- An instance that has a height is one of `table`. -/
theorem generic {base : Ty} {args : List Ty} (hl : t.lookup ty = .generic base args) :
    c.tables = true ∧ base = Ty.table := by simpa only [hl] using hs.form

theorem tabular : t.Tabular ty := fun _ _ hl => (hs.generic hl).2

theorem part (hp : p ∈ (t.lookup ty).parts) : t.Sized c p (h - 1) := by
  cases hs with
  | leaf _ hkind =>
    rw [FormOf.parts_of_leaf hkind] at hp
    cases hp
  | primitive hl | literal hl | classRef hl => rw [hl] at hp; cases hp
  | union hl hparts | table _ hl hparts =>
    rw [hl] at hp
    exact (hparts p hp).mono (by omega)
  | compound _ hparts => exact (hparts p hp).mono (by omega)

theorem part_compound (hu : t.kind ty ≠ .union) (hp : p ∈ (t.lookup ty).parts) : t.Sized c p (h - 2) ∧ 2 ≤ h := by
  cases hs with
  | leaf _ hkind =>
    rw [FormOf.parts_of_leaf hkind] at hp
    cases hp
  | primitive hl | literal hl | classRef hl => rw [hl] at hp; cases hp
  | union hl =>
    rw [kind_of hl] at hu
    exact absurd rfl hu
  | compound _ hparts => exact ⟨(hparts p hp).mono (by omega), by omega⟩
  | table _ hl hparts =>
    rw [hl] at hp
    exact ⟨(hparts p hp).mono (by omega), by omega⟩

theorem name {name : Symbol} {marks : Marks} (hl : t.lookup ty = .classRef name marks) : c (t.text name) + 3 ≤ h := by
  simpa only [hl] using hs.form

theorem literal_le {kind : Primitive} {text : Symbol} (hl : t.lookup ty = .literal kind text) : c kind.name + 5 ≤ h := by
  simpa only [hl] using hs.form

theorem primitive_le {kind : Primitive} (hl : t.lookup ty = .primitive kind) : c kind.name + 4 ≤ h := by
  simpa only [hl] using hs.form

theorem two_le (hkind : t.kind ty ∈ [Kind.array, .param, .aliasRef, .function, .results]) : 2 ≤ h := by
  cases hs with
  | leaf _ hkind' =>
    revert hkind hkind'
    generalize t.kind ty = kind
    cases kind <;> simp
  | primitive hl | literal hl | classRef hl | union hl | table _ hl =>
    rw [kind_of hl] at hkind
    simp at hkind
  | compound => omega
end

theorem «extends» {t' : TypeTable} (hw : t.WF) (hx : t.Extends t') (hs : t.Sized c ty h) : t'.Sized c ty h := by
  have hl := hx.lookup hs.has
  have hkind : t'.kind ty = t.kind ty := kind_of hl
  induction hs with
  | leaf hty hk hh => exact .leaf (hx.has hty) (hkind ▸ hk) hh
  | primitive hl' hh => exact .primitive (hl.trans hl') hh
  | literal hl' hh => exact .literal (hl.trans hl') hh
  | classRef hl' =>
    have hsymbol := hw.hasSymbol (by rw [hl']; exact mem_singleton.2 rfl)
    exact .classRef (hl.trans hl') (by rwa [hx.text hsymbol])
  | union hl' hparts hh ih =>
    exact .union (hl.trans hl') (fun p hp => ih p hp (hx.lookup (hparts p hp).has)
      (kind_of (hx.lookup (hparts p hp).has))) hh
  | compound hk hparts hh ih =>
    refine .compound (hkind ▸ hk) (fun p hp => ?_) hh
    rw [hl] at hp
    exact ih p hp (hx.lookup (hparts p hp).has) (kind_of (hx.lookup (hparts p hp).has))
  | table hc hl' hparts hh ih =>
    exact .table hc (hl.trans hl') (fun p hp => ih p hp (hx.lookup (hparts p hp).has)
      (kind_of (hx.lookup (hparts p hp).has))) hh

theorem members (hs : t.Sized c ty h) (hz : z ∈ t.members ty) : t.Sized c z h := by
  unfold TypeTable.members at hz
  split at hz
  · rename_i parts hl
    exact (hs.part (by rw [hl]; exact hz)).mono (by omega)
  · obtain rfl := mem_singleton.1 hz
    exact hs

theorem members_union (hs : t.Sized c ty h) (hkind : t.kind ty = .union) (hz : z ∈ t.members ty) :
    t.Sized c z (h - 1) := by
  unfold TypeTable.members at hz
  split at hz
  · rename_i parts hl
    exact hs.part (by rw [hl]; exact hz)
  · rename_i hl
    unfold kind at hkind
    cases hform : t.lookup ty with
    | union parts => exact absurd hform (hl parts)
    | _ => rw [hform] at hkind; cases hkind

end Sized

variable {ty : Ty}
variable {k : Nat}

theorem sized_of_members (hm : ∀ z ∈ t.members ty, t.Sized c z k) : t.Sized c ty (k + 1) := by
  unfold members at hm
  split at hm
  · rename_i parts hl
    exact .union hl hm (le_refl _)
  · exact (hm ty (mem_singleton.2 rfl)).mono (by omega)

variable (c t) in
def Within (k : Nat) (ty : Ty) : Prop := ∀ z ∈ t.members ty, t.Sized c z k

theorem Within.sized (h : t.Within c k ty) : t.Sized c ty (k + 1) := sized_of_members h

theorem exists_sized_all {l : List Ty} (h : ∀ z ∈ l, ∃ k, t.Sized c z k) : ∃ k, ∀ z ∈ l, t.Sized c z k := by
  induction l with
  | nil => exact ⟨0, by simp⟩
  | cons z rest ih =>
    obtain ⟨⟨k, hk⟩, hrest⟩ := forall_mem_cons.1 h
    obtain ⟨k', hk'⟩ := ih hrest
    exact ⟨max k k', forall_mem_cons.2 ⟨hk.mono (by omega), fun x hx => (hk' x hx).mono (by omega)⟩⟩

theorem Sized.within (h : t.Sized c ty k) : t.Within c k ty := fun _ hz => h.members hz

theorem Within.mono {k : Nat} (h : t.Within c k ty) (hk : k ≤ k') : t.Within c k' ty :=
  fun z hz => (h z hz).mono hk

theorem Within.extends {ty : Ty} (hw : t.WF) (hx : t.Extends t') (h : t.Within c k ty) : t'.Within c k ty := by
  intro z hz
  rw [hx.members h.sized.has] at hz
  exact (h z hz).extends hw hx

variable {h : Nat}

theorem WF.sized_builtin (hw : t.WF) {ty : Ty} (hty : ty.isBuiltin = true)
    (hkind : initial.kind ty ∈ [Kind.any, .nil, .void, .snippet]) (hh : 1 ≤ h) : t.Sized c ty h := by
  obtain ⟨hhas, hl⟩ := hw.lookup_builtin ty hty
  refine .leaf hhas ?_ hh
  unfold kind at hkind ⊢
  rwa [hl]

theorem WF.sized_any (hw : t.WF) (hh : 1 ≤ h) : t.Sized c Ty.any h :=
  hw.sized_builtin rfl (by decide) hh

theorem WF.sized_void (hw : t.WF) (hh : 1 ≤ h) : t.Sized c Ty.void h :=
  hw.sized_builtin rfl (by decide) hh

theorem WF.sized_nil (hw : t.WF) (hh : 1 ≤ h) : t.Sized c Ty.nil h :=
  hw.sized_builtin rfl (by decide) hh

theorem WF.sized_primitive (hw : t.WF) (kind : Primitive) : t.Sized c kind.type (c kind.name + 4) :=
  .primitive (hw.lookup_primitive kind) (le_refl _)

end TypeTable

/-! ## Heights of declarations -/

/-- The types that a class unfolds to without a guard: those of its signatures and its indexers. -/
def ClassDecl.unfolded (decl : ClassDecl) : List Ty :=
  decl.signatures.flatMap SignatureOf.parts ++ decl.members.flatMap fun member =>
    match member.key with
    | .index index => index :: member.type.toList
    | .field _ => []

structure TypeTable.SizedMember (c : Heights) (t : TypeTable) (k : Nat) (member : Member) : Prop where
  field : ∀ name, member.key = .field name → t.HasSymbol name
  type : ∀ ty, member.type = some ty → ∃ j, t.Sized c ty j
  index : ∀ index, member.key = .index index → t.Sized c index k ∧ ∀ ty, member.type = some ty → t.Sized c ty k

structure TypeTable.SizedClass (c : Heights) (t : TypeTable) (decl : ClassDecl) (h : Nat) : Prop where
  unfolded : ∃ k, 2 * k + 4 ≤ h ∧ ∀ ty ∈ decl.unfolded, t.Sized c ty k
  superClass : ∀ super, decl.superClass = some super → t.Sized c super (h + 3)
  members : ∀ member ∈ decl.members, ∀ ty, member.type = some ty → ∃ k, t.Sized c ty k
  fields : ∀ member ∈ decl.members, ∀ name, member.key = .field name → t.HasSymbol name
  shared : ∀ other, decl.otherName = some other → other ≠ decl.name → t.HasSymbol other ∧ c (t.text other) ≤ h
  params : decl.params = []

namespace TypeTable

variable {c : Heights} {t : TypeTable} {k h : Nat}

theorem SizedMember.extends {member : Member} (h : t.SizedMember c k member) (hw : t.WF) (hx : t.Extends t') :
    t'.SizedMember c k member where
  field name hkey := hx.hasSymbol (h.field name hkey)
  type ty hty := by
    obtain ⟨j, hj⟩ := h.type ty hty
    exact ⟨j, hj.extends hw hx⟩
  index index hkey := by
    obtain ⟨hindex, htype⟩ := h.index index hkey
    exact ⟨hindex.extends hw hx, fun ty hty => (htype ty hty).extends hw hx⟩

theorem SizedMember.mono {member : Member} (h : t.SizedMember c k member) (hk : k ≤ k') :
    t.SizedMember c k' member where
  field := h.field
  type := h.type
  index index hkey := by
    obtain ⟨hindex, htype⟩ := h.index index hkey
    exact ⟨hindex.mono hk, fun ty hty => (htype ty hty).mono hk⟩

theorem SizedClass.extends (hd : t.SizedClass c decl h) (hw : t.WF) (hx : t.Extends t') :
    t'.SizedClass c decl h where
  unfolded := by
    obtain ⟨k, hk, hsized⟩ := hd.unfolded
    exact ⟨k, hk, fun ty hty => (hsized ty hty).extends hw hx⟩
  superClass super hsuper := (hd.superClass super hsuper).extends hw hx
  members member hm ty hty := by
    obtain ⟨k, hk⟩ := hd.members member hm ty hty
    exact ⟨k, hk.extends hw hx⟩
  fields member hm name hkey := hx.hasSymbol (hd.fields member hm name hkey)
  shared other ho hne := by
    obtain ⟨hsymbol, _⟩ := hd.shared other ho hne
    exact ⟨hx.hasSymbol hsymbol, by rwa [hx.text hsymbol]⟩
  params := hd.params

theorem SizedClass.member (hd : t.SizedClass c decl h) :
    ∃ k, 2 * k + 4 ≤ h ∧ ∀ member ∈ decl.members, t.SizedMember c k member := by
  obtain ⟨k, hk, hsized⟩ := hd.unfolded
  refine ⟨k, hk, fun member hm => ⟨hd.fields member hm, hd.members member hm, fun index hkey => ?_⟩⟩
  have hmem {ty : Ty} (hty : ty ∈ index :: member.type.toList) : ty ∈ decl.unfolded := by
    refine mem_append_right _ (mem_flatMap.2 ⟨member, hm, ?_⟩)
    rw [hkey]
    exact hty
  refine ⟨hsized index (hmem (by simp)), fun ty hty => hsized ty (hmem ?_)⟩
  rw [hty]
  simp

end TypeTable

/-! ## What names stand for -/

section
variable (ctx : Context) (s : Session)

/-- Resolving the type leads to types that are low. On the way there may be aliases that lead back to each other, of
names whose rank is at most `b`. -/
inductive Session.Opens (low : Ty → Prop) (rank : String → Nat) (b : Nat) : Ty → Prop
  | low {ty} (h : low ty) : Opens low rank b ty
  | named {ty target name marks} (hl : s.types.lookup ty = .classRef name marks)
      (ht : s.standsFor ctx name marks = some target) (hne : target ≠ ty) (hb : rank (s.types.text name) ≤ b) :
    Opens low rank b ty
  | aliasRef {ty target name params} (hl : s.types.lookup ty = .aliasRef name params target)
      (hm : ∀ p ∈ s.types.members target, Opens low rank b p) : Opens low rank b ty

variable {ctx s} {low low' : Ty → Prop} {rank rank' : String → Nat} {b b' : Nat} {ty : Ty}

namespace Session.Opens

theorem has (hlow : ∀ ty, low ty → s.types.Has ty) (h : s.Opens ctx low rank b ty) : s.types.Has ty := by
  cases h with
  | low h => exact hlow ty h
  | named hl => exact has_of hl
  | aliasRef hl => exact has_of hl

theorem map (hw : s.types.WF) (hx : s.types.Extends u.types) (hstands : u.standsFor ctx = s.standsFor ctx)
    (hlow : ∀ ty, s.types.Has ty → low ty → low' ty) (hrank : ∀ text, rank text ≤ b → rank' text ≤ b')
    (hty : s.types.Has ty) (h : s.Opens ctx low rank b ty) : u.Opens ctx low' rank' b' ty := by
  induction h with
  | low h => exact .low (hlow _ hty h)
  | named hl ht hne =>
    have hsymbol := hw.hasSymbol (by rw [hl]; exact mem_singleton.2 rfl)
    refine .named ((hx.lookup (has_of hl)).trans hl) (by rwa [hstands]) hne (hrank _ ?_)
    rwa [hx.text hsymbol]
  | @aliasRef _ target _ _ hl hm ih =>
    have htarget : s.types.Has target := (hw.part_has hl (by simp))
    refine .aliasRef ((hx.lookup hty).trans hl) fun p hp => ?_
    rw [hx.members htarget] at hp
    exact ih p hp (hw.member_has htarget hp)

end Session.Opens
end

/-- What names are declared as is at most as high as `c` says. -/
structure Session.Measured (ctx : Context) (c : Heights) (s : Session) : Prop where
  types : s.types.WF
  aliases : ∀ name target, s.aliasSeen ctx name = some target → s.types.HasSymbol name ∧ s.types.Has target ∧
    ∀ p ∈ s.types.members target,
      s.Opens ctx (s.types.Sized c · (c (s.types.text name))) c.name (c (s.types.text name)) p
  classes : ∀ name decl, s.classOf ctx name = some decl →
    s.types.HasSymbol name ∧ s.types.SizedClass c decl (c (s.types.text name))
  receivers : ∀ text owner, Text.beforeEnding? selfEnding text = some owner → c owner < c text

namespace Session.Measured

variable {ctx : Context} {c : Heights} {s : Session}

section
variable (h : s.Measured ctx c)
include h

theorem transfer (hw : u.types.WF) (hx : s.types.Extends u.types) (hclass : u.classOf ctx = s.classOf ctx)
    (halias : u.aliasSeen ctx = s.aliasSeen ctx) (hstands : u.standsFor ctx = s.standsFor ctx) : u.Measured ctx c where
  types := hw
  aliases name target ha := by
    rw [halias] at ha
    obtain ⟨hsymbol, hhas, hopens⟩ := h.aliases name target ha
    rw [hx.text hsymbol, hx.members hhas]
    exact ⟨hx.hasSymbol hsymbol, hx.has hhas, fun p hp =>
      (hopens p hp).map h.types hx hstands (fun _ _ h' => h'.extends h.types hx) (fun _ => id)
        (h.types.member_has hhas hp)⟩
  classes name decl hd := by
    rw [hclass] at hd
    obtain ⟨hsymbol, hdecl⟩ := h.classes name decl hd
    rw [hx.text hsymbol]
    exact ⟨hx.hasSymbol hsymbol, hdecl.extends h.types hx⟩
  receivers := h.receivers

theorem later (hu : u.Past ctx s) : u.Measured ctx c :=
  h.transfer hu.types hu.grown hu.classes hu.aliasSeen hu.standsFor

theorem sized (hu : u.Past ctx s) {ty : Ty} {k : Nat} (hty : s.types.Sized c ty k) :
    u.types.Sized c ty k := hty.extends h.types hu.grown

theorem within (hu : u.Past ctx s) {ty : Ty} {k : Nat} (hty : s.types.Within c k ty) :
    u.types.Within c k ty := hty.extends h.types hu.grown

theorem setGuard (g : Guard GuardKey) : Session.Measured ctx c { s with guard := g } :=
  h.transfer h.types (.refl _) rfl rfl rfl
end

end Session.Measured

variable {ctx : Context}

theorem Session.Past.room {s : Session} (h : u.Past ctx s) : u.room = s.room := by
  unfold Session.room
  rw [h.kept.limits, h.kept.depth]

/-! ## Layers -/

inductive TypeTable.Mentions (t : TypeTable) : Ty → String → Prop
  | classRef {ty name marks} (hl : t.lookup ty = .classRef name marks) :
    Mentions t ty (t.text name)
  | primitive {ty kind} (hl : t.lookup ty = .primitive kind) : Mentions t ty kind.name
  | literal {ty kind text} (hl : t.lookup ty = .literal kind text) :
    Mentions t ty kind.name
  | part {ty p text} (hp : p ∈ (t.lookup ty).parts) (h : Mentions t p text) : Mentions t ty text

/-- The type mentions names of layers below this one alone. -/
def TypeTable.Below (level : String → Nat) (l : Nat) (t : TypeTable) (ty : Ty) : Prop :=
  ∀ text, t.Mentions ty text → level text < l

/-- Names can be put in layers: aliases, signatures and indexers lead to names of lower layers. Aliases that lead to
each other without anything but unions in between may be in one layer, and so may a class and its superclass. -/
structure Session.Layered (ctx : Context) (level : String → Nat) (s : Session) : Prop where
  aliases : ∀ name target, s.aliasSeen ctx name = some target → ∀ p ∈ s.types.members target,
    s.Opens ctx (s.types.Below level (level (s.types.text name))) level (level (s.types.text name)) p
  classes : ∀ name decl, s.classOf ctx name = some decl →
    ∀ ty ∈ decl.unfolded, s.types.Below level (level (s.types.text name)) ty
  supers : ∀ name decl super, s.classOf ctx name = some decl → decl.superClass = some super →
    s.types.Below level (level (s.types.text name)) super ∨
      ∃ other marks, s.types.lookup super = .classRef other marks ∧
        level (s.types.text other) ≤ level (s.types.text name)
  shared : ∀ name decl other, s.classOf ctx name = some decl → decl.otherName = some other → other ≠ decl.name →
    level (s.types.text other) ≤ level (s.types.text name)
  receivers : ∀ text owner, Text.beforeEnding? selfEnding text = some owner → level owner < level text
  params : ∀ name decl, s.classOf ctx name = some decl → decl.params = []
  instances : ∀ ty, s.types.Tabular ty

def TypeTable.nameHeight (c : Heights) (t : TypeTable) (ty : Ty) : Nat :=
  match t.lookup ty with
  | .classRef name _ => c (t.text name)
  | .primitive kind => c kind.name
  | .literal kind _ => c kind.name
  | _ => 0

theorem TypeTable.sized_of_parts {t : TypeTable} {c : Heights} {ty : Ty} {k h : Nat}
    (hgeneric : ∀ base args, t.lookup ty = .generic base args → c.tables = true ∧ base = Ty.table) (hty : t.Has ty) (hparts : ∀ p ∈ (t.lookup ty).parts, t.Sized c p k)
    (hname : t.nameHeight c ty + 5 ≤ h) (hk : k + 2 ≤ h) : t.Sized c ty h := by
  have hkind : t.kind ty = (t.lookup ty).kind := rfl
  unfold nameHeight at hname
  cases hl : t.lookup ty with
  | any | nil | void | snippet =>
    refine .leaf hty ?_ (by omega)
    rw [hkind, hl]
    simp
  | primitive => exact .primitive hl (by rw [hl] at hname; dsimp only at hname; omega)
  | literal => exact .literal hl (by rw [hl] at hname; exact hname)
  | classRef => exact .classRef hl (by rw [hl] at hname; dsimp only at hname; omega)
  | union =>
    rw [hl] at hparts
    exact .union hl hparts (by omega)
  | generic base args =>
    obtain ⟨hc, rfl⟩ := hgeneric base args hl
    rw [hl] at hparts
    exact .table hc hl hparts hk
  | array | param | aliasRef | function | results =>
    refine .compound ?_ hparts hk
    rw [hkind, hl]
    simp

theorem TypeTable.nameHeight_le {t : TypeTable} {c : Heights} {ty : Ty}
    (hc : ∀ text, t.Mentions ty text → c text ≤ bound) : t.nameHeight c ty ≤ bound := by
  unfold nameHeight
  split
  · rename_i hl
    exact hc _ (.classRef hl)
  · rename_i hl
    exact hc _ (.primitive hl)
  · rename_i hl
    exact hc _ (.literal hl)
  · exact Nat.zero_le _

section
variable {t : TypeTable} (hw : t.WF) {c : Heights} {ty : Ty}
  (hgeneric : ∀ ty base args, t.lookup ty = .generic base args → c.tables = true ∧ base = Ty.table)
include hw hgeneric

theorem TypeTable.WF.sized_of_mentions (hty : t.Has ty) (hc : ∀ text, t.Mentions ty text → c text ≤ bound) :
    t.Sized c ty (bound + 5 + 2 * (ty.index + 1)) := by
  obtain ⟨n, hn⟩ : ∃ n, ty.index = n := ⟨_, rfl⟩
  induction n using Nat.strong_induction_on generalizing ty with
  | _ n ih =>
    have := nameHeight_le hc
    refine sized_of_parts (hgeneric ty) (k := bound + 5 + 2 * ty.index) hty (fun p hp => ?_) (by omega) (by omega)
    obtain ⟨_, hhas⟩ := hw.part_lt hp
    exact (ih p.index (by omega) hhas (fun text h => hc text (.part hp h)) rfl).mono (by omega)

theorem TypeTable.WF.exists_sized (hty : t.Has ty) : ∃ h, t.Sized c ty h := by
  obtain ⟨n, hn⟩ : ∃ n, ty.index = n := ⟨_, rfl⟩
  induction n using Nat.strong_induction_on generalizing ty with
  | _ n ih =>
    have hparts : ∀ p ∈ (t.lookup ty).parts, ∃ k, t.Sized c p k := by
      intro p hp
      obtain ⟨_, hhas⟩ := hw.part_lt hp
      exact ih p.index (by omega) hhas rfl
    obtain ⟨k, hk⟩ := exists_sized_all hparts
    exact ⟨t.nameHeight c ty + k + 5, sized_of_parts (hgeneric ty) hty hk (by omega) (by omega)⟩
end

def layerHeight (d : Nat) : Nat → Nat
  | 0 => 2 * d + 4
  | l + 1 => 2 * (layerHeight d l + d) + 4

theorem layerHeight_le (h : l ≤ l') : layerHeight d l ≤ layerHeight d l' := by
  have hstep (l : Nat) : layerHeight d l ≤ layerHeight d (l + 1) := by
    rw [layerHeight.eq_2]
    omega
  exact monotone_nat_of_le_succ hstep h

theorem layerHeight_lt (h : l < l') : layerHeight d l < layerHeight d l' := by
  refine lt_of_lt_of_le ?_ (layerHeight_le h)
  rw [layerHeight.eq_2]
  omega

variable {s : Session}

theorem Session.Sound.decl_has (hs : s.Sound ctx) {name : Symbol}
    (hd : s.classOf ctx name = some decl) : (∀ ty ∈ decl.unfolded, s.types.Has ty) ∧
      (∀ super, decl.superClass = some super → s.types.Has super) ∧
      (∀ member ∈ decl.members, ∀ ty, member.type = some ty → s.types.Has ty) ∧
      (∀ member ∈ decl.members, ∀ name, member.key = .field name → s.types.HasSymbol name) ∧
      ∀ other, decl.otherName = some other → s.types.HasSymbol other := by
  have : Same hs.types.self decl decl := (hs.classes name decl hd).2
  have hmember : ∀ member ∈ decl.members, Same hs.types.self member member :=
    forall₂_same.1 (Same.get hs.types.self decl.members decl.members).out
  have hsignatures : ∀ signature ∈ decl.signatures,
      Same hs.types.self signature signature :=
    forall₂_same.1 (Same.get hs.types.self decl.signatures decl.signatures).out
  have htype : ∀ member ∈ decl.members, ∀ ty, member.type = some ty → s.types.Has ty := by
    intro member hm ty hty
    have := hmember member hm
    exact (sameTypeOption_iff.1 (Same.get hs.types.self member.type member.type)).1
      ty hty
  refine ⟨fun ty hty => ?_, fun super hsuper => ?_, htype, fun member hm _ hkey => ?_, fun _ ho => ?_⟩
  · rcases mem_append.1 hty with hty | hty
    · obtain ⟨signature, hsignature, hty⟩ := mem_flatMap.1 hty
      exact (sameSignature_iff.1 (hsignatures signature hsignature)).1.parts ty hty
    · obtain ⟨member, hm, hty⟩ := mem_flatMap.1 hty
      have := hmember member hm
      have hkey : Same hs.types.self member.key member.key := inferInstance
      cases hk : member.key with
      | field => rw [hk] at hty; cases hty
      | index =>
        rw [hk] at hty hkey
        rcases mem_cons.1 hty with rfl | hty
        · obtain ⟨hkey⟩ := hkey
          cases hkey
          exact (sameType_iff.1 ‹_›).1
        · exact htype member hm ty (Option.mem_toList.1 hty)
  · exact (sameTypeOption_iff.1 (Same.get hs.types.self decl.superClass
      decl.superClass)).1 super hsuper
  · have := hmember member hm
    have hsame : Same hs.types.self member.key member.key := inferInstance
    rw [hkey] at hsame
    obtain ⟨hsame⟩ := hsame
    cases hsame
    exact (sameSymbol_iff.1 ‹_›).1
  · have hother : Same hs.types.self decl.otherName decl.otherName := inferInstance
    rw [ho] at hother
    obtain ⟨hother⟩ := hother
    cases hother with
    | some h => exact (sameSymbol_iff.1 h).1

variable {level : String → Nat} {tables : Bool}

theorem Session.Layered.generic (h : s.Layered ctx level)
    (htables : tables = false → ∀ ty, s.types.kind ty ≠ .generic) (ty base : Ty) (args : List Ty)
    (hl : s.types.lookup ty = .generic base args) : tables = true ∧ base = Ty.table := by
  refine ⟨?_, h.instances ty base args hl⟩
  cases tables with
  | true => rfl
  | false => exact absurd (kind_of hl) (htables rfl ty)

def layerHeights (size : Nat) (level : String → Nat) (tables : Bool) : Heights :=
  ⟨fun text => layerHeight (2 * size + 5) (level text), tables⟩

theorem Session.Layered.measured (h : s.Layered ctx level)
    (hs : s.Sound ctx) (htables : tables = false → ∀ ty, s.types.kind ty ≠ .generic) :
    s.Measured ctx (layerHeights s.types.size level tables) := by
  have hgeneric := h.generic htables
  have hname (text : String) :
      layerHeights s.types.size level tables text = layerHeight (2 * s.types.size + 5) (level text) := rfl
  have hsize {l : Nat} : 4 ≤ layerHeight (2 * s.types.size + 5) l := by
    cases l <;> rw [layerHeight] <;> omega
  -- what mentions names of lower layers alone is less than half as high as the layer
  have hbelow {l : Nat} {ty : Ty} (hty : s.types.Has ty) (hm : s.types.Below level l ty) :
      s.types.Sized (layerHeights s.types.size level tables) ty ((layerHeight (2 * s.types.size + 5) l - 4) / 2) := by
    have hindex : ty.index < s.types.size := hty
    cases l with
    | zero =>
      have hc : ∀ text, s.types.Mentions ty text → layerHeight (2 * s.types.size + 5) (level text) ≤ 0 :=
        fun text h => absurd (hm text h) (by omega)
      refine (hs.types.sized_of_mentions hgeneric hty hc).mono ?_
      rw [layerHeight]
      omega
    | succ l =>
      have hc : ∀ text, s.types.Mentions ty text → layerHeight (2 * s.types.size + 5) (level text) ≤
          layerHeight (2 * s.types.size + 5) l := fun text h => layerHeight_le (by have := hm text h; omega)
      refine (hs.types.sized_of_mentions hgeneric hty hc).mono ?_
      rw [layerHeight.eq_2]
      omega
  have halias : ∀ name target, s.aliasSeen ctx name = some target → s.aliasOf ctx name = some target := by
    intro name target ha
    unfold Session.aliasSeen at ha
    split at ha
    · cases ha
    · exact ha
  refine ⟨hs.types, fun name target ha => ?_, fun name decl hd => ?_,
    fun text owner ho => layerHeight_lt (h.receivers text owner ho)⟩
  · obtain ⟨hsymbol, htarget⟩ := hs.aliases name target (halias name target ha)
    have hhas := (sameType_iff.1 htarget).1
    refine ⟨hsymbol, hhas, fun p hp => ?_⟩
    refine (h.aliases name target ha p hp).map hs.types (.refl _) rfl (fun ty hty hlow => ?_) (fun _ => layerHeight_le)
      (hs.types.member_has hhas hp)
    exact (hbelow hty hlow).mono (by rw [hname]; omega)
  · obtain ⟨hunfolded, hsuper, hmembers, hfields, hother⟩ := hs.decl_has hd
    refine ⟨(hs.classes name decl hd).1, ⟨⟨_, ?_, fun ty hty => hbelow (hunfolded ty hty) (h.classes name decl hd ty hty)⟩,
      fun super he => ?_, fun member hm ty hty => ?_, hfields, fun other ho hne => ?_, h.params name decl hd⟩⟩
    · have := hsize (l := level (s.types.text name))
      rw [hname]
      omega
    · rcases h.supers name decl super hd he with hlow | ⟨other, marks, hl, hle⟩
      · exact (hbelow (hsuper super he) hlow).mono (by rw [hname]; omega)
      · exact .classRef hl (Nat.add_le_add_right (layerHeight_le hle) 3)
    · exact hs.types.exists_sized hgeneric (hmembers member hm ty hty)
    · exact ⟨hother other ho, layerHeight_le (h.shared name decl other hd ho hne)⟩

end AnnotatedLua
