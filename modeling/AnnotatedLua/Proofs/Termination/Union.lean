/-
Unions and lists of values end wherever the comparisons of their members do (`Session.Joins`). A union is made of
members of the types that go into it (`ends_unionAll`), and a position of a list of what the lists in it hold
(`ends_resultAt`).
-/
import AnnotatedLua.Proofs.Termination.Run

namespace AnnotatedLua

open Solve Solver List
open TypeTable (kind_of members_eq_self)

variable {ty z b : Ty} {flat flat' children positions : List Ty} {ctx : Context} {s u : Session} {t : TypeTable}
  {m : Merge} {k : Nat}

/-! ## What a union is made of -/

def PartFrom (flat : List Ty) (ty : Ty) : Prop :=
  ty = Ty.void ∨ ty ∈ flat ∨ ty = Ty.boolean ∧ ∃ literal ∈ flat, (otherBoolean? literal).isSome

theorem PartFrom.mono (h : PartFrom flat ty) (hf : flat ⊆ flat') : PartFrom flat' ty :=
  h.imp_right (Or.imp (@hf _) (And.imp_right fun ⟨literal, hl, hb⟩ => ⟨literal, hf hl, hb⟩))

namespace TypeTable

def UnionFrom (t : TypeTable) (flat : List Ty) (ty : Ty) : Prop :=
  PartFrom flat ty ∨ ∃ l, t.lookup ty = .union l ∧ l.length ≤ flat.length ∧ ∀ z ∈ l, PartFrom flat z

theorem UnionFrom.mono (h : t.UnionFrom flat ty) (hf : flat.Sublist flat') : t.UnionFrom flat' ty := by
  rcases h with h | ⟨l, hl, hlen, hm⟩
  · exact .inl (h.mono hf.subset)
  · exact .inr ⟨l, hl, hlen.trans hf.length_le, fun z hz => (hm z hz).mono hf.subset⟩

theorem UnionFrom.of_members (h : flat = t.members ty) : t.UnionFrom flat ty := by
  unfold TypeTable.members at h
  split at h
  · rename_i parts hl
    exact .inr ⟨parts, hl, by rw [h], fun z hz => .inr (.inl (h ▸ hz))⟩
  · exact .inl (.inr (.inl (by simp [h])))

end TypeTable

theorem Solver.unionOf_eq_store (children : List Ty) : Solver.unionOf children = store (.unionOf children) := by
  match children with
  | [] => rfl
  | [_] => rfl
  | _ :: _ :: _ => rfl

/-! ## Joining types -/

structure Session.Joins [Solvers] (ctx : Context) (s : Session) (P W : TypeTable → Ty → Prop) : Prop where
  types : s.types.WF
  later : ∀ u v : Session, u.Past ctx s → v.Past ctx u → ∀ z, P u.types z → P v.types z
  wholeLater : ∀ u v : Session, u.Past ctx s → v.Past ctx u → ∀ ty, W u.types ty → W v.types ty
  has : ∀ u : Session, u.Past ctx s → ∀ z, P u.types z → u.types.Has z
  void : ∀ u : Session, u.Past ctx s → P u.types Ty.void
  nil : ∀ u : Session, u.Past ctx s → P u.types Ty.nil
  boolean : ∀ u : Session, u.Past ctx s → ∀ literal, P u.types literal → (otherBoolean? literal).isSome →
    P u.types Ty.boolean
  members : ∀ u : Session, u.Past ctx s → ∀ ty, W u.types ty → ∀ z ∈ u.types.members ty, P u.types z
  single : ∀ u : Session, u.Past ctx s → ∀ z, P u.types z → W u.types z
  union : ∀ u : Session, u.Past ctx s → ∀ ty l, u.types.lookup ty = .union l → l.Nodup → (∀ z ∈ l, P u.types z) →
    W u.types ty
  subsumes : ∀ u : Session, u.Past ctx s → ∀ x y, P u.types x → P u.types y → u.Stops ctx fun S => S.subsumes x y

section
variable [Solvers] {P W : TypeTable → Ty → Prop} (hj : s.Joins ctx P W)
include hj

namespace Session.Joins

theorem «at» (hu : u.Past ctx s) : u.Joins ctx P W where
  types := hu.types
  later _ _ hv := hj.later _ _ (hu.trans hv)
  wholeLater _ _ hv := hj.wholeLater _ _ (hu.trans hv)
  has _ hv := hj.has _ (hu.trans hv)
  void _ hv := hj.void _ (hu.trans hv)
  nil _ hv := hj.nil _ (hu.trans hv)
  boolean _ hv := hj.boolean _ (hu.trans hv)
  members _ hv := hj.members _ (hu.trans hv)
  single _ hv := hj.single _ (hu.trans hv)
  union _ hv := hj.union _ (hu.trans hv)
  subsumes _ hv := hj.subsumes _ (hu.trans hv)

theorem keep (hu : u.Past ctx s) (h : P s.types z) : P u.types z := hj.later s u (.of_wf hj.types) hu z h

theorem keepWhole (hu : u.Past ctx s) (h : W s.types ty) : W u.types ty :=
  hj.wholeLater s u (.of_wf hj.types) hu ty h

theorem wholeNil : W s.types Ty.nil := hj.single s (.of_wf hj.types) _ (hj.nil s (.of_wf hj.types))

theorem wholeHas (h : W s.types ty) : s.types.Has ty := by
  by_contra hn
  have hmembers : s.types.members ty = [ty] := by
    unfold TypeTable.members
    rw [TypeTable.lookup_of_not_has hn]
  have hu : s.Past ctx s := .of_wf hj.types
  exact hn (hj.has s hu ty (hj.members s hu ty h ty (by simp [hmembers])))

theorem lasting : s.Lasting ctx fun ty u => W u.types ty := fun ty u v hu hv => hj.wholeLater u v hu hv ty

theorem part (hflat : ∀ z ∈ flat, P s.types z) (h : PartFrom flat z) : P s.types z := by
  rcases h with rfl | hz | ⟨rfl, literal, hl, hb⟩
  · exact hj.void s (.of_wf hj.types)
  · exact hflat z hz
  · exact hj.boolean s (.of_wf hj.types) literal (hflat literal hl) hb

end Session.Joins

/-! ### Members -/

section
variable {member : Ty} (hc : ∀ x ∈ children, P s.types x) (hm : P s.types member)
include hc hm

theorem ends_appendMember (hn : children.Nodup) (hnew : member ∉ children) :
    s.Ends ctx (·.appendMember children member) fun r _ =>
      r.Nodup ∧ r ⊆ member :: children ∧ r.length ≤ children.length + 1 := by
  refine (ends_filterM hj.types fun x hx u hu => ?_).bind fun kept u hu hkept => .pure hu.types ⟨?_, fun x hx => ?_, ?_⟩
  · exact (hj.subsumes u hu _ _ (hj.keep hu hm) (hj.keep hu (hc x hx))).bind fun _ _ hv _ => .pure hv.types trivial
  · exact (hkept.nodup hn).append (nodup_singleton _) (by simpa using fun h => hnew (hkept.subset h))
  · rcases mem_append.1 hx with hx | hx
    · exact mem_cons_of_mem _ (hkept.subset hx)
    · exact mem_cons.2 (.inl (mem_singleton.1 hx))
  · simpa using hkept.length_le

theorem ends_covers : s.Ends ctx (·.covers children member) fun b _ => b = false → member ∉ children := by
  refine .early hj.types nofun fun hn => ?_
  have hmember : member ∉ children := fun h => hn (contains_iff_mem.2 h)
  refine (ends_anyM hj.types fun x hx u hu => ?_).imp fun b u _ _ _ => hmember
  exact hj.subsumes u hu _ _ (hj.keep hu (hc x hx)) (hj.keep hu hm)

theorem ends_insertPlain (hn : children.Nodup) : s.Ends ctx (·.insertPlain children member) fun r _ =>
    r.Nodup ∧ r ⊆ member :: children ∧ r.length ≤ children.length + 1 := by
  refine (ends_covers hj hc hm).bind fun b u hu hb => ?_
  cases b with
  | true => exact .pure hu.types ⟨hn, subset_cons_self .., by simp⟩
  | false =>
    exact ends_appendMember (hj.at hu) (fun x hx => hj.keep hu (hc x hx)) (hj.keep hu hm) hn (hb rfl)

/-- Putting one more type into a union drops members, or makes two literals one `boolean`. -/
theorem ends_insertMember (hn : children.Nodup) : s.Ends ctx (·.insertMember children member) fun r _ =>
    r.Nodup ∧ (∀ w ∈ r, w ∈ children ∨ PartFrom [member] w) ∧ r.length ≤ children.length + 1 := by
  refine (ends_covers hj hc hm).bind fun b u hu hb => ?_
  refine .early hu.types ⟨hn, fun w hw => .inl hw, by omega⟩ fun hfalse => ?_
  have happend : u.Ends ctx (·.appendMember children member) fun r _ =>
      r.Nodup ∧ (∀ w ∈ r, w ∈ children ∨ PartFrom [member] w) ∧ r.length ≤ children.length + 1 := by
    refine (ends_appendMember (hj.at hu) (fun x hx => hj.keep hu (hc x hx)) (hj.keep hu hm) hn
      (hb (by simpa using hfalse))).imp fun r v _ ⟨hnodup, hsub, hlen⟩ => ⟨hnodup, fun w hw => ?_, hlen⟩
    exact (mem_cons.1 (hsub hw)).symm.imp_right fun h => .inr (.inl (mem_singleton.2 h))
  cases ho : otherBoolean? member with
  | none => exact happend
  | some other =>
    refine .ite (fun _ => ?_) fun _ => happend
    have hboolean : PartFrom [member] Ty.boolean := .inr (.inr ⟨rfl, member, by simp, by rw [ho]; rfl⟩)
    have hp : P u.types Ty.boolean := hj.keep hu (hj.part (by simpa using hm) hboolean)
    refine (ends_insertPlain (hj.at hu) (fun x hx => hj.keep hu (hc x (mem_of_mem_erase hx))) hp
      (hn.erase other)).imp ?_
    rintro r v - ⟨hnodup, hsub, hlen⟩
    have := length_erase_le (a := other) (l := children)
    refine ⟨hnodup, fun w hw => ?_, by omega⟩
    rcases mem_cons.1 (hsub hw) with rfl | hw
    · exact .inr hboolean
    · exact .inl (mem_of_mem_erase hw)
end

theorem ends_insertMembers (hf : ∀ x ∈ flat, P s.types x) (hc : ∀ x ∈ children, P s.types x)
    (hn : children.Nodup) : s.Ends ctx (fun S => flat.foldlM S.insertMember children) fun r _ =>
      r.Nodup ∧ (∀ w ∈ r, w ∈ children ∨ PartFrom flat w) ∧ r.length ≤ children.length + flat.length := by
  induction flat generalizing s children with
  | nil => exact .pure hj.types ⟨hn, fun w hw => .inl hw, by simp⟩
  | cons member flat ih =>
    obtain ⟨hm, hf⟩ := forall_mem_cons.1 hf
    simp only [foldlM_cons]
    refine (ends_insertMember hj hc hm hn).bind ?_
    rintro kept u hu ⟨hnodup, hkept, hlen⟩
    have hk : ∀ x ∈ kept, P u.types x := by
      intro x hx
      rcases hkept x hx with hx | hx
      · exact hj.keep hu (hc x hx)
      · exact hj.keep hu (hj.part (by simpa using hm) hx)
    refine (ih (hj.at hu) (fun x hx => hj.keep hu (hf x hx)) hk hnodup).imp ?_
    rintro r v - ⟨hnodup, hr, hlen'⟩
    refine ⟨hnodup, fun w hw => ?_, by simp only [length_cons]; omega⟩
    rcases hr w hw with hw | hw
    · exact (hkept w hw).imp_right (·.mono (by simp))
    · exact .inr (hw.mono (subset_cons_self ..))

/-! ### Unions -/

theorem ends_unionAll {types : List Ty} (ht : ∀ x ∈ types, W s.types x) : s.Ends ctx (·.unionAll types)
    fun r u => W u.types r ∧ u.types.UnionFrom (s.types.flat types) r := by
  have hflat : ∀ x ∈ s.types.flat types, P s.types x := by
    intro x hx
    obtain ⟨ty, hty, hx⟩ := mem_flatMap.1 (mem_filter.1 hx).1
    exact hj.members s (.of_wf hj.types) ty (ht ty hty) x hx
  refine (ends_ofTypes hj.types (Q := fun flat u => s = u ∧ flat = s.types.flat types) ⟨rfl, rfl⟩).bind ?_
  rintro _ _ - ⟨rfl, rfl⟩
  refine (ends_ofTypes hj.types (Q := fun _ u => s = u) rfl).bind ?_
  rintro hasResults _ - rfl
  refine .ite (fun hany => ?_) fun _ => ?_
  · obtain ⟨x, hx, hisAny⟩ := any_eq_true.1 (Bool.and_eq_true_iff.1 hany).2
    obtain rfl : x = Ty.any := by simpa [Ty.isAny] using hisAny
    exact .pure hj.types ⟨hj.single s (.of_wf hj.types) _ (hflat _ hx), .inl (.inr (.inl hx))⟩
  refine (ends_insertMembers hj hflat (by simp) nodup_nil).bind ?_
  rintro children u hu ⟨hnodup, hchildren, hlen⟩
  have hjoined : ∀ w ∈ children, PartFrom (s.types.flat types) w := by simpa using hchildren
  have hpart : ∀ w, PartFrom (s.types.flat types) w → P s.types w := fun w => hj.part hflat
  obtain ⟨hw, hcases⟩ := hu.types.unionOf_cases fun w hw => hj.has u hu w (hj.keep hu (hpart w (hjoined w hw)))
  show u.Ends ctx (fun _ => Solver.unionOf children) _
  rw [unionOf_eq_store]
  refine (ends_store (u.types.unionOf_extends children) hw).imp ?_
  rintro r v hv ⟨rfl, hv'⟩
  have hsv := hu.trans hv
  have hone {w : Ty} (h : PartFrom (s.types.flat types) w) : W v.types w ∧ v.types.UnionFrom (s.types.flat types) w :=
    ⟨hj.single v hsv w (hj.keep hsv (hpart w h)), .inl h⟩
  rcases hcases with ⟨he, -⟩ | hm | ⟨l, hl, hsub⟩
  · exact hone (.inl he)
  · exact hone (hjoined _ hm)
  · have hl' : v.types.lookup (Interning.unionOf children u.types).1 = .union l := hv' ▸ hl
    obtain ⟨_, hperm, hsublist⟩ := hsub
    have hmem : ∀ z ∈ l, PartFrom (s.types.flat types) z := fun z hz =>
      hjoined z (hsublist.subset (hperm.symm.subset hz))
    have hle := hperm.length_eq.symm.trans_le hsublist.length_le
    refine ⟨hj.union v hsv _ l hl' (hperm.nodup_iff.1 (hsublist.nodup hnodup)) fun z hz => ?_, .inr ⟨l, hl', ?_, hmem⟩⟩
    · exact hj.keep hsv (hpart z (hmem z hz))
    · simp only [length_nil, Nat.zero_add] at hlen
      exact hle.trans hlen

theorem ends_union {a : Ty} (ha : W s.types a) (hb : W s.types b) :
    s.Ends ctx (·.union a b) fun r u => W u.types r := by
  refine .early hj.types ha fun _ => .early hj.types hb fun _ =>
    .early hj.types ha fun _ => ?_
  exact (ends_unionAll hj (by simp [ha, hb])).imp fun _ _ _ h => h.1

theorem ends_unionWith {acc : Option Ty} (ha : ∀ a, acc = some a → W s.types a) (hb : W s.types b) :
    s.Ends ctx (·.unionWith acc b) fun r u => W u.types r := by
  cases acc with
  | none => exact .pure hj.types hb
  | some a => exact ends_union hj (ha a rfl) hb

/-! ## Lists of values -/

structure Solver.Merge.Of (listed : Prop) (W : TypeTable → Ty → Prop) (t : TypeTable) (m : Merge) : Prop where
  positions : ∀ p ∈ m.positions, W t p
  tail : ∀ ty, m.tail = some ty → W t ty
  short : listed ∨ m.positions.length ≤ 1 ∧ m.tail = none

theorem ends_widenFrom (hp : ∀ p ∈ positions, W s.types p) (hty : W s.types ty)
    (start : Nat) : s.Ends ctx (·.widenFrom start ty positions) fun r u =>
      (∀ p ∈ r, W u.types p) ∧ r.length = positions.length := by
  refine (ends_mapM_forall₂ (J := fun _ r u => W u.types r) hj.types (fun _ _ => hj.lasting) fun p hm u hu => ?_).bind
    fun _ u hu hw => .pure hu.types ⟨forall_mem_append.2 ⟨fun p hm => ?_, ?_⟩, ?_⟩
  · exact ends_union (hj.at hu) (hj.keepWhole hu (hp p (mem_of_mem_drop hm))) (hj.keepWhole hu hty)
  · exact hj.keepWhole hu (hp p (mem_of_mem_take hm))
  · exact forall₂_right hw
  · simp [← hw.length_eq]
    omega

section
variable {listed : Prop} (hm : m.Of listed W s.types)
include hm

omit hm in
theorem Solver.Merge.Of.later (hm : m.Of listed W s.types) (hu : u.Past ctx s) : m.Of listed W u.types :=
  ⟨fun p hp => hj.keepWhole hu (hm.positions p hp), fun ty hty => hj.keepWhole hu (hm.tail ty hty), hm.short⟩

theorem ends_beyond (hty : W s.types ty) : s.Ends ctx (·.beyond m ty) fun r u => W u.types r := by
  refine (ends_unionWith hj hm.tail hty).bind fun _ u hu hw => ?_
  refine .early hu.types hw fun _ => ?_
  exact ends_union (hj.at hu) hw (hj.at hu).wholeNil

theorem ends_mergeValue (hp : ∀ p ∈ positions, W s.types p) (next : Results) {value : Ty × Nat}
    (hv : W s.types value.1) : s.Ends ctx (·.mergeValue m next positions value) fun r u => ∀ p ∈ r, W u.types p := by
  obtain ⟨_, index⟩ := value
  unfold Solver.mergeValue
  dsimp only
  cases ho : positions[index]? with
  | some old =>
    refine (ends_union hj (hp old (mem_of_getElem? ho)) hv).bind fun _ u hu hunited =>
      .pure hu.types fun p hm => ?_
    rcases mem_or_eq_of_mem_set hm with hm | rfl
    · exact hj.keepWhole hu (hp p hm)
    · exact hunited
  | none =>
    refine .early hj.types hp fun _ => ?_
    refine (ends_beyond hj hm hv).bind fun new u hu hnew => .pure hu.types ?_
    exact forall_mem_append.2 ⟨fun p hm => hj.keepWhole hu (hp p hm), by simpa using hnew⟩

theorem ends_mergeList (hlisted : listed) {next : Results} (hn : ∀ ty ∈ next.types, W s.types ty) :
    s.Ends ctx (·.mergeList m next) fun r u => r.Of listed W u.types := by
  have hfold := ends_foldlM (l := next.types.zipIdx) (f := fun S => S.mergeValue m next) (b := m.positions) hj.types
    (J := fun positions u => ∀ p ∈ positions, W u.types p) hm.positions fun _ hvalue u positions hu hp =>
      ends_mergeValue (hj.at hu) (hm.later hj hu) hp next (hj.keepWhole hu (hn _ (fst_mem_of_mem_zipIdx hvalue)))
  refine hfold.bind fun positions u hu hp => ?_
  have hshort : u.Ends ctx (fun S => (do
      let positions ← S.widenFrom next.types.length Ty.nil positions
      return { positions, tail := m.tail, fresh := false } : Solve Merge)) fun r v => r.Of listed W v.types := by
    refine (ends_widenFrom (hj.at hu) hp (hj.at hu).wholeNil _).bind fun positions v hv hp => ?_
    exact .pure hv.types ⟨hp.1, (hm.later hj (hu.trans hv)).tail, .inl hlisted⟩
  match hvariadic : next.variadic, hlast : next.types.getLast? with
  | true, some last =>
    have hlast' : W u.types last := hj.keepWhole hu (hn last (mem_of_getLast? hlast))
    refine (ends_widenFrom (hj.at hu) hp hlast' _).bind fun _ v hv hp => ?_
    have hv' := hu.trans hv
    refine (ends_unionWith (hj.at hv') (hm.later hj hv').tail ((hj.at hu).keepWhole hv hlast')).bind
      fun _ w hw hunited => .pure hw.types ⟨fun p hm => (hj.at hv').keepWhole hw (hp.1 p hm), ?_, .inl hlisted⟩
    rintro _ ⟨⟩
    exact hunited
  | true, none => exact hshort
  | false, some _ => exact hshort
  | false, none => exact hshort

theorem ends_mergeSingle (hty : W s.types ty) : s.Ends ctx (·.mergeSingle m ty) fun r u => r.Of listed W u.types := by
  refine (ends_unionWith hj (fun p hp => hm.positions p (mem_of_head? hp)) hty).bind fun _ u hu hfirst => ?_
  refine (ends_widenFrom (hj.at hu) (forall_mem_cons.2 ⟨hfirst, fun p hp =>
    hj.keepWhole hu (hm.positions p (mem_of_mem_tail hp))⟩) (hj.at hu).wholeNil 1).bind fun positions v hv hp => ?_
  refine .pure hv.types ⟨hp.1, (hm.later hj (hu.trans hv)).tail, hm.short.imp_right fun ⟨hlen, htail⟩ => ⟨?_, htail⟩⟩
  have := hp.2
  simp only [length_cons, length_tail] at this
  show positions.length ≤ 1
  omega
end

structure TypeTable.Mergeable (W : TypeTable → Ty → Prop) (t : TypeTable) (z : Ty) : Prop where
  list : ∀ types variadic, t.lookup z = .results types variadic → ∀ p ∈ types, W t p
  single : t.kind z ≠ .results → W t z

theorem ends_mergeResults (hparts : ∀ z ∈ s.types.members ty, s.types.Mergeable W z) :
    s.Ends ctx (·.mergeResults ty) fun r u => W u.types r ∨ ∃ types variadic,
      u.types.lookup r = .results types variadic ∧ (∀ p ∈ types, W u.types p) ∧
        (types = [] ∨ ∃ z ∈ s.types.members ty, s.types.kind z = .results) := by
  refine .lookup hj.types ty fun form hform => ?_
  have hsingle (hne : s.types.kind ty ≠ .union) : W s.types ty ∨ ∃ types variadic,
      s.types.lookup ty = .results types variadic ∧ (∀ p ∈ types, W s.types p) ∧
        (types = [] ∨ ∃ z ∈ s.types.members ty, s.types.kind z = .results) := by
    have hmembers := members_eq_self hne
    obtain ⟨hlist, hone⟩ := hparts ty (by simp [hmembers])
    by_cases hkind : s.types.kind ty = .results
    · obtain ⟨types, variadic, hl⟩ : ∃ types variadic, s.types.lookup ty = .results types variadic := by
        unfold TypeTable.kind at hkind
        cases hl : s.types.lookup ty <;> rw [hl] at hkind <;> first | exact ⟨_, _, rfl⟩ | cases hkind
      exact .inr ⟨types, variadic, hl, hlist types variadic hl, .inr ⟨ty, by simp [hmembers], hkind⟩⟩
    · exact .inl (hone hkind)
  cases form with
  | union parts =>
    have hmembers : s.types.members ty = parts := by
      unfold TypeTable.members
      rw [← hform]
    rw [hmembers] at hparts ⊢
    have hfold : s.Ends ctx (fun S => parts.foldlM S.mergeMember {}) fun m u =>
        m.Of (∃ z ∈ parts, s.types.kind z = .results) W u.types :=
      ends_foldlM hj.types ⟨nofun, nofun, .inr ⟨by simp, rfl⟩⟩ fun z hz u m hu hm => by
        have hhas : s.types.Has z := (hj.types.part_has hform.symm hz)
        refine .lookup hu.types z fun form hlookup => ?_
        rw [hu.grown.lookup hhas] at hlookup
        cases form with
        | results types variadic =>
          refine ends_mergeList (hj.at hu) hm ⟨z, hz, ?_⟩ fun p hp => ?_
          · unfold TypeTable.kind
            rw [← hlookup]
            rfl
          · exact hj.keepWhole hu ((hparts z hz).list types variadic hlookup.symm p hp)
        | _ =>
          refine ends_mergeSingle (hj.at hu) hm (hj.keepWhole hu ((hparts z hz).single ?_))
          unfold TypeTable.kind
          rw [← hlookup]
          nofun
    refine hfold.bind fun m u hu hm => ?_
    -- unless it is a single type, a list is stored
    have hstore (h : m.positions = [] ∧ m.tail = none ∨ ∃ z ∈ parts, s.types.kind z = .results) :
        u.Ends ctx (fun _ => intern (.results (m.positions ++ m.tail.toList) m.tail.isSome)) fun r v => W v.types r ∨
          ∃ types variadic, v.types.lookup r = .results types variadic ∧ (∀ p ∈ types, W v.types p) ∧
            (types = [] ∨ ∃ z ∈ parts, s.types.kind z = .results) := by
      have hall : ∀ p ∈ m.positions ++ m.tail.toList, W u.types p :=
        forall_mem_append.2 ⟨hm.positions, fun p hp => hm.tail p (Option.mem_toList.1 hp)⟩
      have hholds : u.types.Holds (.results (m.positions ++ m.tail.toList) m.tail.isSome) :=
        ⟨fun p hp => (hj.at hu).wholeHas (hall p hp), nofun⟩
      refine (ends_intern hu.types hholds).imp ?_
      rintro r v hv ⟨-, hl⟩
      refine .inr ⟨_, m.tail.isSome, hl, fun p hp => (hj.at hu).keepWhole hv (hall p hp), ?_⟩
      exact h.imp_left fun ⟨hp, ht⟩ => by simp [hp, ht]
    match hpositions : m.positions, htail : m.tail with
    | [single], none => exact .pure hu.types (.inl (hm.positions single (by simp [hpositions])))
    | [], none => simpa [hpositions, htail] using hstore (.inl ⟨hpositions, htail⟩)
    | [], some tail | _ :: _ :: _, _ | [_], some tail =>
      have hlisted := hm.short.resolve_right fun h => by simp [hpositions, htail] at h
      simpa [hpositions, htail] using hstore (.inr hlisted)
  | _ => exact .pure hj.types (hsingle (by unfold TypeTable.kind; rw [← hform]; nofun))

/-! ### Values at a position -/
end

namespace TypeTable

variable {t' : TypeTable}

def Nests (t : TypeTable) (z : Ty) : Prop := t.kind z = .results ∨ t.kind z = .union

def NestsBelow (k : Nat) (t : TypeTable) (ty : Ty) : Prop := ∀ z ∈ t.members ty, t.Nests z → z.index < k

theorem WF.member_le (hw : t.WF) (hz : z ∈ t.members ty) : z.index ≤ ty.index := by
  unfold TypeTable.members at hz
  split at hz
  · rename_i hl
    exact (hw.part_lt (by rw [hl]; exact hz)).1.le
  · exact (mem_singleton.1 hz) ▸ le_refl _

theorem WF.nestsBelow (hw : t.WF) (h : ty.index < k) : t.NestsBelow k ty :=
  fun _ hz _ => (hw.member_le hz).trans_lt h

/-- What is a member at most is below `k` if it is, or if it holds no others. -/
theorem WF.nestsBelow_of_nests (hw : t.WF) (h : t.Nests z → z.index < k) : t.NestsBelow k z := by
  by_cases hn : t.Nests z
  · exact hw.nestsBelow (h hn)
  · intro x hx
    rw [members_eq_self fun hunion => hn (.inr hunion)] at hx
    obtain rfl := mem_singleton.1 hx
    exact fun h => absurd h hn

theorem WF.not_nests_builtin (hw : t.WF) (ty : Ty) (hty : ty.isBuiltin = true)
    (hkind : initial.kind ty ∉ [Kind.results, .union]) : ¬ t.Nests ty := by
  have hsame : t.kind ty = initial.kind ty := kind_of (hw.lookup_builtin ty hty).2
  unfold Nests
  rw [hsame]
  simpa using hkind

theorem Extends.nests (hx : t.Extends t') (hty : t.Has ty) : t'.Nests ty ↔ t.Nests ty := by
  unfold Nests TypeTable.kind
  rw [hx.lookup hty]

theorem NestsBelow.extends (h : t.NestsBelow k ty) (hw : t.WF) (hx : t.Extends t') (hty : t.Has ty) :
    t'.NestsBelow k ty := by
  intro z hz hn
  rw [hx.members hty] at hz
  exact h z hz ((hx.nests (hw.member_has hty hz)).1 hn)

end TypeTable

theorem Session.Joins.below [Solvers] {P W : TypeTable → Ty → Prop} (hj : s.Joins ctx P W) (k : Nat) :
    s.Joins ctx (fun t z => P t z ∧ (t.Nests z → z.index < k)) fun t ty => W t ty ∧ t.NestsBelow k ty where
  types := hj.types
  later u v hu hv z hz :=
    ⟨hj.later u v hu hv z hz.1, fun h => hz.2 ((hv.grown.nests (hj.has u hu z hz.1)).1 h)⟩
  wholeLater u v hu hv ty hty :=
    ⟨hj.wholeLater u v hu hv ty hty.1, hty.2.extends hu.types hv.grown ((hj.at hu).wholeHas hty.1)⟩
  has u hu z hz := hj.has u hu z hz.1
  void u hu := ⟨hj.void u hu, fun h => absurd h (hu.types.not_nests_builtin Ty.void rfl (by decide))⟩
  nil u hu := ⟨hj.nil u hu, fun h => absurd h (hu.types.not_nests_builtin Ty.nil rfl (by decide))⟩
  boolean u hu literal hl hb :=
    ⟨hj.boolean u hu literal hl.1 hb, fun h => absurd h (hu.types.not_nests_builtin Ty.boolean rfl (by decide))⟩
  members u hu ty hty z hz := ⟨hj.members u hu ty hty.1 z hz, hty.2 z hz⟩
  single u hu z hz := ⟨hj.single u hu z hz.1, hu.types.nestsBelow_of_nests hz.2⟩
  union u hu ty l hl hn hz := by
    refine ⟨hj.union u hu ty l hl hn fun z hm => (hz z hm).1, ?_⟩
    unfold TypeTable.NestsBelow TypeTable.members
    rw [hl]
    exact fun z hm => (hz z hm).2
  subsumes u hu x y hx hy := hj.subsumes u hu x y hx.1 hy.1

section
variable [Solvers] {P W : TypeTable → Ty → Prop} (hj : s.Joins ctx P W)
  (hlists : ∀ u : Session, u.Past ctx s → ∀ z types variadic, P u.types z → u.types.lookup z = .results types variadic → ∀ p ∈ types, W u.types p)
include hj hlists

theorem ends_resultAt_below (hu : u.Past ctx s) (hty : W u.types ty)
    (hk : u.types.NestsBelow k ty) (position : Nat) : u.Ends ctx (·.resultAt ty position) fun r v => W v.types r := by
  induction k using Nat.strong_induction_on generalizing u ty position with
  | _ k ih =>
    have hj' := (hj.below (k - 1)).at hu
    have hmergeable : ∀ z ∈ u.types.members ty,
        u.types.Mergeable (fun t ty => W t ty ∧ t.NestsBelow (k - 1) ty) z := by
      intro z hz
      have hP := hj.members u hu ty hty z hz
      refine ⟨fun types variadic hl p hp => ⟨hlists u hu z types variadic hP hl p hp, ?_⟩, fun hkind =>
        ⟨hj.single u hu z hP, ?_⟩⟩
      · have hlt := hk z hz (.inl (kind_of hl))
        have := (hu.types.part_lt (p := p) (by rw [hl]; exact hp)).1
        exact hu.types.nestsBelow (by omega)
      · by_cases hunion : u.types.kind z = .union
        · have hlt := hk z hz (.inr hunion)
          intro x hx _
          have := (hu.types.part_lt (p := x) (by rw [TypeTable.lookup_of_union hunion]; exact hx)).1
          omega
        · exact hu.types.nestsBelow_of_nests fun h => absurd h (not_or.2 ⟨hkind, hunion⟩)
    refine .ask rfl ((ends_mergeResults hj' hmergeable).bind fun merged v hv hmerged => ?_)
    have hv' := hu.trans hv
    refine .lookup hv.types merged fun form hform => ?_
    have hother (hne : v.types.kind merged ≠ .results) :
        v.Ends ctx (fun _ => pure (if position = 0 then merged else Ty.nil)) fun r w => W w.types r := by
      rcases hmerged with h | ⟨types, variadic, hl, -⟩
      · refine .pure hv.types ?_
        split
        · exact h.1
        · exact (hj.at hv').wholeNil
      · exact absurd (kind_of hl) hne
    cases form with
    | results types variadic =>
      -- what is in the list is smaller
      have hparts : ∀ p ∈ types, W v.types p ∧ v.types.NestsBelow (k - 1) p ∧ k - 1 < k := by
        intro p hp
        rcases hmerged with h | ⟨types', variadic', hl, hall, hlisted⟩
        · have hkind : v.types.kind merged = .results := kind_of hform.symm
          have hmem : merged ∈ v.types.members merged := by
            rw [members_eq_self (by rw [hkind]; nofun)]
            exact mem_singleton.2 rfl
          have hlt := h.2 merged hmem (.inl hkind)
          have := (hv.types.part_lt (p := p) (by rw [← hform]; exact hp)).1
          refine ⟨?_, hv.types.nestsBelow (by omega), by omega⟩
          exact hlists v hv' merged types variadic (hj.members v hv' merged h.1 merged hmem) hform.symm p hp
        · cases hform.trans hl
          rcases hlisted with rfl | ⟨z, hz, hkind⟩
          · cases hp
          · have := hk z hz (.inl hkind)
            exact ⟨(hall p hp).1, (hall p hp).2, by omega⟩
      have hrest {w : Session} (hw : w.Past ctx v) {p : Ty} (hp : p ∈ types) (position : Nat) :
          w.Ends ctx (·.resultAt p position) fun r x => W x.types r := by
        obtain ⟨hW, hnests, hlt⟩ := hparts p hp
        have hhas := (hj.at hv').wholeHas hW
        exact ih (k - 1) hlt (hv'.trans hw) ((hj.at hv').keepWhole hw hW) (hnests.extends hv.types hw.grown hhas) position
      dsimp only
      cases hlast : types.getLast? with
      | none => exact .pure hv.types (hj.at hv').wholeNil
      | some last =>
        have hmem : last ∈ types := mem_of_getLast? hlast
        refine .ite (fun _ => hrest (.of_wf hv.types) ?_ 0) fun _ => .ite (fun _ => ?_) fun _ => ?_
        · cases hget : types[position]? with
          | none => exact hmem
          | some => exact mem_of_getElem? hget
        · refine (hrest (.of_wf hv.types) hmem 0).bind fun _ w hw hfirst => ?_
          refine (hrest hw hmem _).bind fun _ x hx hrest => ?_
          have hx' := hv'.trans (hw.trans hx)
          refine (ends_union (hj.at hx') ((hj.at (hv'.trans hw)).keepWhole hx hfirst) hrest).bind fun _ y hy htail => ?_
          exact ends_union (hj.at (hx'.trans hy)) (hj.at (hx'.trans hy)).wholeNil htail
        · exact hrest (.of_wf hv.types) hmem _
    | _ => exact hother (by unfold TypeTable.kind; rw [← hform]; nofun)

theorem ends_resultAt (hty : W s.types ty) (position : Nat) :
    s.Ends ctx (·.resultAt ty position) fun r u => W u.types r :=
  ends_resultAt_below hj hlists (.of_wf hj.types) hty (hj.types.nestsBelow (Nat.lt_succ_self _)) position
end

end AnnotatedLua
