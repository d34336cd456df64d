/-
Comparisons end where names can be put in layers (`compares`). A comparison is guarded, and then there is less room for
what follows, or it leads to types whose heights add up to less, or less is left to resolve in its source.
-/
import AnnotatedLua.Proofs.Termination.Shape

namespace AnnotatedLua

open Solve Solver FormOf List
open TypeTable (kind_of)

variable {k top i j : Nat} {ty element x y source : Ty} {u : Session} {form : Form}

section
variable {ctx : Context} {c : Heights} {s : Session} (hs : s.Measured ctx c) {room : Nat}
  (hB : s.Under ctx c room)

theorem Compares.mono {m m' : Nat} (h : Compares ctx c room m) (hm : m' ≤ m) : Compares ctx c room m' :=
  fun s hs hr x y i j hx hy _ => h s hs hr x y i j hx hy (by omega)

/-! ## Lists of values -/

include hs hB in
theorem ends_valuesOf {h : Nat} (hty : s.types.Sized c ty h) :
    s.Ends ctx (·.mergeResults ty) fun r u => ∀ types variadic, u.types.lookup r = .results types variadic →
      ∀ p ∈ types, u.types.Sized c p h := by
  by_cases hunion : s.types.kind ty = .union
  · have hpos := hty.pos
    have hparts : ∀ z ∈ s.types.members ty, s.types.Sized c z (max 1 (h - 1)) :=
      fun z hz => (hty.members_union hunion hz).mono (by omega)
    have hmergeable : ∀ z ∈ s.types.members ty,
        s.types.Mergeable (fun t ty => t.Within c (max 1 (h - 1)) ty) z := fun z hz =>
      ⟨fun types variadic hl p hp => (((hparts z hz).part (by rw [hl]; exact hp)).mono (by omega)).within,
        fun _ => (hparts z hz).within⟩
    refine (ends_mergeResults (hs.joins hB (by omega)) hmergeable).imp ?_
    rintro r u - (hwithin | ⟨types, variadic, hl, hall, hlisted⟩) types' variadic' hl' p hp
    · have hkind : u.types.kind r = .results := kind_of hl'
      have hr := hwithin r (by rw [TypeTable.members_eq_self (by rw [hkind]; nofun)]; exact mem_singleton.2 rfl)
      exact (hr.part (by rw [hl']; exact hp)).mono (by omega)
    · cases hl.symm.trans hl'
      rcases hlisted with rfl | ⟨z, hz, hkind⟩
      · cases hp
      · have := (hty.members_union hunion hz).two_le (by rw [hkind]; simp)
        exact (hall p hp).sized.mono (by omega)
  · refine .lookup hs.types ty fun form hform => ?_
    have hsame : ∀ types variadic, s.types.lookup ty = .results types variadic → ∀ p ∈ types, s.types.Sized c p h :=
      fun _ _ hl p hp => (hty.part (by rw [hl]; exact hp)).mono (by omega)
    cases form with
    | union => exact absurd (kind_of hform.symm) hunion
    | _ => exact .pure hs.types hsame

/-! ## The common rule -/

variable (ctx c room) in
def ComparesSettling (n l k : Nat) : Prop :=
  ∀ s : Session, s.Measured ctx c → s.room ≤ room → ∀ x y i j, s.types.Sized c x i → s.types.Sized c y j → i + j ≤ n →
    s.Settling ctx c l k y → ∀ mode, c.Admits mode → s.Stops ctx fun S => S.accepts x y mode

variable (ctx c room) in
structure Session.Descends (s : Session) (x y : Ty) (i j : Nat) : Prop where
  target : s.types.Sized c x i
  source : s.types.Sized c y j
  lower : Compares ctx c room (i + j)
  settling : ∃ l k, s.Settling ctx c l k y ∧ ∀ l' k', l' < l ∨ l' = l ∧ k' < k → ComparesSettling ctx c room (i + j) l' k'

theorem Session.Settling.later (hu : u.Past ctx s) (hw : s.types.WF) (hty : s.types.Has ty) {l : Nat}
    (h : s.Settling ctx c l k ty) : u.Settling ctx c l k ty := by
  unfold Session.Settling
  rw [hu.grown.members hty, hu.kind hty]
  refine ⟨fun z hz hloose => ?_, h.2⟩
  exact (h.1 z hz ((hu.loose (hw.member_has hty hz)).1 hloose)).extends hw hu.grown

theorem Session.Descends.later (hu : u.Past ctx s) (hw : s.types.WF)
    (h : s.Descends ctx c room x y i j) : u.Descends ctx c room x y i j where
  target := h.target.extends hw hu.grown
  source := h.source.extends hw hu.grown
  lower := h.lower
  settling := by
    obtain ⟨l, k, hsettling, hless⟩ := h.settling
    exact ⟨l, k, hsettling.later hu hw h.source.has, hless⟩

theorem ends_isLenient (hw : s.types.WF) (source : Ty) (mode : Mode) : s.Stops ctx fun _ => isLenient source mode :=
  (ends_settings hw).bind fun _ _ hu _ => .pure hu.types trivial

section
variable (hd : s.Descends ctx c room x y i j) {mode : Mode} (hmode : c.Admits mode)
include hs hB hd hmode

theorem ends_acceptsSuper : s.Stops ctx (·.acceptsSuper x y mode) := by
  refine (ends_superClass hs hd.source).bind fun super u hu hsuper => ?_
  cases super with
  | none => exact .pure hu.types trivial
  | some type =>
    exact (ends_guarded (hs.later hu) (hB.later hu) (hs.sized hu hd.target) (hsuper type rfl).1 .superClass
      (.pair x type) hmode).bind fun _ _ hv _ => .pure hv.types trivial

theorem ends_acceptsShapeOf (htarget : s.types.HasMembers x) (hsource : s.types.HasMembers y) :
    s.Stops ctx (·.acceptsShapeOf x y mode) := by
  refine (ends_withGuard (Q := fun _ => True) hs.types .shape (.pair x y) fun g hg => ?_).bind
    fun _ _ hu _ => .pure hu.types trivial
  have hsg := hs.setGuard g
  have hless : ∀ m, Compares ctx c (Session.room { s with guard := g }) m := hB.below _ (hg.trans_le hB.le)
  have hbelow : Session.Under ctx c (Session.room { s with guard := g }) { s with guard := g } :=
    ⟨fun r' hr' => hB.below r' (hr'.trans (hg.trans_le hB.le)), le_rfl⟩
  refine ends_acceptsMembers (T := fun ty u => ∃ k, u.types.Sized c ty k) hsg hbelow hless hd.target htarget
    hd.source hsource hd.source.pos (hsg.shows j (by omega)) (showsTables le_rfl) (fun u hu _ hm => ?_)
    (fun u hu ty hty => ⟨_, hty.sized⟩) (fun _ _ _ => id) fun u hu a b k ha hb anchor => ?_
  · exact memberType_sized (hsg.later hu) hm
  · obtain ⟨k', hb⟩ := hb
    show u.Stops ctx fun S => S.memberAccepts false a b mode none anchor
    refine ends_memberAccepts (hsg.later hu) ha.has hb.has (fun v hv => ?_) (fun h => absurd h Bool.false_ne_true) anchor
    exact hless (k + k' + 1) v (hsg.later (hu.trans hv)) (hu.trans hv).room.le a b k k' ((hsg.later hu).sized hv ha)
      ((hsg.later hu).sized hv hb) (by omega) mode hmode

theorem ends_acceptsSingle (hform : form = s.types.lookup y) : s.Stops ctx (·.acceptsSingle x y form mode) := by
  have hkind := kind_of hform.symm
  refine (Session.Ends.guard (b := (!mode.nominal || form.marks.literalTable) && (form.kind == .classRef || form.kind == .generic))
    (Q := fun b _ => b = true → s.types.HasMembers x ∧ s.types.HasMembers y) hs.types (fun hmembers => ?_)
    fun _ => nofun).bind fun _ u hu hshape => ?_
  · refine (ends_isShape hs hB hd.target).imp fun b _ _ hb hshape => ⟨.inl (hb hshape), ?_⟩
    simp only [Bool.and_eq_true, Bool.or_eq_true, beq_iff_eq, ← hkind] at hmembers
    exact hmembers.2
  · have hd' := hd.later hu hs.types
    refine .ite (fun hyes => ?_) fun _ => ends_acceptsSuper (hs.later hu) (hB.later hu) hd' hmode
    obtain ⟨htarget, hsource⟩ := hshape hyes
    exact ends_acceptsShapeOf (hs.later hu) (hB.later hu) hd' hmode (hu.hasMembers hd.target.has htarget)
      (hu.hasMembers hd.source.has hsource)

theorem ends_acceptsBase : s.Stops ctx (·.acceptsBase x y mode) := by
  refine (ends_isLenient hs.types y mode).bind fun _ u hu _ => ?_
  have hd1 := hd.later hu hs.types
  have hs1 := hs.later hu
  refine .early hu.types trivial fun _ => ?_
  refine (ends_resolve hs1 (hB.later hu) hd1.source).bind fun resolved v hv hlower => ?_
  have hv' := hu.trans hv
  have hd2 := hd.later hv' hs.types
  have hs2 := hs.later hv'
  have hresolved : v.types.Sized c resolved j := by
    rcases hlower with rfl | hlower
    · exact hd2.source
    · have := hd.source.pos
      exact hlower.within.sized.mono (by omega)
  refine (ends_equal_below hs2 (hB.later hv') hd2.target hresolved).bind fun _ w hw _ => ?_
  have hw' := hv'.trans hw
  have hd3 := hd.later hw' hs.types
  have hs3 := hs.later hw'
  refine .early hw.types trivial fun _ => ?_
  by_cases hne : resolved = y
  · simp only [hne, ne_eq, not_true_eq_false, if_false]
    refine .lookup hw'.types y fun form hform => ?_
    cases form with
    | union parts =>
      refine (ends_ofTypes hw'.types (Q := fun l u => w = u ∧ ∀ p ∈ l, p ∈ parts) ⟨rfl, fun p => mem_of_mem_filter⟩).bind ?_
      rintro counted _ - ⟨rfl, hcounted⟩
      refine ends_allM hw'.types fun part hpart x' hx' => ?_
      have hsized := hd3.source.part (p := part) (by rw [← hform]; exact hcounted part hpart)
      have := hd.source.pos
      exact hd.lower x' (hs3.later hx') (hB.later (hw'.trans hx')).le x part i (j - 1) (hs3.sized hx' hd3.target)
        (hs3.sized hx' hsized) (by omega) mode hmode
    | _ => exact ends_acceptsSingle hs3 (hB.later hw') hd3 hmode hform
  · simp only [ne_eq, hne, not_false_eq_true, if_true]
    have hlower := hlower.resolve_left hne
    by_cases hunion : u.types.kind y = .union
    · obtain ⟨l, k, hsettling, hless⟩ := hd1.settling
      obtain ⟨l', k', hlt, hsettling'⟩ := hlower.settles hunion l k hsettling
      exact hless l' k' hlt w hs3 (hB.later hw').le x resolved i j hd3.target (hs2.sized hw hresolved) le_rfl
        (hsettling'.later hw hv.types hresolved.has) mode hmode
    · have := hd.source.pos
      exact hd.lower w hs3 (hB.later hw').le x resolved i (j - 1) hd3.target (hs2.sized hw (hlower.sized hunion))
        (by omega) mode hmode

/-! ## Targets -/

omit hB hd hmode in
theorem ends_acceptsAsPrimitive (kind : Primitive) (source : Ty) (form : Form) :
    s.Stops ctx fun _ => acceptsAsPrimitive kind source form := by
  cases kind with
  | table => exact (ends_ofTypes hs.types (Q := fun _ _ => True) trivial).bind fun _ _ hu _ => .pure hu.types trivial
  | _ => exact .pure hs.types trivial

theorem ends_primitiveAccepts (kind : Primitive) : s.Stops ctx (·.primitiveAccepts kind x y mode) := by
  refine (ends_acceptsBase hs hB hd hmode).bind fun _ u hu _ => ?_
  refine .early hu.types trivial fun _ => ?_
  refine (ends_resolve_sized (hs.later hu) (hB.later hu) (hs.sized hu hd.source)).bind fun resolved v hv _ => ?_
  refine .lookup hv.types resolved fun form _ => ?_
  refine .early hv.types trivial fun _ => .early hv.types trivial fun _ => ?_
  exact ends_acceptsAsPrimitive (hs.later (hu.trans hv)) kind resolved form

theorem ends_literalAccepts : s.Stops ctx (·.literalAccepts x y mode) := by
  refine (ends_resolve_sized hs hB hd.source).bind fun resolved u hu _ => ?_
  refine .early hu.types trivial fun _ => ?_
  refine (Session.Ends.guard (Q := fun _ _ => True) hu.types (fun _ => ?_) fun _ => trivial).bind fun _ v hv _ => ?_
  · exact (ends_classMarks hu.types resolved).bind fun _ _ hv _ => .pure hv.types trivial
  · have hv' := hu.trans hv
    refine .early hv.types trivial fun _ => ?_
    exact ends_acceptsBase (hs.later hv') (hB.later hv') (hd.later hv' hs.types) hmode

theorem ends_classAccepts (hkind : s.types.kind x = .classRef) : s.Stops ctx (·.classAccepts x y mode) := by
  refine (ends_classMarks hs.types x).bind fun _ u hu _ => ?_
  refine .ite (fun _ => ?_) fun _ => ?_
  · exact (ends_ofTypes hu.types (Q := fun _ _ => True) trivial).bind fun _ _ hv _ => .pure hv.types trivial
  have hs' := hs.later hu
  have hd' := hd.later hu hs.types
  refine (ends_resolve hs' (hB.later hu) hd'.target).bind fun resolved v hv hlower => ?_
  have hv' := hu.trans hv
  refine .ite (fun _ => ?_) fun hne => ?_
  · exact ends_acceptsBase (hs.later hv') (hB.later hv') (hd.later hv' hs.types) hmode
  · have := hd.target.pos
    have hsized := (hlower.resolve_left hne).sized (by rw [hu.kind hd.target.has, hkind]; nofun)
    exact hd.lower v (hs.later hv') (hB.later hv').le resolved y (i - 1) j hsized (hs'.sized hv hd'.source) (by omega) mode hmode

theorem ends_accepts_part (hu : u.Past ctx s) {p : Ty} (hp : p ∈ (s.types.lookup x).parts) :
    u.Stops ctx (·.accepts p y mode) := by
  have := hd.target.pos
  exact hd.lower u (hs.later hu) (hB.later hu).le p y (i - 1) j (hs.sized hu (hd.target.part hp)) (hs.sized hu hd.source)
    (by omega) mode hmode

theorem ends_paramAccepts {bound : Option Ty} (hbound : ∀ p, bound = some p → p ∈ (s.types.lookup x).parts) :
    s.Stops ctx (·.paramAccepts x bound y mode) := by
  refine .ite (fun _ => ?_) fun _ => ends_acceptsBase hs hB hd hmode
  cases bound with
  | none => exact .pure hs.types trivial
  | some p => exact ends_accepts_part hs hB hd hmode (.of_wf hs.types) (hbound p rfl)

/-! ## Arrays -/

omit hs hB hd hmode in
theorem ends_expandResults (hw : s.types.WF) (hty : s.types.Sized c ty k) :
    s.Ends ctx (fun _ => expandResults ty) fun l u => s = u ∧ ∀ v ∈ l, s.types.Sized c v k := by
  refine .lookup hw ty fun form hform => ?_
  cases form with
  | results =>
    exact .pure hw ⟨rfl, fun v hv => (hty.part (by rw [← hform]; exact hv)).mono (by omega)⟩
  | _ => exact .pure hw ⟨rfl, by simpa using hty⟩

section
variable {e : Nat} (he : s.types.Sized c element e) (hk : 1 ≤ k) (hC : Compares ctx c room (e + k + 1))

omit hd in
include he hk hC in
theorem ends_acceptElements {values : List Ty} {found : Option Ty} (hu : u.Past ctx s)
    (hvalues : ∀ v ∈ values, u.types.Sized c v k) (hfound : ∀ t, found = some t → u.types.Within c k t) :
    u.Ends ctx (·.acceptElements element mode values found) fun r v => ∀ t, r.1 = some t → v.types.Within c k t := by
  induction values generalizing u found with
  | nil => exact .pure hu.types hfound
  | cons value rest ih =>
    obtain ⟨hvalue, hrest⟩ := forall_mem_cons.1 hvalues
    have hs' := hs.later hu
    refine (hC u hs' (hB.later hu).le element value e k (hs.sized hu he) hvalue (by omega) mode hmode).bind
      fun _ v hv _ => ?_
    have hv' := hu.trans hv
    have hfound' : ∀ t, found = some t → v.types.Within c k t := fun t ht => hs'.within hv (hfound t ht)
    refine .ite (fun _ => ?_) fun _ => .pure hv.types hfound'
    refine (ends_unionWith ((hs.later hv').joins (hB.later hv') hk) hfound' (hs'.sized hv hvalue).within).bind
      fun _ w hw hunited => ?_
    refine ih (hv'.trans hw) (fun v hmem => hs'.sized (hv.trans hw) (hrest v hmem)) ?_
    rintro _ ⟨⟩
    exact hunited

omit hd in
include he hC in
theorem visits_visitArrayMember (hsource : s.types.Sized c source top) :
    s.Visits ctx (fun member u => u.types.SizedMember c k member) (·.visitArrayMember element source mode)
      fun found u => ∀ t, found = some t → u.types.Within c k t := by
  intro u hu found member hfound hm
  unfold Solver.visitArrayMember
  dsimp only
  cases hindex : member.index? with
  | none => exact .pure hu.types hfound
  | some index =>
    obtain ⟨hkey, htypes⟩ := hm.index index (Member.key_of_index? hindex)
    have hk := hkey.pos
    refine (Session.Ends.guard (Q := fun _ _ => True) hu.types (fun _ => ?_) fun _ => trivial).bind fun _ v hv _ => ?_
    · exact (ends_integerKey (hs.later hu) index).bind fun _ _ hv _ => .pure hv.types trivial
    have hv' := hu.trans hv
    have hfound' : ∀ t, found = some t → v.types.Within c k t := fun t ht => (hs.later hu).within hv (hfound t ht)
    refine .early hv.types hfound' fun _ => ?_
    refine (ends_memberType (hs.later hv') (hs.sized hv' hsource) member).bind fun type w hw htype => ?_
    have hw' := hv'.trans hw
    have hsized : w.types.Sized c type k := by
      rw [htype]
      cases hty : member.type with
      | none => exact hw.types.sized_any hk
      | some ty => exact (hs.later hu).sized (hv.trans hw) (htypes ty hty)
    refine (ends_expandResults hw.types hsized).bind ?_
    rintro values _ - ⟨rfl, hvalues⟩
    exact ends_acceptElements hs hB hmode he hk hC hw' hvalues
      fun t ht => ((hs.later hu).later hv).within hw (hfound' t ht)

omit hd in
include he in
theorem ends_arrayAcceptsShape (hsource : s.types.Sized c source top)
    (hC : Compares ctx c room (e + top)) : s.Stops ctx (·.arrayAcceptsShape element source mode) := by
  have := he.pos
  have := hsource.pos
  have hJ : s.Lasting ctx fun (found : Option Ty) u => ∀ t, found = some t → u.types.Within c ((top - 7) / 2) t :=
    fun found u v hu hv h t ht => (hs.later hu).within hv (h t ht)
  have hnone : ∀ t, (none : Option Ty) = some t → s.types.Within c ((top - 7) / 2) t := nofun
  refine (ends_visitMembers hs hB (hC.mono (by omega)) (hs.shows top le_rfl) hJ
    (visits_visitArrayMember hs hB hmode he (hC.mono (by omega)) hsource) hsource hnone true).bind ?_
  rintro ⟨found, _⟩ u hu hfound
  refine .early hu.types trivial fun _ => .early hu.types trivial fun _ => ?_
  cases found with
  | none => exact .pure hu.types trivial
  | some union =>
    exact (ends_equal_below (hs.later hu) (hB.later hu) (hs.sized hu he) (hfound union rfl).sized).bind
      fun _ _ hv _ => .pure hv.types trivial
end

theorem ends_arrayAccepts (helement : s.types.lookup x = .array element) :
    s.Stops ctx (·.arrayAccepts x element y mode) := by
  have hpart := (hd.target.part_compound (p := element) (by rw [kind_of helement]; nofun)
    (by rw [helement]; simp))
  refine (ends_acceptsBase hs hB hd hmode).bind fun _ u hu _ => ?_
  have hs1 := hs.later hu
  refine .early hu.types trivial fun _ => ?_
  refine (ends_resolve_sized hs1 (hB.later hu) (hs.sized hu hd.source)).bind fun resolved v hv hresolved => ?_
  have hv' := hu.trans hv
  refine (ends_resolve_sized (hs.later hv') (hB.later hv') (hs.sized hv' hpart.1)).bind fun element w hw helement => ?_
  have hw' := hv'.trans hw
  have hs3 := hs.later hw'
  have hB3 := hB.later hw'
  have hresolved := (hs.later hv').sized hw hresolved
  refine .lookup hw.types resolved fun form hform => ?_
  cases form with
  | array sourceElement =>
    have hother := hresolved.part (p := sourceElement) (by rw [← hform]; simp)
    refine .orM (ends_equal_below hs3 hB3 helement hother) fun z hz => ?_
    refine Session.Ends.guard hz.types (fun _ => ?_) fun _ => trivial
    exact hd.lower z (hs3.later hz) (hB3.later hz).le element sourceElement _ _ (hs3.sized hz helement)
      (hs3.sized hz hother) (by omega) mode hmode
  | classRef =>
    refine (ends_isArray hs3 hB3 hresolved (hd.lower.mono (by omega))).bind fun _ z hz _ => ?_
    refine .ite (fun _ => ?_) fun _ => .pure hz.types trivial
    exact ends_arrayAcceptsShape (hs3.later hz) (hB3.later hz) hmode (hs3.sized hz helement)
      (hs3.sized hz hresolved) (hd.lower.mono (by omega))
  | _ => exact .pure hw.types trivial

/-! ## Instances -/

omit hs hB hmode in
theorem Session.Descends.resolved (hu : u.Past ctx s) (hw : s.types.WF) {r : Ty}
    (hlower : r = y ∨ s.Lower ctx c y j u r) : ∃ j', u.Descends ctx c room x r i j' := by
  have hpos := hd.source.pos
  rcases hlower with rfl | hlower
  · exact ⟨j, hd.later hu hw⟩
  · by_cases hunion : s.types.kind y = .union
    · obtain ⟨l, k, hsettling, hless⟩ := hd.settling
      obtain ⟨l', k', _, hsettling'⟩ := hlower.settles hunion l k hsettling
      refine ⟨j, (hd.later hu hw).target, hlower.within.sized.mono (by omega), hd.lower, l', k', hsettling', fun l2 k2 _ => ?_⟩
      exact hless l2 k2 (by omega)
    · have hsized := hlower.sized hunion
      refine ⟨j - 1, (hd.later hu hw).target, hsized, hd.lower.mono (by omega), j - 1, (u.types.members r).length + 1,
        ⟨fun z hz _ => hsized.members hz, fun _ => Nat.lt_succ_self _⟩, fun _ _ _ s' hs' hr' a b i' j' ha hb _ _ => ?_⟩
      exact hd.lower s' hs' hr' a b i' j' ha hb (by omega)

omit hB hd hmode in
theorem ends_resolve_table : s.Ends ctx (·.resolve Ty.table) fun r u => s = u ∧ r = Ty.table := by
  refine (ends_members hs.types Ty.table).bind ?_
  rintro _ _ - ⟨rfl, rfl⟩
  rw [hs.types.members_table]
  refine Session.Ends.bind (Q := fun b u => s = u ∧ b = false) ((ends_willResolve_table hs.types).bind ?_) ?_
  · rintro _ _ - ⟨rfl, rfl⟩
    exact .pure hs.types ⟨rfl, rfl⟩
  · rintro _ _ - ⟨rfl, rfl⟩
    exact .pure hs.types ⟨rfl, rfl⟩

def SizedTable (c : Heights) (found : TableSearch) (u : Session) : Prop :=
  ∃ k, 1 ≤ k ∧ (∀ t, found.key = some t → u.types.Within c k t) ∧ ∀ t, found.value = some t → u.types.Within c k t

omit hd hmode in
theorem visits_visitTable :
    s.Visits ctx (fun member u => u.types.SizedMember c k member) (·.visitTable) (SizedTable c) := by
  rintro u hu found member ⟨k0, hk0, hkey, hvalue⟩ hm
  have hs1 := hs.later hu
  have hunite {v : Session} (hv : v.Past ctx u) (key : Ty) (hsized : ∃ k, v.types.Sized c key k) : v.Ends ctx (fun S =>
      S.unionWith found.key key >>= fun key => S.unionWith found.value (member.type.getD Ty.any) >>= fun value =>
        pure (({ key := some key, value := some value } : TableSearch), !(key.isAny && value.isAny)))
      fun r w => SizedTable c r.1 w := by
    obtain ⟨k1, hkey'⟩ := hsized
    obtain ⟨k2, htype⟩ := memberType_sized (hs1.later hv) (hm.extends hu.types hv.grown)
    have hv' := hu.trans hv
    have hmax : 1 ≤ max k0 (max k1 k2) := by omega
    refine (ends_unionWith ((hs.later hv').joins (hB.later hv') hmax)
      (fun t ht => (hs1.within hv (hkey t ht)).mono (by omega)) (hkey'.within.mono (by omega))).bind fun key w hw hkey => ?_
    have hw' := hv'.trans hw
    refine (ends_unionWith ((hs.later hw').joins (hB.later hw') hmax)
      (fun t ht => (hs1.within (hv.trans hw) (hvalue t ht)).mono (by omega))
      (((hs.later hv').sized hw htype).within.mono (by omega))).bind fun _ z hz hvalue => .pure hz.types ?_
    refine ⟨_, hmax, ?_, ?_⟩
    · rintro _ ⟨⟩
      exact (hs.later hw').within hz hkey
    · rintro _ ⟨⟩
      exact hvalue
  unfold Solver.visitTable
  dsimp only
  cases hkey : member.key with
  | field name =>
    exact (ends_literal hs1 (hm.field name hkey)).bind fun literal v hv hliteral => hunite hv literal ⟨_, hliteral⟩
  | index index => exact hunite (.of_wf hu.types) index ⟨_, (hm.index index hkey).1⟩

omit hd hmode in
/-- The `table<K, V>` that a shape is has arguments of some height, since its members have. -/
theorem ends_tableOfMembers (hty : s.types.Sized c ty top) (hC : Compares ctx c room top) :
    s.Ends ctx (·.tableOfMembers ty) fun r u =>
      ∃ args k, u.types.lookup r = .generic Ty.table args ∧ ∀ p ∈ args, u.types.Sized c p k := by
  have := hty.pos
  have hJ : s.Lasting ctx (SizedTable c) := fun found u v hu hv ⟨k, hk, hkey, hvalue⟩ =>
    ⟨k, hk, fun t ht => (hs.later hu).within hv (hkey t ht), fun t ht => (hs.later hu).within hv (hvalue t ht)⟩
  have hnone : SizedTable c {} s := ⟨1, le_rfl, nofun, nofun⟩
  refine (ends_visitMembers hs hB (hC.mono (by omega)) (hs.shows top le_rfl) hJ (visits_visitTable hs hB) hty hnone
    true).bind ?_
  rintro ⟨⟨key, value⟩, _⟩ u hu ⟨k, hk, hkey, hvalue⟩
  have hsized {found : Option Ty} (hfound : ∀ t, found = some t → u.types.Within c k t) :
      u.types.Sized c (found.getD Ty.any) (k + 1) := by
    cases found with
    | none => exact hu.types.sized_any (by omega)
    | some t => exact (hfound t rfl).sized
  have hargs : ∀ p ∈ [key.getD Ty.any, value.getD Ty.any], u.types.Sized c p (k + 1) := by
    simpa using ⟨hsized hkey, hsized hvalue⟩
  have hform : u.types.Holds (.generic Ty.table [key.getD Ty.any, value.getD Ty.any]) :=
    ⟨forall_mem_cons.2 ⟨(hu.types.lookup_builtin _ rfl).1, fun p hp => (hargs p hp).has⟩, nofun⟩
  refine (ends_intern hu.types hform).imp ?_
  rintro r v hv ⟨-, hl⟩
  exact ⟨_, _, hl, fun p hp => (hs.later hu).sized hv (hargs p hp)⟩

omit hB hd hmode in
theorem ends_paramsOf_class {name : Symbol} {marks : Marks} (hl : s.types.lookup ty = .classRef name marks) :
    s.Ends ctx (·.paramsOf ty) fun r _ => r = [] := by
  refine .ask rfl (.lookup hs.types ty fun _ hform => ?_)
  obtain rfl := hform.trans hl
  refine (ends_classDecl hs.types name).bind fun found u hu hfound => .pure hu.types ?_
  cases found with
  | none => rfl
  | some decl => exact (hs.classes name decl (Session.classOf_of_seen hfound.symm)).2.params

structure Session.SizedInstance (c : Heights) (s : Session) (other : AsInstance) : Prop where
  base : ∃ k, s.types.Sized c other.base k
  args : ∃ k, ∀ p ∈ other.args, s.types.Sized c p k
  narrower : other.narrower = false

omit hmode in
theorem ends_otherInstance (hwiden : mode.widenTables = false) (base : Ty) (args : List Ty)
    (hform : form = s.types.lookup y) :
    s.Ends ctx (fun S => do
      if base = Ty.table && args.length = 2 then
        if !(← S.isShape y) then return none
        match ← tableArgs (← S.tableOfMembers y) with
        | some (key, value) =>
          return some { base := Ty.table, args := [key, value], narrower := mode.widenTables }
        | none => return none
      else match form with
        | .classRef _ _ => return some { base := y, args := ← S.paramsOf y }
        | _ => return none) fun r u => ∀ other : AsInstance, r = some other → u.SizedInstance c other := by
  refine .ite (fun _ => ?_) fun _ => ?_
  · refine (ends_isShape hs hB hd.source).bind fun _ u hu _ => .early hu.types (by simp) fun _ => ?_
    refine (ends_tableOfMembers (hs.later hu) (hB.later hu) (hs.sized hu hd.source) (hd.lower.mono (by omega))).bind
      fun table v hv htable => ?_
    obtain ⟨_, k, hl, hfound⟩ := htable
    refine (ends_tableArgs hv.types table).bind ?_
    rintro taken _ - ⟨rfl, htaken⟩
    cases taken with
    | none => exact .pure hv.types (by simp)
    | some taken =>
      obtain ⟨key, value⟩ := taken
      cases hl.symm.trans (htaken key value rfl)
      refine .pure hv.types ?_
      rintro _ ⟨⟩
      exact ⟨⟨_, hv.types.sized_primitive .table⟩, ⟨k, hfound⟩, hwiden⟩
  · cases form with
    | classRef =>
      refine (ends_paramsOf_class hs hform.symm).bind ?_
      rintro _ u hu rfl
      refine .pure hu.types ?_
      rintro _ ⟨⟩
      exact ⟨⟨_, hs.sized hu hd.source⟩, ⟨0, by simp⟩, rfl⟩
    | _ => exact .pure hs.types (by simp)

omit hmode in
theorem ends_sourceInstance (hwiden : mode.widenTables = false) (base : Ty) (args : List Ty)
    (hform : form = s.types.lookup y) :
    s.Ends ctx (·.sourceInstance base args y form mode) fun r u => ∀ other, r = some other → u.SizedInstance c other := by
  unfold Solver.sourceInstance
  cases form with
  | generic otherBase otherArgs =>
    refine .pure hs.types ?_
    rintro _ ⟨⟩
    have hparts : ∀ p ∈ otherBase :: otherArgs, s.types.Sized c p (j - 1) := fun p hp => hd.source.part (hform ▸ hp)
    exact ⟨⟨_, hparts otherBase (.head _)⟩, ⟨_, fun p hp => hparts p (.tail _ hp)⟩, rfl⟩
  | _ => exact ends_otherInstance hs hB hd hwiden base args hform

variable {a b : Nat}

omit hd hmode in
theorem ends_argumentAccepts (hopen : mode.openParams = false) {arg other : Ty} (harg : s.types.Sized c arg a)
    (hother : s.types.Sized c other b) : s.Stops ctx (·.argumentAccepts mode false arg other) := by
  refine (ends_equal_below hs hB harg hother).bind fun _ u hu _ => ?_
  refine .early hu.types trivial fun _ => .early hu.types trivial fun _ => ?_
  refine (ends_ofTypes hu.types (Q := fun _ v => u = v) rfl).bind ?_
  rintro kind _ - rfl
  refine .ite (fun h => ?_) fun _ => .pure hu.types trivial
  simp [hopen] at h

omit hmode in
theorem ends_instanceByMembers (hform : form = s.types.lookup y) :
    s.Ends ctx (·.instanceByMembers Ty.table form mode) fun r _ => r = false := by
  have hrest {u : Session} (hu : u.Past ctx s) (sameBase : Bool) : u.Ends ctx (fun S => do
      if !(← S.isShape Ty.table) then return false
      let hasMembers := form.kind == .classRef || form.kind == .generic
      return (mode.widenTables || !sameBase) && hasMembers) fun r _ => r = false := by
    refine (ends_isShape_table hu.types).bind ?_
    rintro _ v hv rfl
    exact .pure hv.types rfl
  unfold Solver.instanceByMembers
  cases form with
  | generic otherBase =>
    have hother := hd.source.part (p := otherBase) (by rw [← hform]; simp)
    exact (ends_equal_below hs hB hother (hs.types.sized_primitive .table)).bind fun sameBase u hu _ => hrest hu sameBase
  | _ => exact hrest (.of_wf hs.types) false

section
variable {args : List Ty} (hl : s.types.lookup x = .generic Ty.table args)
include hl

theorem ends_instanceAcceptsArgs (hform : form = s.types.lookup y) :
    s.Stops ctx (·.instanceAcceptsArgs x Ty.table args y form mode) := by
  obtain ⟨hwiden, hopen⟩ := hmode (hd.target.generic hl).1
  have hbase {u : Session} (hu : u.Past ctx s) : u.Stops ctx (·.acceptsBase x y mode) :=
    ends_acceptsBase (hs.later hu) (hB.later hu) (hd.later hu hs.types) hmode
  refine (ends_sourceInstance hs hB hd hwiden Ty.table args hform).bind fun other u hu hother => ?_
  cases other with
  | none => exact hbase hu
  | some other =>
    obtain ⟨⟨k, hk⟩, ⟨_, hargs⟩, hnarrower⟩ := hother other rfl
    refine (ends_equal_below (hs.later hu) (hB.later hu) (hu.types.sized_primitive .table) hk).bind fun _ v hv _ => ?_
    have hv' := hu.trans hv
    refine .ite (fun _ => ends_allEqual hv.types fun arg harg o ho w hw => ?_) fun _ => hbase hv'
    have hw' := hv'.trans hw
    rw [hnarrower]
    exact ends_argumentAccepts (hs.later hw') (hB.later hw') hopen
      (hs.sized hw' (hd.target.part (by rw [hl]; exact .tail _ harg))) ((hs.later hu).sized (hv.trans hw) (hargs o ho))

theorem ends_tableAcceptsArray (helement : s.types.lookup y = .array element) :
    s.Stops ctx (·.tableAcceptsArray x element mode) := by
  obtain ⟨hwiden, -⟩ := hmode (hd.target.generic hl).1
  refine (ends_tableArgs hs.types x).bind ?_
  rintro taken _ - ⟨rfl, htaken⟩
  cases taken with
  | none => exact .pure hs.types trivial
  | some taken =>
    obtain ⟨key, value⟩ := taken
    have hvalue := hd.target.part (p := value) (by rw [htaken key value rfl]; simp)
    have helement := hd.source.part (p := element) (by rw [helement]; simp)
    refine .ite (fun _ => ?_) fun _ => .pure hs.types trivial
    refine .orM (ends_equal_below hs hB hvalue helement) fun u hu => .guard hu.types (fun h => ?_) fun _ => trivial
    simp [hwiden] at h

theorem ends_instanceAcceptsResolved : s.Stops ctx (·.instanceAcceptsResolved x Ty.table args y mode) := by
  refine .lookup hs.types y fun form hform => ?_
  refine .ite (fun _ => ends_acceptsBase hs hB hd hmode) fun _ => ?_
  refine (ends_resolve_table hs).bind ?_
  rintro _ _ - ⟨rfl, rfl⟩
  refine (ends_instanceByMembers hs hB hd hform).bind ?_
  rintro _ u hu rfl
  have hs' := hs.later hu
  have hd' := hd.later hu hs.types
  have hl' := (hu.grown.lookup hd.target.has).trans hl
  have hform' := hform.trans (hu.grown.lookup hd.source.has).symm
  have hargs : u.Stops ctx fun S => (do
      if Ty.table = Ty.table && args.length = 2 && y = Ty.table then return args.all Ty.isAny
      S.instanceAcceptsArgs x Ty.table args y form mode) :=
    .early hu.types trivial fun _ =>
      ends_instanceAcceptsArgs hs' (hB.later hu) hd' hmode hl' hform'
  cases form with
  | array => exact ends_tableAcceptsArray hs' (hB.later hu) hd' hmode hl' hform'.symm
  | _ => exact hargs

/-- A `table<K, V>` resolves the source, and then compares arguments for equality or goes on by the common rule. -/
theorem ends_instanceAccepts : s.Stops ctx (·.instanceAccepts x Ty.table args y mode) := by
  refine (ends_isLenient hs.types y mode).bind fun _ u hu _ => .early hu.types trivial fun _ => ?_
  have hs1 := hs.later hu
  have hd1 := hd.later hu hs.types
  refine (ends_resolve hs1 (hB.later hu) hd1.target).bind fun resolved v hv hlower => ?_
  have hv' := hu.trans hv
  refine .ite (fun hne => ?_) fun _ => ?_
  · have := hd.target.pos
    have hsized := (hlower.resolve_left hne).sized (by rw [hu.kind hd.target.has]; unfold TypeTable.kind; rw [hl]; nofun)
    exact hd.lower v (hs.later hv') (hB.later hv').le resolved y (i - 1) j hsized (hs1.sized hv hd1.source) (by omega) mode
      hmode
  · have hd2 := hd.later hv' hs.types
    refine (ends_resolve (hs.later hv') (hB.later hv') hd2.source).bind fun _ w hw hlower => ?_
    have hw' := hv'.trans hw
    obtain ⟨_, hd3⟩ := hd2.resolved hw hv'.types hlower
    exact ends_instanceAcceptsResolved (hs.later hw') (hB.later hw') hd3 hmode
      ((hw'.grown.lookup hd.target.has).trans hl)
end

/-! ## Functions -/

omit hd in
theorem ends_parametersAccept {targets sources : List Parameter}
    (htargets : ∀ p ∈ targets, s.types.Sized c p.typeOrAny a) (hsources : ∀ p ∈ sources, s.types.Sized c p.typeOrAny b)
    (hC : Compares ctx c room (a + b + 1)) (hu : u.Past ctx s) :
    u.Stops ctx (·.parametersAccept mode targets sources) := by
  induction targets generalizing sources u with
  | nil =>
    cases sources with
    | nil => exact .pure hu.types trivial
    | cons => exact .pure hu.types trivial
  | cons target targets ih =>
    cases sources with
    | nil => exact .pure hu.types trivial
    | cons =>
      obtain ⟨htarget, htargets⟩ := forall_mem_cons.1 htargets
      obtain ⟨hsource, hsources⟩ := forall_mem_cons.1 hsources
      refine (hC u (hs.later hu) (hB.later hu).le _ _ b a (hs.sized hu hsource) (hs.sized hu htarget) (by omega) mode hmode).bind
        fun _ v hv _ => ?_
      exact .ite (fun _ => ih htargets hsources (hu.trans hv)) fun _ => .pure hv.types trivial

omit hd in
theorem ends_signatureAccepts {target source : Signature} (ha : 1 ≤ a) (hb : 1 ≤ b)
    (htarget : ∀ p ∈ target.parts, s.types.Sized c p a) (hsource : ∀ p ∈ source.parts, s.types.Sized c p b)
    (hC : Compares ctx c room (a + b + 1)) : s.Stops ctx (·.signatureAccepts target source mode) := by
  refine (ends_parametersAccept hs hB hmode (fun p hp => typeOrAny_sized hs.types ha htarget hp)
    (fun p hp => typeOrAny_sized hs.types hb hsource hp) hC (.of_wf hs.types)).bind fun _ u hu _ => ?_
  refine .early hu.types trivial fun _ => ?_
  match ht : target.returns, ho : source.returns with
  | some t, some o =>
    exact hC u (hs.later hu) (hB.later hu).le t o a b (hs.sized hu (htarget t (SignatureOf.parts_returns ht)))
      (hs.sized hu (hsource o (SignatureOf.parts_returns ho))) (by omega) mode hmode
  | some _, none => exact .pure hu.types trivial
  | none, some _ => exact .pure hu.types trivial
  | none, none => exact .pure hu.types trivial

theorem ends_signaturesAccept {targets : List Signature} (hi : 2 ≤ i)
    (htargets : ∀ signature ∈ targets, ∀ p ∈ signature.parts, s.types.Sized c p (i - 1)) :
    s.Stops ctx (·.signaturesAccept targets y mode) := by
  refine (ends_resolve_sized hs hB hd.source).bind fun _ u hu hresolved => ?_
  refine .ite (fun _ => ?_) fun _ => ?_
  · have hholds : u.types.Holds (.results [Ty.any] true) :=
      ⟨forall_mem_singleton.2 (hu.types.lookup_builtin _ rfl).1, nofun⟩
    exact (ends_intern hu.types hholds).bind fun _ _ hv _ => .pure hv.types trivial
  · refine (ends_signaturesOf (hs.later hu) (hB.later hu) hresolved).bind fun _ v hv hsources => ?_
    have hv' := hu.trans hv
    refine ends_anyM hv.types fun target htarget w hw => ends_anyM hw.types fun source hsource z hz => ?_
    obtain ⟨_, hparts⟩ := hsources source hsource
    have hz' := hw.trans hz
    refine ends_signatureAccepts (hs.later (hv'.trans hz')) (hB.later (hv'.trans hz')) hmode (a := i - 1) (b := j - 1)
      (by omega) (by omega) (fun p hp => hs.sized (hv'.trans hz') (htargets target htarget p hp))
      (fun p hp => (hs.later hv').sized hz' (hparts p hp)) (hd.lower.mono (by omega))

/-! ## Lists of values -/

omit hd in
theorem ends_positionsAccept {last : Option Ty} {targets sources : List Ty}
    (hlast : ∀ p, last = some p → s.types.Sized c p a) (htargets : ∀ p ∈ targets, s.types.Sized c p a)
    (hsources : ∀ p ∈ sources, s.types.Sized c p b) (hC : Compares ctx c room (a + b + 1)) (hu : u.Past ctx s) :
    u.Stops ctx (·.positionsAccept mode last targets sources) := by
  induction sources generalizing targets u with
  | nil => cases targets <;> exact .pure hu.types trivial
  | cons source sources ih =>
    obtain ⟨hsource, hsources⟩ := forall_mem_cons.1 hsources
    have hgo {target : Ty} (htarget : s.types.Sized c target a) {targets : List Ty}
        (htargets : ∀ p ∈ targets, s.types.Sized c p a) : u.Stops ctx fun S => S.accepts target source mode >>= fun accepted =>
          if accepted = true then S.positionsAccept mode last targets sources else pure false := by
      refine (hC u (hs.later hu) (hB.later hu).le target source a b (hs.sized hu htarget) (hs.sized hu hsource)
        (by omega) mode hmode).bind fun _ v hv _ => ?_
      exact .ite (fun _ => ih htargets hsources (hu.trans hv)) fun _ => .pure hv.types trivial
    cases targets with
    | cons =>
      obtain ⟨htarget, htargets⟩ := forall_mem_cons.1 htargets
      exact hgo htarget htargets
    | nil =>
      cases last with
      | none => exact .pure hu.types trivial
      | some target => exact hgo (hlast target rfl) (by simp)

theorem ends_resultsAccept {results : Results} (hresults : ∀ p ∈ results.types, p ∈ (s.types.lookup x).parts) :
    s.Stops ctx (·.resultsAccept results y mode) := by
  have hsized : ∀ p ∈ results.types, s.types.Sized c p (i - 1) := fun p hp => hd.target.part (hresults p hp)
  have := hd.target.pos
  refine (ends_valuesOf hs hB hd.source).bind fun merged u hu hvalues => ?_
  refine .lookup hu.types merged fun form hform => ?_
  cases form with
  | results types variadic =>
    refine .early hu.types trivial fun _ => .early hu.types trivial fun _ => ?_
    refine ends_positionsAccept (hs.later hu) (hB.later hu) hmode (fun p hp => hs.sized hu (hsized p ?_))
      (fun p hp => hs.sized hu (hsized p hp)) (hvalues types variadic hform.symm) (hd.lower.mono (by omega)) (.of_wf hu.types)
    split at hp
    · exact mem_of_getLast? hp
    · cases hp
  | _ =>
    refine .early hu.types trivial fun _ => ?_
    obtain ⟨types, _⟩ := results
    cases types with
    | nil => exact .pure hu.types trivial
    | cons first => exact ends_accepts_part hs hB hd hmode hu (hresults first (.head _))

/-! ## All targets -/

theorem ends_acceptsRule : s.Stops ctx fun S => Rule.accepts S x y mode := by
  have hbase {u : Session} (hu : u.Past ctx s) : u.Stops ctx (·.acceptsBase x y mode) :=
    ends_acceptsBase (hs.later hu) (hB.later hu) (hd.later hu hs.types) hmode
  refine .early hs.types trivial fun _ => .lookup hs.types x fun form hform => ?_
  have hkind := kind_of hform.symm
  have hpart {u : Session} (hu : u.Past ctx s) {p : Ty} (hp : p ∈ form.parts) : u.Stops ctx (·.accepts p y mode) :=
    ends_accepts_part hs hB hd hmode hu (hform ▸ hp)
  cases form with
  | any => exact (ends_ofTypes hs.types (Q := fun _ _ => True) trivial).bind fun _ _ hu _ => .pure hu.types trivial
  | nil | void | snippet => exact hbase (.of_wf hs.types)
  | primitive kind => exact ends_primitiveAccepts hs hB hd hmode kind
  | literal => exact ends_literalAccepts hs hB hd hmode
  | array => exact ends_arrayAccepts hs hB hd hmode hform.symm
  | classRef => exact ends_classAccepts hs hB hd hmode hkind
  | param =>
    refine ends_paramAccepts hs hB hd hmode fun p hp => ?_
    rw [← hform]
    simp [parts, hp]
  | aliasRef => exact .orM (hpart (.of_wf hs.types) (by simp)) fun u hu => hbase hu
  | union => exact .orM (hbase (.of_wf hs.types)) fun u hu => ends_anyM hu.types fun p hp v hv => hpart (hu.trans hv) hp
  | generic =>
    obtain rfl := (hd.target.generic hform.symm).2
    exact ends_instanceAccepts hs hB hd hmode hform.symm
  | function =>
    refine .orM (hbase (.of_wf hs.types)) fun u hu => ?_
    refine ends_signaturesAccept (hs.later hu) (hB.later hu) (hd.later hu hs.types) hmode
      (hd.target.two_le (by rw [hkind]; simp)) fun signature hsignature p hp => hs.sized hu (hd.target.part ?_)
    rw [← hform]
    refine mem_flatMap.2 ⟨signature, ?_, hp⟩
    simpa [or_comm] using hsignature
  | results =>
    refine ends_resultsAccept hs hB hd hmode fun p hp => ?_
    rw [← hform]
    exact hp
end

/-! ## Comparisons -/

theorem comparesSettling {n : Nat} (hB : ComparesBelow ctx c room) (hC : Compares ctx c room n) (l k : Nat) : ComparesSettling ctx c room n l k := by
  induction l using Nat.strong_induction_on generalizing k with
  | _ l ihl =>
    induction k using Nat.strong_induction_on with
    | _ k ihk =>
      intro s hs hr x y i j hx hy hij hsettling _ hmode
      refine .asks (ends_acceptsRule hs ⟨hB, hr⟩ ⟨hx, hy, hC.mono hij, l, k, hsettling, ?_⟩ hmode)
      intro l' k' hlt s' hs' hr' x' y' i' j' hx' hy' hij'
      have hless : ComparesSettling ctx c room n l' k' := by
        rcases hlt with hlt | ⟨rfl, hlt⟩
        · exact ihl l' hlt k'
        · exact ihk k' hlt
      exact hless s' hs' hr' x' y' i' j' hx' hy' (hij'.trans hij)

variable (ctx c) in
theorem compares (room m : Nat) : Compares ctx c room m := by
  induction room using Nat.strong_induction_on generalizing m with
  | _ room ihr =>
    induction m with
    | zero => exact fun _ _ _ _ _ _ _ _ _ h => absurd h (Nat.not_lt_zero _)
    | succ m ih =>
      intro s hs hr x y i j hx hy _
      refine comparesSettling (fun r hr => ihr r hr) ih j ((s.types.members y).length + 1) s hs hr x y i j hx hy (by omega) ?_
      exact ⟨fun z hz _ => hy.members hz, fun _ => Nat.lt_succ_self _⟩

theorem under : s.Under ctx c s.room := ⟨fun r _ => compares ctx c r, le_rfl⟩
theorem ends_equal {a b : Ty} (hs : s.Measured ctx c) (hB : ComparesBelow ctx c room) (hr : s.room ≤ room)
    (ha : s.types.Sized c a i) (hb : s.types.Sized c b j) : s.Stops ctx (·.equal a b) :=
  ends_equal_below hs ⟨hB, hr⟩ ha hb

end

end AnnotatedLua
