/-
Comparing by members comes to an end, if comparing the types of two members does (`ends_acceptsMembers`).
-/
import AnnotatedLua.Proofs.Termination.Lookup

namespace AnnotatedLua

open Solve Solver

variable {target source x y : Ty} {p : Comparison} {member : Member} {u : Session}

section
variable {ctx : Context} {c : Heights} {s : Session} (hs : s.Measured ctx c)

/-! ## Problems -/

section
include hs

theorem ends_mismatch (ht : s.types.Has target) (hsource : s.types.Has source)
    (targetNode : Option Node) (sourceNode : Node) :
    s.Stops ctx fun _ => mismatch targetNode sourceNode target source := by
  refine (ends_name hs.types ht).bind fun _ u hu _ => ?_
  exact (ends_name hu.types (hu.grown.has hsource)).bind fun _ v hv _ => .pure hv.types trivial

theorem ends_mismatchUnless (ht : s.types.Has target) (hsource : s.types.Has source)
    (wanted accepted : Bool) (targetNode anchor : Option Node) :
    s.Stops ctx fun _ => mismatchUnless wanted accepted targetNode anchor target source := by
  refine .early hs.types trivial fun _ => ?_
  match wanted, anchor with
  | true, some node =>
    exact (ends_mismatch hs ht hsource targetNode node).bind fun _ _ hu _ => .pure hu.types trivial
  | true, none | false, some _ | false, none => exact .pure hs.types trivial

theorem ends_keyName {key : Key} (hkey : ∀ index, key = .index index → s.types.Has index) :
    s.Stops ctx fun _ => keyName key := by
  cases key with
  | field name => exact ends_ofTypes (f := (·.text name)) hs.types trivial
  | index index => exact (ends_name hs.types (hkey index rfl)).bind fun _ _ hu _ => .pure hu.types trivial

theorem ends_missingVerdict (ht : s.types.Has p.target)
    (hkey : ∀ index, member.key = .index index → s.types.Has index) (targetType : Ty) :
    s.Stops ctx fun _ => missingVerdict p member targetType := by
  refine (ends_ofTypes hs.types (Q := fun _ u => s = u) rfl).bind ?_
  rintro contains _ - rfl
  refine .early hs.types trivial fun _ => .early hs.types trivial fun _ => ?_
  refine (ends_keyName hs hkey).bind fun _ u hu _ => ?_
  exact (ends_name hu.types (hu.grown.has ht)).bind fun _ _ hv _ => .pure hv.types trivial
end

/-! ## Members -/

/-- The type is that of the table constructor at a node. -/
def Session.Inline (ctx : Context) (s : Session) (ty : Ty) (node : Node) : Prop :=
  ∃ name marks decl, s.types.lookup ty = .classRef name marks ∧ marks.literalTable = true ∧
    s.classSeen ctx name = some decl ∧ decl.tableNode = some node

include hs in
theorem ends_inlineTableNode (ty : Ty) : s.Ends ctx (fun _ => inlineTableNode ty) fun r _ =>
    ∀ node, r = some node → s.Inline ctx ty node := by
  refine .lookup hs.types ty fun form hform => ?_
  cases form with
  | classRef name marks =>
    refine .early hs.types nofun fun hliteral => ?_
    refine (ends_classDecl hs.types name).bind fun _ u hu hfound => .pure hu.types fun _ hnode => ?_
    obtain ⟨decl, rfl, hnode⟩ := Option.bind_eq_some_iff.1 hnode
    exact ⟨name, marks, decl, hform.symm, by simpa using hliteral, hfound.symm, hnode⟩
  | _ => exact .pure hs.types nofun

variable {targetNode : Option Node} {wanted : Bool} {mode : Mode}

include hs in
theorem ends_memberAccepts (hx : s.types.Has x) (hy : s.types.Has y)
    (haccepts : ∀ u : Session, u.Past ctx s → u.Stops ctx fun S => S.accepts x y mode)
    (hcheck : wanted = true → ∀ (u : Session) node, u.Past ctx s → s.Inline ctx y node →
      u.Stops ctx fun S => S.check wanted x y mode targetNode node) (anchor : Option Node) :
    s.Stops ctx (·.memberAccepts wanted x y mode targetNode anchor) := by
  have hplain {u : Session} (hu : u.Past ctx s) : u.Stops ctx fun S =>
      S.accepts x y mode >>= fun accepted => mismatchUnless wanted accepted targetNode anchor x y := by
    refine (haccepts u hu).bind fun _ v hv _ => ?_
    have hv := hu.trans hv
    exact ends_mismatchUnless (hs.later hv) (hv.grown.has hx) (hv.grown.has hy) _ _ _ _
  refine .ite (fun hw => (ends_inlineTableNode hs y).bind fun inline u hu h => ?_) fun _ => hplain (.of_wf hs.types)
  cases inline with
  | some node => exact hcheck (Bool.and_eq_true_iff.1 hw).1 u node hu (h node rfl)
  | none => exact hplain hu

def Session.ComparesMembers (ctx : Context) (c : Heights) (s : Session) (p : Comparison) (T : Ty → Session → Prop) : Prop :=
  ∀ u : Session, u.Past ctx s → ∀ x y i, u.types.Sized c x i → T y u → ∀ anchor,
    u.Stops ctx fun S => S.memberAccepts p.wanted x y p.mode p.targetNode anchor

section
variable {room : Nat} (hB : s.Under ctx c room) (hA : ∀ m, Compares ctx c room m)
  {h top k : Nat} (ht : s.types.Sized c p.target h) (htarget : s.types.HasMembers p.target)
  (hy : s.types.Sized c p.source top) (hsource : s.types.HasMembers p.source) (hk : 1 ≤ k) {M : Member → Session → Prop}
  (hM : s.Shows ctx c top k M) (hM' : s.ShowsTables ctx c top M) {T : Ty → Session → Prop}
  (htype : ∀ u : Session, u.Past ctx s → ∀ member, M member u → T (member.type.getD Ty.any) u)
  (hwithin : ∀ u : Session, u.Past ctx s → ∀ ty, u.types.Within c k ty → T ty u)
  (hsized : ∀ u : Session, u.Past ctx s → ∀ ty, T ty u → ∃ i, u.types.Sized c ty i)
  (hmember : s.ComparesMembers ctx c p T)
include hs

include hy htype hmember in
theorem ends_presentVerdict (hu : u.Past ctx s) {targetType : Ty} {i : Nat} (hx : u.types.Sized c targetType i)
    {sourceMember : Member} (hm : M sourceMember u) (hM : s.Lasting ctx M) :
    u.Stops ctx (·.presentVerdict p targetType sourceMember) := by
  refine (ends_memberType (hs.later hu) (hs.sized hu hy) sourceMember).bind ?_
  rintro _ v hv rfl
  refine .early hv.types trivial fun _ => ?_
  exact hmember v (hu.trans hv) _ _ i ((hs.later hu).sized hv hx) (htype v (hu.trans hv) _ (hM _ u v hu hv hm)) _

theorem memberType_sized {j : Nat} (hm : s.types.SizedMember c j member) :
    ∃ i, s.types.Sized c (member.type.getD Ty.any) i := by
  cases hty : member.type with
  | none => exact ⟨1, hs.types.sized_any (le_refl _)⟩
  | some ty => exact hm.type ty hty

include hB hA ht hy hsource hM hM' htype hmember in
theorem visits_visitTargetMember : s.Visits ctx (fun member u => u.types.SizedMember c h member)
    (·.visitTargetMember p) fun _ _ => True := by
  intro u hu _ member _ hm
  refine .early hu.types trivial fun _ => ?_
  refine (ends_memberType (hs.later hu) (hs.sized hu ht) member).bind ?_
  rintro _ v hv rfl
  have hv' := hu.trans hv
  have hm' := hm.extends hu.types hv.grown
  obtain ⟨i, hi⟩ := memberType_sized (hs.later hv') hm'
  refine (ends_memberAt? (hs.later hv') (hB.later hv') hA (hM.later hv') (hM'.later hv') (hs.sized hv' hy)
    (hv'.hasMembers hy.has hsource) hm'.field (fun index hkey => (hm'.index index hkey).1) true).bind fun found w hw hfound => ?_
  have hw' := hv'.trans hw
  cases found with
  | none =>
    refine (ends_missingVerdict (hs.later hw') (hs.sized hw' ht).has (fun index hkey => ?_) _).bind
      fun _ _ hx _ => .pure hx.types trivial
    exact ((hs.later hv').sized hw (hm'.index index hkey).1).has
  | some sourceMember =>
    exact (ends_presentVerdict hs hy htype hmember hw' ((hs.later hv').sized hw hi) (hfound sourceMember rfl)
      hM.lasting).bind fun _ _ hx _ => .pure hx.types trivial

omit hs in
include hM in
theorem visits_visitIndex : s.Visits ctx M (fun _ => visitIndex) fun found u => ∀ p ∈ found, u.types.Sized c p.1 k := by
  intro u hu _ member hfound hm
  unfold visitIndex
  dsimp only
  cases hkey : member.key with
  | field => exact .pure hu.types hfound
  | index index =>
    refine .pure hu.types (List.forall_mem_append.2 ⟨hfound, fun p hp => ?_⟩)
    obtain rfl := List.mem_singleton.1 hp
    exact ((hM.sized u hu member hm).index index hkey).1

include hB hA ht htarget hy hsource hk hM hM' hwithin hsized hmember in
theorem ends_indexVerdict (hu : u.Past ctx s) {index : Ty} (hindex : u.types.Sized c index k)
    (node : Option Node) : u.Stops ctx (·.indexVerdict p index node) := by
  have hshows : u.Shows ctx c h h fun member u => u.types.SizedMember c h member := (hs.shows h (by omega)).later hu
  refine (ends_indexer? (hs.later hu) (hB.later hu) hA hshows (showsTables le_rfl) (hs.sized hu ht)
    (hu.hasMembers ht.has htarget) hindex false).bind fun found v hv hfound => ?_
  have hv' := hu.trans hv
  cases found with
  | none => exact .pure hv'.types trivial
  | some targetMember =>
    obtain ⟨hm, -⟩ := hfound targetMember rfl
    -- what follows once the two indexes are found to be the same or not
    have hrest (same : Bool) {w : Session} (hw : w.Past ctx v) : w.Stops ctx fun S => (do
        if same || targetMember.type.isNone then return .accept
        let targetType ← S.memberType p.target targetMember
        let sourceType := (← S.indexedType p.source index true).getD Ty.any
        if !p.mode.strictAny && sourceType.isAny then return .accept
        let anchor := p.sourceNode.map node.getD
        if p.mode.widenTables then
          S.memberAccepts p.wanted targetType sourceType p.mode p.targetNode anchor
        else
          mismatchUnless p.wanted (← S.equal targetType sourceType) p.targetNode anchor targetType sourceType :
          Solve Verdict) := by
      have hw' := hv'.trans hw
      refine .early hw'.types trivial fun _ => ?_
      refine (ends_memberType (hs.later hw') (hs.sized hw' ht) targetMember).bind ?_
      rintro _ x hx rfl
      have hx' := hw'.trans hx
      obtain ⟨i, hi⟩ := memberType_sized (hs.later hx') ((hm.extends hv'.types hw.grown).extends hw'.types hx.grown)
      refine (ends_indexedType (hs.later hx') (hB.later hx') hA (hM.later hx') (hM'.later hx') (hs.sized hx' hy)
        (hx'.hasMembers hy.has hsource) hk ((hs.later hu).sized ((hv.trans hw).trans hx) hindex) true).bind
          fun found y hy hfound => ?_
      have hy' := hx'.trans hy
      have hT : T (found.getD Ty.any) y := by
        refine hwithin y hy' _ ?_
        cases found with
        | none => exact (hy'.types.sized_any hk).within
        | some t => exact hfound t rfl
      have hi' := (hs.later hx').sized hy hi
      obtain ⟨j, hj⟩ := hsized y hy' _ hT
      refine .early hy'.types trivial fun _ => .ite (fun _ => hmember y hy' _ _ i hi' hT _) fun _ => ?_
      refine (ends_equal_below (hs.later hy') (hB.later hy') hi' hj).bind fun _ z hz _ => ?_
      exact ends_mismatchUnless ((hs.later hy').later hz) (hz.grown.has hi'.has) (hz.grown.has hj.has) _ _ _ _
    dsimp only
    cases he : targetMember.index? with
    | none => exact hrest false (.of_wf hv'.types)
    | some key =>
      have hkey := (hm.index key (Member.key_of_index? he)).1
      refine .ite (fun _ => hrest true (.of_wf hv'.types)) fun _ => ?_
      exact (ends_equal_below (hs.later hv') (hB.later hv') hkey ((hs.later hu).sized hv hindex)).bind
        fun same w hw _ => hrest same hw

include hB hA ht htarget hy hsource hk hM hM' hwithin hsized hmember in
theorem ends_indexVerdicts (hu : u.Past ctx s) {indexes : List (Ty × Option Node)}
    (hindexes : ∀ p ∈ indexes, u.types.Sized c p.1 k) (before : Verdict) :
    u.Stops ctx (·.indexVerdicts p indexes before) := by
  induction indexes generalizing u before with
  | nil => exact .pure hu.types trivial
  | cons entry rest ih =>
    obtain ⟨_, node⟩ := entry
    obtain ⟨hindex, hrest⟩ := List.forall_mem_cons.1 hindexes
    refine (ends_indexVerdict hs hB hA ht htarget hy hsource hk hM hM' hwithin hsized hmember hu hindex node).bind
      fun _ v hv _ => ?_
    have hv' := hu.trans hv
    refine .ite (fun _ => ih hv' (fun p hp => ?_) _) fun _ => .pure hv'.types trivial
    exact (hs.later hu).sized hv (hrest p hp)

include hB hA ht htarget hy hsource hk hM hM' htype hwithin hsized hmember in
theorem ends_acceptsMembers : s.Stops ctx (·.acceptsMembers p) := by
  refine (ends_visitMembers hs hB (hA _) (hs.shows h (by omega)) (fun _ _ _ _ _ _ => trivial)
    (visits_visitTargetMember hs hB hA ht hy hsource hM hM' htype hmember) ht trivial true).bind ?_
  rintro ⟨verdict, complete⟩ u hu -
  refine .early hu.types trivial fun _ => ?_
  have hJ : u.Lasting ctx fun (found : List (Ty × Option Node)) u => ∀ p ∈ found, u.types.Sized c p.1 k :=
    fun _ v w hv hw h p hp => ((hs.later hu).later hv).sized hw (h p hp)
  refine (ends_visitMembers (hs.later hu) (hB.later hu) (hA _) (hM.later hu) hJ
    (visits_visitIndex (hM.later hu)) (hs.sized hu hy) (by simp) true).bind ?_
  rintro ⟨_, _⟩ v hv hindexes
  exact ends_indexVerdicts hs hB hA ht htarget hy hsource hk hM hM' hwithin hsized hmember (hu.trans hv) hindexes verdict
end

end

end AnnotatedLua
