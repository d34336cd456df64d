/-
Checks come to an end where comparisons do and table constructors are nested (`checks`). A check looks into a table
constructor without a guard, so its source has to be lower each time.
-/
import AnnotatedLua.Proofs.Termination.Accept

namespace AnnotatedLua

open Solve Solver

variable {u : Session} {ty element source x y : Ty} {e i : Nat}

section
variable {ctx : Context} {c : Heights} {s : Session} (hs : s.Measured ctx c)

/-! ## Table constructors -/

/-- A table constructor that stands in a member of a class is lower than the class. Where a `table<K, V>` has a height,
there are none. -/
structure Session.Nested (ctx : Context) (c : Heights) (s : Session) : Prop where
  members : ∀ name decl, s.classOf ctx name = some decl → ∀ member ∈ decl.members, ∀ ty, member.type = some ty →
    ∀ node, s.Inline ctx ty node → s.types.Sized c ty (c (s.types.text name) + 2)
  tables : c.tables = true → ∀ name decl, s.classOf ctx name = some decl → decl.tableNode = none

variable {node : Node}

theorem Session.Past.inline (hu : u.Past ctx s) (hty : s.types.Has ty) :
    u.Inline ctx ty node ↔ s.Inline ctx ty node := by
  unfold Session.Inline
  rw [hu.grown.lookup hty, hu.classSeen]

include hs in
theorem Session.Nested.later (hn : s.Nested ctx c) (hu : u.Past ctx s) : u.Nested ctx c where
  members name decl hd member hm ty hty node hinline := by
    rw [hu.classes] at hd
    obtain ⟨hsymbol, hdecl⟩ := hs.classes name decl hd
    obtain ⟨k, hk⟩ := hdecl.members member hm ty hty
    rw [hu.grown.text hsymbol]
    exact hs.sized hu (hn.members name decl hd member hm ty hty node ((hu.inline hk.has).1 hinline))
  tables htables := by
    rw [hu.classes]
    exact hn.tables htables

theorem Session.Nested.not_tables (hn : s.Nested ctx c) (h : s.Inline ctx ty node) : c.tables = false := by
  obtain ⟨name, _, decl, -, -, hseen, hnode⟩ := h
  cases hc : c.tables with
  | false => rfl
  | true =>
    rw [hn.tables hc name decl (Session.classOf_of_seen hseen)] at hnode
    cases hnode

include hs in
theorem ends_isInlineTable (ty : Ty) (node : Node) :
    s.Ends ctx (fun _ => isInlineTable ty node) fun r _ => r = true → s.Inline ctx ty node := by
  refine .lookup hs.types ty fun form hform => ?_
  cases form with
  | classRef name marks =>
    refine .early hs.types nofun fun hliteral => ?_
    refine (ends_classDecl hs.types name).bind fun found u hu hfound => ?_
    cases found with
    | none => exact .pure hu.types nofun
    | some decl =>
      refine .pure hu.types fun hnode => ?_
      exact ⟨name, marks, decl, hform.symm, by simpa using hliteral, hfound.symm, by simpa using hnode⟩
  | _ => exact .pure hs.types nofun

/-! ## Checks -/

variable (ctx c) in
/-- Checks end if their source is lower than `h`. -/
def Checks (h : Nat) : Prop :=
  ∀ s : Session, s.Measured ctx c → s.Nested ctx c → ∀ x y i j, s.types.Sized c x i → s.types.Sized c y j → j < h →
    ∀ wanted mode targetNode sourceNode, c.Admits mode →
      s.Stops ctx fun S => S.check wanted x y mode targetNode sourceNode

variable (hn : s.Nested ctx c) {j : Nat} (hC : Checks ctx c j) {p : Inspection} (hp : c.Admits p.mode)

/-! ### Arrays -/

section
variable {k : Nat} (he : s.types.Sized c element e) (hk : k < j)
include hs hn hC hp he hk

theorem ends_checkEach {values : List Ty} (hu : u.Past ctx s) (hvalues : ∀ v ∈ values, u.types.Sized c v k)
    (anchor : Node) (before : Verdict) : u.Stops ctx (·.checkEach p element anchor values before) := by
  induction values generalizing u before with
  | nil => exact .pure hu.types trivial
  | cons value rest ih =>
    obtain ⟨hvalue, hrest⟩ := List.forall_mem_cons.1 hvalues
    have hs' := hs.later hu
    refine (hC u hs' (hn.later hs hu) element value e k (hs.sized hu he) hvalue hk p.wanted p.mode p.targetNode anchor hp).bind
      fun _ v hv _ => ?_
    refine .ite (fun _ => ih (hu.trans hv) (fun x hx => hs'.sized hv (hrest x hx)) _) fun _ => .pure hv.types trivial

omit hn hC hp he hk in
theorem ends_elementKey {member : Member} (hm : s.types.SizedMember c k member) (found : ArraySearch) :
    s.Ends ctx (fun _ => elementKey found member.key) fun r _ => ∀ found', r = .inl found' → ∃ index, member.key = .index index := by
  cases hkey : member.key with
  | field name =>
    have hfield : ∀ index, Key.field name = .index index → s.types.Has index := nofun
    exact (ends_keyName hs hfield).bind fun _ u hu _ => .pure hu.types nofun
  | index index =>
    have hindex : ∀ index', Key.index index = .index index' → s.types.Has index' := by
      rintro _ ⟨⟩
      exact (hm.index index hkey).1.has
    refine .early hs.types (fun _ _ => ⟨index, rfl⟩) fun _ => ?_
    refine (ends_integerKey hs index).bind fun key u hu _ => ?_
    cases key with
    | some => exact .pure hu.types fun _ _ => ⟨index, rfl⟩
    | none =>
      refine (ends_keyName (hs.later hu) fun index' h => hu.grown.has (hindex index' h)).bind fun _ v hv _ => ?_
      exact .pure hv.types fun _ _ => ⟨index, rfl⟩

theorem visits_visitElement {top : Nat} (hsource : s.types.Sized c source top) (inline : Bool) (shown : String) :
    s.Visits ctx (fun member u => u.types.SizedMember c k member) (·.visitElement p inline shown element source)
      fun _ _ => True := by
  rintro u hu ⟨found, before⟩ member - hm
  refine (ends_elementKey (hs.later hu) hm found).bind fun key v hv hkey => ?_
  cases key with
  | inr => exact .pure hv.types trivial
  | inl found' =>
    have hv' := hu.trans hv
    obtain ⟨index, hindex⟩ := hkey found' rfl
    obtain ⟨hsized, htypes⟩ := hm.index index hindex
    have hpos := hsized.pos
    refine (ends_memberType (hs.later hv') (hs.sized hv' hsource) member).bind ?_
    rintro _ w hw rfl
    have hw' := hv'.trans hw
    have htype : w.types.Sized c (member.type.getD Ty.any) k := by
      cases hty : member.type with
      | none => exact hw.types.sized_any hpos
      | some ty => exact (hs.later hu).sized (hv.trans hw) (htypes ty hty)
    refine (ends_expandResults hw.types htype).bind ?_
    rintro values _ - ⟨rfl, hvalues⟩
    exact (ends_checkEach hs hn hC hp he hk hw' hvalues _ _).bind fun _ _ hz _ => .pure hz.types trivial
end

include hs hn hC hp in
theorem ends_checkArrayShape {target : Ty} (ht : s.types.Has target) (he : s.types.Sized c element e)
    (hsource : s.types.Sized c source j) : s.Stops ctx (·.checkArrayShape p target element source) := by
  have hj := hsource.pos
  refine (ends_isInlineTable hs source p.sourceNode).bind fun inline u hu _ => ?_
  refine (ends_name hu.types (hu.grown.has ht)).bind fun required v hv _ => ?_
  have hv' := hu.trans hv
  have hvisit := visits_visitElement (hs.later hv') (hn.later hs hv') hC hp (hs.sized hv' he) (k := (j - 7) / 2) (by omega)
    (hs.sized hv' hsource) inline required
  refine (ends_visitMembers (hs.later hv') under (compares ctx c _ _) ((hs.later hv').shows j le_rfl)
    (fun _ _ _ _ _ _ => trivial) hvisit (hs.sized hv' hsource) trivial true).bind ?_
  rintro ⟨⟨_, _⟩, _⟩ w hw -
  refine .ite (fun _ => ?_) fun _ => .pure hw.types trivial
  exact (ends_name hw.types ((hv'.trans hw).grown.has he.has)).bind fun _ _ hz _ => .pure hz.types trivial

/-! ### Single targets -/

section
variable (hx : s.types.Sized c x i) (hy : s.types.Sized c y j)
include hs hp hx hy

theorem ends_accepts (hu : u.Past ctx s) : u.Stops ctx (·.accepts x y p.mode) :=
  compares ctx c u.room (i + j + 1) u (hs.later hu) le_rfl x y i j (hs.sized hu hx) (hs.sized hu hy) (by omega) p.mode hp

theorem ends_checkPlain : s.Stops ctx (·.checkPlain p x y) := by
  refine (ends_accepts hs hp hx hy (.of_wf hs.types)).bind fun _ u hu _ => ?_
  refine .early hu.types trivial fun _ => ?_
  exact (ends_mismatch (hs.later hu) (hu.grown.has hx.has) (hu.grown.has hy.has) p.targetNode p.sourceNode).bind
    fun _ _ hv _ => .pure hv.types trivial

include hn hC

omit hp in
theorem ends_acceptsLiteral (hshape : s.types.kind x = .classRef) (hinline : s.Inline ctx y p.sourceNode) :
    s.Stops ctx fun S => S.acceptsMembers
      { wanted := p.wanted, target := x, source := y, mode := { p.mode with widenTables := true }
        targetNode := p.targetNode, sourceNode := some p.sourceNode } := by
  have htables := hn.not_tables hinline
  have hadmits : c.Admits { p.mode with widenTables := true } := fun h => by simp [htables] at h
  obtain ⟨name, marks, decl, hl, -⟩ := hinline
  have hname := hy.name hl
  have hclass : s.types.kind y = .classRef := TypeTable.kind_of hl
  have hshows := hs.shows j (k := j - 1) (by omega)
  have hM : s.Shows ctx c j (j - 1) fun member u => u.types.SizedMember c (j - 1) member ∧
      ∀ ty, member.type = some ty → ∀ node, u.Inline ctx ty node → u.types.Sized c ty (j - 1) := by
    refine ⟨fun member u v hu hv h => ⟨hshows.lasting member u v hu hv h.1, fun ty hty node hinline => ?_⟩,
      fun u hu member h => h.1, fun u hu name decl hd htop member hm => ⟨hshows.own u hu name decl hd htop member hm,
        fun ty hty node hinline => ?_⟩⟩
    · obtain ⟨k, hk⟩ := h.1.type ty hty
      exact (hs.later hu).sized hv (h.2 ty hty node ((hv.inline hk.has).1 hinline))
    · exact ((hn.later hs hu).members name decl hd member hm ty hty node hinline).mono (by omega)
  have hM' : s.ShowsTables ctx c j fun member u => u.types.SizedMember c (j - 1) member ∧
      ∀ ty, member.type = some ty → ∀ node, u.Inline ctx ty node → u.types.Sized c ty (j - 1) := by
    intro u _ ty _ _ hty hl
    have := (hty.generic hl).1
    simp [htables] at this
  refine ends_acceptsMembers (T := fun ty u => (∃ k, u.types.Sized c ty k) ∧ ∀ node, u.Inline ctx ty node → u.types.Sized c ty (j - 1))
    hs under (compares ctx c _) hx (.inl hshape) hy (.inl hclass) (by omega) hM hM'
    (fun u hu member hm => ?_) (fun u hu ty hty => ?_) (fun _ _ _ h => h.1) fun u hu a b k ha hb anchor => ?_
  · refine ⟨memberType_sized (hs.later hu) hm.1, fun node hinline => ?_⟩
    cases hty : member.type with
    | some ty =>
      rw [hty] at hinline
      exact hm.2 ty hty node hinline
    | none => exact hu.types.sized_any (by omega)
  · refine ⟨⟨_, hty.sized⟩, fun node hinline => hty ty ?_⟩
    obtain ⟨_, _, _, hl, -⟩ := hinline
    rw [TypeTable.members_eq_self (by rw [TypeTable.kind_of hl]; nofun)]
    exact List.mem_singleton.2 rfl
  · obtain ⟨⟨k', hb'⟩, hlower⟩ := hb
    have hs' := hs.later hu
    refine ends_memberAccepts hs' ha.has hb'.has (fun v hv => ?_) (fun _ v node hv hinline => ?_) anchor
    · exact compares ctx c v.room (k + k' + 1) v (hs'.later hv) le_rfl a b k k' (hs'.sized hv ha) (hs'.sized hv hb') (by omega) _ hadmits
    · exact hC v (hs'.later hv) (hn.later hs (hu.trans hv)) a b k (j - 1) (hs'.sized hv ha) (hs'.sized hv (hlower node hinline))
        (by omega) _ _ _ _ hadmits

theorem ends_checkTable : s.Stops ctx (·.checkTable p x y) := by
  have hrest {base : Ty} {h : Nat} (hbase : s.types.Sized c base h) (hsame : base = x ∨ base = Ty.table) :
      s.Stops ctx fun S => (isInlineTable y p.sourceNode <&&> S.isShape base) >>= fun structural =>
        if structural then S.acceptsMembers
          { wanted := p.wanted, target := x, source := y, mode := { p.mode with widenTables := true }
            targetNode := p.targetNode, sourceNode := some p.sourceNode }
        else S.checkPlain p x y := by
    refine Session.Ends.bind (Q := fun b _ => b = true → s.Inline ctx y p.sourceNode ∧ s.types.kind base = .classRef)
      ((ends_isInlineTable hs y p.sourceNode).bind fun inline u hu hinline => ?_) fun _ u hu hstructural => ?_
    · cases inline with
      | false => exact .pure hu.types nofun
      | true =>
        refine (ends_isShape (hs.later hu) under (hs.sized hu hbase)).imp fun _ _ _ hshape h => ?_
        exact ⟨hinline rfl, (hu.kind hbase.has).symm.trans (hshape h)⟩
    · refine .ite (fun h => ?_) fun _ => ends_checkPlain (hs.later hu) hp (hs.sized hu hx) (hs.sized hu hy)
      obtain ⟨hinline, hclass⟩ := hstructural h
      obtain rfl : base = x := by
        refine hsame.resolve_right ?_
        rintro rfl
        rw [TypeTable.kind_of hs.types.lookup_table] at hclass
        cases hclass
      exact ends_acceptsLiteral (hs.later hu) (hn.later hs hu) hC (hs.sized hu hx) (hs.sized hu hy) ((hu.kind hx.has).trans hclass)
        ((hu.inline hy.has).2 hinline)
  refine .lookup hs.types x fun form hform => ?_
  cases form with
  | generic base =>
    exact hrest (hx.part (p := base) (by rw [← hform]; simp)) (.inr (hx.generic hform.symm).2)
  | _ => exact hrest hx (.inl rfl)

theorem ends_checkArray : s.Stops ctx (·.checkArray p x y) := by
  have htable {u : Session} (hu : u.Past ctx s) : u.Stops ctx (·.checkTable p x y) :=
    ends_checkTable (hs.later hu) (hn.later hs hu) hC hp (hs.sized hu hx) (hs.sized hu hy)
  have hrest (arrayLike : Bool) {u : Session} (hu : u.Past ctx s) : u.Stops ctx fun S => (do
      if arrayLike then S.checkTable p x y
      else if ← S.accepts x y p.mode then S.checkTable p x y
      else return .reject p.wanted (← mismatch p.targetNode p.sourceNode x y) : Solve Verdict) := by
    refine .ite (fun _ => htable hu) fun _ => (ends_accepts hs hp hx hy hu).bind fun _ v hv _ => ?_
    have hv' := hu.trans hv
    refine .ite (fun _ => htable hv') fun _ => ?_
    exact (ends_mismatch (hs.later hv') (hv'.grown.has hx.has) (hv'.grown.has hy.has) p.targetNode p.sourceNode).bind
      fun _ _ hw _ => .pure hw.types trivial
  refine (ends_ofTypes hs.types (Q := fun r u => s = u ∧ r = s.types.kind y) ⟨rfl, rfl⟩).bind ?_
  rintro kind _ - ⟨rfl, -⟩
  cases kind with
  | array => exact hrest true (.of_wf hs.types)
  | classRef =>
    exact (ends_isArray hs under hy (compares ctx c _ _)).bind fun arrayLike u hu _ => hrest arrayLike hu
  | _ => exact hrest false (.of_wf hs.types)

theorem ends_checkSingle : s.Stops ctx (·.checkSingle p x y) := by
  refine .lookup hs.types x fun form hform => ?_
  cases form with
  | array element =>
    have helement := hx.part (p := element) (by rw [← hform]; simp)
    refine (ends_resolve_sized hs under helement).bind fun _ u hu hresolved => ?_
    refine (ends_ofTypes hu.types (Q := fun _ v => u = v) rfl).bind ?_
    rintro kind _ - rfl
    refine (Session.Ends.guard (Q := fun _ _ => True) hu.types (fun _ => ?_) fun _ => trivial).bind fun _ v hv _ => ?_
    · exact (ends_isShape (hs.later hu) under (hs.sized hu hy)).stops
    have hv' := hu.trans hv
    have hs' := hs.later hv'
    have hn' := hn.later hs hv'
    refine .ite (fun _ => ?_) fun _ => ends_checkArray hs' hn' hC hp (hs.sized hv' hx) (hs.sized hv' hy)
    exact ends_checkArrayShape hs' hn' hC hp (hv'.grown.has hx.has) ((hs.later hu).sized hv hresolved) (hs.sized hv' hy)
  | _ => exact ends_checkTable hs hn hC hp hx hy

/-! ### Union targets -/

omit hx in
theorem ends_tryCandidates {targets : List Ty} (hu : u.Past ctx s) (ht : ∀ z ∈ targets, u.types.Sized c z i)
    (tried : List Candidate) : u.Stops ctx (·.tryCandidates p y targets tried) := by
  induction targets generalizing u tried with
  | nil => exact .pure hu.types trivial
  | cons target rest ih =>
    obtain ⟨htarget, hrest⟩ := List.forall_mem_cons.1 ht
    have hs' := hs.later hu
    have hp' : c.Admits ({ p with wanted := true } : Inspection).mode := hp
    refine (ends_checkSingle hs' (hn.later hs hu) hC hp' htarget (hs.sized hu hy)).bind fun _ v hv _ => ?_
    refine .early hv.types trivial fun _ => ?_
    refine (ends_name hv.types (hv.grown.has htarget.has)).bind fun _ w hw _ => ?_
    exact ih (hu.trans (hv.trans hw)) (fun z hz => hs'.sized (hv.trans hw) (hrest z hz)) _

omit hp hx hy hn hC in
theorem ends_depthBelow (root node : Node) (n : Nat) : s.Stops ctx fun _ => depthBelow root n node := by
  induction n generalizing node with
  | zero => exact .pure hs.types trivial
  | succ n ih =>
    refine .early hs.types trivial fun _ => ?_
    have hparent : s.Ends ctx (fun _ => parent node) fun _ u => s = u := ⟨0, _, s, fun _ _ => rfl, .of_wf hs.types, rfl⟩
    refine hparent.bind ?_
    rintro up _ - rfl
    cases up with
    | none => exact .pure hs.types trivial
    | some up => exact (ih up).bind fun _ u hu _ => .pure hu.types trivial

theorem ends_checkCandidates : s.Stops ctx (·.checkCandidates p x y) := by
  refine (ends_resolvedMembers_sized hs hx).bind fun _ u hu htargets => ?_
  refine (ends_tryCandidates hs hn hC hp hy hu htargets []).bind fun tried v hv _ => ?_
  have hv' := hu.trans hv
  cases tried with
  | none => exact .pure hv.types trivial
  | some =>
    have hdepth {w : Session} (hw : w.Past ctx s) (candidate : Candidate) :
        w.Stops ctx fun _ => candidateDepth p.sourceNode candidate :=
      (ends_mapM (J := fun _ _ => True) hw.types (fun _ _ _ _ _ _ => trivial) fun _ _ z hz =>
        ends_depthBelow (hs.later (hw.trans hz)) _ _ _).bind fun _ _ hz _ => .pure hz.types trivial
    refine (ends_mapM (J := fun _ _ => True) hv.types (fun _ _ _ _ _ _ => trivial) fun candidate _ w hw =>
      (hdepth (hv'.trans hw) candidate).bind fun _ _ hz _ => .pure hz.types trivial).bind fun _ _ hw _ => ?_
    exact .pure hw.types trivial

omit hp hy hn hC in
theorem ends_acceptsShape : s.Stops ctx (·.acceptsShape x) := by
  refine (ends_resolvedMembers_sized hs hx).bind fun _ u hu htargets => ?_
  refine ends_anyM hu.types fun z hz v hv => ?_
  have hv' := hu.trans hv
  refine (ends_resolve_sized (hs.later hv') under ((hs.later hu).sized hv (htargets z hz))).bind
    fun r w hw hr => ?_
  exact (ends_isShape ((hs.later hv').later hw) under hr).stops
end

/-! ### All checks -/

include hs hn hC in
theorem ends_checkRule (hx : s.types.Sized c x i) (hy : s.types.Sized c y j) {wanted : Bool} {mode : Mode}
    (hmode : c.Admits mode) (targetNode : Option Node) (sourceNode : Node) :
    s.Stops ctx fun S => Rule.check S wanted x y mode targetNode sourceNode := by
  have hp : c.Admits ({ wanted, mode, targetNode, sourceNode } : Inspection).mode := hmode
  refine .early hs.types trivial fun _ => ?_
  refine (ends_resolve_sized hs under hx).bind fun _ u hu hresolved => ?_
  refine (ends_ofTypes hu.types (Q := fun _ v => u = v) rfl).bind ?_
  rintro kind _ - rfl
  refine Session.Ends.bind (Q := fun _ _ => True) (.orM (.pure hu.types trivial) fun v hv =>
    (ends_isInlineTable ((hs.later hu).later hv) y sourceNode).stops) fun _ v hv _ => ?_
  have hv' := hu.trans hv
  have hresolved := (hs.later hu).sized hv hresolved
  refine (ends_acceptsShape (hs.later hv') hresolved).bind fun _ w hw _ => ?_
  have hw' := hv'.trans hw
  have hs' := hs.later hw'
  have hresolved := (hs.later hv').sized hw hresolved
  have hy' := hs.sized hw' hy
  refine .ite (fun _ => ends_checkSingle hs' (hn.later hs hw') hC hp hresolved hy') fun _ => ?_
  refine (ends_ofTypes hw.types (Q := fun _ v => w = v) rfl).bind ?_
  rintro kind _ - rfl
  refine (Session.Ends.guard (Q := fun _ _ => True) hw.types (fun _ => ?_) fun _ => trivial).bind fun _ z hz _ => ?_
  · exact ends_accepts hs' hp hresolved hy' (.of_wf hw.types)
  · refine .early hz.types trivial fun _ => ?_
    exact ends_checkCandidates (hs'.later hz) (hn.later hs (hw'.trans hz)) hC hp (hs'.sized hz hresolved) (hs'.sized hz hy')

variable (ctx c) in
theorem checks (h : Nat) : Checks ctx c h := by
  induction h with
  | zero => exact fun _ _ _ _ _ _ _ _ _ hj => absurd hj (Nat.not_lt_zero _)
  | succ h ih =>
    intro s hs hn x y i j hx hy _ _ _ targetNode sourceNode hmode
    have hC : Checks ctx c j := fun s hs hn x y i k hx hy _ => ih s hs hn x y i k hx hy (by omega)
    exact .ask rfl (ends_checkRule hs hn hC hx hy hmode targetNode sourceNode)
end

end AnnotatedLua
