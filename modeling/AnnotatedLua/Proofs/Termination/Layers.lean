/-
Where names can be put in layers, comparing two types stops (`equal_and_accepts_stop`). Aliases that lead back to
themselves through an array are in no layer, and comparing two of them goes on forever (`equal_recursive_arrays_hangs`).
Where names can be put in layers and table constructors are nested, checking one type against another stops
(`check_stops`).
-/
import AnnotatedLua.Proofs.Shape.Plain
import AnnotatedLua.Proofs.Termination.Check

namespace AnnotatedLua

open Solver TypeTable List Declarations

variable {name : Symbol} {l n : Nat} {marks : Marks} {s u : Session}

/-- Equality and acceptance stop for any two types, and all larger budgets give the same answer. If there is a
`table<K, V>`, its arguments may not be narrower: a shape is compared with it by its fields, and these are in no layer. -/
theorem equal_and_accepts_stop {ctx : Context} {s : Session} {level : String → Nat} (hs : s.Sound ctx)
    (hl : s.Layered ctx level) {a b : Ty} (ha : s.types.Has a) (hb : s.types.Has b) :
    (∃ N answer u, ∀ n, N ≤ n → (ofBudget n).equal a b ctx s = some (answer, u)) ∧
      ∀ mode, ((∃ ty, s.types.kind ty = .generic) → mode.widenTables = false ∧ mode.openParams = false) →
        ∃ N answer u, ∀ n, N ≤ n → (ofBudget n).accepts a b mode ctx s = some (answer, u) := by
  have hsized {tables : Bool} (htables : tables = false → ∀ ty, s.types.kind ty ≠ .generic) {ty : Ty} (hty : s.types.Has ty) :
      ∃ h, s.types.Sized (layerHeights s.types.size level tables) ty h := hs.types.exists_sized (hl.generic htables) hty
  refine ⟨?_, fun mode hmode => ?_⟩
  · have htables : true = false → ∀ ty, s.types.kind ty ≠ .generic := nofun
    obtain ⟨i, hi⟩ := hsized htables ha
    obtain ⟨j, hj⟩ := hsized htables hb
    obtain ⟨N, answer, u, hrun, -⟩ := ends_equal (hl.measured hs htables) (fun r _ => compares ctx _ r) le_rfl hi hj
    exact ⟨N, answer, u, hrun⟩
  · -- a `table<K, V>` has a height only where there is one
    obtain ⟨tables, htables, hadmits⟩ : ∃ tables : Bool, (tables = false → ∀ ty, s.types.kind ty ≠ .generic) ∧
        (layerHeights s.types.size level tables).Admits mode := by
      by_cases h : ∃ ty, s.types.kind ty = .generic
      · exact ⟨true, nofun, fun _ => hmode h⟩
      · exact ⟨false, fun _ ty hty => h ⟨ty, hty⟩, nofun⟩
    obtain ⟨i, hi⟩ := hsized htables ha
    obtain ⟨j, hj⟩ := hsized htables hb
    obtain ⟨N, answer, u, hrun, -⟩ :=
      compares ctx _ s.room (i + j + 1) s (hl.measured hs htables) le_rfl a b i j hi hj (by omega) mode hadmits
    exact ⟨N, answer, u, hrun⟩

/-! ## A store in layers -/

section
variable {t : TypeTable} {level : String → Nat} {ty : Ty}

theorem TypeTable.below_classRef (hl : t.lookup ty = .classRef name marks)
    (h : level (t.text name) < l) : t.Below level l ty := by
  intro _ hm
  cases hm with
  | classRef hl' => cases hl.symm.trans hl'; exact h
  | primitive hl' | literal hl' => cases hl.symm.trans hl'
  | part hp => rw [hl] at hp; cases hp

theorem TypeTable.below_primitive {kind : Primitive} (hl : t.lookup ty = .primitive kind) (h : level kind.name < l) :
    t.Below level l ty := by
  intro _ hm
  cases hm with
  | primitive hl' => cases hl.symm.trans hl'; exact h
  | classRef hl' | literal hl' => cases hl.symm.trans hl'
  | part hp => rw [hl] at hp; cases hp

theorem TypeTable.below_parts (hkind : t.kind ty ∉ [Kind.classRef, .primitive, .literal])
    (hparts : ∀ p ∈ (t.lookup ty).parts, t.Below level l p) : t.Below level l ty := by
  unfold kind at hkind
  intro text hm
  cases hm with
  | classRef hl | primitive hl | literal hl => simp [hl] at hkind
  | part hp h => exact hparts _ hp text h
end

/-- The names `Operations`, `⟨10⟩`, and `Statements`, `⟨11⟩`, of aliases that stand for `Statements | nil` and
`Operations | string`, the name `OperationList`, `⟨18⟩`, of the alias of `Operations[]`, a shape `DocumentNode`, `⟨19⟩`, and
`table<string, DocumentNode>`, `⟨20⟩`. -/
def layeredTypes : TypeTable :=
  .ofForms ["Operations", "Statements", "OperationList", "DocumentNode", "next", "children"] [.classRef ⟨3⟩ {},
    .classRef ⟨4⟩ {}, .union [⟨11⟩, Ty.nil], .union [⟨10⟩, Ty.string], .aliasRef ⟨3⟩ [] ⟨12⟩, .aliasRef ⟨4⟩ [] ⟨13⟩,
    .array ⟨10⟩, .aliasRef ⟨5⟩ [] ⟨16⟩, .classRef ⟨5⟩ {}, .classRef ⟨6⟩ Marks.shape,
    .generic Ty.table [Ty.string, ⟨19⟩]]

/-- A node has a next one, its children by name, and strings under numbers. -/
def documentNode : ClassDecl :=
  { name := ⟨6⟩, marks := Marks.shape
    members := [⟨.field ⟨7⟩, some ⟨19⟩, true, none⟩, ⟨.field ⟨8⟩, some ⟨20⟩, true, none⟩, .indexed Ty.number Ty.string] }

def layered : Declarations :=
  (((empty.addClass documentNode).addAlias ⟨3⟩ ⟨14⟩).addAlias ⟨4⟩ ⟨15⟩).addAlias ⟨5⟩ ⟨17⟩

def layeredStart : Session := .start layeredTypes Limits.standard

theorem layeredStart_types : layeredStart.types = layeredTypes := by rw [layeredStart, Session.start]

theorem layeredTypes_wf : layeredTypes.WF := TypeTable.Orderly.wf (by decide)

set_option maxRecDepth 4096

theorem layered_entries : layeredStart.types.size = 21 ∧ layeredStart.types.symbols.size = 9 ∧
    layeredStart.types.lookup Ty.nil = .nil ∧
    layeredStart.types.lookup ⟨10⟩ = .classRef ⟨3⟩ {} ∧ layeredStart.types.lookup ⟨11⟩ = .classRef ⟨4⟩ {} ∧
    layeredStart.types.lookup ⟨12⟩ = .union [⟨11⟩, Ty.nil] ∧ layeredStart.types.lookup ⟨13⟩ = .union [⟨10⟩, Ty.string] ∧
    layeredStart.types.lookup ⟨14⟩ = .aliasRef ⟨3⟩ [] ⟨12⟩ ∧ layeredStart.types.lookup ⟨15⟩ = .aliasRef ⟨4⟩ [] ⟨13⟩ ∧
    layeredStart.types.lookup ⟨16⟩ = .array ⟨10⟩ ∧ layeredStart.types.lookup ⟨17⟩ = .aliasRef ⟨5⟩ [] ⟨16⟩ ∧
    layeredStart.types.lookup ⟨20⟩ = .generic Ty.table [Ty.string, ⟨19⟩] ∧
    (∀ i < 21, layeredStart.types.kind ⟨i⟩ = .generic → i = 20) ∧
    (layeredStart.types.text ⟨3⟩).length = 10 ∧ (layeredStart.types.text ⟨4⟩).length = 10 ∧
    (layeredStart.types.text ⟨5⟩).length = 13 ∧ (layeredStart.types.text ⟨6⟩).length = 12 ∧
    layeredStart.standsFor layered.context ⟨3⟩ {} = some ⟨14⟩ ∧
    layeredStart.standsFor layered.context ⟨4⟩ {} = some ⟨15⟩ := by
  decide

variable {i : Nat}

theorem layered_has (h : i < 21) : layeredStart.types.Has ⟨i⟩ := h.trans_eq layered_entries.1.symm

theorem layered_hasSymbol (h : i < 9) : layeredStart.types.HasSymbol ⟨i⟩ :=
  h.trans_eq layered_entries.2.1.symm

theorem layeredStart_sound : layeredStart.Sound layered.context := by
  have hhas {i : Nat} (h : i < 21) : layeredTypes.Has ⟨i⟩ := layeredStart_types ▸ layered_has h
  have hhasSymbol {i : Nat} (h : i < 9) : layeredTypes.HasSymbol ⟨i⟩ := layeredStart_types ▸ layered_hasSymbol h
  have htype (i : Nat) (h : i < 21) : Same layeredTypes_wf.self (⟨i⟩ : Ty) ⟨i⟩ :=
    sameType_iff.2 ⟨hhas h, hhas h, rfl⟩
  have hsymbol (i : Nat) (h : i < 9) : Same layeredTypes_wf.self (⟨i⟩ : Symbol) ⟨i⟩ :=
    sameSymbol_iff.2 ⟨hhasSymbol h, hhasSymbol h, rfl⟩
  have : Same _ Ty.number Ty.number := htype _ (by decide)
  have : Same _ Ty.string Ty.string := htype _ (by decide)
  have := htype 19 (by decide)
  have := htype 20 (by decide)
  have := hsymbol 6 (by decide)
  have := hsymbol 7 (by decide)
  have := hsymbol 8 (by decide)
  refine .declared (d := layered) rfl layeredTypes_wf _ (forall_mem_singleton.2 ?_) (by decide) rfl rfl
  exact ⟨hhasSymbol (by decide), Same.get _ (ClassDecl.mk ..) (ClassDecl.mk ..)⟩

theorem Text.length_beforeEnding? {text owner : String} (h : Text.beforeEnding? selfEnding text = some owner) :
    owner.length < text.length := by
  have hending : selfEnding.toList.length = 5 := by decide
  unfold Text.beforeEnding? at h
  split_ifs at h with hsuffix
  cases h
  have := (isSuffixOf_iff_suffix.1 hsuffix).length_le
  rw [String.length_ofList, length_take, ← String.length_toList]
  omega

theorem layered_classOf {decl : ClassDecl} (h : layeredStart.classOf layered.context name = some decl) :
    name = ⟨6⟩ ∧ decl = documentNode :=
  Prod.mk.inj (mem_singleton.1 (classOf_start (d := layered) h))

theorem layered_below_string (h : 6 < l) : layeredStart.types.Below String.length l Ty.string :=
  below_primitive (layeredStart_sound.types.lookup_primitive .string) h

theorem layered_below_number (h : 6 < l) : layeredStart.types.Below String.length l Ty.number :=
  below_primitive (layeredStart_sound.types.lookup_primitive .number) h

theorem layeredStart_layered : layeredStart.Layered layered.context String.length where
  aliases name target ht := by
    obtain ⟨-, -, hnil, hoperations, hstatements, horNil, horString, hfirst, hsecond, harray, hlist, -, -, hthree, hfour,
      hfive, -, hstands, hstands'⟩ := layered_entries
    have hself {ty target : Ty} {name : Symbol} (h : layeredStart.types.lookup ty = .aliasRef name [] target) :
        layeredStart.types.members ty = [ty] := by unfold members; rw [h]
    have hmem : (name, target) ∈ [((⟨3⟩ : Symbol), (⟨14⟩ : Ty)), (⟨4⟩, ⟨15⟩), (⟨5⟩, ⟨17⟩)] :=
      aliasOf_start (show layeredStart.aliasOf layered.context name = _ from ht)
    simp only [mem_cons, Prod.mk.injEq, not_mem_nil, or_false] at hmem
    rcases hmem with ⟨rfl, rfl⟩ | ⟨rfl, rfl⟩ | ⟨rfl, rfl⟩
    · have hmembers : layeredStart.types.members ⟨12⟩ = [⟨11⟩, Ty.nil] := by unfold members; rw [horNil]
      rw [hself hfirst]
      refine forall_mem_singleton.2 (.aliasRef hfirst ?_)
      rw [hmembers]
      refine forall_mem_cons.2 ⟨.named hstatements hstands' (by decide) (hfour.trans hthree.symm).le, ?_⟩
      refine forall_mem_singleton.2 (.low (below_parts ?_ ?_))
      · rw [kind, hnil]
        decide
      · rw [hnil]
        simp
    · have hmembers : layeredStart.types.members ⟨13⟩ = [⟨10⟩, Ty.string] := by unfold members; rw [horString]
      rw [hself hsecond]
      refine forall_mem_singleton.2 (.aliasRef hsecond ?_)
      rw [hmembers]
      refine forall_mem_cons.2 ⟨.named hoperations hstands (by decide) (hthree.trans hfour.symm).le, ?_⟩
      exact forall_mem_singleton.2 (.low (layered_below_string (by omega)))
    · have hmembers : layeredStart.types.members ⟨16⟩ = [⟨16⟩] := by unfold members; rw [harray]
      rw [hself hlist]
      refine forall_mem_singleton.2 (.aliasRef hlist ?_)
      rw [hmembers]
      refine forall_mem_singleton.2 (.low (below_parts ?_ ?_))
      · rw [kind, harray]
        decide
      · rw [harray]
        exact forall_mem_singleton.2 (below_classRef hoperations (by omega))
  classes name decl hd := by
    obtain ⟨rfl, rfl⟩ := layered_classOf hd
    obtain ⟨-, -, -, -, -, -, -, -, -, -, -, -, -, -, -, -, _, -⟩ := layered_entries
    exact forall_mem_cons.2
      ⟨layered_below_number (by omega), forall_mem_singleton.2 (layered_below_string (by omega))⟩
  supers name decl super hd hsuper := by
    obtain ⟨rfl, rfl⟩ := layered_classOf hd
    cases hsuper
  shared name decl other hd hother := by
    obtain ⟨rfl, rfl⟩ := layered_classOf hd
    cases hother
  receivers _ _ := Text.length_beforeEnding?
  params name decl hd := by
    obtain ⟨rfl, rfl⟩ := layered_classOf hd
    rfl
  instances ty base args hl := by
    obtain ⟨hsize, -, -, -, -, -, -, -, -, -, -, htable, hall, -⟩ := layered_entries
    have hi : ty = ⟨20⟩ := congrArg Ty.mk
      (hall ty.index ((has_of hl).trans_eq hsize) (kind_of hl))
    rw [hi, htable] at hl
    cases hl
    rfl

/-- A list of operations and a table of nodes can be compared, though operations and statements lead to each other and a
node leads to itself. -/
theorem layered_comparisons_stop : layeredStart.Sound layered.context ∧ layeredStart.Layered layered.context String.length ∧
    (∃ N answer u, ∀ n, N ≤ n → (ofBudget n).equal ⟨18⟩ ⟨20⟩ layered.context layeredStart = some (answer, u)) ∧
    ∃ N answer u, ∀ n, N ≤ n → (ofBudget n).accepts ⟨20⟩ ⟨19⟩ Mode.lenient layered.context layeredStart = some (answer, u) := by
  have hlist : layeredStart.types.Has ⟨18⟩ := layered_has (by decide)
  have hnode : layeredStart.types.Has ⟨19⟩ := layered_has (by decide)
  have htable : layeredStart.types.Has ⟨20⟩ := layered_has (by decide)
  refine ⟨layeredStart_sound, layeredStart_layered, ?_, ?_⟩
  · exact (equal_and_accepts_stop layeredStart_sound layeredStart_layered hlist htable).1
  · exact (equal_and_accepts_stop layeredStart_sound layeredStart_layered htable hnode).2 Mode.lenient fun _ => ⟨rfl, rfl⟩

/-! ## Aliases that go on forever -/

section
variable {ctx : Context} {a b r : Ty}

theorem equal_name (hne : a ≠ b) (hl : s.types.lookup a = .classRef name marks)
    (hr : (ofBudget n).resolve a ctx s = some (r, u)) (hra : r ≠ a) :
    (ofBudget (n + 1)).equal a b ctx s = (ofBudget n).equal r b ctx u := by
  show Rule.equal (ofBudget n) a b ctx s = _
  unfold Rule.equal
  rw [if_neg hne, Solve.run_bind (a := s.types.lookup a) rfl, hl]
  refine (Solve.run_bind hr).trans ?_
  rw [if_pos hra]

theorem equal_array {element other : Ty} (hne : a ≠ b) (hl : s.types.lookup a = .array element)
    (hr : (ofBudget n).resolve b ctx s = some (r, u)) (hl' : u.types.lookup r = .array other) :
    (ofBudget (n + 1)).equal a b ctx s = (ofBudget n).equal element other ctx u := by
  show Rule.equal (ofBudget n) a b ctx s = _
  unfold Rule.equal
  rw [if_neg hne, Solve.run_bind (a := s.types.lookup a) rfl, hl]
  refine (Solve.run_bind hr).trans ?_
  rw [Solve.run_bind (a := u.types.lookup r) rfl, hl']
end

/-- The names `A`, `⟨10⟩`, and `B`, `⟨11⟩`, and the aliases `A = A[]` and `B = B[]`. -/
def loopTypes : TypeTable :=
  .ofForms ["A", "B"] [.classRef ⟨3⟩ {}, .classRef ⟨4⟩ {}, .array ⟨10⟩, .array ⟨11⟩, .aliasRef ⟨3⟩ [] ⟨12⟩,
    .aliasRef ⟨4⟩ [] ⟨13⟩]

def loops : Declarations := (empty.addAlias ⟨3⟩ ⟨14⟩).addAlias ⟨4⟩ ⟨15⟩

def loopStart : Session := .start loopTypes Limits.standard

def loopSession : Session :=
  { loopStart with
    classes := (∅ : Std.TreeMap Symbol (Option ClassDecl)).insert ⟨3⟩ none |>.insert ⟨4⟩ none
    aliases := (∅ : Std.TreeMap Symbol (Option Ty)).insert ⟨3⟩ (some ⟨14⟩) |>.insert ⟨4⟩ (some ⟨15⟩) }

section
variable {v : Session} (hname : (ofBudget (n + 1)).resolve ⟨10⟩ loops.context s = some (⟨12⟩, u))
  (hother : (ofBudget n).resolve ⟨11⟩ loops.context u = some (⟨13⟩, v)) (hs : s.types = loopTypes)
  (hu : u.types = loopTypes) (hv : v.types = loopTypes)
include hname hother hs hu hv

theorem equal_loop : (ofBudget (n + 2)).equal ⟨10⟩ ⟨11⟩ loops.context s = (ofBudget n).equal ⟨10⟩ ⟨11⟩ loops.context v := by
  have hl : s.types.lookup ⟨10⟩ = .classRef ⟨3⟩ {} := by rw [hs]; decide
  have hl' : u.types.lookup ⟨12⟩ = .array ⟨10⟩ := by rw [hu]; decide
  have hl'' : v.types.lookup ⟨13⟩ = .array ⟨11⟩ := by rw [hv]; decide
  calc (ofBudget (n + 2)).equal ⟨10⟩ ⟨11⟩ loops.context s
      = (ofBudget (n + 1)).equal ⟨12⟩ ⟨11⟩ loops.context u := equal_name (by decide) hl hname (by decide)
    _ = (ofBudget n).equal ⟨10⟩ ⟨11⟩ loops.context v := equal_array (by decide) hl' hother hl''
end

theorem equal_loopSession (n : Nat) : (ofBudget n).equal ⟨10⟩ ⟨11⟩ loops.context loopSession = none := by
  induction n using Nat.strong_induction_on with
  | _ n ih =>
    match n, ih with
    | 0, _ | 1, _ | 2, _ | 3, _ | 4, _ | 5, _ => rfl
    | n + 6, ih => exact (equal_loop (v := loopSession) rfl rfl rfl rfl rfl).trans (ih (n + 4) (by omega))

theorem equal_loopStart : ∀ n, (ofBudget n).equal ⟨10⟩ ⟨11⟩ loops.context loopStart = none
  | 0 | 1 | 2 | 3 | 4 | 5 => rfl
  | n + 6 => (equal_loop (v := loopSession) rfl rfl rfl rfl rfl).trans (equal_loopSession (n + 4))

/-- No budget suffices to compare `A = A[]` with `B = B[]`. -/
theorem equal_recursive_arrays_hangs :
    ¬ ∃ n answer, (ofBudget n).equal ⟨10⟩ ⟨11⟩ loops.context loopStart = some answer := by
  rintro ⟨n, answer, h⟩
  rw [equal_loopStart n] at h
  cases h

/-- A table constructor that stands in a member of a class is of a lower layer than the class. -/
def Session.LiteralsNested (ctx : Context) (level : String → Nat) (s : Session) : Prop :=
  ∀ name decl, s.classOf ctx name = some decl → ∀ member ∈ decl.members, ∀ ty, member.type = some ty →
    ∀ node, s.Inline ctx ty node → s.types.Below level (level (s.types.text name)) ty

theorem Session.LiteralsNested.nested {ctx : Context} {s : Session} {level : String → Nat} (h : s.LiteralsNested ctx level)
    {size : Nat} {tables : Bool} (htables : tables = true → ∀ name decl, s.classOf ctx name = some decl → decl.tableNode = none) :
    s.Nested ctx (layerHeights size level tables) where
  members name decl hd member hm ty hty node hinline := by
    have hbelow := h name decl hd member hm ty hty node hinline
    obtain ⟨_, _, -, hl, -⟩ := hinline
    have := layerHeight_lt (d := 2 * size + 5) (hbelow _ (.classRef hl))
    exact .classRef hl (Nat.add_le_add_right this 2)
  tables := htables

/-- Checks stop, and all larger budgets give the same answer. If there is a `table<K, V>`, there may be no table
constructor, and its arguments may not be narrower: parts of a table constructor may be, and then shapes are compared with a
`table<K, V>` by their fields, which are in no layer. -/
theorem check_stops {ctx : Context} {s : Session} {level : String → Nat} (hs : s.Sound ctx) (hl : s.Layered ctx level)
    (hn : s.LiteralsNested ctx level) {target source : Ty} (ht : s.types.Has target) (hsource : s.types.Has source) {mode : Mode}
    (htables : (∃ ty, s.types.kind ty = .generic) → (mode.widenTables = false ∧ mode.openParams = false) ∧
      ∀ name decl, s.classOf ctx name = some decl → decl.tableNode = none)
    (wanted : Bool) (targetNode : Option Node) (sourceNode : Node) : ∃ N verdict u, ∀ n, N ≤ n →
      (ofBudget n).check wanted target source mode targetNode sourceNode ctx s = some (verdict, u) := by
  obtain ⟨tables, hnone, hadmits, hplain⟩ : ∃ tables : Bool, (tables = false → ∀ ty, s.types.kind ty ≠ .generic) ∧
      (layerHeights s.types.size level tables).Admits mode ∧
      (tables = true → ∀ name decl, s.classOf ctx name = some decl → decl.tableNode = none) := by
    by_cases h : ∃ ty, s.types.kind ty = .generic
    · exact ⟨true, nofun, fun _ => (htables h).1, fun _ => (htables h).2⟩
    · exact ⟨false, fun _ ty hty => h ⟨ty, hty⟩, nofun, nofun⟩
  have hgeneric := hl.generic hnone
  obtain ⟨i, hi⟩ := hs.types.exists_sized (c := layerHeights s.types.size level tables) hgeneric ht
  obtain ⟨j, hj⟩ := hs.types.exists_sized (c := layerHeights s.types.size level tables) hgeneric hsource
  obtain ⟨N, verdict, u, hrun, -⟩ := checks ctx _ (j + 1) s (hl.measured hs hnone) (hn.nested hplain) target source i j hi hj
    (Nat.lt_succ_self j) wanted mode targetNode sourceNode hadmits
  exact ⟨N, verdict, u, hrun⟩

/-! ## A table constructor within another one -/

def literalMarks : Marks := { literalTable := true, structural := true }

/-- A class with one member, `next`. -/
def nextDecl (name : Symbol) (marks : Marks) (next : Symbol) (type : Ty) (node tableNode : Option Node) : ClassDecl :=
  { name, marks, members := [⟨.field next, some type, true, node⟩], tableNode }

/-- A shape `Chain`, `⟨10⟩`, and table constructors `Inner`, `⟨11⟩`, and `Outermost`, `⟨12⟩`. -/
def nestedTypes : TypeTable :=
  .ofForms ["Chain", "Inner", "Outermost", "next"] [.classRef ⟨3⟩ Marks.shape, .classRef ⟨4⟩ literalMarks,
    .classRef ⟨5⟩ literalMarks]

/-- What comes next to a chain is a chain, to the inner table a chain, and to the outermost one the inner one. -/
def nested : Declarations :=
  Declarations.empty.addClass (nextDecl ⟨3⟩ Marks.shape ⟨6⟩ ⟨10⟩ none none)
    |>.addClass (nextDecl ⟨4⟩ literalMarks ⟨6⟩ ⟨10⟩ (some ⟨9⟩) (some ⟨8⟩))
    |>.addClass (nextDecl ⟨5⟩ literalMarks ⟨6⟩ ⟨11⟩ (some ⟨8⟩) (some ⟨7⟩))

def nestedStart : Session := .start nestedTypes Limits.standard

theorem nestedTypes_wf : nestedTypes.WF := TypeTable.Orderly.wf (by decide)

theorem nested_classOf {name : Symbol} {decl : ClassDecl} (h : nestedStart.classOf nested.context name = some decl) :
    name = ⟨3⟩ ∧ decl = nextDecl ⟨3⟩ Marks.shape ⟨6⟩ ⟨10⟩ none none ∨
    name = ⟨4⟩ ∧ decl = nextDecl ⟨4⟩ literalMarks ⟨6⟩ ⟨10⟩ (some ⟨9⟩) (some ⟨8⟩) ∨
    name = ⟨5⟩ ∧ decl = nextDecl ⟨5⟩ literalMarks ⟨6⟩ ⟨11⟩ (some ⟨8⟩) (some ⟨7⟩) := by
  rcases Declarations.classOf_start (d := nested) h with _ | ⟨_, _ | ⟨_, _ | ⟨_, hnil⟩⟩⟩
  · exact .inl ⟨rfl, rfl⟩
  · exact .inr (.inl ⟨rfl, rfl⟩)
  · exact .inr (.inr ⟨rfl, rfl⟩)
  · cases hnil

theorem nextDecl_same {t : TypeTable} (hw : t.WF) {name next : Symbol} {type : Ty} (hname : t.HasSymbol name)
    (hnext : t.HasSymbol next) (htype : t.Has type) (marks : Marks) (node tableNode : Option Node) :
    Same hw.self (nextDecl name marks next type node tableNode) (nextDecl name marks next type node tableNode) := by
  have : Same hw.self name name := sameSymbol_iff.2 ⟨hname, hname, rfl⟩
  have : Same hw.self next next := sameSymbol_iff.2 ⟨hnext, hnext, rfl⟩
  have : Same hw.self type type := sameType_iff.2 ⟨htype, htype, rfl⟩
  exact Same.get _ (ClassDecl.mk ..) (ClassDecl.mk ..)

theorem nestedStart_sound : nestedStart.Sound nested.context := by
  refine .declared (d := nested) rfl nestedTypes_wf _ ?_ (List.forall_mem_nil _) rfl rfl
  rintro _ (_ | ⟨_, _ | ⟨_, _ | ⟨_, hnil⟩⟩⟩)
  · exact ⟨by decide, nextDecl_same _ (by decide) (by decide) (by decide) ..⟩
  · exact ⟨by decide, nextDecl_same _ (by decide) (by decide) (by decide) ..⟩
  · exact ⟨by decide, nextDecl_same _ (by decide) (by decide) (by decide) ..⟩
  · cases hnil

theorem nested_not_generic (ty : Ty) : nestedStart.types.kind ty ≠ .generic := by
  have hall : ∀ i < nestedStart.types.size, nestedStart.types.kind ⟨i⟩ ≠ .generic := by decide
  intro hkind
  have hhas : nestedStart.types.Has ty := has_of_lookup fun hany => by
    rw [kind_of hany] at hkind
    cases hkind
  exact hall ty.index hhas hkind

theorem nestedStart_layered : nestedStart.Layered nested.context String.length where
  aliases name target ht := by
    cases Declarations.aliasOf_start (show nestedStart.aliasOf nested.context name = _ from ht)
  classes name decl hd := by
    obtain ⟨rfl, rfl⟩ | ⟨rfl, rfl⟩ | ⟨rfl, rfl⟩ := nested_classOf hd <;> exact nofun
  supers name decl super hd hsuper := by
    obtain ⟨rfl, rfl⟩ | ⟨rfl, rfl⟩ | ⟨rfl, rfl⟩ := nested_classOf hd <;> cases hsuper
  shared name decl other hd hother := by
    obtain ⟨rfl, rfl⟩ | ⟨rfl, rfl⟩ | ⟨rfl, rfl⟩ := nested_classOf hd <;> cases hother
  receivers _ _ := Text.length_beforeEnding?
  params name decl hd := by
    obtain ⟨rfl, rfl⟩ | ⟨rfl, rfl⟩ | ⟨rfl, rfl⟩ := nested_classOf hd <;> rfl
  instances ty := tabular_of_kind (nested_not_generic ty)

theorem nestedStart_literals : nestedStart.LiteralsNested nested.context String.length := by
  intro _ _ hd _ hm _ hty node hinline
  have hchain : nestedStart.types.lookup ⟨10⟩ = .classRef ⟨3⟩ Marks.shape := by decide
  have hnone (hinline : nestedStart.Inline nested.context ⟨10⟩ node) : False := by
    obtain ⟨_, _, -, hl, hliteral, -⟩ := hinline
    cases hchain.symm.trans hl
    cases hliteral
  obtain ⟨rfl, rfl⟩ | ⟨rfl, rfl⟩ | ⟨rfl, rfl⟩ := nested_classOf hd <;>
    obtain rfl := List.mem_singleton.1 hm <;> cases hty
  · exact (hnone hinline).elim
  · exact (hnone hinline).elim
  · have hinner : nestedStart.types.lookup ⟨11⟩ = .classRef ⟨4⟩ literalMarks := by decide
    exact below_classRef hinner (by decide)

/-- The outermost table is checked against a chain, and so is the inner one in it, though a chain goes on forever. -/
theorem nested_check_stops : nestedStart.Sound nested.context ∧ nestedStart.Layered nested.context String.length ∧
    nestedStart.LiteralsNested nested.context String.length ∧ ∃ N verdict u, ∀ n, N ≤ n →
      (ofBudget n).check true ⟨10⟩ ⟨12⟩ {} none ⟨7⟩ nested.context nestedStart = some (verdict, u) := by
  refine ⟨nestedStart_sound, nestedStart_layered, nestedStart_literals, ?_⟩
  have hchain : nestedStart.types.Has ⟨10⟩ := by decide
  have houtermost : nestedStart.types.Has ⟨12⟩ := by decide
  exact check_stops nestedStart_sound nestedStart_layered nestedStart_literals hchain houtermost
    (fun ⟨ty, hty⟩ => absurd hty (nested_not_generic ty)) true none ⟨7⟩

end AnnotatedLua
