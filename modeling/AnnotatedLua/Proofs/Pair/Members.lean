/-
Two runs agree on the members of types: on walks with visitors that agree, on members by their keys, and
on the types of members.
-/
import AnnotatedLua.Proofs.Pair.Types

namespace AnnotatedLua.Logic

open Solver Same

variable {ty ty' index index' : Ty} {name name' : Symbol} {exact : Bool} {m m' : Member}

variable (L : Logic) {S S' : Solver} (hS : S.Respects S' L) {p : Pairing}

/-! ## Walks -/

section
variable {σ : Type} [Value σ]

instance : Value (Walked σ) :=
  .via (fun w => (w.state, w.visited, w.complete)) (by rintro ⟨_, _, _⟩ ⟨_, _, _⟩ h; simp_all)

section
variable {w w' : Walked σ} [h : Same p w w']

instance : Same p w.state w'.state := h.out.1
instance : Same p w.visited w'.visited := h.out.2.out.1
instance : Same p w.complete w'.complete := h.out.2.out.2
end

instance {a a' : σ} {v v' : List Ty} {c c' : Bool} [Same p a a'] [Same p v v'] [Same p c c'] :
    Same p (Walked.mk a v c) (Walked.mk a' v' c') :=
  ⟨(inferInstance : Same p (a, v, c) (a', v', c')).out⟩

variable {visit visit' : Visitor σ} {state state' : σ} [Same p state state']

theorem visitOwn (hv : L.Follows p visit visit') {ms ms' : List Member} [h : Same p ms ms'] :
    L.Agree p (visitOwn visit ms state) (visitOwn visit' ms' state') := by
  induction ms generalizing p ms' state state' with
  | nil =>
    obtain ⟨⟨⟩⟩ := h
    exact L.pure
  | cons m ms ih =>
    obtain ⟨_ | ⟨_, hl⟩⟩ := h
    have : Same p ms _ := ⟨hl⟩
    refine L.bindEq L.isCanceled @fun q hq _ => L.ite L.pure ?_
    exact L.bindPair (hv.later hq).now @fun r hr state _ go _ => L.ite (ih (hv.later (hq.trans hr))) L.pure

theorem ownMembers {d d' : ClassDecl} [Same p d d'] : L.Agree p (Solver.ownMembers d) (Solver.ownMembers d') := by
  unfold Solver.ownMembers
  refine (get p d.otherName d'.otherName).option L.pure fun other _ _ => L.ite L.pure ?_
  exact L.bind L.classDecl @fun _ _ _ _ h => h.option L.pure fun _ _ _ => L.pure

theorem keeping (hv : L.Follows p visit visit') : L.Follows p (keeping visit) (keeping visit') := by
  rintro q hq ⟨state, kept⟩ ⟨state', kept'⟩ m m' h _
  have : Same q state state' := h.out.1
  have : Same q kept kept' := h.out.2
  exact L.bindPair (hv.later hq).now L.pure

include hS

variable {seen seen' : List Member}

theorem isOverridden [Same p seen seen'] [Same p m m'] :
    L.Agree p (S.isOverridden seen m) (S'.isOverridden seen' m') := by
  refine L.anyM @fun q _ a a' _ => ?_
  refine (get q a.key a'.key).key (fun n n' _ => ?_) fun i i' _ => ?_ <;>
    refine (get q m.key m'.key).key (fun n _ _ => ?_) fun i _ _ => ?_
  · exact L.pure
  · exact L.pure
  · exact L.pure
  · exact L.ite L.pure hS.accepts

theorem inheriting [Same p seen seen'] (hv : L.Follows p visit visit') :
    L.Follows p (S.inheriting seen visit) (S'.inheriting seen' visit') := by
  rintro q hq ⟨state, kept⟩ ⟨state', kept'⟩ m m' h _
  have : Same q state state' := h.out.1
  have : Same q kept kept' := h.out.2
  exact L.bindEq (L.isOverridden hS) @fun r hr _ => L.ite L.pure (L.keeping (hv.later (hq.trans hr))).now

omit hS in
def Walks (walk walk' : Walker) : Prop :=
  ∀ {σ : Type} [Value σ] {q : Pairing} {visit visit' : Visitor σ} {deep : Bool} {ty ty' : Ty}
    {visited visited' : List Ty} {state state' : σ}, L.Follows q visit visit' → Same q ty ty' →
      Same q visited visited' → Same q state state' →
      L.Agree q (walk visit deep ty visited state) (walk' visit' deep ty' visited' state')

variable {walk walk' : Walker} (hw : L.Walks walk walk') {base base' : Ty} {visited visited' : List Ty} {deep : Bool}
  [Same p ty ty'] [Same p visited visited'] (hv : L.Follows p visit visit')
include hw hv

theorem walkSupers {own own' : List Member} [Same p own own'] :
    L.Agree p (S.walkSupers walk visit ty own visited state) (S'.walkSupers walk' visit' ty' own' visited' state') := by
  refine L.bindPair (L.visitSupers hS ?_) L.pure
  rintro q hq ⟨state, visited, seen⟩ ⟨state', visited', seen'⟩ super super' h _
  have : Same q state state' := h.out.1
  have : Same q visited visited' := h.out.2.out.1
  have : Same q seen seen' := h.out.2.out.2
  refine L.bind (hw (L.inheriting hS (hv.later hq)) inferInstance inferInstance inferInstance)
    L.pure

theorem walkClass [Same p name name'] :
    L.Agree p (S.walkClass walk visit deep ty name visited state)
      (S'.walkClass walk' visit' deep ty' name' visited' state') := by
  refine L.bind L.classDecl @fun q hq d d' h => h.option ?_ fun d _ _ => ?_
  · exact L.ite (L.walkSupers hS hw (hv.later hq)) L.pure
  · refine L.bind L.ownMembers @fun r hr own _ _ => ?_
    refine L.bindPair (L.visitOwn (hv.later (hq.trans hr))) @fun u hu state _ outcome _ => ?_
    cases outcome with
    | some => exact L.pure
    | none => exact L.ite (L.walkSupers hS hw (hv.later ((hq.trans hr).trans hu))) L.pure

theorem walkInstance [Same p base base'] :
    L.Agree p (S.walkInstance walk visit deep ty base visited state)
      (S'.walkInstance walk' visit' deep ty' base' visited' state') := by
  refine L.bind (hw (L.keeping hv) inferInstance inferInstance inferInstance) @fun q hq w _ _ => ?_
  exact L.ite (L.walkSupers hS hw (hv.later hq)) L.pure

variable (walk walk') in
theorem walkForm :
    L.Agree p (S.walkForm walk visit deep ty visited state) (S'.walkForm walk' visit' deep ty' visited' state') := by
  refine L.bind L.lookup @fun q hq form _ h => ?_
  have hv := hv.later hq
  cases h.out with
  | classRef =>
    refine L.bind (L.resolve hS) @fun r hr resolved _ _ => ?_
    have hv := hv.later hr
    exact L.ite (L.walkClass hS hw hv) (hw hv inferInstance inferInstance inferInstance)
  | param name name' written written' bound bound' =>
    exact (get q bound bound').option L.pure fun _ _ _ => hw hv inferInstance inferInstance inferInstance
  | generic => exact L.walkInstance hS hw hv
  | primitive =>
    refine L.bind (L.classNamed _ _) @fun r hr _ _ _ => ?_
    exact hw (hv.later hr) inferInstance inferInstance inferInstance
  | literal => exact hw hv inferInstance inferInstance inferInstance
  | aliasRef =>
    refine L.bind (L.resolve hS) @fun r hr _ _ _ => L.ite L.pure ?_
    exact hw (hv.later hr) inferInstance inferInstance inferInstance
  | _ => exact L.pure

omit hw hv

theorem walkWithin {n n' : Nat} (hn : L.Budgets n n') : L.Walks (S.walkWithin n) (S'.walkWithin n') := by
  induction n generalizing n' with
  | zero =>
    intro σ _ q visit visit' deep ty ty' visited visited' state state' _ _ _ _
    cases n' with
    | zero => exact L.exhausted
    | succ => exact L.spent hn
  | succ n ih =>
    obtain ⟨n', rfl, hpred⟩ := L.budget_pred hn
    intro σ _ q visit visit' deep ty ty' visited visited' state state' hv _ _ _
    show L.Agree q (S.walkWithin (n + 1) visit deep ty visited state)
      (S'.walkWithin (n' + 1) visit' deep ty' visited' state')
    unfold Solver.walkWithin
    exact L.ite L.pure (L.walkForm hS (S.walkWithin n) (S'.walkWithin n') (ih hpred) hv)

theorem visitMembers (hv : L.Follows p visit visit') :
    L.Agree p (S.visitMembers visit deep ty state) (S'.visitMembers visit' deep ty' state') :=
  L.bind (L.walkWithin hS hS.budget hv inferInstance inferInstance inferInstance) L.pure
end

/-! ## Finding members -/

instance : Value FieldSearch :=
  .via (fun s => (s.declared, s.inferred)) (by rintro ⟨_, _⟩ ⟨_, _⟩ h; simp_all)

instance : Value IndexSearch :=
  .via (fun s => (s.declared, s.inferred)) (by rintro ⟨_, _⟩ ⟨_, _⟩ h; simp_all)

instance {s s' : FieldSearch} [h : Same p s s'] : Same p s.declared s'.declared := h.out.1
instance {s s' : FieldSearch} [h : Same p s s'] : Same p s.inferred s'.inferred := h.out.2
instance {s s' : IndexSearch} [h : Same p s s'] : Same p s.declared s'.declared := h.out.1
instance {s s' : IndexSearch} [h : Same p s s'] : Same p s.inferred s'.inferred := h.out.2

instance {d d' i i' : Option Member} [Same p d d'] [Same p i i'] :
    Same p (FieldSearch.mk d i) (FieldSearch.mk d' i') := ⟨(inferInstance : Same p (d, i) (d', i')).out⟩

instance {d d' i i' : Option Member} [Same p d d'] [Same p i i'] :
    Same p (IndexSearch.mk d i) (IndexSearch.mk d' i') := ⟨(inferInstance : Same p (d, i) (d', i')).out⟩

section
variable {key key' : Ty} [Same p ty ty'] [Same p name name'] [Same p index index']

theorem tableArgs : L.Agree p (tableArgs ty) (tableArgs ty') := by
  refine L.bind L.lookup @fun q _ form _ h => ?_
  cases h.out with
  | generic base base' args args' =>
    refine (get q args args').list L.pure fun a _ l l' _ hl => ?_
    refine hl.list L.pure fun b _ l _ _ hl => ?_
    exact hl.list L.pure fun _ _ _ _ _ _ => L.pure
  | _ => exact L.pure

theorem tableMember {test test' : Ty → Solve Bool}
    (ht : ∀ (q : Pairing) [p.After q] (key key' : Ty) [Same q key key'], L.Agree q (test key) (test' key')) :
    L.Agree p (tableMember ty test) (tableMember ty' test') := by
  refine L.bind L.tableArgs @fun q _ args _ h => h.option L.pure ?_
  rintro ⟨key, value⟩ ⟨key', value'⟩ h
  have : Same q key key' := h.out.1
  have : Same q value value' := h.out.2
  exact L.bindEq (ht q key key') L.pure

theorem visitField : L.Follows p (visitField name) (visitField name') :=
  fun _ _ _ _ _ _ _ _ => L.ite L.pure (L.ite L.pure L.pure)

include hS

theorem keyTakesField [Same p key key'] : L.Agree p (S.keyTakesField name key) (S'.keyTakesField name' key') :=
  L.ite L.pure (L.bind (L.intern rfl) hS.accepts)

theorem member? : L.Agree p (S.member? ty name) (S'.member? ty' name') := by
  refine L.bind (L.tableMember fun _ _ _ _ _ => L.keyTakesField hS) @fun q _ m _ h => h.option ?_ fun _ _ _ => L.pure
  exact L.bindPair (L.visitMembers hS L.visitField) L.pure

theorem isNarrower {found found' : Option Member} [h : Same p found found'] [Same p key key'] :
    L.Agree p (S.isNarrower found key) (S'.isNarrower found' key') := by
  refine h.option L.pure fun m m' _ => ?_
  unfold Solver.isNarrower
  dsimp only
  exact (get p m.index? m'.index?).option L.pure fun _ _ _ => hS.accepts

theorem keyMatches [Same p key key'] : L.Agree p (S.keyMatches index exact key) (S'.keyMatches index' exact key') :=
  L.ite (L.ite L.pure hS.equal) hS.accepts

theorem visitIndexer : L.Follows p (S.visitIndexer index exact) (S'.visitIndexer index' exact) := by
  intro q _ _ _ m m' _ _
  unfold Solver.visitIndexer
  refine (get q m.index? m'.index?).option L.pure fun key _ _ => ?_
  refine L.bindEq (L.keyMatches hS) @fun r _ fits => L.ite L.pure (L.ite ?_ ?_) <;>
    exact L.bindEq (L.isNarrower hS) <| L.ite L.pure L.pure

theorem arrayIndexer {element element' : Ty} [Same p element element'] :
    L.Agree p (S.arrayIndexer element index exact) (S'.arrayIndexer element' index' exact) :=
  L.ite (L.bindEq L.pure L.pure) (L.bindEq hS.accepts L.pure)

theorem tableKeyTakes [Same p key key'] :
    L.Agree p (S.tableKeyTakes index exact key) (S'.tableKeyTakes index' exact key') :=
  L.ite L.pure (L.ite L.pure hS.accepts)

theorem classIndexer : L.Agree p (S.classIndexer ty index exact) (S'.classIndexer ty' index' exact) :=
  L.bindPair (L.visitMembers hS (L.visitIndexer hS)) L.pure

theorem indexer? : L.Agree p (S.indexer? ty index exact) (S'.indexer? ty' index' exact) := by
  refine L.bind L.lookup @fun q _ form _ h => ?_
  cases h.out with
  | array => exact L.arrayIndexer hS
  | generic =>
    refine L.bind (L.tableMember fun _ _ _ _ _ => L.tableKeyTakes hS) @fun r _ m _ h => ?_
    exact h.option (L.classIndexer hS) fun _ _ _ => L.pure
  | _ => exact L.classIndexer hS

theorem memberAt? {k k' : Key} [h : Same p k k'] : L.Agree p (S.memberAt? ty exact k) (S'.memberAt? ty' exact k') :=
  h.key (fun _ _ _ => L.member? hS) fun _ _ _ => L.indexer? hS
end

/-! ## Types of members -/

section
variable {owner owner' : Ty}

theorem missingMemberType [Same p ty ty'] : L.Agree p (missingMemberType ty) (missingMemberType ty') :=
  L.bindEq L.settings <| L.ite L.pure (L.bindEq L.classMarks L.pure)

include hS

theorem memberType [Same p owner owner'] [Same p m m'] :
    L.Agree p (S.memberType owner m) (S'.memberType owner' m') := by
  unfold Solver.memberType
  refine (get p m.type m'.type).option L.pure fun type _ _ => ?_
  exact L.bind hS.memberSubstitution @fun _ _ _ _ h => h.option L.pure fun _ _ _ => hS.substitute

theorem unionOfSome {find find' : Ty → Solve (Option Ty)} {types types' : List Ty} [Same p types types']
    (hf : ∀ (q : Pairing) [p.After q] (ty ty' : Ty) [Same q ty ty'], L.Agree q (find ty) (find' ty')) :
    L.Agree p (S.unionOfSome find types) (S'.unionOfSome find' types') := by
  refine L.foldlM fun q _ acc _ ty ty' _ _ => ?_
  refine L.bind (hf q ty ty') @fun r _ found _ h => h.option L.pure fun _ _ _ => ?_
  exact L.bind (L.unionWith hS) L.pure

theorem indexedTypes {indexes indexes' : List Ty} {found found' : Option Ty} [Same p ty ty']
    [h : Same p indexes indexes'] [Same p found found'] :
    L.Agree p (S.indexedTypes ty exact indexes found) (S'.indexedTypes ty' exact indexes' found') := by
  induction indexes generalizing p indexes' found found' with
  | nil =>
    obtain ⟨⟨⟩⟩ := h
    exact L.pure
  | cons index rest ih =>
    obtain ⟨_ | ⟨_, hl⟩⟩ := h
    have : Same p rest _ := ⟨hl⟩
    refine L.bind (L.indexer? hS) @fun q _ m m' h => h.option ?_ fun m _ _ => ?_
    · exact L.bind L.missingMemberType @fun _ _ _ _ h => h.option ih fun _ _ _ => L.pure
    · refine L.ite L.pure (L.bind (L.memberType hS) @fun r _ type _ _ => ?_)
      exact L.bind (L.unionWith hS) ih
end

/-! ## Shapes as tables and as arrays -/

instance : Value TableSearch := .via (fun s => (s.key, s.value)) (by rintro ⟨_, _⟩ ⟨_, _⟩ h; simp_all)

instance {s s' : TableSearch} [h : Same p s s'] : Same p s.key s'.key := h.out.1
instance {s s' : TableSearch} [h : Same p s s'] : Same p s.value s'.value := h.out.2

instance {k k' v v' : Option Ty} [Same p k k'] [Same p v v'] : Same p (TableSearch.mk k v) (TableSearch.mk k' v') :=
  ⟨(inferInstance : Same p (k, v) (k', v')).out⟩

instance : Value ArraySearch := .discrete _
instance : Discrete ArraySearch := ⟨Iff.rfl⟩

section
variable [Same p ty ty']

theorem integerKey [Same p index index'] : L.Agree p (integerKey index) (integerKey index') := by
  refine L.bind L.lookup @fun q _ form _ h => ?_
  cases h.out with
  | literal kind text =>
    cases kind with
    | number => exact L.bindEq L.text L.pure
    | _ => exact L.pure
  | _ => exact L.pure

theorem visitElementKey : L.Follows p Solver.visitElementKey Solver.visitElementKey := by
  intro q _ _ _ m m' hf _
  obtain rfl := hf.eq
  unfold Solver.visitElementKey
  refine (get q m.index? m'.index?).option L.pure fun index _ _ => L.ite L.pure ?_
  refine L.bindEq L.integerKey @fun r _ key => ?_
  cases key <;> exact L.pure

include hS

theorem visitTable : L.Follows p S.visitTable S'.visitTable := by
  intro q _ _ _ m m' _ _
  unfold Solver.visitTable
  refine (get q m.key m'.key).key (fun _ _ _ => ?_) fun _ _ _ => ?_
  · refine L.bind (L.intern rfl) @fun r _ key key' _ => L.bind (L.unionWith hS) @fun u _ keys keys' _ => ?_
    exact L.bind (L.unionWith hS) L.pure
  · refine L.bind L.pure @fun r _ key _ _ => L.bind (L.unionWith hS) @fun u _ keys _ _ => ?_
    exact L.bind (L.unionWith hS) L.pure

theorem tableOfMembers : L.Agree p (S.tableOfMembers ty) (S'.tableOfMembers ty') :=
  L.bindPair (L.visitMembers hS (L.visitTable hS)) <| L.intern rfl

theorem isArray : L.Agree p (S.isArray ty) (S'.isArray ty') := by
  refine L.bind (L.resolve hS) @fun q _ _ _ _ => L.bind L.lookup @fun r _ form _ h => ?_
  cases h.out with
  | classRef =>
    refine L.bindEq hS.isShape @fun u _ shape => L.ite L.pure ?_
    exact L.bindEq (L.visitMembers hS L.visitElementKey) L.pure
  | _ => exact L.pure
end

/-! ## Rules -/

section
variable [Same p ty ty'] [Same p name name']
include hS

theorem instanceSubstitution : L.Agree p (Rule.instanceSubstitution S ty) (Rule.instanceSubstitution S' ty') := by
  refine L.bind L.lookup @fun q _ form _ h => L.bind hS.superClass @fun r _ super _ hs => ?_
  refine hs.option (L.bind L.pure @fun u _ inherited _ _ => ?_) fun _ _ _ =>
    L.bind hS.memberSubstitution @fun u _ _ _ _ => ?_
  all_goals
    cases h.out with
    | generic =>
      refine L.bind (L.genericBaseParams hS) @fun v _ params _ _ => L.ite L.pure ?_
      exact L.bind (L.ofTypes inferInstance) L.pure
    | _ => exact L.pure

theorem ruleMemberSubstitution : L.Agree p (Rule.memberSubstitution S ty) (Rule.memberSubstitution S' ty') :=
  L.bind (L.withGuard .memberSubstitution (L.instanceSubstitution hS)) L.pure

theorem declaredFieldType : L.Agree p (Rule.declaredFieldType S ty name) (Rule.declaredFieldType S' ty' name') := by
  refine L.bind (L.member? hS) @fun q _ m _ h => h.option L.missingMemberType fun _ _ _ => ?_
  exact L.bind (L.memberType hS) L.pure

theorem ruleFieldType : L.Agree p (Rule.fieldType S ty name) (Rule.fieldType S' ty' name') := by
  refine L.bind L.lookup @fun q _ form _ h => ?_
  cases h.out with
  | union => exact L.unionOfSome hS fun _ _ _ _ _ => hS.fieldType
  | any => exact L.bindEq L.settings L.pure
  | primitive kind =>
    cases kind with
    | table => exact L.pure
    | _ => exact L.declaredFieldType hS
  | literal => exact hS.fieldType
  | aliasRef => exact L.bind (L.resolve hS) <| L.ite L.pure hS.fieldType
  | _ => exact L.declaredFieldType hS

theorem ruleIndexedType [Same p index index'] :
    L.Agree p (Rule.indexedType S ty index exact) (Rule.indexedType S' ty' index' exact) := by
  refine L.bind L.lookup @fun q _ form _ h => ?_
  have other : L.Agree q (do S.indexedTypes ty exact (← S.resolvedMembers index) none)
      (do S'.indexedTypes ty' exact (← S'.resolvedMembers index') none) :=
    L.bind (L.resolvedMembers hS) <| L.indexedTypes hS
  cases h.out with
  | union => exact L.unionOfSome hS fun _ _ _ _ _ => hS.indexedType
  | any => exact L.bindEq L.settings L.pure
  | primitive kind =>
    cases kind with
    | table => exact L.pure
    | _ => exact other
  | literal => exact hS.indexedType
  | aliasRef => exact L.bind (L.resolve hS) <| L.ite L.pure hS.indexedType
  | _ => exact other

theorem ruleSignaturesOf : L.Agree p (Rule.signaturesOf S ty) (Rule.signaturesOf S' ty') := by
  refine L.bind L.lookup @fun q _ form _ h => ?_
  cases h.out with
  | classRef =>
    refine L.bind (L.resolve hS) @fun r _ _ _ _ => L.ite hS.signaturesOf ?_
    refine L.bind L.classDecl @fun u _ d d' _ => ?_
    have : Same u (d.map ClassDecl.signatures) (d'.map ClassDecl.signatures) :=
      mapOption fun _ _ _ => inferInstance
    exact L.pure
  | aliasRef => exact L.bind (L.resolve hS) <| L.ite L.pure hS.signaturesOf
  | _ => exact L.pure
end

end AnnotatedLua.Logic
