/-
Two runs agree on unions, on what names stand for, on lists of values and on substitutions.
-/
import AnnotatedLua.Proofs.Pair.Steps

namespace AnnotatedLua.Logic

open Solver Rule Same

variable {ty ty' base base' : Ty} {args args' types types' : List Ty} {acc acc' : Option Ty} {n n' : Nat} {node : Node}
  {name name' : Symbol} {m m' : Merge}

variable (L : Logic) {S S' : Solver} (hS : S.Respects S' L) {p : Pairing}
variable {marks : Marks} {expanding expanding' : List Symbol} [Same p expanding expanding']
include hS

/-! ## Unions -/

section
variable {a a' b b' : Ty}

theorem unionAll [Same p types types'] : L.Agree p (S.unionAll types) (S'.unionAll types') := L.unions (hS.comparing p)

theorem union [Same p a a'] [Same p b b'] : L.Agree p (S.union a b) (S'.union a' b') :=
  L.ite L.pure (L.ite L.pure (L.ite L.pure (L.unionAll hS)))

theorem unionWith [h : Same p acc acc'] [Same p ty ty'] : L.Agree p (S.unionWith acc ty) (S'.unionWith acc' ty') :=
  h.option L.pure fun _ _ _ => L.union hS
end

/-! ## Resolution -/

section
variable [Same p ty ty'] [Same p base base']

omit hS in
theorem classMarks : L.Agree p (classMarks ty) (classMarks ty') := by
  refine L.bind L.lookup @fun q _ form _ h => ?_
  cases h.out with
  | classRef =>
    exact L.bind L.classDecl @fun r _ d _ h => h.option L.pure fun _ _ _ => L.pure
  | _ => exact L.pure

theorem resolveWithArgs [Same p args args'] :
    L.Agree p (S.resolveWithArgs base args) (S'.resolveWithArgs base' args') := by
  refine L.bind L.lookup @fun q _ form _ h => ?_
  cases h.out with
  | classRef =>
    refine L.bindEq hS.willResolve @fun r _ will => L.ite L.pure ?_
    exact L.bind L.aliasType @fun _ _ _ _ h => h.option L.pure fun _ _ _ => L.ite L.pure (L.intern rfl)
  | aliasRef =>
    exact L.ite L.pure (L.bind (L.ofTypes inferInstance) hS.substitute)
  | _ => exact L.pure

theorem resolveOne : L.Agree p (S.resolveOne ty) (S'.resolveOne ty') := by
  refine L.bind L.lookup @fun q _ form _ h => ?_
  cases h.out with
  | classRef =>
    refine L.bindEq hS.willResolve @fun r _ will => L.ite L.pure ?_
    exact L.bind L.aliasType L.pure
  | aliasRef => exact L.pure
  | generic => exact L.bind (L.resolveWithArgs hS) L.pure
  | _ => exact L.pure

theorem resolvePending (hn : L.Budgets n n') {pending pending' visited visited' out out' : List Ty}
    [h : Same p pending pending'] [Same p visited visited'] [Same p out out'] :
    L.Agree p (S.resolvePending n pending visited out) (S'.resolvePending n' pending' visited' out') := by
  induction n generalizing p n' pending pending' visited visited' out out' with
  | zero =>
    cases n' with
    | zero => exact h.list L.pure fun _ _ _ _ _ _ => L.exhausted
    | succ => exact h.list L.pure fun _ _ _ _ _ _ => L.spent hn
  | succ n ih =>
    obtain ⟨_, rfl, hpred⟩ := L.budget_pred hn
    refine h.list L.pure fun _ _ _ _ _ _ => ?_
    refine L.bindEq L.isCanceled @fun q _ _ => L.ite L.pure (L.ite (ih hpred) ?_)
    refine L.bind (L.resolveOne hS) @fun r _ _ _ _ => L.ite (ih hpred) ?_
    exact L.bind L.members <| ih hpred

theorem resolvedMembers : L.Agree p (S.resolvedMembers ty) (S'.resolvedMembers ty') :=
  L.bind L.members <| L.bindEq (L.anyM hS.willResolve) <|
    L.ite L.pure (L.resolvePending hS hS.budget)

theorem resolve : L.Agree p (S.resolve ty) (S'.resolve ty') := by
  refine L.bind L.members @fun q _ parts parts' _ =>
    L.bindEq (L.anyM hS.willResolve) @fun r _ any => L.ite L.pure ?_
  refine L.bind (L.resolvedMembers hS) @fun u _ resolved resolved' h => ?_
  have : Same u (resolved.all parts.contains) (resolved'.all parts'.contains) :=
    all fun _ _ _ => inferInstance
  refine L.ite L.pure (h.list L.pure fun a _ l _ _ hl => hl.list L.pure fun _ _ _ _ _ _ => L.unionAll hS)

theorem genericBaseParams : L.Agree p (S.genericBaseParams base) (S'.genericBaseParams base') := by
  refine L.bind L.lookup @fun q _ form _ h => ?_
  cases h.out with
  | classRef name name' marks =>
    refine L.bindEq L.classMarks @fun r _ marks => L.ite hS.paramsOf ?_
    exact L.bind L.aliasType @fun _ _ _ _ h => h.option hS.paramsOf fun _ _ _ => hS.paramsOf
  | _ => exact hS.paramsOf

/-! ## Superclasses -/

variable {σ : Type} [Value σ] {state state' : σ} {visit visit' : σ → Ty → Solve (σ × Bool)} [Same p state state']

theorem visitSupersFrom (hn : L.Budgets n n') (hv : L.Follows p visit visit') {current current' : Ty}
    (seen : List String) [Same p current current'] :
    L.Agree p (S.visitSupersFrom visit n current seen state) (S'.visitSupersFrom visit' n' current' seen state') := by
  induction n generalizing p n' current current' seen state state' with
  | zero =>
    cases n' with
    | zero => exact L.exhausted
    | succ => exact L.spent hn
  | succ n ih =>
    obtain ⟨_, rfl, hpred⟩ := L.budget_pred hn
    refine L.bind hS.superClass @fun q hq next next' h => h.option L.pure fun next _ _ => ?_
    refine L.bindEq L.isCanceled @fun r hr _ => L.ite L.pure ?_
    refine L.bindEq L.name @fun u hu _ => L.ite L.pure ?_
    have hv := hv.later ((hq.trans hr).trans hu)
    exact L.bindPair hv.now @fun v hw state _ go _ => L.ite (ih hpred (hv.later hw) _) L.pure

theorem visitSupers {start start' : Ty} [Same p start start'] (hv : L.Follows p visit visit') :
    L.Agree p (S.visitSupers visit start state) (S'.visitSupers visit' start' state') :=
  L.bindEq L.name @fun _ hq _ => L.visitSupersFrom hS hS.budget (hv.later hq) _
end

/-! ## Rules -/

section
variable [Same p ty ty']

omit hS in
theorem isInlineTable : L.Agree p (isInlineTable ty node) (isInlineTable ty' node) := by
  refine L.bind L.lookup @fun q _ form _ h => ?_
  cases h.out with
  | classRef =>
    exact L.ite L.pure (L.bind L.classDecl @fun _ _ _ _ h => h.option L.pure fun _ _ _ => L.pure)
  | _ => exact L.pure

theorem ruleWillResolve : L.Agree p (Rule.willResolve S ty) (Rule.willResolve S' ty') := by
  refine L.bind L.lookup @fun q _ form _ h => ?_
  cases h.out with
  | classRef => exact L.bindEq L.classMarks L.pure
  | aliasRef => exact L.pure
  | generic =>
    exact L.bind L.members <| L.anyM hS.willResolve
  | _ => exact L.pure

theorem ruleParamsOf : L.Agree p (Rule.paramsOf S ty) (Rule.paramsOf S' ty') := by
  refine L.bind L.lookup @fun q _ form _ h => ?_
  cases h.out with
  | classRef =>
    refine L.bind L.classDecl @fun r _ d d' _ => ?_
    have : Same r (d.map ClassDecl.params) (d'.map ClassDecl.params) := mapOption fun _ _ _ => inferInstance
    exact L.pure
  | aliasRef => exact L.pure
  | generic => exact hS.paramsOf
  | _ => exact L.pure

omit hS in
theorem classSuper [Same p name name'] : L.Agree p (classSuper name) (classSuper name') := by
  refine L.bind L.classDecl @fun q _ d d' _ => ?_
  have h : Same q (d.bind ClassDecl.superClass) (d'.bind ClassDecl.superClass) :=
    bindOption fun _ _ _ => inferInstance
  refine h.option (L.bindEq L.text @fun r _ text => ?_) fun _ _ _ => L.pure
  cases Text.beforeEnding? selfEnding text with
  | none => exact L.pure
  | some owner => exact L.bind (L.classNamed owner Marks.none) L.pure

theorem instanceSuper [Same p base base'] [Same p args args'] :
    L.Agree p (instanceSuper S base args) (instanceSuper S' base' args') := by
  refine L.bind hS.superClass @fun q _ type type' h => h.option L.pure fun type _ _ => ?_
  refine L.bindEq L.kind @fun r _ kind => L.ite L.pure ?_
  refine L.bind hS.paramsOf @fun u _ params _ _ => L.ite L.pure ?_
  refine L.bind (L.ofTypes inferInstance) @fun v _ _ _ _ => ?_
  exact L.bind hS.substitute L.pure

theorem ruleSuperClass : L.Agree p (Rule.superClass S ty) (Rule.superClass S' ty') := by
  refine L.bind L.lookup @fun q _ form _ h => ?_
  cases h.out with
  | classRef => exact L.classSuper
  | generic => exact L.instanceSuper hS
  | _ => exact L.pure

theorem ruleIsShape : L.Agree p (Rule.isShape S ty) (Rule.isShape S' ty') := by
  refine L.bind L.lookup @fun q _ form _ h => ?_
  cases h.out with
  | classRef =>
    refine L.bind (L.resolve hS) @fun r _ _ _ _ => L.ite ?_ hS.isShape
    exact L.bindEq L.classMarks L.pure
  | generic => exact hS.isShape
  | _ => exact L.pure
end

/-! ## Lists of values -/

section
variable {positions positions' : List Ty} [Same p ty ty'] [Same p positions positions']

instance : Value Merge :=
  .via (fun m => (m.positions, m.tail, m.fresh)) (by rintro ⟨_, _, _⟩ ⟨_, _, _⟩ h; simp_all)

section
variable [h : Same p m m']

instance : Same p m.positions m'.positions := h.out.1
instance : Same p m.tail m'.tail := h.out.2.out.1
instance : Same p m.fresh m'.fresh := h.out.2.out.2
end

variable [Same p m m']

instance {l l' : List Ty} {o o' : Option Ty} {b b' : Bool} [Same p l l'] [Same p o o'] [Same p b b'] :
    Same p (Merge.mk l o b) (Merge.mk l' o' b') :=
  ⟨(inferInstance : Same p (l, o, b) (l', o', b')).out⟩

theorem widenFrom {start start' : Nat} [Same p start start'] :
    L.Agree p (S.widenFrom start ty positions) (S'.widenFrom start' ty' positions') :=
  L.bind (L.mapM <| L.union hS) L.pure

theorem beyond : L.Agree p (S.beyond m ty) (S'.beyond m' ty') :=
  L.bind (L.unionWith hS) <| L.ite L.pure (L.union hS)

variable {next next' : Results}

theorem mergeValue {value value' : Ty × Nat} [Same p next next'] [h : Same p value value'] :
    L.Agree p (S.mergeValue m next positions value) (S'.mergeValue m' next' positions' value') := by
  obtain ⟨ty, index⟩ := value
  obtain ⟨ty', index'⟩ := value'
  have : Same p ty ty' := h.out.1
  obtain rfl : index = index' := h.out.2.eq
  unfold Solver.mergeValue
  dsimp only
  refine (get p positions[index]? positions'[index]?).option ?_ fun _ _ _ => ?_
  · exact L.ite L.pure (L.bind (L.beyond hS) L.pure)
  · exact L.bind (L.union hS) L.pure

theorem mergeList [h : Same p next next'] : L.Agree p (S.mergeList m next) (S'.mergeList m' next') := by
  refine L.bind (L.foldlM fun _ _ _ _ _ _ _ _ => L.mergeValue hS) @fun q _ _ _ _ => ?_
  rw [(get q next.variadic next'.variadic).eq]
  cases next'.variadic with
  | false => exact L.bind (L.widenFrom hS) L.pure
  | true =>
    refine (get q next.types.getLast? next'.types.getLast?).option ?_ fun _ _ _ => ?_
    · exact L.bind (L.widenFrom hS) L.pure
    · exact L.bind (L.widenFrom hS) <| L.bind (L.unionWith hS) L.pure

theorem mergeSingle : L.Agree p (S.mergeSingle m ty) (S'.mergeSingle m' ty') :=
  L.bind (L.unionWith hS) <| L.bind (L.widenFrom hS) L.pure

theorem mergeMember : L.Agree p (S.mergeMember m ty) (S'.mergeMember m' ty') := by
  refine L.bind L.lookup @fun q _ form _ h => ?_
  cases h.out with
  | results => exact L.mergeList hS
  | _ => exact L.mergeSingle hS

theorem mergeResults : L.Agree p (S.mergeResults ty) (S'.mergeResults ty') := by
  refine L.bind L.lookup @fun q _ form _ h => ?_
  cases h.out with
  | union =>
    refine L.bind (L.foldlM fun _ _ _ _ _ _ _ _ => L.mergeMember hS) @fun r _ m m' _ => ?_
    refine (get r m.positions m'.positions).list ?_ fun a _ l _ _ hl => ?_
    · exact L.intern rfl
    · refine hl.list ?_ fun _ _ _ _ _ _ => L.intern rfl
      exact (get r m.tail m'.tail).option L.pure fun _ _ _ => L.intern rfl
  | _ => exact L.pure

theorem asResults : L.Agree p (S.asResults ty) (S'.asResults ty') := by
  refine L.bind (L.mergeResults hS) @fun q _ merged _ _ => L.bind L.lookup @fun r _ form _ h => ?_
  cases h.out <;> exact L.pure

variable {first first' second second' : Results} [Same p first first'] [Same p second second'] (k : Nat)

theorem pairLeft : L.Agree p (S.pairLeft first ty k) (S'.pairLeft first' ty' k) :=
  L.ite (L.union hS) L.pure

omit hS in
theorem pairRest : L.Agree p (pairRest second k) (pairRest second' k) := by
  refine L.ite ?_ (L.map (L.intern rfl) inferInstance)
  rw [(get p second.variadic second'.variadic).eq]
  cases second'.variadic with
  | false => exact L.pure
  | true =>
    refine (get p second.types.getLast? second'.types.getLast?).option L.pure fun _ _ _ => ?_
    exact L.map (L.intern rfl) inferInstance

theorem pairRight : L.Agree p (S.pairRight second k) (S'.pairRight second' k) := by
  unfold Solver.pairRight
  rw [(get p second.variadic second'.variadic).eq]
  cases second'.variadic with
  | false => exact L.pure
  | true =>
    refine (get p second.types.getLast? second'.types.getLast?).option L.pure fun _ _ _ => ?_
    exact L.ite (L.map (L.union hS) inferInstance) L.pure

theorem pairUp (several : Bool) : L.Agree p (S.pairUp first second several) (S'.pairUp first' second' several) := by
  unfold Solver.pairUp
  refine (get p first.types.getLast? first'.types.getLast?).option L.pure fun last _ _ => ?_
  have hcount : Same p (if first.variadic then second.types.length + 1 else first.types.length)
      (if first'.variadic then second'.types.length + 1 else first'.types.length) := inferInstance
  dsimp only
  rw [hcount.eq]
  refine L.mapM @fun q _ k _ hk => ?_
  obtain rfl := hk.eq
  refine L.bind (L.pairLeft hS k) @fun r _ left _ _ => ?_
  exact L.ite (L.bind (L.pairRest k) L.pure) (L.bind (L.pairRight hS k) L.pure)

theorem ruleResultAt (position : Nat) : L.Agree p (Rule.resultAt S ty position) (Rule.resultAt S' ty' position) := by
  refine L.bind (L.mergeResults hS) @fun q _ merged _ _ => L.bind L.lookup @fun r _ form _ h => ?_
  cases h.out with
  | results types types' =>
    dsimp only
    refine (get r types.getLast? types'.getLast?).option L.pure fun last _ _ => ?_
    dsimp only
    rw [(get r types.length types'.length).eq]
    refine L.ite hS.resultAt (L.ite ?_ hS.resultAt)
    refine L.bind hS.resultAt @fun u _ here _ _ => L.bind hS.resultAt @fun v _ rest _ _ => ?_
    exact L.bind (L.union hS) <| L.union hS
  | _ => exact L.pure
end

/-! ## Substitutions -/

section
variable {target target' : Ty} {params params' : List Ty} {s s' : Substitution} {written written' : Symbol}
  [Same p base base'] [Same p target target'] [Same p name name'] [Same p params params'] [Same p written written']

theorem substituteSingle [Same p s s'] [Same p ty ty'] :
    L.Agree p (S.substituteSingle s ty) (S'.substituteSingle s' ty') :=
  L.bind hS.substitute hS.resultAt

omit hS in
theorem substituteOptional {f f' : Ty → Solve Ty} {o o' : Option Ty} [h : Same p o o']
    (hf : ∀ (a a' : Ty) [Same p a a'], L.Agree p (f a) (f' a')) :
    L.Agree p (substituteOptional f o) (substituteOptional f' o') :=
  h.option L.pure fun a a' _ => L.bind (hf a a') L.pure

theorem substituteParameter {x x' : Parameter} [Same p s s'] [Same p x x'] :
    L.Agree p (S.substituteParameter s x) (S'.substituteParameter s' x') :=
  L.bind (L.substituteOptional fun _ _ _ => L.substituteSingle hS) L.pure

theorem substituteSignature {sig sig' : Signature} [Same p s s'] [Same p sig sig'] :
    L.Agree p (S.substituteSignature s sig) (S'.substituteSignature s' sig') := by
  refine L.bind (L.mapM <| L.substituteParameter hS) @fun q _ params _ _ => ?_
  refine L.bind (L.substituteOptional fun _ _ _ => hS.substitute) @fun r _ _ _ _ => ?_
  exact L.bind (L.substituteOptional fun _ _ _ => L.substituteSingle hS) L.pure

theorem substituteInstance [Same p s s'] [Same p ty ty'] [Same p args args'] :
    L.Agree p (S.substituteInstance s ty base args) (S'.substituteInstance s' ty' base' args') := by
  refine L.bind (L.mapM <| L.substituteSingle hS) @fun q _ _ _ _ => ?_
  exact L.bind hS.substitute <| L.ite L.pure (L.intern rfl)

variable {overloads overloads' : List Signature} {main main' : Signature}

theorem substituteFunction [Same p s s'] [Same p ty ty'] [Same p main main'] [Same p overloads overloads'] :
    L.Agree p (S.substituteFunction s ty main overloads marks)
      (S'.substituteFunction s' ty' main' overloads' marks) := by
  refine L.bind (L.substituteSignature hS) @fun q _ _ _ _ => ?_
  exact L.bind (L.mapM <| L.substituteSignature hS) <| L.ite L.pure (L.intern rfl)

theorem substituteArray [Same p s s'] [Same p ty ty'] :
    L.Agree p (S.substituteArray s ty target) (S'.substituteArray s' ty' target') :=
  L.bind (L.substituteSingle hS) <| L.ite L.pure (L.intern rfl)

theorem substituteUnion [Same p s s'] [Same p ty ty'] [Same p args args'] :
    L.Agree p (S.substituteUnion s ty args) (S'.substituteUnion s' ty' args') :=
  L.bind (L.mapM hS.substitute) <| L.ite L.pure (L.unionAll hS)

theorem runningUnions [Same p acc acc'] [h : Same p args args'] :
    L.Agree p (S.runningUnions acc args) (S'.runningUnions acc' args') := by
  induction args generalizing p acc acc' args' with
  | nil =>
    obtain ⟨⟨⟩⟩ := h
    exact L.pure
  | cons a args ih =>
    obtain ⟨_ | ⟨_, hl⟩⟩ := h
    have : Same p args _ := ⟨hl⟩
    exact L.bind (L.unionWith hS) <| L.bind ih L.pure

theorem spliceItem (variadic : Bool) [Same p ty ty'] :
    L.Agree p (S.spliceItem variadic ty) (S'.spliceItem variadic ty') := by
  refine L.bind L.lookup @fun q _ form _ h => ?_
  cases h.out with
  | results =>
    exact L.ite (L.bind (L.runningUnions hS) L.pure) L.pure
  | _ => exact L.pure

theorem substituteItems (variadic : Bool) [Same p s s'] [h : Same p args args'] :
    L.Agree p (S.substituteItems s variadic args) (S'.substituteItems s' variadic args') := by
  induction args generalizing p args' with
  | nil =>
    obtain ⟨⟨⟩⟩ := h
    exact L.pure
  | cons item rest ih =>
    obtain ⟨_ | ⟨_, hl⟩⟩ := h
    have : Same p rest _ := ⟨hl⟩
    refine L.bind hS.substitute @fun q _ _ _ _ => ?_
    refine L.ite (L.bindPair L.pure @fun r _ here here' opened _ => ?_)
      (L.bindPair (L.spliceItem hS variadic) @fun r _ here _ opened _ => ?_) <;>
    exact L.bindPair ih L.pure

theorem substituteResults (variadic : Bool) [Same p s s'] [Same p ty ty'] [Same p args args'] :
    L.Agree p (S.substituteResults s ty args variadic) (S'.substituteResults s' ty' args' variadic) :=
  L.bindPair (L.substituteItems hS variadic) <| L.ite (L.intern rfl) L.pure

theorem substituteEach {links links' : List Substitution} (hl : SameLinks p links links') [Same p ty ty'] :
    L.Agree p (S.substituteEach links ty) (S'.substituteEach links' ty') :=
  have := sameLinks_iff.1 hl
  L.foldlM fun _ _ _ _ _ _ _ _ => hS.substitute

theorem expandAlias [Same p ty ty'] : L.Agree p (S.expandAlias expanding ty name params target)
      (S'.expandAlias expanding' ty' name' params' target') :=
  L.ite L.pure hS.substitute

omit hS in
theorem aliasOfBase : L.Agree p (aliasOfBase base) (aliasOfBase base') := by
  refine L.bind L.lookup @fun q _ form _ h => ?_
  cases h.out with
  | classRef => exact L.ite L.pure L.aliasType
  | _ => exact L.pure

theorem expandInstance [Same p ty ty'] [Same p args args'] :
    L.Agree p (S.expandInstance expanding ty base args) (S'.expandInstance expanding' ty' base' args') := by
  refine L.bind L.aliasOfBase @fun q _ type type' h => h.option (L.substituteInstance hS) fun type _ _ => ?_
  refine L.bind L.lookup @fun r _ form _ h => ?_
  cases h.out with
  | aliasRef =>
    refine L.ite L.pure (L.bind (L.ofTypes inferInstance) @fun u _ _ _ _ => ?_)
    exact L.bind hS.substitute hS.substitute
  | _ => exact L.substituteInstance hS

theorem expandClass [Same p ty ty'] :
    L.Agree p (S.expandClass expanding ty name marks) (S'.expandClass expanding' ty' name' marks) :=
  L.ite L.pure (L.bind L.aliasType @fun _ _ _ _ h => h.option L.pure fun _ _ _ => hS.substitute)

theorem instantiateTable {b b' : Bindings} [Same p b b'] [Same p ty ty'] :
    L.Agree p (S.instantiateTable b ty name marks) (S'.instantiateTable b' ty' name' marks) := by
  refine L.ite L.pure (L.bind L.classDecl @fun q _ d d' h => h.option L.pure fun d _ _ => L.ite L.pure ?_)
  exact L.bind (L.mapM hS.substitute) <| L.ite L.pure (L.intern rfl)

omit hS in
theorem bindScoped [Same p ty ty'] : L.Agree p (bindScoped node ty name marks) (bindScoped node ty' name' marks) := by
  refine L.ite L.pure (L.bind (L.scopedType node) @fun q _ type type' h => h.option L.pure fun type _ _ => ?_)
  exact L.bindEq L.kind L.pure

variable {bound bound' : Option Ty}

theorem resolveBound [Same p ty ty'] [h : Same p bound bound'] :
    L.Agree p (S.resolveBound ty name written bound) (S'.resolveBound ty' name' written' bound') :=
  h.option L.pure fun _ _ _ => L.bind hS.substitute <| L.ite L.pure (L.intern rfl)

theorem resolveInBound [Same p ty ty'] : L.Agree p (S.resolveInBound ty name) (S'.resolveInBound ty' name') := by
  refine L.bindEq hS.willResolve @fun q _ will => L.ite L.pure ?_
  refine L.bind (L.resolve hS) @fun r _ _ _ _ => L.ite L.pure ?_
  exact L.bind (L.withExpansion hS.substitute) L.pure

/-! ### By the form of the type -/

variable [h : Same p s s'] [Same p ty ty']

theorem substituteAlias : L.Agree p (substituteAlias S ty name params target s)
      (substituteAlias S' ty' name' params' target' s') := by
  cases h.out with
  | aliases => exact L.expandAlias hS
  | chain hl => exact L.substituteEach hS hl
  | _ => exact L.pure

theorem substituteClass : L.Agree p (substituteClass S ty name marks s) (substituteClass S' ty' name' marks s') := by
  cases h.out with
  | aliases => exact L.expandClass hS
  | params => exact L.instantiateTable hS
  | receiver => exact L.bindEq (L.ofTypes inferInstance) L.pure
  | scope => exact L.bindScoped
  | bounds => exact L.resolveInBound hS
  | chain hl => exact L.substituteEach hS hl

theorem substituteParam [Same p bound bound'] :
    L.Agree p (substituteParam S ty name written bound s) (substituteParam S' ty' name' written' bound' s') := by
  cases h.out with
  | bounds => exact L.resolveBound hS
  | chain hl => exact L.substituteEach hS hl
  | _ => exact L.pure

theorem substituteGeneric [Same p args args'] :
    L.Agree p (substituteGeneric S ty base args s) (substituteGeneric S' ty' base' args' s') := by
  cases h.out with
  | aliases => exact L.expandInstance hS
  | chain hl => exact L.substituteEach hS hl
  | _ => exact L.substituteInstance hS

theorem substituteCallable [Same p main main'] [Same p overloads overloads'] :
    L.Agree p (Rule.substituteFunction S ty main overloads marks s)
      (Rule.substituteFunction S' ty' main' overloads' marks s') := by
  cases h.out with
  | chain hl => exact L.substituteEach hS hl
  | _ => exact L.substituteFunction hS

theorem ruleSubstitute : L.Agree p (Rule.substitute S ty s) (Rule.substitute S' ty' s') := by
  refine L.bind L.lookup @fun q _ form _ h => ?_
  cases h.out with
  | aliasRef => exact L.substituteAlias hS
  | classRef => exact L.substituteClass hS
  | param => exact L.substituteParam hS
  | generic => exact L.substituteGeneric hS
  | function => exact L.substituteCallable hS
  | array => exact L.substituteArray hS
  | union => exact L.substituteUnion hS
  | results => exact L.substituteResults hS _
  | _ => exact L.pure
end

end AnnotatedLua.Logic
