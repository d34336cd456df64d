/-
Two runs agree on equality, on comparisons by members, on checks and on acceptance.
-/
import AnnotatedLua.Proofs.Pair.Members

namespace AnnotatedLua.Logic

open Solver Same

variable {mode : Mode} {target target' source source' base base' ty ty' element element' : Ty}
  {args args' values values' : List Ty} {f f' : Form} {bound bound' : Option Ty} {c c' : Comparison} {wanted : Bool}
  {targetNode : Option Node} {sourceNode : Node} {k k' : Key} {before : Verdict} {kind : Primitive}

variable (L : Logic) {S S' : Solver} (hS : S.Respects S' L) {p : Pairing}

/-! ## Signatures -/

section
variable {a a' b b' : Signature} [Same p a a'] [Same p b b']

theorem allEqual {α : Type} [Value α] {equal equal' : α → α → Solve Bool} {l l' k k' : List α} [Same p l l']
    [Same p k k'] (he : L.Follows p equal equal') : L.Agree p (allEqual equal l k) (allEqual equal' l' k') :=
  L.ite (L.allM @fun _ hq x _ _ => (he.later hq).now (a := x.1) (b := x.2)) L.pure

include hS

theorem optionalEqual {o o' k k' : Option Ty} [h : Same p o o'] [hk : Same p k k'] :
    L.Agree p (S.optionalEqual o k) (S'.optionalEqual o' k') :=
  h.option (hk.option L.pure fun _ _ _ => L.pure) fun _ _ _ => hk.option L.pure fun _ _ _ => hS.equal

theorem parameterEqual {x x' y y' : Parameter} [Same p x x'] [Same p y y'] :
    L.Agree p (S.parameterEqual x y) (S'.parameterEqual x' y') :=
  L.ite hS.equal L.pure

theorem signatureEqual : L.Agree p (S.signatureEqual a b) (S'.signatureEqual a' b') := by
  refine L.ite (L.andM (L.optionalEqual hS) (L.andM (L.optionalEqual hS) (L.andM ?_ ?_))) L.pure
  · exact L.allEqual fun _ _ _ _ _ _ _ _ => L.parameterEqual hS
  · exact L.allEqual fun _ _ _ _ _ _ _ _ => hS.equal

theorem parametersAccept {ts ts' ss ss' : List Parameter} [ht : Same p ts ts'] [hs : Same p ss ss'] :
    L.Agree p (S.parametersAccept mode ts ss) (S'.parametersAccept mode ts' ss') := by
  induction ts generalizing p ts' ss ss' with
  | nil =>
    obtain ⟨⟨⟩⟩ := ht
    exact hs.list L.pure fun _ _ _ _ _ _ => L.pure
  | cons t ts ih =>
    obtain ⟨_ | ⟨_, hl⟩⟩ := ht
    have : Same p ts _ := ⟨hl⟩
    refine hs.list L.pure fun s _ ss _ _ _ => ?_
    exact L.bindEq hS.accepts <| L.ite ih L.pure

theorem signatureAccepts : L.Agree p (S.signatureAccepts a b mode) (S'.signatureAccepts a' b' mode) := by
  refine L.bindEq (L.parametersAccept hS) @fun q _ params => L.ite L.pure ?_
  refine (get q a.returns a'.returns).option ?_ fun target _ _ => ?_
  · exact (get q b.returns b'.returns).option L.pure fun _ _ _ => L.pure
  · exact (get q b.returns b'.returns).option L.pure fun _ _ _ => hS.accepts
end

/-! ## Equality -/

section
variable {a a' b b' other other' : Ty} {name name' : Symbol} [Same p a a'] [Same p b b'] [Same p name name']
  [Same p other other']
include hS

theorem shapesEqual : L.Agree p (S.shapesEqual a b) (S'.shapesEqual a' b') := by
  refine L.bindEq hS.isShape @fun q _ first => L.ite L.pure ?_
  refine L.bindEq hS.isShape @fun r _ second => L.ite L.pure ?_
  exact L.bind (L.withGuard .shapeEquality (L.andM hS.accepts hS.accepts)) L.pure

theorem classEqual : L.Agree p (S.classEqual a name other) (S'.classEqual a' name' other') := by
  refine L.ite L.pure (L.bind L.lookup @fun q _ form _ h => ?_)
  cases h.out with
  | classRef =>
    refine L.ite ?_ (L.shapesEqual hS)
    refine L.bindEq L.classMarks @fun r _ marks => L.bindEq L.classMarks @fun u _ _ => ?_
    exact L.ite L.pure (L.shapesEqual hS)
  | _ => exact L.shapesEqual hS

theorem instanceEqual [Same p base base'] [Same p args args'] :
    L.Agree p (S.instanceEqual a base args other) (S'.instanceEqual a' base' args' other') := by
  refine L.bind L.lookup @fun q _ form _ h => ?_
  cases h.out with
  | generic =>
    refine L.ite ?_ (L.shapesEqual hS)
    refine L.bindEq (L.andM hS.equal (L.allEqual fun _ _ _ _ _ _ _ _ => hS.equal)) @fun r _ same => ?_
    exact L.ite L.pure (L.shapesEqual hS)
  | _ => exact L.shapesEqual hS

theorem unionsEqual {own own' others others' : List Ty} [Same p own own'] [Same p others others'] :
    L.Agree p (S.unionsEqual own others) (S'.unionsEqual own' others') :=
  L.ite (L.allM <| L.ite L.pure (L.anyM hS.equal)) L.pure

theorem paramsEqual {otherName otherName' : Symbol} {otherBound otherBound' : Option Ty}
    [Same p bound bound'] [Same p otherName otherName'] [Same p otherBound otherBound'] :
    L.Agree p (S.paramsEqual name bound otherName otherBound) (S'.paramsEqual name' bound' otherName' otherBound') :=
  L.ite (L.optionalEqual hS) L.pure

theorem ruleEqual : L.Agree p (Rule.equal S a b) (Rule.equal S' a' b') := by
  refine L.ite L.pure (L.bind L.lookup @fun q _ form form' h => ?_)
  cases h.out with
  | snippet => exact L.pure
  | array =>
    refine L.bind (L.resolve hS) @fun r _ other other' _ => L.bind L.lookup @fun u _ form form' h => ?_
    cases h.out with
    | array => exact hS.equal
    | _ => exact L.pure
  | classRef =>
    refine L.bind (L.resolve hS) @fun r _ resolved _ _ => L.ite hS.equal ?_
    exact L.bind (L.resolve hS) <| L.classEqual hS
  | param =>
    refine L.bind (L.resolve hS) @fun r _ other other' _ => L.bind L.lookup @fun u _ form form' h => ?_
    cases h.out with
    | param => exact L.paramsEqual hS
    | _ => exact L.pure
  | aliasRef => exact L.bind (L.withGuard .aliasEquality hS.equal) L.pure
  | union =>
    refine L.bind (L.resolve hS) @fun r _ x _ _ => L.bind L.members @fun u _ own _ _ => ?_
    refine L.bind (L.resolve hS) <| L.bind L.members <| L.unionsEqual hS
  | generic =>
    refine L.bind (L.resolve hS) @fun r _ _ _ _ => L.ite hS.equal ?_
    exact L.bind (L.resolve hS) <| L.instanceEqual hS
  | function =>
    refine L.bind (L.resolve hS) @fun r _ other other' _ => L.bind L.lookup @fun u _ form form' h => ?_
    cases h.out with
    | function =>
      exact L.andM (L.signatureEqual hS) (L.allEqual fun _ _ _ _ _ _ _ _ => L.signatureEqual hS)
    | _ => exact L.pure
  | results =>
    refine L.bind (L.resolve hS) @fun r _ other _ _ => L.bind L.lookup @fun u _ form _ h => ?_
    cases h.out with
    | results => exact L.ite (L.allEqual fun _ _ _ _ _ _ _ _ => hS.equal) L.pure
    | _ => exact L.pure
  | _ => exact L.bind (L.resolve hS) L.pure
end

/-! ## Comparing by members -/

instance : Value Comparison :=
  .via (fun c => (c.wanted, c.target, c.source, c.mode, c.targetNode, c.sourceNode))
    (by rintro ⟨_, _, _, _, _, _⟩ ⟨_, _, _, _, _, _⟩ h; simp_all)

section
variable [h : Same p c c']

instance : Same p c.wanted c'.wanted := h.out.1
instance : Same p c.target c'.target := h.out.2.out.1
instance : Same p c.source c'.source := h.out.2.out.2.out.1
instance : Same p c.mode c'.mode := h.out.2.out.2.out.2.out.1
instance : Same p c.targetNode c'.targetNode := h.out.2.out.2.out.2.out.2.out.1
instance : Same p c.sourceNode c'.sourceNode := h.out.2.out.2.out.2.out.2.out.2

instance {before part : Verdict} : Same p (c.next before part) (c'.next before part) := by
  unfold Comparison.next
  infer_instance
end

instance {w : Bool} {t t' s s' : Ty} {m : Mode} {n k : Option Node} [Same p t t'] [Same p s s'] :
    Same p (Comparison.mk w t s m n k) (Comparison.mk w t' s' m n k) :=
  ⟨(inferInstance : Same p (w, t, s, m, n, k) (w, t', s', m, n, k)).out⟩

section
variable {index index' : Ty} {anchor : Option Node} {m m' : Member} [Same p target target'] [Same p source source']
  [Same p ty ty'] [Same p c c'] [Same p m m']

theorem mismatch : L.Agree p (mismatch targetNode sourceNode target source)
      (mismatch targetNode sourceNode target' source') :=
  L.bindEq L.name <| L.bindEq L.name L.pure

theorem inlineTableNode : L.Agree p (inlineTableNode ty) (inlineTableNode ty') := by
  refine L.bind L.lookup @fun q _ form _ h => ?_
  cases h.out with
  | classRef =>
    refine L.ite L.pure (L.bind L.classDecl @fun r _ d d' _ => ?_)
    have : Same r (d.bind ClassDecl.tableNode) (d'.bind ClassDecl.tableNode) :=
      bindOption fun _ _ _ => inferInstance
    exact L.pure
  | _ => exact L.pure

theorem keyName [h : Same p k k'] : L.Agree p (keyName k) (keyName k') :=
  h.key (fun _ _ _ => L.text) fun _ _ _ => L.bindEq L.name L.pure

theorem mismatchUnless {accepted : Bool} :
    L.Agree p (Solver.mismatchUnless wanted accepted targetNode anchor target source)
      (Solver.mismatchUnless wanted accepted targetNode anchor target' source') := by
  refine L.ite L.pure ?_
  cases wanted with
  | false => exact L.pure
  | true =>
    cases anchor with
    | none => exact L.pure
    | some => exact L.bindEq L.mismatch L.pure

theorem missingVerdict : L.Agree p (missingVerdict c m ty) (missingVerdict c' m' ty') := by
  refine L.bindEq (L.ofTypes inferInstance) @fun q _ hasNil => L.ite L.pure (L.ite L.pure ?_)
  refine L.bindEq L.keyName @fun r _ key => L.bindEq L.name @fun u _ shown => ?_
  rw [(get u c.targetNode c'.targetNode).eq, (get u c.sourceNode c'.sourceNode).eq,
    (get u m.node m'.node).eq]
  exact L.pure

theorem visitIndex : L.Follows p Solver.visitIndex Solver.visitIndex := by
  intro q _ _ _ m m' _ _
  unfold Solver.visitIndex
  exact (get q m.key m'.key).key (fun _ _ _ => L.pure) fun _ _ _ => L.pure

include hS

theorem memberAccepts (hl : wanted = true → L.Parents) :
    L.Agree p (S.memberAccepts wanted target source mode targetNode anchor)
      (S'.memberAccepts wanted target' source' mode targetNode anchor) := by
  cases wanted with
  | false =>
    show L.Agree p (S.accepts target source mode >>= (Solver.mismatchUnless false · targetNode anchor target source))
      (S'.accepts target' source' mode >>= (Solver.mismatchUnless false · targetNode anchor target' source'))
    exact L.bindEq hS.accepts L.mismatchUnless
  | true =>
    refine L.ite (L.bindEq L.inlineTableNode @fun q _ inline => ?_) (L.bindEq L.pure @fun q _ inline => ?_)
    all_goals
      cases inline with
      | none => exact L.bindEq hS.accepts L.mismatchUnless
      | some => exact hS.check (hl rfl)

section
variable (hl : c'.wanted = true → L.Parents)
include hl

theorem presentVerdict : L.Agree p (S.presentVerdict c ty m) (S'.presentVerdict c' ty' m') := by
  refine L.bind (L.memberType hS) @fun q _ _ _ _ => ?_
  rw [(get q c.mode c'.mode).eq, (get q c.wanted c'.wanted).eq,
    (get q c.targetNode c'.targetNode).eq, (get q c.sourceNode c'.sourceNode).eq,
    (get q m.node m'.node).eq]
  exact L.ite L.pure (L.memberAccepts hS hl)

theorem visitTargetMember : L.Follows p (S.visitTargetMember c) (S'.visitTargetMember c') := by
  intro q _ _ _ m _ hb _
  obtain rfl := hb.eq
  refine L.ite L.pure (L.bind (L.memberType hS) @fun r _ _ _ _ => ?_)
  refine L.bind (L.memberAt? hS) @fun u _ found _ h => h.option ?_ fun _ _ _ => ?_
  · exact L.bindEq L.missingVerdict L.pure
  · exact L.bindEq (L.presentVerdict hS hl) L.pure

theorem indexVerdict {node : Option Node} [Same p index index'] :
    L.Agree p (S.indexVerdict c index node) (S'.indexVerdict c' index' node) := by
  refine L.bind (L.indexer? hS) @fun q _ found found' h => h.option L.pure fun m m' _ => ?_
  rw [(get q c.mode c'.mode).eq, (get q c.wanted c'.wanted).eq,
    (get q c.targetNode c'.targetNode).eq, (get q c.sourceNode c'.sourceNode).eq]
  dsimp only
  refine (get q m.index? m'.index?).option (L.bindEq L.pure @fun r _ same => ?_) fun key _ _ =>
    L.ite (L.bindEq L.pure @fun r _ same => ?_) (L.bindEq hS.equal @fun r _ same => ?_)
  all_goals
    refine L.ite L.pure (L.bind (L.memberType hS) @fun u _ _ _ _ => ?_)
    refine L.bind hS.indexedType @fun v _ found _ _ => L.ite L.pure (L.ite (L.memberAccepts hS hl) ?_)
    exact L.bindEq hS.equal L.mismatchUnless

theorem indexVerdicts {l l' : List (Ty × Option Node)} [h : Same p l l'] :
    L.Agree p (S.indexVerdicts c l before) (S'.indexVerdicts c' l' before) := by
  induction l generalizing p l' before with
  | nil =>
    obtain ⟨⟨⟩⟩ := h
    exact L.pure
  | cons x l ih =>
    obtain ⟨_ | ⟨hx, hr⟩⟩ := h
    have : Same p l _ := ⟨hr⟩
    obtain ⟨index, node⟩ := x
    rename_i y _
    obtain ⟨index', node'⟩ := y
    have : Same p index index' := hx.out.1
    obtain rfl : node = node' := hx.out.2.eq
    refine L.bindEq (L.indexVerdict hS hl) @fun q _ part => ?_
    rw [(get q (c.next before part) (c'.next before part)).eq]
    exact L.ite ih L.pure

theorem acceptsMembers : L.Agree p (S.acceptsMembers c) (S'.acceptsMembers c') := by
  refine L.bindEq (L.visitMembers hS (L.visitTargetMember hS hl)) @fun q _ found => L.ite L.pure ?_
  exact L.bindPair (L.visitMembers hS L.visitIndex) <| L.indexVerdicts hS hl
end

theorem acceptsInstanceMembers :
    L.Agree p (S.acceptsInstanceMembers target source mode) (S'.acceptsInstanceMembers target' source' mode) := by
  refine L.bindEq (L.visitMembers hS fun q _ _ _ m _ _ _ => L.ite L.pure ?_) L.pure
  refine L.bind (L.memberType hS) @fun r _ _ _ _ => ?_
  refine L.bind (L.memberAt? hS) @fun u _ found _ h => h.option ?_ fun _ _ _ => ?_
  · exact L.bindEq (L.ofTypes inferInstance) L.pure
  · refine L.bind (L.memberType hS) @fun v _ _ _ _ => ?_
    exact L.bindEq hS.accepts L.pure
end

/-! ## Checks -/

instance : Value Candidate := .discrete _
instance : Discrete Candidate := ⟨Iff.rfl⟩

section
variable (hl : L.Parents) {i : Inspection} {node root : Node} [Same p target target'] [Same p element element']
  [Same p source source']

theorem expandResults [Same p ty ty'] : L.Agree p (expandResults ty) (expandResults ty') := by
  refine L.bind L.lookup @fun q _ form _ h => ?_
  cases h.out <;> exact L.pure

theorem elementKey {found : ArraySearch} [h : Same p k k'] : L.Agree p (elementKey found k) (elementKey found k') := by
  refine h.key (fun _ _ _ => ?_) fun _ _ _ => ?_
  · exact L.bindEq L.keyName L.pure
  · refine L.ite L.pure (L.bindEq L.integerKey @fun q _ key => ?_)
    cases key with
    | some => exact L.pure
    | none => exact L.bindEq L.keyName L.pure

include hl

theorem depthBelow (n : Nat) : L.Agree p (depthBelow root n node) (depthBelow root n node) := by
  induction n generalizing p node with
  | zero => exact L.pure
  | succ n ih =>
    refine L.ite L.pure (L.bindEq (L.parent hl node) @fun q _ up => ?_)
    cases up with
    | none => exact L.pure
    | some => exact L.bindEq ih L.pure

theorem candidateDepth {c : Candidate} : L.Agree p (candidateDepth root c) (candidateDepth root c) := by
  refine L.bindEq (L.mapM @fun q _ a _ h => ?_) L.pure
  obtain rfl := h.eq
  exact L.depthBelow hl _

include hS

theorem checkEach [h : Same p values values'] :
    L.Agree p (S.checkEach i target node values before) (S'.checkEach i target' node values' before) := by
  induction values generalizing p values' before with
  | nil =>
    obtain ⟨⟨⟩⟩ := h
    exact L.pure
  | cons value rest ih =>
    obtain ⟨_ | ⟨_, hr⟩⟩ := h
    have : Same p rest _ := ⟨hr⟩
    exact L.bindEq (hS.check hl) <| L.ite ih L.pure

theorem visitElement {inline : Bool} {shown : String} :
    L.Follows p (S.visitElement i inline shown element source) (S'.visitElement i inline shown element' source') := by
  rintro q _ ⟨found, before⟩ x m m' h _
  obtain rfl := h.eq
  unfold Solver.visitElement
  rw [(get q m.node m'.node).eq]
  refine L.bindEq L.elementKey @fun r _ key => ?_
  cases key with
  | inr => exact L.pure
  | inl =>
    refine L.bind (L.memberType hS) @fun u _ type _ _ => L.bind L.expandResults @fun v _ values _ _ => ?_
    exact L.bindEq (L.checkEach hS hl) L.pure

theorem checkArrayShape :
    L.Agree p (S.checkArrayShape i target element source) (S'.checkArrayShape i target' element' source') := by
  refine L.bindEq L.isInlineTable @fun q _ inline => L.bindEq L.name @fun r _ _ => ?_
  refine L.bindEq (L.visitMembers hS (L.visitElement hS hl)) @fun u _ found => L.ite ?_ L.pure
  exact L.bindEq L.name L.pure

omit hl in
theorem checkPlain : L.Agree p (S.checkPlain i target source) (S'.checkPlain i target' source') :=
  L.bindEq hS.accepts <| L.ite L.pure (L.bindEq L.mismatch L.pure)

theorem checkTable : L.Agree p (S.checkTable i target source) (S'.checkTable i target' source') := by
  refine L.bind L.lookup @fun q _ form _ h => ?_
  cases h.out <;> exact L.bind L.pure <|
    L.bindEq (L.andM L.isInlineTable hS.isShape) <| L.ite (L.acceptsMembers hS fun _ => hl) (L.checkPlain hS)

theorem checkArray : L.Agree p (S.checkArray i target source) (S'.checkArray i target' source') := by
  refine L.bindEq L.kind @fun q _ kind => ?_
  cases kind with
  | classRef =>
    exact L.bindEq (L.isArray hS) <| L.ite (L.checkTable hS hl) (L.bindEq hS.accepts <|
      L.ite (L.checkTable hS hl) (L.bindEq L.mismatch L.pure))
  | _ =>
    exact L.bindEq L.pure <| L.ite (L.checkTable hS hl) (L.bindEq hS.accepts <|
      L.ite (L.checkTable hS hl) (L.bindEq L.mismatch L.pure))

theorem checkSingle : L.Agree p (S.checkSingle i target source) (S'.checkSingle i target' source') := by
  refine L.bind L.lookup @fun q _ form _ h => ?_
  cases h.out with
  | array =>
    refine L.bind (L.resolve hS) @fun r _ _ _ _ => L.bindEq L.kind @fun u _ kind => ?_
    exact L.bindEq (L.andM L.pure hS.isShape) <| L.ite (L.checkArrayShape hS hl) (L.checkArray hS hl)
  | _ => exact L.checkTable hS hl

theorem tryCandidates {targets targets' : List Ty} {tried : List Candidate} [h : Same p targets targets'] :
    L.Agree p (S.tryCandidates i source targets tried) (S'.tryCandidates i source' targets' tried) := by
  induction targets generalizing p targets' tried with
  | nil =>
    obtain ⟨⟨⟩⟩ := h
    exact L.pure
  | cons target rest ih =>
    obtain ⟨_ | ⟨_, hr⟩⟩ := h
    have : Same p rest _ := ⟨hr⟩
    exact L.bindEq (L.checkSingle hS hl) <| L.ite L.pure (L.bindEq L.name ih)

theorem checkCandidates : L.Agree p (S.checkCandidates i target source) (S'.checkCandidates i target' source') := by
  refine L.bind (L.resolvedMembers hS) @fun q _ parts _ _ => L.bindEq (L.tryCandidates hS hl) @fun r _ tried => ?_
  cases tried with
  | none => exact L.pure
  | some =>
    refine L.bindEq (L.mapM @fun u _ c _ h => ?_) L.pure
    obtain rfl := h.eq
    exact L.bindEq (L.candidateDepth hl) L.pure

omit hl in
theorem acceptsShape : L.Agree p (S.acceptsShape target) (S'.acceptsShape target') :=
  L.bind (L.resolvedMembers hS) <| L.anyM <|
    L.bind (L.resolve hS) hS.isShape

theorem ruleCheck :
    L.Agree p (Rule.check S wanted target source mode targetNode sourceNode)
      (Rule.check S' wanted target' source' mode targetNode sourceNode) := by
  refine L.ite L.pure (L.bind (L.resolve hS) @fun q _ _ _ _ => ?_)
  refine L.bindEq L.kind @fun r _ kind => L.bindEq (L.orM L.pure L.isInlineTable) @fun u _ _ => ?_
  refine L.bindEq (L.acceptsShape hS) @fun v _ shape => L.ite (L.checkSingle hS hl) ?_
  refine L.bindEq L.kind @fun w _ kind => L.bindEq (L.andM L.pure hS.accepts) @fun x _ union => ?_
  exact L.ite L.pure (L.checkCandidates hS hl)
end

/-! ## Acceptance -/

section
variable [Same p source source'] [Same p target target'] [Same p element element']

theorem isLenient : L.Agree p (isLenient source mode) (isLenient source' mode) :=
  L.bindEq L.settings L.pure

theorem acceptsAsPrimitive [h : Same p f f'] :
    L.Agree p (acceptsAsPrimitive kind source f) (acceptsAsPrimitive kind source' f') := by
  cases kind with
  | table =>
    cases h.out with
    | _ => exact L.bindEq L.kind L.pure
  | _ => exact L.pure

include hS

theorem acceptsSuper : L.Agree p (S.acceptsSuper target source mode) (S'.acceptsSuper target' source' mode) := by
  refine L.bind hS.superClass @fun q _ super _ h => h.option L.pure fun type _ _ => ?_
  exact L.bind (L.withGuard .superClass hS.accepts) L.pure

theorem acceptsShapeOf : L.Agree p (S.acceptsShapeOf target source mode) (S'.acceptsShapeOf target' source' mode) :=
  L.bindEq (L.withGuard .shape (L.acceptsMembers hS nofun)) L.pure

theorem acceptsSingle [Same p f f'] :
    L.Agree p (S.acceptsSingle target source f mode) (S'.acceptsSingle target' source' f' mode) :=
  L.bindEq (L.andM L.pure hS.isShape) <| L.ite (L.acceptsShapeOf hS) (L.acceptsSuper hS)

theorem acceptsBase : L.Agree p (S.acceptsBase target source mode) (S'.acceptsBase target' source' mode) := by
  refine L.bindEq L.isLenient @fun q _ _ => L.ite L.pure ?_
  refine L.bind (L.resolve hS) @fun r _ _ _ _ => L.bindEq hS.equal @fun u _ equal => L.ite L.pure ?_
  refine L.ite hS.accepts (L.bind L.lookup @fun v _ form _ h => ?_)
  cases h.out with
  | union =>
    refine L.bind (L.ofTypes <| filter fun _ _ _ => inferInstance) @fun w _ _ _ _ => ?_
    exact L.allM hS.accepts
  | _ => exact L.acceptsSingle hS

theorem primitiveAccepts :
    L.Agree p (S.primitiveAccepts kind target source mode) (S'.primitiveAccepts kind target' source' mode) := by
  refine L.bindEq (L.acceptsBase hS) @fun q _ _ => L.ite L.pure ?_
  refine L.bind (L.resolve hS) @fun r _ _ _ _ => L.bind L.lookup @fun u _ form _ _ => ?_
  exact L.ite L.pure (L.ite L.pure L.acceptsAsPrimitive)

theorem literalAccepts : L.Agree p (S.literalAccepts target source mode) (S'.literalAccepts target' source' mode) := by
  refine L.bind (L.resolve hS) @fun q _ _ _ _ => L.ite L.pure ?_
  refine L.bindEq (L.andM L.pure (L.bindEq L.classMarks L.pure)) @fun r _ _ => ?_
  exact L.ite L.pure (L.acceptsBase hS)

theorem acceptElements {found found' : Option Ty} [h : Same p values values'] [Same p found found'] :
    L.Agree p (S.acceptElements element mode values found) (S'.acceptElements element' mode values' found') := by
  induction values generalizing p values' found found' with
  | nil =>
    obtain ⟨⟨⟩⟩ := h
    exact L.pure
  | cons value rest ih =>
    obtain ⟨_ | ⟨_, hl⟩⟩ := h
    have : Same p rest _ := ⟨hl⟩
    refine L.bindEq hS.accepts @fun q _ _ => L.ite ?_ L.pure
    exact L.bind (L.unionWith hS) ih

theorem visitArrayMember :
    L.Follows p (S.visitArrayMember element source mode) (S'.visitArrayMember element' source' mode) := by
  intro q _ _ _ m m' _ _
  unfold Solver.visitArrayMember
  refine (get q m.index? m'.index?).option L.pure fun index _ _ => ?_
  refine L.bindEq (L.andM L.pure (L.bindEq L.integerKey L.pure)) @fun r _ other => L.ite L.pure ?_
  refine L.bind (L.memberType hS) @fun u _ type _ _ => ?_
  exact L.bind L.expandResults <| L.acceptElements hS

theorem arrayAcceptsShape :
    L.Agree p (S.arrayAcceptsShape element source mode) (S'.arrayAcceptsShape element' source' mode) := by
  refine L.bindPair (L.visitMembers hS (L.visitArrayMember hS)) @fun q _ found _ _ h => ?_
  refine L.ite L.pure (L.ite L.pure (h.option ?_ fun _ _ _ => ?_))
  · exact L.bindEq L.pure L.pure
  · exact L.bindEq hS.equal L.pure

theorem arrayAccepts :
    L.Agree p (S.arrayAccepts target element source mode) (S'.arrayAccepts target' element' source' mode) := by
  refine L.bindEq (L.acceptsBase hS) @fun q _ _ => L.ite L.pure ?_
  refine L.bind (L.resolve hS) @fun r _ _ _ _ => L.bind (L.resolve hS) @fun u _ _ _ _ => ?_
  refine L.bind L.lookup @fun v _ form _ h => ?_
  cases h.out with
  | array => exact L.orM hS.equal (L.andM L.pure hS.accepts)
  | classRef => exact L.bindEq (L.isArray hS) <| L.ite (L.arrayAcceptsShape hS) L.pure
  | _ => exact L.pure

theorem classAccepts : L.Agree p (S.classAccepts target source mode) (S'.classAccepts target' source' mode) := by
  refine L.bindEq L.classMarks @fun q _ marks => L.ite (L.bindEq L.kind L.pure) ?_
  exact L.bind (L.resolve hS) <| L.ite (L.acceptsBase hS) hS.accepts

theorem paramAccepts [h : Same p bound bound'] :
    L.Agree p (S.paramAccepts target bound source mode) (S'.paramAccepts target' bound' source' mode) :=
  L.ite (h.option L.pure fun _ _ _ => hS.accepts) (L.acceptsBase hS)
end

/-! ## Instances -/

instance : Value AsInstance :=
  .via (fun x => (x.base, x.args, x.narrower)) (by rintro ⟨_, _, _⟩ ⟨_, _, _⟩ h; simp_all)

section
variable {x x' : AsInstance} [h : Same p x x']

instance : Same p x.base x'.base := h.out.1
instance : Same p x.args x'.args := h.out.2.out.1
instance : Same p x.narrower x'.narrower := h.out.2.out.2
end

instance {b b' : Ty} {l l' : List Ty} {n n' : Bool} [Same p b b'] [Same p l l'] [Same p n n'] :
    Same p (AsInstance.mk b l n) (AsInstance.mk b' l' n') :=
  ⟨(inferInstance : Same p (b, l, n) (b', l', n')).out⟩

section
variable [Same p target target'] [Same p base base'] [Same p args args'] [Same p source source']
include hS

theorem tableAcceptsArray [Same p element element'] :
    L.Agree p (S.tableAcceptsArray target element mode) (S'.tableAcceptsArray target' element' mode) := by
  refine L.bind L.tableArgs @fun q _ found _ h => h.option L.pure fun x _ _ => ?_
  exact L.ite (L.orM hS.equal (L.andM L.pure hS.accepts)) L.pure

theorem sourceInstance [h : Same p f f'] :
    L.Agree p (S.sourceInstance base args source f mode) (S'.sourceInstance base' args' source' f' mode) := by
  cases h.out with
  | generic => exact L.pure
  | classRef =>
    refine L.ite (L.bindEq hS.isShape @fun q _ shape => L.ite L.pure ?_) (L.bind hS.paramsOf L.pure)
    exact L.bind (L.tableOfMembers hS) <| L.bind L.tableArgs @fun _ _ _ _ h =>
      h.option L.pure fun _ _ _ => L.pure
  | _ =>
    refine L.ite (L.bindEq hS.isShape @fun q _ shape => L.ite L.pure ?_) L.pure
    exact L.bind (L.tableOfMembers hS) <| L.bind L.tableArgs @fun _ _ _ _ h =>
      h.option L.pure fun _ _ _ => L.pure

theorem argumentAccepts {narrower : Bool} : L.Agree p (S.argumentAccepts mode narrower target source)
      (S'.argumentAccepts mode narrower target' source') := by
  refine L.bindEq hS.equal @fun q _ equal => L.ite L.pure (L.ite L.pure (L.bindEq L.kind @fun r _ kind => ?_))
  exact L.ite hS.accepts L.pure

theorem instanceAcceptsArgs [Same p f f'] : L.Agree p (S.instanceAcceptsArgs target base args source f mode)
      (S'.instanceAcceptsArgs target' base' args' source' f' mode) := by
  refine L.bind (L.sourceInstance hS) @fun q _ other _ h => h.option (L.acceptsBase hS) fun x x' _ => ?_
  refine L.bindEq hS.equal @fun r _ equal => L.ite ?_ (L.acceptsBase hS)
  rw [(get r x.narrower x'.narrower).eq]
  exact L.allEqual fun _ _ _ _ _ _ _ _ => L.argumentAccepts hS

theorem instanceByMembers [h : Same p f f'] :
    L.Agree p (S.instanceByMembers base f mode) (S'.instanceByMembers base' f' mode) := by
  cases h.out with
  | generic =>
    exact L.bindEq hS.equal <| L.bindEq hS.isShape <| L.ite L.pure L.pure
  | _ => exact L.bindEq L.pure <| L.bindEq hS.isShape <| L.ite L.pure L.pure

theorem instanceAcceptsResolved : L.Agree p (S.instanceAcceptsResolved target base args source mode)
      (S'.instanceAcceptsResolved target' base' args' source' mode) := by
  refine L.bind L.lookup @fun q _ form _ h => L.ite (L.acceptsBase hS) ?_
  refine L.bind (L.resolve hS) @fun r _ base _ _ => ?_
  refine L.bindEq (L.instanceByMembers hS) @fun u _ _ => L.ite ?_ ?_
  · exact L.bindEq (L.withGuard .genericShape (L.acceptsInstanceMembers hS)) L.pure
  · have : Same u (args.all Ty.isAny) (args'.all Ty.isAny) := all fun _ _ _ => inferInstance
    cases h.out with
    | array => exact L.tableAcceptsArray hS
    | _ => exact L.ite L.pure (L.instanceAcceptsArgs hS)

theorem instanceAccepts : L.Agree p (S.instanceAccepts target base args source mode)
      (S'.instanceAccepts target' base' args' source' mode) := by
  refine L.bindEq L.isLenient @fun q _ _ => L.ite L.pure ?_
  refine L.bind (L.resolve hS) @fun r _ _ _ _ => L.ite hS.accepts ?_
  exact L.bind (L.resolve hS) <| L.instanceAcceptsResolved hS
end

/-! ## Functions and lists of values -/

section
variable {types types' : List Ty} [Same p source source']
include hS

theorem signaturesAccept {targets targets' : List Signature} [Same p targets targets'] :
    L.Agree p (S.signaturesAccept targets source mode) (S'.signaturesAccept targets' source' mode) := by
  refine L.bind (L.resolve hS) @fun q _ _ _ _ => L.ite ?_ ?_
  · refine L.bind L.anyResults @fun r _ any any' _ => ?_
    have : Same r (targets.any (takesAnything any)) (targets'.any (takesAnything any')) :=
      Same.any fun s _ _ => by
        unfold takesAnything
        infer_instance
    exact L.pure
  · refine L.bind hS.signaturesOf @fun r _ _ _ _ => ?_
    exact L.anyM <| L.anyM <| L.signatureAccepts hS

theorem positionsAccept {last last' : Option Ty} {sources sources' : List Ty} [hl : Same p last last']
    [h : Same p types types'] [hs : Same p sources sources'] :
    L.Agree p (S.positionsAccept mode last types sources) (S'.positionsAccept mode last' types' sources') := by
  induction sources generalizing p last last' types types' sources' with
  | nil =>
    obtain ⟨⟨⟩⟩ := hs
    exact h.list L.pure fun _ _ _ _ _ _ => L.pure
  | cons source sources ih =>
    obtain ⟨_ | ⟨_, hr⟩⟩ := hs
    have : Same p sources _ := ⟨hr⟩
    refine h.list ?_ fun _ _ _ _ _ _ => ?_
    · exact hl.option L.pure fun _ _ _ => L.bindEq hS.accepts <| L.ite ih L.pure
    · exact L.bindEq hS.accepts <| L.ite ih L.pure

theorem resultsAccept {results results' : Results} [Same p results results'] :
    L.Agree p (S.resultsAccept results source mode) (S'.resultsAccept results' source' mode) := by
  refine L.bind (L.mergeResults hS) @fun q _ merged _ _ => L.bind L.lookup @fun r _ form _ h => ?_
  cases h.out with
  | results => exact L.ite L.pure (L.ite L.pure (L.positionsAccept hS))
  | _ =>
    refine L.ite L.pure ?_
    exact (get r results.types results'.types).list L.pure fun _ _ _ _ _ _ => hS.accepts

theorem ruleAccepts [Same p target target'] :
    L.Agree p (Rule.accepts S target source mode) (Rule.accepts S' target' source' mode) := by
  refine L.ite L.pure (L.bind L.lookup @fun q _ form _ h => ?_)
  cases h.out with
  | any => exact L.bindEq L.kind L.pure
  | nil => exact L.acceptsBase hS
  | void => exact L.acceptsBase hS
  | primitive => exact L.primitiveAccepts hS
  | literal => exact L.literalAccepts hS
  | array => exact L.arrayAccepts hS
  | classRef => exact L.classAccepts hS
  | param => exact L.paramAccepts hS
  | aliasRef => exact L.orM hS.accepts (L.acceptsBase hS)
  | union => exact L.orM (L.acceptsBase hS) (L.anyM hS.accepts)
  | generic => exact L.instanceAccepts hS
  | function => exact L.orM (L.acceptsBase hS) (L.signaturesAccept hS)
  | results => exact L.resultsAccept hS
  | snippet => exact L.acceptsBase hS
end

end AnnotatedLua.Logic
