/-
Two runs agree on the steps of matching a call: the values it passes, its candidates, what is put into a
signature, and how the arguments fare. Whether problems are wanted is the same in both runs here.
-/
import AnnotatedLua.Proofs.Pair.Bindings

namespace AnnotatedLua

open Solver Same

variable {signature signature' : Signature} {a a' : Attempt} {m m' : Matching} {call call' : CallSite} {count : Nat}
  {colon wanted : Bool} {p : Pairing}

/-! ## Values -/

instance : Value Reason := .discrete _
instance : Discrete Reason := ⟨Iff.rfl⟩

instance : Value Argument :=
  .via (fun a => (a.node, a.type, a.isTable)) (by rintro ⟨_, _, _⟩ ⟨_, _, _⟩ h; simp_all)

instance : Value CallSite :=
  .via (fun c => (c.node, c.args, c.colon, c.receiver)) (by rintro ⟨_, _, _, _⟩ ⟨_, _, _, _⟩ h; simp_all)

instance : Value Passed := .via (fun v => (v.type, v.arg)) (by rintro ⟨_, _⟩ ⟨_, _⟩ h; simp_all)

instance : Value PassedValues := .via (fun v => (v.values, v.variadic)) (by rintro ⟨_, _⟩ ⟨_, _⟩ h; simp_all)

instance : Value Attempt :=
  .via (fun a => (a.wanted, a.signature, a.call, a.passed)) (by rintro ⟨_, _, _, _⟩ ⟨_, _, _, _⟩ h; simp_all)

instance : Value Matching :=
  .via (fun m => (m.wanted, m.call, m.passed)) (by rintro ⟨_, _, _⟩ ⟨_, _, _⟩ h; simp_all)

instance : Value Trial :=
  .via (fun t => (t.instantiated, t.verdict)) (by rintro ⟨_, _⟩ ⟨_, _⟩ h; simp_all)

section
variable {a a' : Argument} [h : Same p a a']

instance : Same p a.node a'.node := h.out.1
instance : Same p a.type a'.type := h.out.2.out.1
instance : Same p a.isTable a'.isTable := h.out.2.out.2
end

section
variable {c c' : CallSite} [h : Same p c c']

instance : Same p c.node c'.node := h.out.1
instance : Same p c.args c'.args := h.out.2.out.1
instance : Same p c.colon c'.colon := h.out.2.out.2.out.1
instance : Same p c.receiver c'.receiver := h.out.2.out.2.out.2
end

instance {n n' : Node} {t t' : Ty} {i i' : Bool} [Same p n n'] [Same p t t'] [Same p i i'] :
    Same p (Argument.mk n t i) (Argument.mk n' t' i') :=
  ⟨(inferInstance : Same p (n, t, i) (n', t', i')).out⟩

instance {n n' : Node} {a a' : List Argument} {c c' : Bool} {r r' : Option Ty} [Same p n n'] [Same p a a'] [Same p c c']
    [Same p r r'] : Same p (CallSite.mk n a c r) (CallSite.mk n' a' c' r') :=
  ⟨(inferInstance : Same p (n, a, c, r) (n', a', c', r')).out⟩

section
variable {v v' : Passed} [h : Same p v v']

instance : Same p v.type v'.type := h.out.1
instance : Same p v.arg v'.arg := h.out.2
end

instance {t t' : Ty} {a a' : Argument} [Same p t t'] [Same p a a'] : Same p (Passed.mk t a) (Passed.mk t' a') :=
  ⟨(inferInstance : Same p (t, a) (t', a')).out⟩

section
variable {v v' : PassedValues} [h : Same p v v']

instance : Same p v.values v'.values := h.out.1
instance : Same p v.variadic v'.variadic := h.out.2
end

instance {l l' : List Passed} {o o' : Option Passed} [Same p l l'] [Same p o o'] :
    Same p (PassedValues.mk l o) (PassedValues.mk l' o') :=
  ⟨(inferInstance : Same p (l, o) (l', o')).out⟩

section
variable [h : Same p a a']

instance : Same p a.wanted a'.wanted := h.out.1
instance : Same p a.signature a'.signature := h.out.2.out.1
instance : Same p a.call a'.call := h.out.2.out.2.out.1
instance : Same p a.passed a'.passed := h.out.2.out.2.out.2
end

instance {w w' : Bool} {s s' : Signature} {c c' : CallSite} {v v' : PassedValues} [Same p w w'] [Same p s s']
    [Same p c c'] [Same p v v'] : Same p (Attempt.mk w s c v) (Attempt.mk w' s' c' v') :=
  ⟨(inferInstance : Same p (w, s, c, v) (w', s', c', v')).out⟩

section
variable [h : Same p m m']

instance : Same p m.wanted m'.wanted := h.out.1
instance : Same p m.call m'.call := h.out.2.out.1
instance : Same p m.passed m'.passed := h.out.2.out.2
end

instance {w w' : Bool} {c c' : CallSite} {v v' : PassedValues} [Same p w w'] [Same p c c'] [Same p v v'] :
    Same p (Matching.mk w c v) (Matching.mk w' c' v') :=
  ⟨(inferInstance : Same p (w, c, v) (w', c', v')).out⟩

section
variable {t t' : Trial} [h : Same p t t']

instance : Same p t.instantiated t'.instantiated := h.out.1
instance : Same p t.verdict t'.verdict := h.out.2
end

instance {s s' : Signature} {v v' : Verdict} [Same p s s'] [Same p v v'] : Same p (Trial.mk s v) (Trial.mk s' v') :=
  ⟨(inferInstance : Same p (s, v) (s', v')).out⟩

def Solver.checkRepeated (S : Solver) (wanted : Bool) (variadic : Ty) (before : Verdict) (value : Passed) :
    Solve Verdict := do
  let type ← S.resultAt value.type 0
  return before.and (← S.checkArgument wanted variadic { value with type } id)

theorem Solver.checkVariadic_eq (S : Solver) (a : Attempt) (variadic : Ty) (values : List Passed) :
    S.checkVariadic a variadic values = values.foldlM (S.checkRepeated a.wanted variadic) .accept := rfl

namespace Logic

variable (L : Logic) {S S' : Solver} (hS : S.Respects S' L)

/-! ## Values that are passed -/

section
instance same_splitVariadic {r r' : Results} [Same p r r'] : Same p (splitVariadic r) (splitVariadic r') := by
  unfold splitVariadic
  rw [(get p r.variadic r'.variadic).eq]
  infer_instance

include hS

theorem argumentResults {last : Bool} {arg arg' : Argument} [Same p arg arg'] :
    L.Agree p (S.argumentResults last arg) (S'.argumentResults last arg') := by
  refine L.bind (L.asResults hS) @fun q _ r r' h => ?_
  refine h.option ?_ fun r _ _ => ?_
  · exact L.bind hS.resultAt L.pure
  · cases last with
    | false => exact L.bind hS.resultAt L.pure
    | true => exact L.pure

theorem argumentLists {args args' : List Argument} [h : Same p args args'] :
    L.Agree p (S.argumentLists args) (S'.argumentLists args') := by
  induction args generalizing p args' with
  | nil =>
    obtain ⟨⟨⟩⟩ := h
    exact L.pure
  | cons arg rest ih =>
    obtain ⟨_ | @⟨_, _, _, rest', _, hr⟩⟩ := h
    have : Same p rest rest' := ⟨hr⟩
    unfold Solver.argumentLists
    rw [(get p rest.isEmpty rest'.isEmpty).eq]
    exact L.bind (L.argumentResults hS) <| L.bind ih L.pure

theorem passedValues [Same p call call'] : L.Agree p (S.passedValues call) (S'.passedValues call') := by
  refine L.bind (L.argumentLists hS) @fun q _ lists lists' _ => ?_
  have : Same q (lists.flatMap fun list => (splitVariadic list.2).1.map (Passed.mk · list.1))
      (lists'.flatMap fun list => (splitVariadic list.2).1.map (Passed.mk · list.1)) :=
    flatMap fun _ _ _ => map fun _ _ _ => inferInstance
  have : Same q (lists.getLast?.bind fun list => (splitVariadic list.2).2.map (Passed.mk · list.1))
      (lists'.getLast?.bind fun list => (splitVariadic list.2).2.map (Passed.mk · list.1)) :=
    bindOption fun _ _ _ => mapOption fun _ _ _ => inferInstance
  exact L.pure

theorem candidates {callable callable' : Ty} [Same p callable callable'] :
    L.Agree p (S.candidates callable count colon) (S'.candidates callable' count colon) := by
  refine L.bindEq (L.ofTypes inferInstance) @fun q _ marks =>
    L.bind hS.signaturesOf @fun r _ signatures signatures' _ => ?_
  have : Same r
      (signatures.filter fun s => filledCount marks.method colon count ≤ s.params.length || s.variadic.isSome)
      (signatures'.filter fun s => filledCount marks.method colon count ≤ s.params.length || s.variadic.isSome) :=
    filter fun s _ _ => inferInstance
  exact L.pure
end

/-! ## Instantiation -/

section
variable [Same p call call'] [Same p signature signature']

instance same_declaredParameters : Same p (declaredParameters signature) (declaredParameters signature') := by
  unfold declaredParameters
  rw [(get p signature.colon signature'.colon).eq]
  infer_instance

theorem startSearch {params params' : List Ty} {callNodes : List Node} [Same p params params'] :
    L.Agree p (startSearch params callNodes) (startSearch params' callNodes) := by
  refine L.bind (L.ofTypes @fun q _ t t' _ => ?_) L.pure
  refine filterMap fun param param' h => ?_
  have hf := get q (t.lookup param) (t'.lookup param')
  generalize t.lookup param = f at hf ⊢
  generalize t'.lookup param' = f' at hf ⊢
  cases hf.out <;> infer_instance

variable {search search' : Search} {b b' : Bindings}

theorem finishBindings [Same p search search'] [Same p b b'] :
    L.Agree p (Solver.finishBindings search b) (Solver.finishBindings search' b') := by
  have : Same p (b.entries.filter fun entry => !entry.2.isVoid) (b'.entries.filter fun entry => !entry.2.isVoid) :=
    filter fun x x' _ => get p (!x.2.isVoid) (!x'.2.isVoid)
  unfold Solver.finishBindings
  refine L.ofTypes @fun q _ t t' _ => foldl fun b b' x x' _ _ => ?_
  dsimp only
  have hf := get q (t.lookup x.2) (t'.lookup x'.2)
  generalize t.lookup x.2 = f at hf ⊢
  generalize t'.lookup x'.2 = f' at hf ⊢
  refine (get q (b.get? x.1) (b'.get? x'.1)).option ?_ fun _ _ _ => by infer_instance
  cases hf.out with
  | param name name' written written' bound bound' =>
    refine (get q bound bound').option inferInstance fun bound _ _ => ?_
    infer_instance
  | _ => infer_instance

include hS

theorem analyzedTypes : L.Agree p (S.analyzedTypes call) (S'.analyzedTypes call') := by
  refine L.bind (L.argumentLists hS) @fun q _ lists lists' _ => ?_
  have : Same q (lists.flatMap fun list => list.2.types) (lists'.flatMap fun list => list.2.types) :=
    flatMap fun x x' _ => get q x.2.types x'.2.types
  exact L.pure

theorem analyze {arg arg' declared declared' : Ty}
    [Same p search search'] [Same p b b'] [Same p arg arg'] [Same p declared declared'] :
    L.Agree p (S.analyze search b arg declared) (S'.analyze search' b' arg' declared') :=
  L.bindAt hS (L.resolve hS)

theorem inferBindings : L.Agree p (S.inferBindings signature call) (S'.inferBindings signature' call') := by
  have hnodes : Same p (call.args.map Argument.node) (call'.args.map Argument.node) :=
    map fun _ _ _ => inferInstance
  unfold Solver.inferBindings
  rw [hnodes.eq]
  refine L.bind (L.analyzedTypes hS) @fun q _ types types' _ => L.bind L.startSearch @fun r _ search _ _ => ?_
  refine L.bind (L.foldlM fun u _ b b' x x' _ _ => ?_) @fun u _ b _ _ => ?_
  · dsimp only
    refine (get u types[x.2]? types'[x'.2]?).option ?_ fun arg _ _ => ?_
    · exact L.pure
    · exact (get u x.1.type x'.1.type).option L.pure fun _ _ _ => L.analyze hS
  · have hnext : Same u ((declaredParameters signature).getLast?.map (·.2 + 1))
        ((declaredParameters signature').getLast?.map (·.2 + 1)) := mapOption fun _ _ _ => inferInstance
    refine (get u signature.variadic signature'.variadic).option ?_ fun _ _ _ => ?_
    · exact L.bind L.pure L.finishBindings
    · exact L.bind (L.foldlM fun _ _ _ _ _ _ _ _ => L.analyze hS) L.finishBindings

theorem callSubstitution : L.Agree p (S.callSubstitution signature call) (S'.callSubstitution signature' call') := by
  have : Same p (call.receiver.toList.map Substitution.receiver) (call'.receiver.toList.map Substitution.receiver) :=
    map fun _ _ _ => inferInstance
  exact L.ite L.pure (L.bind (L.inferBindings hS) L.pure)
end

/-! ## Arguments -/

section
variable {param param' : Parameter} [Same p param param']

theorem wider_eq (h : Same p a a') : a.wider = a'.wider := by
  funext position isSelf reason
  unfold Attempt.wider Attempt.isFromResults
  rw [(get p a.call.args.length a'.call.args.length).eq,
    (get p a.passed.values.length a'.passed.values.length).eq,
    (get p a.passed.variadic.isSome a'.passed.variadic.isSome).eq]

instance same_endsCheck {position : Nat} {verdict : Verdict} [Same p a a'] :
    Same p (endsCheck a position param verdict) (endsCheck a' position param' verdict) := by
  unfold endsCheck
  infer_instance

theorem checkExcess_eq (count : Nat) (h : Same p a a') : checkExcess a count = checkExcess a' count := by
  have hnodes : Same p ((a.call.args.drop count).map Argument.node) ((a'.call.args.drop count).map Argument.node) :=
    map fun _ _ _ => inferInstance
  have hlast : Same p (a.call.args.getLast?.map Argument.node) (a'.call.args.getLast?.map Argument.node) :=
    mapOption fun _ _ _ => inferInstance
  have hproblems (l : List Argument) : (l.map fun arg => Problem.error none arg.node .tooManyArguments) =
      (l.map Argument.node).map fun node => Problem.error none node .tooManyArguments := by
    rw [List.map_map]
    rfl
  unfold checkExcess
  rw [(get p a.wanted a'.wanted).eq, (get p a.call.args.length a'.call.args.length).eq,
    (get p a.passed.values.length a'.passed.values.length).eq, hproblems, hproblems, hnodes.eq]
  have hlast := hlast.eq
  generalize a.call.args.getLast? = o at hlast ⊢
  generalize a'.call.args.getLast? = o' at hlast ⊢
  cases o <;> cases o' <;> simp_all

theorem missingArgument {isSelf : Bool} [Same p a a'] :
    L.Agree p (Solver.missingArgument a param isSelf) (Solver.missingArgument a' param' isSelf) := by
  unfold Solver.missingArgument
  rw [(get p a.wanted a'.wanted).eq, (get p a.call.node a'.call.node).eq]
  refine L.ite L.pure (L.ite (L.bindEq L.pure L.pure) ?_)
  exact L.bindEq L.text <| L.bindEq L.name <| L.bindEq L.pure L.pure

include hS

theorem checkArgument (hl : wanted = true → L.Parents) {param param' : Ty} {value value' : Passed}
    {wider : Reason → Reason} [Same p param param'] [Same p value value'] :
    L.Agree p (S.checkArgument wanted param value wider) (S'.checkArgument wanted param' value' wider) := by
  unfold Solver.checkArgument
  rw [(get p value.arg.isTable value'.arg.isTable).eq, (get p value.arg.node value'.arg.node).eq]
  cases wanted with
  | false => exact L.bindEq hS.accepts L.pure
  | true => exact L.bindEq (hS.check (hl rfl)) L.pure

variable {selfSymbol selfSymbol' : Symbol}

theorem checkParameter (hl : a'.wanted = true → L.Parents) {position : Nat}
    [h : Same p a a'] [Same p selfSymbol selfSymbol'] :
    L.Agree p (S.checkParameter a selfSymbol position param) (S'.checkParameter a' selfSymbol' position param') := by
  have hself : Same p (!a.call.colon && position == 0 && param.name == selfSymbol)
    (!a'.call.colon && position == 0 && param'.name == selfSymbol') := inferInstance
  unfold Solver.checkParameter
  rw [hself.eq, (get p a.wanted a'.wanted).eq, wider_eq h]
  refine (get p a.passed.values[position]? a'.passed.values[position]?).option ?_ fun value value' _ => ?_
  · refine L.ite L.pure (L.bindEq L.missingArgument @fun q _ _ => ?_)
    refine (get q a.passed.variadic a'.passed.variadic).option L.pure fun value _ _ => ?_
    exact L.bindEq (L.checkArgument hS hl) L.pure
  · exact L.checkArgument hS hl

theorem checkParameters (hl : a'.wanted = true → L.Parents)
    {params params' : List (Parameter × Nat)} {before : Verdict} [Same p a a'] [Same p selfSymbol selfSymbol']
    [h : Same p params params'] :
    L.Agree p (S.checkParameters a selfSymbol params before) (S'.checkParameters a' selfSymbol' params' before) := by
  induction params generalizing p params' before with
  | nil =>
    obtain ⟨⟨⟩⟩ := h
    exact L.pure
  | cons x rest ih =>
    obtain ⟨_ | @⟨_, x', _, rest', hx, hr⟩⟩ := h
    have : Same p rest rest' := ⟨hr⟩
    obtain ⟨_, position⟩ := x
    obtain ⟨_, position'⟩ := x'
    obtain ⟨_, hp⟩ := hx.out
    obtain rfl : position = position' := hp.eq
    exact L.bindEq (L.checkParameter hS hl) <| L.ite L.pure ih

variable {variadic variadic' : Ty}

theorem checkRepeated (hl : wanted = true → L.Parents) [Same p variadic variadic'] :
    L.Follows p (S.checkRepeated wanted variadic) (S'.checkRepeated wanted variadic') := by
  intro q _ _ _ _ _ hb _
  obtain rfl := hb.eq
  exact L.bind hS.resultAt <| L.bindEq (L.checkArgument hS hl) L.pure

theorem checkVariadic (hl : a'.wanted = true → L.Parents) {values values' : List Passed}
    [Same p a a'] [Same p variadic variadic'] [Same p values values'] :
    L.Agree p (S.checkVariadic a variadic values) (S'.checkVariadic a' variadic' values') := by
  rw [checkVariadic_eq, checkVariadic_eq, (get p a.wanted a'.wanted).eq]
  exact L.foldlM (L.checkRepeated hS hl)

theorem checkRest (hl : a'.wanted = true → L.Parents) [h : Same p a a'] :
    L.Agree p (S.checkRest a count) (S'.checkRest a' count) := by
  unfold Solver.checkRest
  rw [checkExcess_eq count h, (get p a.wanted a'.wanted).eq]
  refine L.ite ?_ ?_
  · exact (get p a.signature.variadic a'.signature.variadic).option L.pure fun _ _ _ => L.checkVariadic hS hl
  · refine (get p a.signature.variadic a'.signature.variadic).option L.pure fun _ _ _ => ?_
    exact (get p a.passed.variadic a'.passed.variadic).option L.pure fun _ _ _ => L.checkArgument hS hl

omit hS in
theorem callParameters {receiver receiver' : Option Ty} [Same p signature signature'] [Same p receiver receiver'] :
    L.Agree p (Solve.store (Solver.callParameters signature receiver colon))
      (Solve.store (Solver.callParameters signature' receiver' colon)) := by
  unfold Solver.callParameters
  rw [(get p signature.colon signature'.colon).eq]
  have stored {params params' : List Parameter} [Same p params params'] :
      L.Agree p (Solve.store (Pure.pure params)) (Solve.store (Pure.pure params')) := L.pure
  split
  · exact stored
  · split
    · rw [Steps.store_bind, Steps.store_bind]
      refine L.bind ?_ L.pure
      unfold Solver.selfParameter
      rw [Steps.store_bind, Steps.store_bind]
      exact L.bind (L.internText _) L.pure
    · exact stored

theorem checkCandidate (hl : a'.wanted = true → L.Parents) [Same p a a'] :
    L.Agree p (S.checkCandidate a) (S'.checkCandidate a') := by
  unfold Solver.checkCandidate
  rw [(get p a.wanted a'.wanted).eq, (get p a.call.colon a'.call.colon).eq]
  refine L.bind (L.internText _) @fun q _ _ _ _ =>
    L.bind L.callParameters @fun r _ params params' _ => ?_
  refine L.bindEq (L.checkParameters hS hl) @fun u _ _ => L.ite L.pure ?_
  rw [(get r params.length params'.length).eq]
  exact L.bindEq (L.checkRest hS hl) L.pure
end

/-! ## Signatures -/

section
variable [Same p signature signature']

theorem returnType : L.Agree p (Solver.returnType signature) (Solver.returnType signature') := by
  unfold Solver.returnType
  exact (get p signature.returns signature'.returns).option L.anyResults fun _ _ _ => L.pure

theorem fallbackAfter {fallback fallback' : Option Ty} [Same p fallback fallback'] :
    L.Agree p (fallbackAfter fallback signature) (fallbackAfter fallback' signature') :=
  L.ite L.pure (L.bind L.returnType L.pure)

include hS

theorem trySignature (hl : m'.wanted = true → L.Parents) [Same p m m'] :
    L.Agree p (S.trySignature m signature) (S'.trySignature m' signature') :=
  L.bind (L.callSubstitution hS) <| L.bind (L.substituteSignature hS) <|
    L.bindEq (L.checkCandidate hS hl) L.pure
end

end Logic

end AnnotatedLua
