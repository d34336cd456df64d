/-
Two runs agree on the inference of type parameters, and so on all questions about types.
-/
import AnnotatedLua.Proofs.Pair.Accept

namespace AnnotatedLua.Logic

open Solver Same

variable {search search' : Search} {b b' : Bindings} {α : Type} {T T' : Solver}

variable (L : Logic) {S S' : Solver} (hS : S.Respects S' L) {p : Pairing}

/-! ## Positions -/

def SamePosition (p : Pairing) (x x' : Ty × Solve Ty) : Prop := Same p x.1 x'.1 ∧ L.Agree p x.2 x'.2

section
variable {ty ty' : Ty} [Same p search search'] [Same p ty ty'] [Same p b b']

theorem samePositions [Value α] {l l' : List α} {f f' : α → Ty × Solve Ty} [h : Same p l l']
    (hf : ∀ (a a' : α) [Same p a a'], L.SamePosition p (f a) (f' a')) :
    List.Forall₂ (L.SamePosition p) (l.map f) (l'.map f') := by
  rw [List.forall₂_map_left_iff, List.forall₂_map_right_iff]
  exact h.out.imp fun a a' h => @hf a a' h

theorem isInsideCall (hl : L.Parents) (n : Nat) (node : Node) :
    L.Agree p (isInsideCall search n node) (isInsideCall search' n node) := by
  induction n generalizing p node with
  | zero => exact L.pure
  | succ n ih =>
    refine L.ite L.pure (L.bindEq (L.parent hl node) @fun q _ up => ?_)
    cases up with
    | none => exact L.pure
    | some up => exact ih up

theorem isArgumentTable : L.Agree p (isArgumentTable search ty) (isArgumentTable search' ty') := by
  by_cases hl : L.Parents
  · refine L.bindEq L.inlineTableNode @fun q _ node => ?_
    cases node with
    | none => exact L.pure
    | some => exact L.isInsideCall hl _ _
  · exact L.tables hl

theorem bindingMode : L.Agree p (bindingMode search ty) (bindingMode search' ty') :=
  L.bindEq L.isArgumentTable L.pure

theorem visitValue : L.Follows p visitValue visitValue :=
  fun _ _ _ _ _ _ _ _ => L.pure

include hS

theorem bindAt {declared declared' : Solve Ty} (hd : L.Agree p declared declared') :
    L.Agree p (S.bindAt search ty b declared) (S'.bindAt search' ty' b' declared') :=
  L.ite L.pure (L.bind (L.resolve hS) <| L.bind (L.later hd) hS.bind)

theorem bindPairs {pairs pairs' : List (Ty × Solve Ty)} (h : List.Forall₂ (L.SamePosition p) pairs pairs') :
    L.Agree p (S.bindPairs search b pairs) (S'.bindPairs search' b' pairs') := by
  have main : ∀ (q : Pairing), p.After q → ∀ b b' : Bindings, Same q b b' →
      L.Agree q (S.bindPairs search b pairs) (S'.bindPairs search' b' pairs') := by
    induction h with
    | nil => intro q _ b b' _; exact L.pure
    | cons hx _ ih =>
      intro q hq b b' _
      have := hx.1
      unfold Solver.bindPairs
      rw [List.foldlM_cons, List.foldlM_cons]
      exact L.bind (L.bindAt hS (L.later hx.2)) @fun r hr b b' hb => ih r (hq.trans hr) b b' hb
  exact main p (.refl p) b b' inferInstance

theorem forCurrent {f f' : Bindings → Ty → Solve Bindings} (hf : L.Follows p f f') :
    L.Agree p (S.forCurrent search b f) (S'.forCurrent search' b' f') :=
  L.bind (L.resolvedMembers hS) @fun _ hq _ _ _ => L.foldlM (hf.later hq)
end

/-! ## Parameters -/

section
variable {existing existing' current current' param param' limit limit' found found' : Ty} {name name' : Symbol}
  [Same p search search'] [Same p name name'] [Same p b b']
include hS

theorem combine [Same p existing existing'] [Same p current current'] :
    L.Agree p (S.combine search existing current) (S'.combine search' existing' current') := by
  refine L.bindEq L.bindingMode @fun q _ mode => L.bindEq hS.accepts @fun r _ first => L.ite L.pure ?_
  exact L.bindEq L.bindingMode <| L.bindEq hS.accepts <| L.ite L.pure (L.union hS)

theorem bindType [Same p param param'] [Same p limit limit'] [Same p found found'] :
    L.Agree p (S.bindType search name param limit b found) (S'.bindType search' name' param' limit' b' found') := by
  refine L.bind hS.substitute @fun q _ _ _ _ => L.bindEq hS.accepts @fun r _ within => L.ite ?_ ?_
  · refine (get r (b.get? name) (b'.get? name')).option ?_ fun _ _ _ => ?_
    · exact L.bind L.pure L.pure
    · exact L.bind (L.combine hS) L.pure
  · exact L.bind L.pure L.pure

theorem bindParam : L.Agree p (S.bindParam search b name) (S'.bindParam search' b' name') := by
  unfold Solver.bindParam
  refine (get p (search.params.get? name) (search'.params.get? name')).option L.pure fun param _ _ => ?_
  refine L.bind hS.substitute @fun q _ limit _ _ => ?_
  exact L.forCurrent hS fun _ _ _ _ _ _ _ _ => L.bindType hS
end

/-! ## Declared types -/

section
variable {declared declared' base base' key key' value value' : Ty} {args args' : List Ty} [Same p search search']
  [Same p b b'] [Same p declared declared'] [Same p base base']
include hS

theorem bindResults {results results' : Results} [Same p results results'] :
    L.Agree p (S.bindResults search b results) (S'.bindResults search' b' results') := by
  refine L.bind (L.mergeResults hS) @fun q _ merged _ _ => L.bind L.lookup @fun r _ form _ h => ?_
  cases h.out with
  | results =>
    refine L.bind (L.pairUp hS true) @fun u _ pairs _ _ => L.bindPairs hS (L.samePositions fun x x' _ => ?_)
    exact ⟨get u (x.2.getD Ty.nil) (x'.2.getD Ty.nil), L.pure (a := x.1)⟩
  | _ => exact (get r results.types results'.types).list L.pure fun _ _ _ _ _ _ => hS.bind

theorem bindClassParams :
    L.Agree p (S.bindClassParams search b declared) (S'.bindClassParams search' b' declared') := by
  refine L.bind hS.paramsOf @fun q _ params _ _ => L.ite L.pure ?_
  refine L.forCurrent hS fun r _ b _ source _ _ _ => L.bindEq L.kind @fun u _ kind => L.ite L.pure ?_
  refine L.bind hS.paramsOf @fun v _ own _ _ => L.bindPairs hS (L.samePositions fun x x' _ => ?_)
  exact ⟨get v x.1 x'.1, L.resolve hS⟩

theorem visitShapeMember {shape shape' source source' : Ty} [Same p shape shape'] [Same p source source'] :
    L.Follows p (S.visitShapeMember shape source) (S'.visitShapeMember shape' source') := by
  intro q _ _ _ m _ _ _
  refine L.bind (L.memberAt? hS) @fun r _ found _ h => h.option L.pure fun _ _ _ => L.ite L.pure ?_
  exact L.bind (L.memberType hS) <| L.bind (L.memberType hS) L.pure

theorem bindShape : L.Agree p (S.bindShape search b declared) (S'.bindShape search' b' declared') := by
  refine L.forCurrent hS fun q _ b _ source _ _ _ => ?_
  refine L.bindPair (L.visitMembers hS (L.visitShapeMember hS)) @fun r _ pairs _ _ _ => ?_
  refine L.bindPairs hS (L.samePositions fun x x' _ => ?_)
  exact ⟨get r x.1 x'.1, L.resolve hS⟩

theorem bindClass : L.Agree p (S.bindClass search b declared) (S'.bindClass search' b' declared') :=
  L.bind (L.bindClassParams hS) <| L.bindEq hS.isShape <| L.ite (L.bindShape hS) L.pure

theorem bindArray : L.Agree p (S.bindArray search b declared) (S'.bindArray search' b' declared') := by
  refine L.bind (L.resolve hS) @fun q _ _ _ _ => ?_
  refine L.forCurrent hS fun r _ b _ source _ _ _ => L.bind L.lookup @fun u _ form _ h => ?_
  cases h.out with
  | array => exact L.bindAt hS L.pure
  | classRef =>
    refine L.bindEq (L.isArray hS) @fun v _ array => L.ite L.pure ?_
    refine L.bindPair (L.visitMembers hS L.visitValue) @fun w _ values _ _ _ => ?_
    exact L.bindPairs hS (L.samePositions fun x x' _ => ⟨get w x x', L.pure⟩)
  | _ => exact L.pure

theorem bindFunction {main main' : Signature} [Same p main main'] :
    L.Agree p (S.bindFunction search b main) (S'.bindFunction search' b' main') := by
  unfold Solver.bindFunction
  refine (get p main.returns main'.returns).option L.pure fun _ _ _ => ?_
  refine L.forCurrent hS fun q _ b _ source _ _ _ => L.bind L.lookup @fun r _ form _ h => ?_
  cases h.out with
  | function main main' =>
    dsimp only
    exact (get r main.returns main'.returns).option L.pure fun _ _ _ => L.bindAt hS (L.resolve hS)
  | _ => exact L.pure

theorem bindUnion [Same p args args'] : L.Agree p (S.bindUnion search b args) (S'.bindUnion search' b' args') :=
  L.foldlM fun _ _ _ _ _ _ _ _ => L.bind (L.resolvedMembers hS) <|
    L.foldlM fun _ _ _ _ _ _ _ _ => hS.bind

theorem bindTable [Same p key key'] [Same p value value'] :
    L.Agree p (S.bindTable search b key value) (S'.bindTable search' b' key' value') := by
  refine L.bind (L.resolve hS) @fun q _ key _ _ => L.bind (L.resolve hS) @fun r _ value _ _ => ?_
  refine L.forCurrent hS fun u _ b _ source _ _ _ => L.ite ?_ (L.bind L.lookup @fun v _ form _ h => ?_)
  · exact L.bindPairs hS (.cons ⟨inferInstance, L.pure⟩ (.cons ⟨inferInstance, L.pure⟩ .nil))
  · cases h.out with
    | array => exact L.bindPairs hS (.cons ⟨inferInstance, L.pure⟩ (.cons ⟨inferInstance, L.pure⟩ .nil))
    | _ =>
      refine L.bindEq hS.isShape @fun w _ shape => L.ite L.pure (L.bind (L.tableOfMembers hS) @fun x _ type _ _ => ?_)
      refine L.bind L.tableArgs @fun y _ found _ h => h.option L.pure fun z z' _ => ?_
      exact L.bindPairs hS (.cons ⟨get y z.1 z'.1, L.pure⟩
        (.cons ⟨get y z.2 z'.2, L.pure⟩ .nil))

theorem bindArgs [Same p args args'] :
    L.Agree p (S.bindArgs search b base args) (S'.bindArgs search' b' base' args') := by
  refine L.bind (L.resolve hS) @fun q _ _ _ _ => ?_
  refine L.forCurrent hS fun r _ b b' source _ _ _ => L.bind L.lookup @fun u _ form _ h => ?_
  cases h.out with
  | generic =>
    refine L.ite (L.bind L.pure @fun v _ b b' _ => ?_) (L.bind (L.bindAt hS L.pure) @fun v _ b _ _ => ?_) <;>
    exact L.bindPairs hS (L.samePositions fun x x' _ => ⟨get v x.1 x'.1, L.resolve hS⟩)
  | _ => exact L.pure

theorem bindInstance [h : Same p args args'] :
    L.Agree p (S.bindInstance search b declared base args) (S'.bindInstance search' b' declared' base' args') := by
  have byMembers (args args' : List Ty) [Same p args args'] : L.Agree p
      (do
        if ← S.isShape base then S.bindArgs search (← S.bindShape search b declared) base args
        else S.bindArgs search (← Pure.pure b) base args)
      (do
        if ← S'.isShape base' then S'.bindArgs search' (← S'.bindShape search' b' declared') base' args'
        else S'.bindArgs search' (← Pure.pure b') base' args') := by
    refine L.bindEq hS.isShape @fun q _ shape => L.ite ?_ ?_
    · exact L.bind (L.bindShape hS) <| L.bindArgs hS
    · exact L.bind L.pure <| L.bindArgs hS
  unfold Solver.bindInstance
  rw [(get p (decide (base = Ty.table)) (decide (base' = Ty.table))).eq]
  cases decide (base' = Ty.table) with
  | false => exact byMembers args args'
  | true =>
    refine h.list (byMembers ..) fun key _ rest rest' _ hr => ?_
    refine hr.list (byMembers ..) fun value _ rest _ _ hr => ?_
    refine hr.list ?_ fun _ _ _ _ _ _ => byMembers ..
    exact L.bind (L.bindTable hS) <| L.bindArgs hS

theorem bindForm : L.Agree p (S.bindForm search b declared) (S'.bindForm search' b' declared') := by
  refine L.bind L.lookup @fun q _ form _ h => ?_
  cases h.out with
  | aliasRef => exact hS.bind
  | results => exact L.bindResults hS
  | classRef => exact L.bindClass hS
  | param => exact L.bindParam hS
  | union => exact L.bindUnion hS
  | array => exact L.bindArray hS
  | function => exact L.bindFunction hS
  | generic => exact L.bindInstance hS
  | _ => exact L.pure

theorem ruleBind : L.Agree p (Rule.bind S search b declared) (Rule.bind S' search' b' declared') :=
  L.bindEq L.isCanceled <| L.ite L.pure (L.ite L.pure (L.bindForm hS))
end

/-! ## All questions -/

theorem agree_rules (hT : T.RulesOver S) (hT' : T'.RulesOver S') [Value α] {q q' : Query α}
    (hq : q.isInference = false) (hq' : q'.isInference = false) (h : L.Agree p (S.rule q) (S'.rule q')) :
    L.Agree p (T.ask q) (T'.ask q') := by
  rw [hT q hq, hT' q' hq']
  exact h

theorem respects_rules (hn : L.Budgets T.budget T'.budget) (hT : T.RulesOver S) (hT' : T'.RulesOver S')
    (hS : S.Respects S' L) : T.Respects T' L where
  budget := hn
  accepts := L.agree_rules hT hT' rfl rfl (L.ruleAccepts hS)
  equal := L.agree_rules hT hT' rfl rfl (L.ruleEqual hS)
  check hl := L.agree_rules hT hT' rfl rfl (L.ruleCheck hS hl)
  willResolve := L.agree_rules hT hT' rfl rfl (L.ruleWillResolve hS)
  isShape := L.agree_rules hT hT' rfl rfl (L.ruleIsShape hS)
  paramsOf := L.agree_rules hT hT' rfl rfl (L.ruleParamsOf hS)
  superClass := L.agree_rules hT hT' rfl rfl (L.ruleSuperClass hS)
  resultAt := L.agree_rules hT hT' rfl rfl (L.ruleResultAt hS _)
  substitute := L.agree_rules hT hT' rfl rfl (L.ruleSubstitute hS)
  memberSubstitution := L.agree_rules hT hT' rfl rfl (L.ruleMemberSubstitution hS)
  fieldType := L.agree_rules hT hT' rfl rfl (L.ruleFieldType hS)
  indexedType := L.agree_rules hT hT' rfl rfl (L.ruleIndexedType hS)
  signaturesOf := L.agree_rules hT hT' rfl rfl (L.ruleSignaturesOf hS)
  bind := L.agree_rules hT hT' rfl rfl (L.ruleBind hS)

theorem respects {n n' : Nat} (hn : L.Budgets n n') : (ofBudget n).Respects (ofBudget n') L := by
  induction n generalizing n' with
  | zero =>
    cases n' with
    | zero => exact ⟨hn, L.exhausted, L.exhausted, fun _ => L.exhausted, L.exhausted, L.exhausted, L.exhausted,
        L.exhausted, L.exhausted, L.exhausted, L.exhausted, L.exhausted, L.exhausted, L.exhausted, L.exhausted⟩
    | succ => exact ⟨hn, L.spent hn, L.spent hn, fun _ => L.spent hn, L.spent hn, L.spent hn, L.spent hn, L.spent hn,
        L.spent hn, L.spent hn, L.spent hn, L.spent hn, L.spent hn, L.spent hn, L.spent hn⟩
  | succ n ih =>
    obtain ⟨_, rfl, hpred⟩ := L.budget_pred hn
    exact L.respects_rules hn (fun _ _ => rfl) (fun _ _ => rfl) (ih hpred)

theorem respects_ofBudget (n : Nat) : (ofBudget n).Respects (ofBudget n) L :=
  L.respects (L.same_budget n)

end AnnotatedLua.Logic
