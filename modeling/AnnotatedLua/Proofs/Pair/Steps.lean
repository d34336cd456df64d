/-
The steps of queries in two runs. `Steps` says when two queries agree. Unions are no step here: what has to be known of
their members differs. Where nothing has to be, they agree if the comparisons do (`Steps.unionAll`, `Steps.subtract`).
A `Logic` settles that, so the answers to the same questions agree (`Logic.respects`).
-/
import AnnotatedLua.Proofs.Pair.Values
import AnnotatedLua.Solver

namespace AnnotatedLua

open Solver Pairing.After
open Solve (aliasType classDecl intern isCanceled kind lookup members name ofTypes parent scopedType settings store text withGuard)

variable {γ α β : Type} {q : Pairing} {ty ty' : Ty} {S S' : Solver}

structure Steps where
  /-- The queries agree when the handles of the two runs are paired in this way. -/
  Agree (p : Pairing) {α : Type} [Value α] (m m' : Solve α) : Prop
  later {p q : Pairing} {α : Type} [Value α] {m m' : Solve α} [p.After q] : Agree p m m' → Agree q m m'
  pure {p : Pairing} {α : Type} [Value α] {a a' : α} [Same p a a'] : Agree p (Pure.pure a) (Pure.pure a')
  bind {p : Pairing} {α β : Type} [Value α] [Value β] {m m' : Solve α} {f f' : α → Solve β} :
    Agree p m m' → (∀ {q : Pairing} [p.After q] {a a' : α} [Same q a a'], Agree q (f a) (f' a')) →
      Agree p (m >>= f) (m' >>= f')
  exhausted {p : Pairing} {α : Type} [Value α] : Agree p (Solve.exhausted : Solve α) Solve.exhausted
  /-- The budgets that the two runs may have. -/
  Budgets (n n' : Nat) : Prop
  same_budget (n : Nat) : Budgets n n
  budget_pred {n n' : Nat} : Budgets (n + 1) n' → ∃ k, n' = k + 1 ∧ Budgets n k
  /-- A run whose budget is used up agrees with one that goes on. -/
  spent {p : Pairing} {α : Type} [Value α] {n' : Nat} {m' : Solve α} :
    Budgets 0 (n' + 1) → Agree p Solve.exhausted m'
  ofTypes {p : Pairing} {α : Type} [Value α] {f f' : TypeTable → α} :
    (∀ {q : Pairing} [p.After q] {t t' : TypeTable} [q.Reads t t'], Same q (f t) (f' t')) →
      Agree p (ofTypes f) (ofTypes f')
  internText {p : Pairing} (text : String) : Agree p (store (.symbol text)) (store (.symbol text))
  internForm {p : Pairing} {form form' : Form} [Same p form form'] : form.kind ≠ .union →
    Agree p (store (.form form)) (store (.form form'))
  keepName {p : Pairing} {ty ty' : Ty} [Same p ty ty'] :
    Agree p (store (.nameOf ty)) (store (.nameOf ty'))
  settings {p : Pairing} : Agree p settings settings
  isCanceled {p : Pairing} : Agree p isCanceled isCanceled
  /-- Whether the queries may look at the syntax around a node. -/
  Parents : Prop := True
  parent {p : Pairing} : Parents → ∀ node : Node, Agree p (parent node) (parent node)
  classDecl {p : Pairing} {name name' : Symbol} [Same p name name'] :
    Agree p (classDecl name) (classDecl name')
  aliasType {p : Pairing} {name name' : Symbol} [Same p name name'] :
    Agree p (aliasType name) (aliasType name')
  scopedType {p : Pairing} (node : Node) {name name' : Symbol} [Same p name name'] :
    Agree p (scopedType node name) (scopedType node name')
  withGuard {p : Pairing} {α : Type} [Value α] {m m' : Solve α} (activity : Activity)
    {subject subject' : Subject} [Same p subject subject'] :
    Agree p m m' → Agree p (withGuard activity subject m) (withGuard activity subject' m')
  withExpansion {p : Pairing} {α : Type} [Value α] {m m' : Solve α} {name name' : Symbol} [Same p name name'] :
    Agree p m m' → Agree p (Solve.withExpansion name m) (Solve.withExpansion name' m')

theorem filterAuxM_eq {f : α → Solve Bool} {l : List α} (acc : List α) :
    l.filterAuxM f acc = l.filterAuxM f [] >>= fun r => pure (r ++ acc) := by
  induction l generalizing acc with
  | nil => rfl
  | cons a l ih =>
    unfold List.filterAuxM
    rw [bind_assoc]
    refine bind_congr fun b => ?_
    rw [ih, ih (cond b _ _)]
    cases b <;> simp

theorem filterM_cons {f : α → Solve Bool} {l : List α} (a : α) : (a :: l).filterM f =
    f a >>= fun b => l.filterM f >>= fun r => pure (cond b (a :: r) r) := by
  show (f a >>= fun b => l.filterAuxM f (cond b [a] [])) >>= _ = _
  rw [bind_assoc]
  refine bind_congr fun b => ?_
  rw [filterAuxM_eq]
  cases b <;> simp [List.filterM]

namespace Steps

theorem eq_budget_pred {n n' : Nat} (h : n + 1 = n') : ∃ k, n' = k + 1 ∧ n = k :=
  ⟨n, h.symm, rfl⟩

variable (L : Steps) {p : Pairing} [Value α] [Value β]

/-! ## Combinations -/

section
variable {m m' : Solve α} {f f' : α → Solve β}

theorem bindEq [Discrete α] (hm : L.Agree p m m')
    (hf : ∀ {q : Pairing} [p.After q] {a : α}, L.Agree q (f a) (f' a)) : L.Agree p (m >>= f) (m' >>= f') :=
  L.bind hm @fun q _ a _ h => by
    obtain rfl := h.eq
    exact hf

theorem bindPair [Value γ] [Discrete γ] {m m' : Solve (α × γ)} {f f' : α × γ → Solve β} (hm : L.Agree p m m')
    (hf : ∀ {q : Pairing} [p.After q] {a a' : α} {c : γ} [Same q a a'], L.Agree q (f (a, c)) (f' (a', c))) :
    L.Agree p (m >>= f) (m' >>= f') := by
  refine L.bind hm ?_
  rintro q _ ⟨a, c⟩ ⟨a', c'⟩ h
  have : Same q a a' := h.out.1
  obtain rfl : c = c' := h.out.2.eq
  exact hf

theorem ite {c c' : Prop} [Decidable c] [Decidable c'] [h : SameProp p c c'] {n n' : Solve α}
    (hm : L.Agree p m m') (hn : L.Agree p n n') : L.Agree p (if c then m else n) (if c' then m' else n') := by
  by_cases hc : c
  · rw [if_pos hc, if_pos (h.iff.1 hc)]; exact hm
  · rw [if_neg hc, if_neg (mt h.iff.2 hc)]; exact hn

theorem map {f f' : α → β} (hm : L.Agree p m m')
    (hf : ∀ {q : Pairing} [p.After q] {a a' : α} [Same q a a'], Same q (f a) (f' a')) :
    L.Agree p (f <$> m) (f' <$> m') := by
  rw [map_eq_pure_bind, map_eq_pure_bind]
  refine L.bind hm @fun q _ a a' _ => ?_
  have : Same q (f a) (f' a') := hf
  exact L.pure

theorem andM {m m' n n' : Solve Bool} (hm : L.Agree p m m') (hn : L.Agree p n n') : L.Agree p (m <&&> n) (m' <&&> n') :=
  L.bindEq hm @fun _ _ b => by
    cases b
    · exact L.pure
    · exact L.later hn

theorem orM {m m' n n' : Solve Bool} (hm : L.Agree p m m') (hn : L.Agree p n n') : L.Agree p (m <||> n) (m' <||> n') :=
  L.bindEq hm @fun _ _ b => by
    cases b
    · exact L.later hn
    · exact L.pure
end

def Follows (p : Pairing) {γ : Type} [Value γ] (f f' : α → β → Solve γ) : Prop :=
  ∀ (q : Pairing) [p.After q] (a a' : α) (b b' : β) [Same q a a'] [Same q b b'], L.Agree q (f a b) (f' a' b')

variable {L} in
theorem Follows.later [Value γ] {f f' : α → β → Solve γ} (h : L.Follows p f f') (hq : p.After q) : L.Follows q f f' :=
  fun r hr _ _ _ _ _ _ => @h r (hq.trans hr) _ _ _ _ _ _

variable {L} in
theorem Follows.now [Value γ] {f f' : α → β → Solve γ} (h : L.Follows p f f') {a a' : α} {b b' : β}
    [Same p a a'] [Same p b b'] : L.Agree p (f a b) (f' a' b') :=
  @h p (.refl p) _ _ _ _ _ _

/-! ## Lists -/

section
variable {l l' : List α}

theorem mapM {f f' : α → Solve β} [h : Same p l l']
    (hf : ∀ {q : Pairing} [p.After q] {a a' : α} [Same q a a'], L.Agree q (f a) (f' a')) :
    L.Agree p (l.mapM f) (l'.mapM f') := by
  obtain ⟨h⟩ := h
  induction h with
  | nil => rw [List.mapM_nil, List.mapM_nil]; exact L.pure
  | cons ha _ ih =>
    rw [List.mapM_cons, List.mapM_cons]
    have := refl p
    exact L.bind hf <| L.bind (L.later ih) L.pure

theorem foldlM {f f' : β → α → Solve β} {b b' : β} [h : Same p l l'] [k : Same p b b'] (hf : L.Follows p f f') :
    L.Agree p (l.foldlM f b) (l'.foldlM f' b') := by
  have main : ∀ (q : Pairing), p.After q → ∀ b b' : β, Same q b b' →
      L.Agree q (l.foldlM f b) (l'.foldlM f' b') := by
    obtain ⟨h⟩ := h
    clear k b b'
    induction h with
    | nil => intro q _ b b' _; exact L.pure
    | cons ha _ ih =>
      intro q hq b b' _
      rw [List.foldlM_cons, List.foldlM_cons]
      exact L.bind (hf q _ _ _ _) @fun r hr b b' k => ih r (hq.trans hr) b b' k
  exact main p (.refl p) b b' k

variable {f f' : α → Solve Bool}

variable [h : Same p l l'] (hf : ∀ {q : Pairing} [p.After q] {a a' : α} [Same q a a'], L.Agree q (f a) (f' a'))
include hf

theorem filterM : L.Agree p (l.filterM f) (l'.filterM f') := by
  obtain ⟨h⟩ := h
  induction h with
  | nil => exact L.pure
  | cons ha _ ih =>
    have := refl p
    rw [filterM_cons, filterM_cons]
    refine L.bindEq hf @fun q _ keep => L.bind (L.later ih) @fun r _ kept _ _ => ?_
    cases keep <;> simp only [cond_true, cond_false] <;> exact L.pure

theorem anyM : L.Agree p (l.anyM f) (l'.anyM f') := by
  obtain ⟨h⟩ := h
  induction h with
  | nil => exact L.pure
  | cons ha _ ih =>
    have := refl p
    refine L.bindEq hf @fun q _ found => ?_
    cases found
    · exact L.later ih
    · exact L.pure

theorem allM : L.Agree p (l.allM f) (l'.allM f') := by
  simp only [List.allM_eq_not_anyM_not, map_eq_pure_bind]
  exact L.bindEq (L.anyM <| L.bindEq hf L.pure) L.pure
end

/-! ## Types -/

section
variable [Same p ty ty']

theorem lookup : L.Agree p (lookup ty) (lookup ty') := L.ofTypes inferInstance

theorem kind : L.Agree p (kind ty) (kind ty') := L.ofTypes inferInstance

theorem members : L.Agree p (members ty) (members ty') := L.ofTypes inferInstance

theorem name : L.Agree p (name ty) (name ty') := L.keepName

theorem intern {form form' : Form} [Same p form form'] (h : (form.kind == .union) = false) :
    L.Agree p (intern form) (intern form') :=
  L.internForm (by simpa using h)

theorem text {s s' : Symbol} [Same p s s'] : L.Agree p (text s) (text s') :=
  L.ofTypes inferInstance

theorem store_bind {α β : Type} (act : Interning α) (f : α → Interning β) :
    store (act >>= f) = store act >>= fun a => store (f a) := rfl

theorem classNamed (name : String) (marks : Marks) :
    L.Agree p (store (.classNamed name marks)) (store (.classNamed name marks)) := by
  unfold Interning.classNamed
  rw [store_bind]
  exact L.bind (L.internText name) <| L.internForm nofun

theorem anyResults : L.Agree p (store .anyResults) (store .anyResults) := L.internForm nofun
end

/-! ## Unions -/

def Comparing (p : Pairing) (S S' : Solver) : Prop :=
  ∀ (q : Pairing) [p.After q] (target target' source source' : Ty) [Same q target target'] [Same q source source']
    (mode : Mode), L.Agree q (S.accepts target source mode) (S'.accepts target' source' mode)

section
variable {target target' source source' a a' b b' : Ty} {types types' : List Ty} [Same p ty ty']

variable {L} in
theorem Comparing.later (h : L.Comparing p S S') (hq : p.After q) : L.Comparing q S S' :=
  fun r hr _ _ _ _ _ _ => @h r (hq.trans hr) _ _ _ _ _ _

instance same_otherBoolean? : Same p (otherBoolean? ty) (otherBoolean? ty') := by
  unfold otherBoolean?
  infer_instance

section
variable (hS : L.Comparing p S S')
include hS

theorem subsumes [Same p target target'] [Same p source source'] :
    L.Agree p (S.subsumes target source) (S'.subsumes target' source') := by
  have := refl p
  exact L.bind (L.withGuard .union (hS p target target' source source' _)) L.pure

theorem appendMember [Same p types types'] : L.Agree p (S.appendMember types ty) (S'.appendMember types' ty') :=
  L.bind (L.filterM @fun _ hq _ _ _ => L.bind (L.subsumes (hS.later hq)) L.pure)
    L.pure

theorem covers [Same p types types'] : L.Agree p (S.covers types ty) (S'.covers types' ty') :=
  L.ite L.pure (L.anyM @fun _ hq _ _ _ => L.subsumes (hS.later hq))

theorem insertPlain [Same p types types'] : L.Agree p (S.insertPlain types ty) (S'.insertPlain types' ty') :=
  L.bindEq (L.covers hS) @fun _ hq _ => L.ite L.pure (L.appendMember (hS.later hq))

theorem insertMember [Same p types types'] : L.Agree p (S.insertMember types ty) (S'.insertMember types' ty') := by
  refine L.bindEq (L.covers hS) @fun q hq _ => L.ite L.pure ?_
  have hS := hS.later hq
  refine (Same.get q (otherBoolean? ty) (otherBoolean? ty')).option (L.appendMember hS) fun _ _ _ => ?_
  exact L.ite (L.insertPlain hS) (L.appendMember hS)

theorem removeMember [Same p types types'] : L.Agree p (S.removeMember types ty) (S'.removeMember types' ty') := by
  refine L.ite L.pure ((Same.get p (otherBoolean? ty) (otherBoolean? ty')).option (L.ite ?_ ?_)
    fun other _ _ => L.ite ?_ L.pure)
  · have : Same p (types.filter fun c => c != Ty.trueLiteral && c != Ty.falseLiteral)
        (types'.filter fun c => c != Ty.trueLiteral && c != Ty.falseLiteral) := Same.filter fun _ _ _ => inferInstance
    exact L.pure
  · refine L.filterM @fun q hq child child' _ => ?_
    have := refl q
    exact L.bindEq ((hS.later hq) q ty ty' child child' _) L.pure
  · exact L.pure
end

variable
  (hu : ∀ {p : Pairing} {types types' : List Ty} [Same p types types'], L.Agree p (store (.unionOf types)) (store (.unionOf types')))
include hu

theorem unionOf [h : Same p types types'] : L.Agree p (Solver.unionOf types) (Solver.unionOf types') := by
  refine h.list L.pure fun a _ l l' _ hl => ?_
  refine hl.list L.pure fun b _ l _ _ _ => ?_
  unfold Solver.unionOf
  exact hu

theorem unionAll (hS : L.Comparing p S S') [Same p types types'] :
    L.Agree p (S.unionAll types) (S'.unionAll types') := by
  refine L.bind (L.ofTypes @fun q _ t t' _ => ?_) @fun q hq flat flat' _ =>
    L.bindEq (L.ofTypes @fun r _ t t' _ => ?_) @fun r hr _ => ?_
  · have : Same q (types.flatMap t.members) (types'.flatMap t'.members) := Same.flatMap fun _ _ _ => inferInstance
    exact Same.filter fun _ _ _ => inferInstance
  · exact Same.any fun _ _ _ => inferInstance
  · have hS := hS.later (hq.trans hr)
    have : Same r (flat.any Ty.isAny) (flat'.any Ty.isAny) := Same.any fun _ _ _ => inferInstance
    refine L.ite L.pure (L.bind (L.foldlM fun _ hq _ _ _ _ _ _ => ?_) <| L.unionOf hu)
    exact L.insertMember (hS.later hq)

theorem subtract (hS : L.Comparing p S S') [Same p a a'] [Same p b b'] :
    L.Agree p (S.subtract a b) (S'.subtract a' b') := by
  refine L.bind L.members @fun q hq _ _ _ => L.bind L.members @fun r hr kept _ _ => ?_
  have hS := hS.later (hq.trans hr)
  refine L.bind (L.foldlM fun _ hq _ _ _ _ _ _ => ?_) <| L.unionOf hu
  exact L.removeMember (hS.later hq)
end

end Steps

/-! ## Logics -/

structure Logic extends Steps where
  unions {p : Pairing} {S S' : Solver} {types types' : List Ty} [Same p types types'] :
    toSteps.Comparing p S S' → Agree p (S.unionAll types) (S'.unionAll types')
  differences {p : Pairing} {S S' : Solver} {a a' b b' : Ty} [Same p a a'] [Same p b b'] :
    toSteps.Comparing p S S' → Agree p (S.subtract a b) (S'.subtract a' b')
  /-- Where the syntax is not looked at, it still has to be known which tables are arguments. -/
  tables {p : Pairing} {search search' : Search} {ty ty' : Ty} [Same p search search'] [Same p ty ty'] : ¬ Parents →
    Agree p (isArgumentTable search ty) (isArgumentTable search' ty')

structure FullLogic extends Logic where
  parents : Parents

def Steps.withUnions (L : Steps) (hl : L.Parents) (hu : ∀ {p : Pairing} {types types' : List Ty}
    [Same p types types'], L.Agree p (store (.unionOf types)) (store (.unionOf types'))) : Logic where
  toSteps := L
  unions hS := L.unionAll hu hS
  differences hS := L.subtract hu hS
  tables h := absurd hl h

/-- Whether the question is about an expression and not about types. -/
def Query.isInference {α : Type} : Query α → Bool
  | .infer _ => true
  | _ => false

def Query.isCheck {α : Type} : Query α → Bool
  | .check .. => true
  | _ => false

def Solver.RulesOver (T S : Solver) : Prop := ∀ {α : Type} (q : Query α), q.isInference = false → T.ask q = S.rule q

/-- The answers to the same questions about types agree. Checks rank their problems by where they show in the
syntax. -/
structure Solver.Respects (S S' : Solver) (L : Logic) : Prop where
  budget : L.Budgets S.budget S'.budget
  accepts {p : Pairing} {target target' source source' : Ty} [Same p target target'] [Same p source source']
    {mode : Mode} : L.Agree p (S.accepts target source mode) (S'.accepts target' source' mode)
  equal {p : Pairing} {a a' b b' : Ty} [Same p a a'] [Same p b b'] : L.Agree p (S.equal a b) (S'.equal a' b')
  check : L.Parents → ∀ {p : Pairing} {wanted : Bool} {target target' source source' : Ty} [Same p target target']
    [Same p source source'] {mode : Mode} {targetNode : Option Node} {sourceNode : Node},
    L.Agree p (S.check wanted target source mode targetNode sourceNode)
      (S'.check wanted target' source' mode targetNode sourceNode)
  willResolve {p : Pairing} {ty ty' : Ty} [Same p ty ty'] : L.Agree p (S.willResolve ty) (S'.willResolve ty')
  isShape {p : Pairing} {ty ty' : Ty} [Same p ty ty'] : L.Agree p (S.isShape ty) (S'.isShape ty')
  paramsOf {p : Pairing} {ty ty' : Ty} [Same p ty ty'] : L.Agree p (S.paramsOf ty) (S'.paramsOf ty')
  superClass {p : Pairing} {ty ty' : Ty} [Same p ty ty'] : L.Agree p (S.superClass ty) (S'.superClass ty')
  resultAt {p : Pairing} {ty ty' : Ty} [Same p ty ty'] {position : Nat} :
    L.Agree p (S.resultAt ty position) (S'.resultAt ty' position)
  substitute {p : Pairing} {ty ty' : Ty} {s s' : Substitution} [Same p ty ty'] [Same p s s'] :
    L.Agree p (S.substitute ty s) (S'.substitute ty' s')
  memberSubstitution {p : Pairing} {ty ty' : Ty} [Same p ty ty'] :
    L.Agree p (S.memberSubstitution ty) (S'.memberSubstitution ty')
  fieldType {p : Pairing} {ty ty' : Ty} {name name' : Symbol} [Same p ty ty'] [Same p name name'] :
    L.Agree p (S.fieldType ty name) (S'.fieldType ty' name')
  indexedType {p : Pairing} {ty ty' index index' : Ty} [Same p ty ty'] [Same p index index'] {exact : Bool} :
    L.Agree p (S.indexedType ty index exact) (S'.indexedType ty' index' exact)
  signaturesOf {p : Pairing} {ty ty' : Ty} [Same p ty ty'] : L.Agree p (S.signaturesOf ty) (S'.signaturesOf ty')
  bind {p : Pairing} {search search' : Search} {b b' : Bindings} {declared declared' : Ty} [Same p search search']
    [Same p b b'] [Same p declared declared'] : L.Agree p (S.bind search b declared) (S'.bind search' b' declared')

theorem Solver.Respects.comparing {L : Logic} (hS : S.Respects S' L) (p : Pairing) : L.Comparing p S S' :=
  fun _ _ _ _ _ _ _ _ _ => hS.accepts

end AnnotatedLua
