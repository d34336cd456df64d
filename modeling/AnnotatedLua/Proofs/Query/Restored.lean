/-
A session that does not consult declarations says nothing about them: two such sessions in the same state otherwise give
the same answers (`Operation.discreet`). The types of expressions are an exception; so are the problems of checks, which
are ranked by where they show in the syntax. Scopes are left as they were entered, whatever a session is asked to do
(`Operation.restores`). This includes the types of expressions, for every host that finds them by asking the solver
further questions (`Callback`).
-/
import AnnotatedLua.Proofs.Query.Frame

namespace AnnotatedLua

open Solve Solver
open Option (map_none map_some)

/-- Two sessions in the same state in which declarations are not consulted. What the declarations are, and what is kept
of them, may differ. -/
structure Veiled (ctx ctx' : Context) (s s' : Session) : Prop where
  blind : (s.blind || ctx.provider.blind) = true
  blind' : (s'.blind || ctx'.provider.blind) = true
  settings : ctx.settings = ctx'.settings
  canceled : (ctx.cancellable && s.canceled) = (ctx'.cancellable && s'.canceled)
  types : s.types = s'.types
  guard : s.guard = s'.guard
  expanding : s.expanding = s'.expanding

def Veiled.InStep (ctx ctx' : Context) {α : Type} (r r' : Option (α × Session)) : Prop :=
  (r = none ∧ r' = none) ∨ ∃ a u u', r = some (a, u) ∧ r' = some (a, u') ∧ Veiled ctx ctx' u u'

def Discreet {α : Type} (m : Solve α) : Prop :=
  ∀ ctx ctx' s s', Veiled ctx ctx' s s' → Veiled.InStep ctx ctx' (m ctx s) (m ctx' s')

namespace Discreet

variable {α β : Type} {m : Solve α}

theorem of_look (f : Context → Session → α) (h : ∀ ctx s, m ctx s = some (f ctx s, s))
    (hf : ∀ ctx ctx' s s', Veiled ctx ctx' s s' → f ctx s = f ctx' s') : Discreet m := by
  intro ctx ctx' s s' hs
  rw [h, h, hf ctx ctx' s s' hs]
  exact .inr ⟨_, s, s', rfl, rfl, hs⟩

theorem pure (a : α) : Discreet (Pure.pure a : Solve α) := of_look (fun _ _ => a) (fun _ _ => rfl) fun _ _ _ _ _ => rfl

theorem bind {f : α → Solve β} (hm : Discreet m) (hf : ∀ a, Discreet (f a)) : Discreet (m >>= f) := by
  intro ctx ctx' s s' hs
  rcases hm ctx ctx' s s' hs with ⟨h, h'⟩ | ⟨a, u, u', h, h', hu⟩
  · left
    constructor
    · exact congrArg (Option.bind · _) h
    · exact congrArg (Option.bind · _) h'
  · rw [run_bind h, run_bind h']
    exact hf a ctx ctx' u u' hu

theorem store (act : Interning α) : Discreet (Solve.store act) := by
  intro _ _ s s' hs
  refine .inr ⟨(act s.types).1, { s with types := (act s.types).2 }, { s' with types := (act s'.types).2 }, rfl, ?_, ?_⟩
  · rw [hs.types]
    rfl
  · exact { hs with types := by rw [hs.types] }

theorem classDecl (name : Symbol) : Discreet (Solve.classDecl name) := by
  intro _ _ s s' hs
  rw [run_classDecl, run_classDecl, if_pos hs.blind, if_pos hs.blind']
  exact .inr ⟨none, s, s', rfl, rfl, hs⟩

theorem aliasType (name : Symbol) : Discreet (Solve.aliasType name) := by
  intro _ _ s s' hs
  rw [run_aliasType, run_aliasType, if_pos hs.blind, if_pos hs.blind']
  exact .inr ⟨none, s, s', rfl, rfl, hs⟩

theorem scopedType (node : Node) (name : Symbol) : Discreet (Solve.scopedType node name) := by
  intro _ _ s s' hs
  rw [run_scopedType, run_scopedType, if_pos hs.blind, if_pos hs.blind']
  exact .inr ⟨none, s, s', rfl, rfl, hs⟩

theorem withGuard (activity : Activity) (subject : Subject) (hm : Discreet m) :
    Discreet (Solve.withGuard activity subject m) := by
  intro ctx ctx' s s' hs
  have hkey : guardKey ctx s activity subject = guardKey ctx' s' activity subject := by
    unfold guardKey
    rw [hs.blind, hs.blind']
  rw [run_withGuard, run_withGuard, ← hkey, ← hs.guard]
  generalize s.guard.enter (guardKey ctx s activity subject) = e
  obtain ⟨admission, g⟩ := e
  have hentered : Veiled ctx ctx' { s with guard := g } { s' with guard := g } := { hs with guard := rfl }
  cases admission with
  | entered =>
    rcases hm ctx ctx' _ _ hentered with ⟨h, h'⟩ | ⟨a, u, u', h, h', hu⟩
    · simp only [h, h', map_none]
      exact .inl ⟨rfl, rfl⟩
    · simp only [h, h', map_some]
      exact .inr ⟨_, _, _, rfl, rfl, { hu with guard := by rw [hu.guard] }⟩
  | _ => exact .inr ⟨none, _, _, rfl, rfl, hentered⟩

theorem withExpansion (name : Symbol) (hm : Discreet m) : Discreet (Solve.withExpansion name m) := by
  intro ctx ctx' s s' hs
  rw [run_withExpansion, run_withExpansion, ← hs.expanding]
  split
  · exact .inr ⟨none, s, s', rfl, rfl, hs⟩
  · have hentered : Veiled ctx ctx' { s with expanding := name :: s.expanding }
        { s' with expanding := name :: s.expanding } := { hs with expanding := rfl }
    rcases hm ctx ctx' _ _ hentered with ⟨h, h'⟩ | ⟨a, u, u', h, h', hu⟩
    · simp only [h, h', map_none]
      exact .inl ⟨rfl, rfl⟩
    · simp only [h, h', map_some]
      exact .inr ⟨_, _, _, rfl, rfl, { hu with expanding := by rw [hu.expanding] }⟩

theorem inlineTableNode_blind {ctx : Context} {s : Session} (hb : (s.blind || ctx.provider.blind) = true) (ty : Ty) :
    inlineTableNode ty ctx s = some (none, s) := by
  have hdecl (name : Symbol) : Solve.classDecl name ctx s = some (none, s) := by rw [run_classDecl, if_pos hb]
  rw [inlineTableNode, run_bind (show lookup ty ctx s = some (s.types.lookup ty, s) from rfl)]
  cases s.types.lookup ty with
  | classRef name =>
    dsimp only
    split
    · rfl
    · rw [run_bind (hdecl name)]
      rfl
  | _ => rfl

theorem isArgumentTable (search : Search) (ty : Ty) : Discreet (Solver.isArgumentTable search ty) := by
  intro _ _ s s' hs
  rw [Solver.isArgumentTable, run_bind (inlineTableNode_blind hs.blind ty), run_bind (inlineTableNode_blind hs.blind' ty)]
  exact .inr ⟨false, s, s', rfl, rfl, hs⟩

end Discreet

theorem discreet_closed : Closed False Discreet where
  pure := .pure
  bind := .bind
  exhausted _ _ _ _ _ := .inl ⟨rfl, rfl⟩
  ofTypes f := .of_look (fun _ s => f s.types) (fun _ _ => rfl) fun _ _ _ _ h => by rw [h.types]
  store {_ act} _ := .store act
  settings := .of_look (fun ctx _ => ctx.settings) (fun _ _ => rfl) fun _ _ _ _ h => h.settings
  isCanceled := .of_look (fun ctx s => ctx.cancellable && s.canceled) (fun _ _ => rfl) fun _ _ _ _ h => h.canceled
  -- a report looks at the syntax around an expression, which may differ between the two
  parent := nofun
  tables _ := .isArgumentTable
  classDecl := .classDecl
  aliasType := .aliasType
  scopedType := .scopedType
  withGuard := .withGuard
  withExpansion := .withExpansion

/-- Where declarations are not consulted, an operation on types gives the same answer and stores the same types, whatever
the declarations are. The sessions are alike afterwards, so this goes on from one operation to the next. -/
theorem Operation.discreet {α : Type} (op : Operation α) (htypes : op.isInference = false) (hquiet : op.reports = false)
    (n : Nat) {ctx ctx' : Context} {s s' : Session} (h : Veiled ctx ctx' s s') :
    (op.run (ofBudget n) ctx s).map (fun r => (r.1, r.2.types)) =
      (op.run (ofBudget n) ctx' s').map (fun r => (r.1, r.2.types)) ∧
    ∀ a a' u u', op.run (ofBudget n) ctx s = some (a, u) → op.run (ofBudget n) ctx' s' = some (a', u') →
      Veiled ctx ctx' u u' := by
  have hop : Discreet (op.run (ofBudget n)) :=
    discreet_closed.operation (discreet_closed.logic.respects_ofBudget n) op htypes (by simp [hquiet])
  rcases hop ctx ctx' s s' h with ⟨hr, hr'⟩ | ⟨a, u, u', hr, hr', hu⟩
  · refine ⟨by rw [hr, hr'], fun a a' u u' ha => ?_⟩
    rw [hr] at ha
    cases ha
  · constructor
    · rw [hr, hr', map_some, map_some, hu.types]
    · intro b b' v v' hb hb'
      rw [hr] at hb
      rw [hr'] at hb'
      cases hb
      cases hb'
      exact hu

/-- A class `A`, `⟨10⟩`. -/
def aliasedTypes : TypeTable := .ofForms ["A"] [.classRef ⟨3⟩ Marks.none]

def aliasedStart : Session := .start aliasedTypes Limits.standard

/-- `A` is declared as another name for `string`. -/
def aliasedContext : Context := { provider := (Declarations.empty.addAlias ⟨3⟩ Ty.string).provider }

/-- Nothing is declared, and declarations are not consulted. -/
def darkContext : Context := { provider := { Declarations.empty with blind := true }.provider, cancellable := false }

/-- What `A` stands for was found out, but now declarations are not consulted. -/
def forgetful : Session := { aliasedStart with blind := true, aliases := aliasedStart.aliases.insert ⟨3⟩ (some Ty.string) }

/-- `A` is `string`, but a session that does not consult declarations does not say so even if it knows. -/
theorem Operation.discreet_alias :
    ((Operation.resolve ⟨10⟩).run (ofBudget 20) aliasedContext aliasedStart).map Prod.fst = some Ty.string ∧
    ((Operation.resolve ⟨10⟩).run (ofBudget 20) aliasedContext forgetful).map (fun r => (r.1, r.2.types)) =
      ((Operation.resolve ⟨10⟩).run (ofBudget 20) darkContext aliasedStart).map (fun r => (r.1, r.2.types)) := by
  constructor
  · decide
  · exact ((Operation.resolve ⟨10⟩).discreet rfl rfl 20 ⟨rfl, rfl, rfl, rfl, rfl, rfl, rfl⟩).1

/-! ## Scopes -/

/-- The scopes of a session are those of before: the activities that are guarded, the names that are being expanded, the
values that are wanted, and whether declarations are consulted. -/
structure Session.Restored (s s' : Session) : Prop where
  guard : s.guard.Restored s'.guard
  expanding : s'.expanding = s.expanding
  position : s'.position = s.position
  several : s'.several = s.several
  blind : s'.blind = s.blind

namespace Session.Restored

variable {s s1 s2 : Session}

theorem refl (s : Session) : s.Restored s := ⟨.refl _, rfl, rfl, rfl, rfl⟩

theorem trans (h : s.Restored s1) (h' : s1.Restored s2) : s.Restored s2 where
  guard := h.guard.trans h'.guard
  expanding := h'.expanding.trans h.expanding
  position := h'.position.trans h.position
  several := h'.several.trans h.several
  blind := h'.blind.trans h.blind

theorem iterations (h : s.Restored s1) (hs : s.guard.iterations ≤ Guard.counterMax) :
    s.guard.iterations ≤ s1.guard.iterations := by
  have hused := h.guard.used
  unfold Guard.used at hused
  omega

end Session.Restored

theorem Session.Kept.restored {s s' : Session} (h : s.Kept s') : s.Restored s' :=
  { h with guard := { h with } }

def Restores {α : Type} (m : Solve α) : Prop := ∀ ctx s a s', m ctx s = some (a, s') → s.Restored s'

namespace Restores

variable {α β : Type} {m : Solve α}

theorem of_keeps (h : Keeps m) : Restores m := fun ctx s a s' hr => (h ctx s a s' hr).restored

theorem of_step (f : Context → Session → α × Session) (h : ∀ ctx s, m ctx s = some (f ctx s))
    (hf : ∀ ctx (s : Session), s.Restored (f ctx s).2) : Restores m := by
  intro ctx s a _ hr
  have hs := hf ctx s
  rw [h, Option.some_inj] at hr
  rw [hr] at hs
  exact hs

theorem pure (a : α) : Restores (Pure.pure a : Solve α) := of_step (fun _ s => (a, s)) (fun _ _ => rfl) fun _ s => .refl s

variable {f : α → Solve β}

theorem bind (hm : Restores m) (hf : ∀ a, Restores (f a)) : Restores (m >>= f) := by
  intro ctx s b s' h
  obtain ⟨a, s1, h1, h2⟩ := bind_eq_some h
  exact (hm ctx s a s1 h1).trans (hf a ctx s1 b s' h2)

theorem store (act : Interning α) : Restores (store act) :=
  of_step (fun _ s => ((act s.types).1, { s with types := (act s.types).2 })) (fun _ _ => rfl)
    fun _ _ => ⟨.refl _, rfl, rfl, rfl, rfl⟩

theorem withGuard (activity : Activity) (subject : Subject) (hm : Restores m) :
    Restores (withGuard activity subject m) := by
  intro ctx s a _ h
  rcases withGuard_cases h with ⟨g, hg, rfl⟩ | ⟨key, b, s1, hrun, rfl⟩
  · exact ⟨hg, rfl, rfl, rfl, rfl⟩
  · have hk := hm ctx _ b s1 hrun
    exact { hk with guard := .of_entered hk.guard }

theorem withExpansion (name : Symbol) (hm : Restores m) : Restores (withExpansion name m) := by
  intro ctx s a _ h
  rw [run_withExpansion] at h
  split at h
  · cases h
    exact .refl s
  · obtain ⟨⟨b, s1⟩, hrun, hs⟩ := Option.map_eq_some_iff.1 h
    cases hs
    have hk := hm ctx _ b s1 hrun
    refine { hk with expanding := ?_ }
    -- The name is the first one again, so the one that is erased is the one that came in.
    show s1.expanding.erase name = s.expanding
    rw [hk.expanding]
    exact List.erase_cons_head ..

theorem enclosed {m' : Solve α} (enter : Session → Session) (leave : Session → Session → Session)
    (hrun : ∀ ctx s, m' ctx s = (m ctx (enter s)).map fun r => (r.1, leave s r.2))
    (hscope : ∀ s u, (enter s).Restored u → s.Restored (leave s u)) (hm : Restores m) : Restores m' := by
  intro ctx s a _ h
  rw [hrun] at h
  obtain ⟨⟨b, u⟩, hu, hs⟩ := Option.map_eq_some_iff.1 h
  cases hs
  exact hscope s u (hm ctx (enter s) b u hu)

theorem withPosition (position : Int) (several : Bool) (hm : Restores m) :
    Restores (withPosition position several m) := by
  refine hm.enclosed (fun s => { s with position, several })
    (fun s u => { u with position := s.position, several := s.several }) (fun ctx s => ?_) fun s u h =>
      ⟨h.guard, h.expanding, rfl, rfl, h.blind⟩
  show Option.bind (m ctx { s with position, several }) _ = _
  cases m ctx { s with position, several } <;> rfl

theorem withBlind (hm : Restores m) : Restores (withBlind m) := by
  refine hm.enclosed (fun s => { s with blind := true }) (fun s u => { u with blind := s.blind }) (fun ctx s => ?_)
    fun s u h => ⟨h.guard, h.expanding, h.position, h.several, rfl⟩
  show Option.bind (m ctx { s with blind := true }) _ = _
  cases m ctx { s with blind := true } <;> rfl

theorem withListEntry (last : Bool) (hm : Restores m) : Restores (Solve.withListEntry last m) := by
  cases last with
  | false => exact hm.withPosition 0 false
  | true => exact hm.withPosition allResults true

theorem mapM (hf : ∀ a, Restores (f a)) (l : List α) : Restores (l.mapM f) := by
  induction l with
  | nil => exact pure []
  | cons a l ih =>
    rw [List.mapM_cons]
    exact (hf a).bind fun b => ih.bind fun bs => pure (b :: bs)

end Restores

/-! ## Hosts -/

/-- What a host may do to find the type of an expression: it looks at the session, stores types, has the solver carry out
operations, within scopes of its own if it likes, and it may cancel the query or count. -/
inductive Callback (S : Solver) : {α : Type} → Solve α → Prop where
  | pure {α : Type} (a : α) : Callback S (Pure.pure a)
  | bind {α β : Type} {m : Solve α} {f : α → Solve β} : Callback S m → (∀ a, Callback S (f a)) → Callback S (m >>= f)
  | operation {α : Type} (op : Operation α) : Callback S (op.run S)
  | look {α : Type} (f : Context → Session → α) : Callback S fun ctx s => some (f ctx s, s)
  | note (canceled : Session → Bool) (inferences : Session → Nat) :
    Callback S (modify fun s => { s with canceled := canceled s, inferences := inferences s })
  | store {α : Type} (act : Interning α) : Callback S (store act)
  | classDecl (name : Symbol) : Callback S (Solve.classDecl name)
  | aliasType (name : Symbol) : Callback S (Solve.aliasType name)
  | withGuard {α : Type} {m : Solve α} (activity : Activity) (subject : Subject) :
    Callback S m → Callback S (withGuard activity subject m)
  | withExpansion {α : Type} {m : Solve α} (name : Symbol) : Callback S m → Callback S (withExpansion name m)
  | withPosition {α : Type} {m : Solve α} (position : Int) (several : Bool) :
    Callback S m → Callback S (withPosition position several m)
  | withBlind {α : Type} {m : Solve α} : Callback S m → Callback S (withBlind m)

variable {S : Solver} {α : Type}

theorem Callback.run_restores (hS : ∀ {α : Type} (op : Operation α), Restores (op.run S))
    {m : Solve α} (h : Callback S m) : Restores m := by
  induction h with
  | pure a => exact .pure a
  | bind _ _ hm hf => exact hm.bind hf
  | operation op => exact hS op
  | look f => exact .of_step (fun ctx s => (f ctx s, s)) (fun _ _ => rfl) fun _ s => .refl s
  | note canceled inferences =>
    exact .of_step (fun _ s => ((), { s with canceled := canceled s, inferences := inferences s })) (fun _ _ => rfl)
      fun _ _ => ⟨.refl _, rfl, rfl, rfl, rfl⟩
  | store act => exact .store act
  | classDecl name => exact .of_keeps (keeps_classDecl name)
  | aliasType name => exact .of_keeps (keeps_aliasType name)
  | withGuard activity subject _ hm => exact hm.withGuard activity subject
  | withExpansion name _ hm => exact hm.withExpansion name
  | withPosition position several _ hm => exact hm.withPosition position several
  | withBlind _ hm => exact hm.withBlind

/-- A host that finds the types of expressions. -/
structure Host where
  request : Solver → Node → Solve (Option Ty)
  callback : ∀ S node, Callback S (request S node)

namespace Host

variable (H : Host)

/-- Infers the type of an expression that was not found before, as the host finds it. -/
def inferFresh (S : Solver) (node : Node) (keep : Bool) : Solve (Option Ty) := do
  match (← withGuard .inference (.node node) (H.request S node)).join with
  | none => return none
  | some type =>
    if keep then modify fun s => { s with inferred := s.inferred.insert node type }
    return some (← S.substitute type (.scope node))

def infer (S : Solver) (node : Node) : Solve (Option Ty) := do
  let keep := (← get).position == allResults && !(← isBlind)
  let found ← if keep then Pure.pure ((← get).inferred[node]?) else Pure.pure none
  match found with
  | some type => return some type
  | none => H.inferFresh S node keep

/-- The answer to a question, the host being asked for the types of expressions. -/
def answer (S : Solver) : {α : Type} → Query α → Solve α
  | _, .infer node => H.infer S node
  | _, q => S.rule q

def solver : Nat → Solver
  | 0 => ofBudget 0
  | n + 1 => { budget := n + 1, ask := fun q => H.answer (solver n) q }

def declared : Host where
  request := Rule.requestInference
  callback S node := by
    refine .bind (.look fun ctx _ => ctx) fun ctx => ?_
    cases ctx.provider.inference with
    | none => exact .pure none
    | some inference =>
      refine .bind (.note (·.canceled) (·.inferences + 1)) fun _ => ?_
      cases inference node with
      | unknown => exact .pure none
      | known type => exact .pure (some type)
      | follow next otherwise => exact .bind (.operation (.ask (.infer next))) fun found => .pure (found.or otherwise)
      | project type =>
        refine .bind (.look fun _ s => s) fun s => ?_
        dsimp only
        split
        · exact .pure (some type)
        · exact .bind (.operation (.ask (.resultAt type s.position.toNat))) fun result => .pure (some result)

theorem declared_solver (n : Nat) : declared.solver n = ofBudget n := by
  induction n with
  | zero => rfl
  | succ n ih =>
    unfold solver ofBudget
    rw [ih]
    congr 1
    funext α q
    cases q <;> rfl

theorem solver_rulesOver (n : Nat) : (H.solver (n + 1)).RulesOver (H.solver n) := by
  intro α q hq
  cases q with
  | infer => cases hq
  | _ => rfl

theorem solver_respects (L : Logic) (n : Nat) : (H.solver n).Respects (H.solver n) L := by
  induction n with
  | zero => exact L.respects_ofBudget 0
  | succ n ih => exact L.respects_rules (L.same_budget _) (H.solver_rulesOver n) (H.solver_rulesOver n) ih

variable {H}

theorem inferFresh_restores (hS : ∀ {α : Type} (op : Operation α), Restores (op.run S)) (node : Node)
    (keep : Bool) : Restores (H.inferFresh S node keep) := by
  refine .bind (.withGuard _ _ ((H.callback S node).run_restores hS)) fun _ => ?_
  split
  · exact .pure none
  · rename_i type _
    have hbound : Restores (do return some (← S.substitute type (.scope node)) : Solve (Option Ty)) :=
      .bind (hS (.ask (.substitute type (.scope node)))) fun bound => .pure (some bound)
    cases keep with
    | false => exact hbound
    | true =>
      refine .bind (.of_step (fun _ s => ((), { s with inferred := s.inferred.insert node type })) (fun _ _ => rfl)
        fun _ _ => ⟨.refl _, rfl, rfl, rfl, rfl⟩) fun _ => hbound

theorem infer_restores (hS : ∀ {α : Type} (op : Operation α), Restores (op.run S)) (node : Node) :
    Restores (H.infer S node) := by
  have hlook {α : Type} (f : Context → Session → α) : Restores (fun ctx s => some (f ctx s, s) : Solve α) :=
    .of_step (fun ctx s => (f ctx s, s)) (fun _ _ => rfl) fun _ s => .refl s
  refine .bind (hlook fun _ s => s) fun s => .bind (hlook fun ctx s => s.blind || ctx.provider.blind) fun _ => ?_
  dsimp only
  have hfound (found : Option Ty) (keep : Bool) : Restores (match found with
      | some type => Pure.pure (some type)
      | none => H.inferFresh S node keep : Solve (Option Ty)) := by
    cases found with
    | some type => exact .pure (some type)
    | none => exact inferFresh_restores hS node keep
  split
  · exact .bind (hlook fun _ s => s) fun s => .bind (.pure _) fun found => hfound found _
  · exact .bind (.pure none) fun found => hfound found _

end Host

/-! ## Operations -/

theorem Operation.run_restores (hS : S.Respects S keeps_closed.logic)
    (hinfer : ∀ node, Restores (S.infer node)) (op : Operation α) : Restores (op.run S) := by
  by_cases hop : op.isInference = false
  · -- The host is asked only for the types of expressions, so here all is as over the declarations.
    exact .of_keeps (keeps_closed.operation hS op hop fun _ => trivial)
  · cases op with
    | ask q =>
      cases q with
      | infer node => exact hinfer node
      | _ => exact absurd rfl hop
    | inferCallSite node args =>
      refine .bind (.mapM (fun x => ?_) _) fun _ => .pure _
      refine .bind (.withListEntry _ (hinfer x.1)) fun _ => ?_
      exact .bind (.of_keeps (keeps_of_agree keeps_closed.logic.isInlineTable)) fun _ => .pure _
    | _ => exact absurd rfl hop

theorem Host.operation_restores (H : Host) (n : Nat) (op : Operation α) : Restores (op.run (H.solver n)) := by
  induction n generalizing α with
  | zero => exact op.run_restores (H.solver_respects _ 0) fun node _ _ _ _ h => nomatch h
  | succ n ih => exact op.run_restores (H.solver_respects _ (n + 1)) fun node => infer_restores ih node

/-- Every operation that is answered leaves the scopes of the session as they were, the counter of requests has not gone
down, and a limit that was exceeded still is. So it is where another host finds the types of expressions. -/
theorem Operation.restores {α : Type} (op : Operation α) (n : Nat) (ctx : Context) (s : Session) :
    (∀ a u, op.run (Solver.ofBudget n) ctx s = some (a, u) → s.Restored u ∧
      (s.guard.iterations ≤ Guard.counterMax → s.guard.iterations ≤ u.guard.iterations)) ∧
    ∀ (H : Host) a u, op.run (H.solver n) ctx s = some (a, u) → s.Restored u ∧
      (s.guard.iterations ≤ Guard.counterMax → s.guard.iterations ≤ u.guard.iterations) := by
  have main (H : Host) a u (hr : op.run (H.solver n) ctx s = some (a, u)) : s.Restored u ∧
      (s.guard.iterations ≤ Guard.counterMax → s.guard.iterations ≤ u.guard.iterations) := by
    have h := H.operation_restores n op ctx s a u hr
    exact ⟨h, h.iterations⟩
  constructor
  · intro a u hr
    rw [← Host.declared_solver] at hr
    exact main Host.declared a u hr
  · exact main

/-- A host that finds the type of an expression by asking for it again, without declarations and with one value wanted.
Where it finds none, the expression is a string. -/
def circularHost : Host where
  request S node := do
    let found ← withPosition 0 false (withBlind (S.infer node))
    return some (found.getD Ty.string)
  callback _ node := .bind (.withPosition 0 false (.withBlind (.operation (.ask (.infer node))))) fun _ => .pure _

/-- An alias is being expanded, and only the second value is wanted. -/
def expandingStart : Session := { Session.start TypeTable.initial Limits.standard with expanding := [⟨1⟩], position := 1 }

/-- The third request is refused, since it is for what the second one is after. -/
theorem Operation.restores_circular : ∃ a u,
    (Operation.ask (.infer ⟨7⟩)).run (circularHost.solver 5) ⟨Declarations.empty.provider, {}, true⟩ expandingStart =
      some (a, u) ∧ a = some Ty.string ∧ u.guard.iterations = 3 ∧ expandingStart.Restored u := by
  have hfound : ((Operation.ask (.infer ⟨7⟩)).run (circularHost.solver 5) ⟨Declarations.empty.provider, {}, true⟩
      expandingStart).map (fun r => (r.1, r.2.guard.iterations)) = some (some Ty.string, 3) := by
    decide
  obtain ⟨⟨a, u⟩, hrun, hr⟩ := Option.map_eq_some_iff.1 hfound
  obtain ⟨ha, hu⟩ := Prod.mk.inj hr
  exact ⟨a, u, hrun, ha, hu, ((Operation.restores _ 5 _ _).2 circularHost a u hrun).1⟩

end AnnotatedLua
