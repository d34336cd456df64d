/-
Walks over members. A walk is a sequence of questions and visits (`Solver.Tours`), so that what a visitor keeps, a walk
keeps (`Solver.Tours.carries`). Queries are cut short if one run goes on after a failure and the other one ends there: a
walk is cut short if its visitor is (`visitMembers_cut`).
-/
import AnnotatedLua.Proofs.Query.Frame

namespace AnnotatedLua

open Solve Solver

variable {c : Prop} {S : Solver}

def Solve.Cut {α β : Type} (Q : α → β → Prop) (P : α → Prop) (P' : β → Prop) (m : Solve α) (m' : Solve β) : Prop :=
  ∀ ctx s a u, m ctx s = some (a, u) → ∃ b u', m' ctx s = some (b, u') ∧ (Q a b ∧ u' = u ∨ P a ∧ P' b)

namespace Solve.Cut

variable {α β γ δ : Type} {Q : α → β → Prop} {P : α → Prop} {P' : β → Prop} {m : Solve α} {m' : Solve β}
  {Q2 : γ → δ → Prop} {P2 : γ → Prop} {P2' : δ → Prop}

theorem pure {a : α} {b : β} (h : Q a b) : Cut Q P P' (Pure.pure a) (Pure.pure b) := by
  intro _ s c u hr
  cases hr
  exact ⟨b, s, rfl, .inl ⟨h, rfl⟩⟩

theorem stop {a : α} {b : β} (h : P a) (h' : P' b) : Cut Q P P' (Pure.pure a) (Pure.pure b) := by
  intro _ s c u hr
  cases hr
  exact ⟨b, s, rfl, .inr ⟨h, h'⟩⟩

/-- Both queries begin with the same one, of whose answers `I` is known. -/
theorem knowing {ι : Type} {I : ι → Prop} {n : Solve ι} {f : ι → Solve α} {f' : ι → Solve β} (hn : n.Gives I)
    (hf : ∀ i, I i → Cut Q P P' (f i) (f' i)) : Cut Q P P' (n >>= f) (n >>= f') := by
  intro ctx s a u hr
  obtain ⟨i, v, hi, hr⟩ := bind_eq_some hr
  obtain ⟨b, u', hb, h⟩ := hf i (hn ctx s i v hi) ctx v a u hr
  exact ⟨b, u', by rw [run_bind hi, hb], h⟩

theorem after {ι : Type} {n : Solve ι} {f : ι → Solve α} {f' : ι → Solve β} (hf : ∀ i, Cut Q P P' (f i) (f' i)) :
    Cut Q P P' (n >>= f) (n >>= f') :=
  knowing (I := fun _ => True) (fun _ _ _ _ _ => trivial) fun i _ => hf i

theorem bind {f : α → Solve γ} {f' : β → Solve δ} (hm : Cut Q P P' m m')
    (hf : ∀ a b, Q a b → Cut Q2 P2 P2' (f a) (f' b)) (hgo : ∀ a, P a → (f a).Gives P2)
    (hend : ∀ b, P' b → ∃ d, f' b = Pure.pure d ∧ P2' d) : Cut Q2 P2 P2' (m >>= f) (m' >>= f') := by
  intro ctx s c u hr
  obtain ⟨a, v, hma, hr⟩ := bind_eq_some hr
  obtain ⟨b, v', hb, ⟨hq, rfl⟩ | ⟨hp, hp'⟩⟩ := hm ctx s a v hma
  · obtain ⟨d, u', hd, h⟩ := hf a b hq ctx v' c u hr
    exact ⟨d, u', by rw [run_bind hb, hd], h⟩
  · obtain ⟨d, hd, hP⟩ := hend b hp'
    refine ⟨d, v', ?_, .inr ⟨hgo a hp ctx v c u hr, hP⟩⟩
    rw [run_bind hb, hd]
    rfl

theorem ite [Decidable c] {n : Solve α} {n' : Solve β} (hm : c → Cut Q P P' m m')
    (hn : ¬ c → Cut Q P P' n n') : Cut Q P P' (if c then m else n) (if c then m' else n') := by
  split
  · exact hm ‹_›
  · exact hn ‹_›

end Solve.Cut

/-! ## Walks as sequences of questions and visits -/

inductive Solver.Asks (S : Solver) : {ι : Type} → Solve ι → Prop
  | isCanceled : S.Asks isCanceled
  | lookup (ty) : S.Asks (lookup ty)
  | name (ty) : S.Asks (name ty)
  | library (kind : Primitive) : S.Asks (store (.classNamed kind.name Marks.none))
  | classDecl (name) : S.Asks (classDecl name)
  | ownMembers (decl) : S.Asks (ownMembers decl)
  | superClass (ty) : S.Asks (S.superClass ty)
  | resolve (ty) : S.Asks (S.resolve ty)
  | isOverridden (seen member) : S.Asks (S.isOverridden seen member)

abbrev Tour (β : Type) := (σ : Type) → Visitor σ → σ → Solve (σ × β)

inductive Solver.Tours (S : Solver) : {β : Type} → (E : β → Prop) → Tour β → Prop
  | exhausted {β E} : S.Tours (β := β) E fun _ _ _ => Solve.exhausted
  | pure {β E} (b : β) : S.Tours E fun _ _ state => Pure.pure (state, b)
  | ask {ι β E} {n : Solve ι} (hn : S.Asks n) {k : ι → Tour β} (hk : ∀ i, S.Tours E (k i)) :
      S.Tours E fun σ visit state => n >>= fun i => k i σ visit state
  | visit {β E} (member : Member) {k : (σ : Type) → Visitor σ → σ × Bool → Solve (σ × β)} {b : β}
      (hk : S.Tours E fun σ visit state => k σ visit (state, true)) (hb : E b)
      (hend : ∀ σ visit state, k σ visit (state, false) = Pure.pure (state, b)) :
      S.Tours E fun σ visit state => visit state member >>= k σ visit

def Solve.viewed {σ : Type} (m : Solve (Walked σ)) : Solve (σ × List Ty × Bool) :=
  m >>= fun w => pure (w.state, w.visited, w.complete)

def Solver.Walker.Tours (S : Solver) (walk : Walker) : Prop :=
  ∀ deep ty visited, S.Tours (·.2 = false) fun _ visit state => (walk visit deep ty visited state).viewed

def Solver.superVisit (S : Solver) {σ : Type} (walk : Walker) (visit : Visitor σ) :
    σ × List Ty × List Member → Ty → Solve ((σ × List Ty × List Member) × Bool) := fun p super => do
  let w ← walk (S.inheriting p.2.2 visit) false super p.2.1 (p.1, [])
  return ((w.state.1, w.visited, p.2.2 ++ w.state.2), w.complete)

namespace Solver.Tours

section
variable {β γ : Type} {E : β → Prop} {F : γ → Prop} {f g : Tour β}

theorem ite [Decidable c] (hf : S.Tours E f) (hg : S.Tours E g) :
    S.Tours E fun σ visit state => if c then f σ visit state else g σ visit state := by
  split
  · exact hf
  · exact hg

theorem bind (hf : S.Tours E f) {k : (σ : Type) → Visitor σ → σ × β → Solve (σ × γ)}
    (hk : ∀ b, S.Tours F fun σ visit state => k σ visit (state, b))
    (hend : ∀ b, E b → ∃ c, F c ∧ ∀ σ visit state, k σ visit (state, b) = Pure.pure (state, c)) :
    S.Tours F fun σ visit state => f σ visit state >>= k σ visit := by
  induction hf with
  | exhausted => exact .exhausted
  | pure b => simpa only [pure_bind] using hk b
  | ask hn _ ih => simpa only [bind_assoc] using .ask hn fun i => ih i hk hend
  | visit member _ hb hstop ih =>
    simp only [bind_assoc]
    obtain ⟨c, hc, hk'⟩ := hend _ hb
    exact .visit member (ih hk hend) hc fun σ _ _ => by rw [hstop, pure_bind, hk']

theorem map (hf : S.Tours E f) (h : β → γ) (hE : ∀ b, E b → F (h b)) :
    S.Tours F fun σ visit state => f σ visit state >>= fun r => Pure.pure (r.1, h r.2) :=
  hf.bind (fun b => .pure (h b)) fun b hb => ⟨h b, hE b hb, fun _ _ _ => rfl⟩

theorem inheriting (hf : S.Tours E f) (seen kept : List Member) : S.Tours (E ·.2) fun _ visit state => do
    let r ← f _ (S.inheriting seen visit) (state, kept)
    return (r.1.1, r.1.2, r.2) := by
  induction hf generalizing kept with
  | exhausted => exact .exhausted
  | pure b => exact .pure (kept, b)
  | ask hn _ ih => simpa only [bind_assoc] using .ask hn fun i => ih i kept
  | @visit _ _ member _ b _ hb hstop ih =>
    simp only [Solver.inheriting, bind_assoc]
    refine .ask (.isOverridden seen member) fun overridden => ?_
    cases overridden with
    | true => exact ih kept
    | false =>
      simp only [Solver.keeping, Bool.false_eq_true, if_false, bind_assoc, pure_bind]
      exact .visit member (b := (kept ++ [member], b)) (ih _) hb fun _ _ _ => by rw [hstop]; rfl

theorem keeping (hf : S.Tours E f) : S.Tours (E ·.2) fun _ visit state => do
    let r ← f _ (keeping visit) (state, [])
    return (r.1.1, r.1.2, r.2) := inheriting hf [] []

theorem own (members : List Member) : S.Tours (· = some false) fun _ visit state => visitOwn visit members state := by
  induction members with
  | nil => exact .pure none
  | cons member rest ih =>
    exact .ask .isCanceled fun _ => .ite (.pure (some true)) (.visit member ih rfl fun _ _ _ => rfl)
end

section
variable {walk : Walker} (hw : walk.Tours S)
include hw

theorem superVisit (super : Ty) (visited : List Ty) (seen : List Member) : S.Tours (·.2 = false) fun _ visit state => do
    let r ← S.superVisit walk visit (state, visited, seen) super
    return (r.1.1, r.1.2, r.2) := by
  have h := (inheriting (hw false super visited) seen []).map (F := (·.2 = false)) (fun b => ((b.2.1, seen ++ b.1), b.2.2)) fun _ h => h
  simpa only [viewed, Solver.superVisit, bind_assoc, pure_bind] using h

theorem supersFrom (n : Nat) (ty : Ty) (names : List String) (visited : List Ty) (seen : List Member) :
    S.Tours (·.2 = false) fun _ visit state => do
      let r ← S.visitSupersFrom (S.superVisit walk visit) n ty names (state, visited, seen)
      return (r.1.1, r.1.2, r.2) := by
  induction n generalizing ty names visited seen with
  | zero => exact .exhausted
  | succ n ih =>
    have hstop : S.Tours (·.2 = false) fun _ _ state => Pure.pure (state, (visited, seen), true) := .pure _
    simp only [visitSupersFrom, bind_assoc]
    refine .ask (.superClass ty) fun super => ?_
    cases super with
    | none => exact hstop
    | some next =>
      simp only [bind_assoc]
      refine .ask .isCanceled fun canceled => ?_
      cases canceled with
      | true => exact hstop
      | false =>
        simp only [Bool.false_eq_true, if_false, bind_assoc]
        refine .ask (.name next) fun nextName => ?_
        cases names.contains nextName with
        | true => exact hstop
        | false =>
          have h := (superVisit hw next visited seen).bind (F := (·.2 = false)) (k := fun _ visit r => (if r.2.2 then
            S.visitSupersFrom (S.superVisit walk visit) n next (nextName :: names) (r.1, r.2.1) else return ((r.1, r.2.1), false)) >>=
              fun r => return (r.1.1, r.1.2, r.2)) ?_ ?_
          · simpa only [Bool.false_eq_true, if_false, bind_assoc, pure_bind] using h
          · rintro ⟨b, _ | _⟩
            · exact .pure (b, false)
            · exact ih next _ b.1 b.2
          · rintro ⟨b, _⟩ rfl
            exact ⟨(b, false), rfl, fun _ _ _ => rfl⟩

theorem supers (deep : Bool) (ty : Ty) (own : List Member) (visited : List Ty) : S.Tours (·.2 = false) fun _ visit state =>
    viewed (if deep then S.walkSupers walk visit ty own visited state else return ⟨state, visited, true⟩) := by
  cases deep with
  | false => exact .pure (visited, true)
  | true =>
    have h := Tours.ask (.name ty) fun name => (supersFrom hw S.budget ty [name] visited own).map (F := (·.2 = false)) (fun b => (b.1.1, b.2)) fun _ h => h
    simp only [bind_assoc, pure_bind] at h
    simp only [viewed, if_true, walkSupers, visitSupers, bind_assoc, pure_bind]
    exact h

theorem ofClass (deep : Bool) (ty : Ty) (name : Symbol) (visited : List Ty) :
    S.Tours (·.2 = false) fun _ visit state => (S.walkClass walk visit deep ty name visited state).viewed := by
  simp only [walkClass, viewed, bind_assoc]
  refine .ask (.classDecl name) fun decl => ?_
  cases decl with
  | none => exact supers hw deep ty [] visited
  | some decl =>
    simp only [bind_assoc]
    refine .ask (.ownMembers decl) fun own => (Tours.own own).bind (fun outcome => ?_) ?_
    · cases outcome with
      | some complete => exact .pure (visited, complete)
      | none => exact supers hw deep ty own visited
    · rintro _ rfl
      exact ⟨(visited, false), rfl, fun _ _ _ => rfl⟩

theorem ofInstance (deep : Bool) (ty base : Ty) (visited : List Ty) :
    S.Tours (·.2 = false) fun _ visit state => (S.walkInstance walk visit deep ty base visited state).viewed := by
  have h := (keeping (hw false base visited)).bind (F := (·.2 = false)) (k := fun _ visit r => viewed (if r.2.2.2 && deep then
    S.walkSupers walk visit ty r.2.1 r.2.2.1 r.1 else return ⟨r.1, r.2.2.1, r.2.2.2⟩)) ?_ ?_
  · simpa only [viewed, walkInstance, bind_assoc, pure_bind] using h
  · rintro ⟨kept, visited, _ | _⟩
    · exact .pure (visited, false)
    · exact supers hw deep ty kept visited
  · rintro ⟨_, visited, _⟩ rfl
    exact ⟨(visited, false), rfl, fun _ _ _ => rfl⟩

theorem ofForm (deep : Bool) (ty : Ty) (visited : List Ty) :
    S.Tours (·.2 = false) fun _ visit state => (S.walkForm walk visit deep ty visited state).viewed := by
  simp only [walkForm, viewed, bind_assoc]
  refine .ask (.lookup ty) fun form => ?_
  cases form with
  | classRef name =>
    simp only [bind_assoc]
    refine .ask (.resolve ty) fun resolved => ?_
    split
    · exact ofClass hw deep ty name visited
    · exact hw deep resolved visited
  | param name written bound =>
    cases bound with
    | some bound => exact hw deep bound visited
    | none => exact .pure (visited, true)
  | generic base => exact ofInstance hw deep ty base visited
  | primitive kind =>
    simp only [bind_assoc]
    exact .ask (.library kind) fun library => hw deep library visited
  | literal kind => exact hw deep kind.type visited
  | aliasRef =>
    simp only [bind_assoc]
    refine .ask (.resolve ty) fun resolved => ?_
    split
    · exact .pure (visited, true)
    · exact hw deep resolved visited
  | _ => exact .pure (visited, true)
end

theorem within (n : Nat) : Walker.Tours S (S.walkWithin n) := by
  induction n with
  | zero => exact fun _ _ _ => .exhausted
  | succ n ih =>
    intro deep ty visited
    simp only [walkWithin]
    split
    · exact .pure (visited, true)
    · exact ofForm ih deep ty _

theorem members (deep : Bool) (ty : Ty) : S.Tours (· = false) fun _ visit state => S.visitMembers visit deep ty state := by
  have h := (within (S := S) S.budget deep ty []).map (F := (· = false)) Prod.snd fun _ h => h
  simpa only [viewed, visitMembers, bind_assoc, pure_bind] using h

end Solver.Tours

/-! ## What a visitor keeps -/

section
variable {σ τ β : Type} {E : β → Prop} {f : Tour β}

structure Carried (S : Solver) (ctx : Context) (J : σ → Session → Prop) (visit : Visitor σ) : Prop where
  lasting : ∀ {ι : Type} {n : Solve ι}, S.Asks n → ∀ state s i u, J state s → n ctx s = some (i, u) → J state u
  step : ∀ state m s r u, J state s → visit state m ctx s = some (r, u) → J r.1 u

variable {state : σ}

theorem Solver.Tours.carries (hf : S.Tours E f) {ctx : Context} {J : σ → Session → Prop} {visit : Visitor σ}
    (hv : Carried S ctx J visit) {s u : Session} {r : σ × β} (h : J state s)
    (hr : f σ visit state ctx s = some (r, u)) : J r.1 u := by
  induction hf generalizing state s with
  | exhausted => cases hr
  | pure =>
    cases hr
    exact h
  | ask hn _ ih =>
    obtain ⟨i, v, hi, hr⟩ := bind_eq_some hr
    exact ih i (hv.lasting hn state s i v h hi) hr
  | visit member _ hb hend ih =>
    obtain ⟨⟨_, go⟩, v, hi, hr⟩ := bind_eq_some hr
    have h := hv.step state member s _ v h hi
    cases go with
    | true => exact ih h hr
    | false =>
      rw [hend] at hr
      cases hr
      exact h

variable {R : σ → τ → Prop} {B : σ → Prop} {B' : τ → Prop} {visit : Visitor σ} {visit' : Visitor τ}

theorem Solver.Tours.gives (hf : S.Tours E f) (hv : ∀ state m, B state → (visit state m).Gives fun a => B a.1)
    (h : B state) : (f σ visit state).Gives fun a => B a.1 :=
  fun ctx s _ _ hr => hf.carries (s := s) (J := fun state _ => B state)
    ⟨fun _ _ _ _ _ h _ => h, fun state m s r u h hr => hv state m h ctx s r u hr⟩ h hr

/-! ## Walks that are cut short -/

structure Shadows (R : σ → τ → Prop) (B : σ → Prop) (B' : τ → Prop) (visit : Visitor σ) (visit' : Visitor τ) : Prop where
  step : ∀ state state' m, R state state' → Cut (fun a b => R a.1 b.1 ∧ b.2 = a.2) (fun a => B a.1)
    (fun b => B' b.1 ∧ b.2 = false) (visit state m) (visit' state' m)
  bad : ∀ state m, B state → (visit state m).Gives fun a => B a.1

theorem Solver.Tours.cut (hf : S.Tours E f) (hv : Shadows R B B' visit visit') {state' : τ} (h : R state state') :
    Cut (fun a b => R a.1 b.1 ∧ b.2 = a.2) (fun a => B a.1) (fun b => B' b.1 ∧ E b.2) (f σ visit state)
      (f τ visit' state') := by
  induction hf generalizing state state' with
  | exhausted => exact fun _ _ _ _ hr => by cases hr
  | pure => exact .pure ⟨h, rfl⟩
  | ask hn _ ih => exact .after fun i => ih i h
  | visit member hk hb hend ih =>
    refine .bind (hv.step state state' member h) ?_ ?_ ?_
    · rintro ⟨a, _⟩ ⟨b, go⟩ ⟨h, rfl⟩
      cases go with
      | true => exact ih h
      | false =>
        rw [hend, hend]
        exact .pure ⟨h, rfl⟩
    · rintro ⟨a, go⟩ h
      cases go with
      | true => exact hk.gives hv.bad h
      | false =>
        rw [hend]
        exact .pure h
    · rintro ⟨b, _⟩ ⟨h, rfl⟩
      exact ⟨_, hend _ _ b, h, hb⟩

theorem visitMembers_cut (hv : Shadows R B B' visit visit') (S : Solver) (deep : Bool) (ty : Ty) (state : σ) (state' : τ)
    (h : R state state') : Cut (fun a b => R a.1 b.1 ∧ b.2 = a.2) (fun a => B a.1) (fun b => B' b.1 ∧ b.2 = false)
      (S.visitMembers visit deep ty state) (S.visitMembers visit' deep ty state') :=
  (Tours.members deep ty).cut hv h

theorem visitMembers_gives (hv : ∀ state m, B state → (visit state m).Gives fun a => B a.1) (S : Solver) (deep : Bool)
    (ty : Ty) (state : σ) (h : B state) : (S.visitMembers visit deep ty state).Gives fun a => B a.1 :=
  (Tours.members deep ty).gives hv h
end

end AnnotatedLua
