/-
The parts that equality compares. Which parts correspond does not depend on the order of the two types (`FormOf.pairs`).
A comparison finds all pairs equal, or one that is not (`tells_signatureEqual`).
-/
import AnnotatedLua.Proofs.Union.Canonical
import AnnotatedLua.Proofs.Query.Sound

namespace AnnotatedLua

open Solve Solver SignatureOf List

variable {α ξ : Type} {n : Nat} {ctx : Context} {f g : Form} {s w : Session} {t : TypeTable} {ty a b : Ty}

/-! ## Stages -/

namespace Session

def holding (s : Session) (t : TypeTable) : Session := { s with types := t }.unlimited 0

structure Stage (s : Session) (t : TypeTable) : Prop where
  wf : t.WF
  grown : s.types.Extends t

/-- Without limits, the query has this answer within the budget. -/
def GivesBy (ctx : Context) (s : Session) (t : TypeTable) {α : Type} (m : Solver → Solve α) (n : Nat) (a : α) : Prop :=
  ∃ u, m (ofBudget n) ctx.uncancelled (s.holding t) = some (a, u) ∧ u.Clear ctx.uncancelled

def Gives (ctx : Context) (s : Session) (t : TypeTable) {α : Type} (m : Solver → Solve α) (a : α) : Prop :=
  ∃ n, s.GivesBy ctx t m n a

end Session

section
variable {u : Session} {t' : TypeTable}

theorem Session.Sound.holding (hs : s.Sound ctx) (ht : s.Stage t) : (s.holding t).Sound ctx.uncancelled := by
  have hfrom : ({ s with types := t } : Session).From ctx s := ⟨ht.wf, ht.grown, rfl, rfl⟩
  refine ⟨ht.wf, fun name decl hd => ?_, fun name ty hd => ?_, fun node name ty hd => ?_, ?_, ?_⟩
  · obtain ⟨hname, hdecl⟩ := hs.classes name decl hd
    exact ⟨ht.grown.hasSymbol hname, hfrom.stores hs hdecl⟩
  · obtain ⟨hname, hty⟩ := hs.aliases name ty hd
    exact ⟨ht.grown.hasSymbol hname, hfrom.stores hs hty⟩
  · obtain ⟨hname, hty⟩ := hs.scopes node name ty hd
    exact ⟨ht.grown.hasSymbol hname, hfrom.stores hs hty⟩
  · have : Same ht.wf.self s.guard s.guard := hfrom.stores hs hs.guard
    exact Same.get ht.wf.self (Guard.mk _ _ _ _ _) (Guard.mk _ _ _ _ _)
  · exact hfrom.stores hs hs.expanding

theorem Session.Since.rebase (h : u.Since ctx.uncancelled (s.holding t)) : u.Since ctx.uncancelled (s.holding u.types) :=
  { h with grown := .refl _, kept := { h.kept with types := .refl _ } }

theorem Session.Since.stage (ht : s.Stage t) (h : u.Since ctx.uncancelled (s.holding t)) : s.Stage u.types :=
  ⟨h.types, ht.grown.trans h.grown⟩

theorem Session.Stage.since (ht' : s.Stage t') (hx : t.Extends t') (hc : s.guard.exceeded = false) :
    (s.holding t').Since ctx.uncancelled (s.holding t) where
  types := ht'.wf
  grown := hx
  classes := rfl
  aliases := rfl
  kept := ⟨hx, rfl, rfl, rfl, le_refl _, rfl, rfl, rfl, rfl, rfl, id, id⟩
  clear := ⟨hc, rfl⟩

/-! ## Answers -/

section
variable [Value ξ] [Value α] {m : Solver → ξ → Solve α} (hm : Regular m) (hs : s.Sound ctx) (ht : s.Stage t) {x : ξ}
  (hx : ht.wf.Stores x) (h : u.Since ctx.uncancelled (s.holding t)) {a : α}
  (hr : m (ofBudget n) x ctx.uncancelled u = some (a, w)) (hw : w.Clear ctx.uncancelled)
include hm hs ht hx h hr hw

theorem Session.Since.goes_on : w.Since ctx.uncancelled (s.holding t) := h.goes hm (hs.holding ht) hx hr hw

theorem Session.Since.givesBy_same (ht' : s.Stage t') (hgrown : t.Extends t') : ∃ a' w',
    m (ofBudget n) x ctx.uncancelled (s.holding t') = some (a', w') ∧ w'.Clear ctx.uncancelled ∧ t'.Extends w'.types ∧
      ∃ (k : w.types.WF) (k' : w'.types.WF), Same (TypeTable.pairing k k') a a' := by
  have hb := hs.holding ht
  have hc : s.guard.exceeded = false := (h.kept.clear h.clear).exceeded
  have h' : (s.holding t').Since ctx.uncancelled (s.holding t) := ht'.since hgrown hc
  have := h.after_base hb h'
  have hun := (hm.uniform (ofBudget n)).unhindered x
  obtain ⟨i, -, hi⟩ := hun.run _ u a w hr hw
  obtain ⟨a', w', hv', k, -, hsame⟩ := (h.inStep (hm.uniform _) hb h' (Same.upTo hx (h.pairing h'))).left (hi 0)
  have hexceeded : w.guard.exceeded = w'.guard.exceeded := by
    have := k.guard
    exact (Same.get k.pairing (w.unlimited (0 + i)).guard.exceeded w'.guard.exceeded).eq
  refine ⟨a', w', hv', ⟨hexceeded ▸ hw.exceeded, rfl⟩, ?_, k.left.types, k.right.types, hsame⟩
  exact (hun.keeps _ _ _ _ hv').types
end

/-! ### Answers without handles -/

section
variable [Value ξ] [Value α] [Discrete α] {m : Solver → ξ → Solve α} (hm : Regular m) (hs : s.Sound ctx)
  (ht : s.Stage t) {x : ξ} (hx : ht.wf.Stores x) {a : α}
include hm hs ht hx

theorem leads_givesBy (n : Nat) : (s.holding t).Leads ctx.uncancelled (m (ofBudget n) x) (s.GivesBy ctx t (m · x) n) := by
  intro u a w hu hr hw
  obtain ⟨_, w', hr', hw', -, _, _, hsame⟩ := hu.givesBy_same hm hs ht hx hr hw ht (.refl _)
  obtain rfl := hsame.eq
  exact ⟨hu.goes_on hm hs ht hx hr hw, w', hr', hw'⟩

theorem Session.GivesBy.grow (ht' : s.Stage t') (hgrown : t.Extends t') (h : s.GivesBy ctx t (m · x) n a) :
    s.GivesBy ctx t' (m · x) n a := by
  obtain ⟨w, hr, hw⟩ := h
  have hc : (s.holding t).Clear ctx.uncancelled :=
    (hm.keeps x _ _ _ _ hr).clear hw
  have hsince : (s.holding t).Since ctx.uncancelled (s.holding t) := (hs.holding ht).since hc
  obtain ⟨_, w', hr', hw', -, _, _, hsame⟩ := hsince.givesBy_same hm hs ht hx hr hw ht' hgrown
  obtain rfl := hsame.eq
  exact ⟨w', hr', hw'⟩
end

theorem Session.Gives.unique [Value ξ] [Value α] {m : Solver → ξ → Solve α} (hm : Regular m) {x : ξ}
    {a a' : α} (h : s.Gives ctx t (m · x) a) (h' : s.Gives ctx t (m · x) a') : a = a' := by
  obtain ⟨n, u, hr, -⟩ := h
  obtain ⟨n', _, hr', -⟩ := h'
  rcases le_total n n' with hle | hle
  · cases (hm.below hle x _ _ _ hr).symm.trans hr'
    rfl
  · cases hr.symm.trans (hm.below hle x _ _ _ hr')
    rfl

/-! ### Resolution -/

/-- Over these types the type stands for `resolved`, which is one of them. -/
structure Session.Resolves (ctx : Context) (s : Session) (t : TypeTable) (ty resolved : Ty) : Prop where
  has : t.Has resolved
  gives : s.Gives ctx t (fun S => S.resolve ty) resolved

section
variable (hs : s.Sound ctx) (ht : s.Stage t) {resolved : Ty} (hty : t.Has ty)
include hs ht hty

theorem Session.Since.resolves (h : u.Since ctx.uncancelled (s.holding t))
    (hr : (ofBudget n).resolve ty ctx.uncancelled u = some (resolved, w)) (hw : w.Clear ctx.uncancelled) :
    w.Since ctx.uncancelled (s.holding t) ∧ s.Stage w.types ∧ t.Extends w.types ∧ s.Resolves ctx w.types ty resolved := by
  have hx := (hs.holding ht).stores_type hty
  have hgo := h.goes_on regular_resolve hs ht hx hr hw
  have hstage : s.Stage w.types := hgo.stage ht
  obtain ⟨r, w', hr', hw', hgrown, k, k', hsame⟩ := h.givesBy_same regular_resolve hs ht hx hr hw hstage hgo.grown
  obtain ⟨hhas, hhas', htree⟩ := TypeTable.sameType_iff.1 hsame
  rw [← hgrown.tree_eq k k' hhas] at htree
  obtain rfl := k'.eq_of_tree (hgrown.has hhas) hhas' htree
  exact ⟨hgo, hstage, hgo.grown, hhas, n, w', hr', hw'⟩

theorem Session.Resolves.grow (ht' : s.Stage t') (hgrown : t.Extends t') (h : s.Resolves ctx t ty resolved) :
    s.Resolves ctx t' ty resolved := by
  obtain ⟨hhas, n, w, hr, hw⟩ := h
  have hx := (hs.holding ht).stores_type hty
  have hc : (s.holding t).Clear ctx.uncancelled :=
    (regular_resolve.keeps ty _ _ _ _ hr).clear hw
  obtain ⟨r, w', hr', hw', hgrown', k, k', hsame⟩ :=
    ((hs.holding ht).since hc).givesBy_same regular_resolve hs ht hx hr hw ht' hgrown
  have hw0 : t.Extends w.types := (regular_resolve.keeps ty _ _ _ _ hr).types
  obtain ⟨-, hhas', htree⟩ := TypeTable.sameType_iff.1 hsame
  -- what was stored before is known in both tables
  have hstored := (hgrown.trans hgrown').tree_eq ht.wf k' hhas
  rw [hw0.tree_eq ht.wf k hhas, ← hstored] at htree
  obtain rfl := k'.eq_of_tree ((hgrown.trans hgrown').has hhas) hhas' htree
  exact ⟨hgrown.has hhas, n, w', hr', hw'⟩
end

theorem Session.Resolves.unique {r r' : Ty} (h : s.Resolves ctx t ty r) (h' : s.Resolves ctx t ty r') : r = r' :=
  h.gives.unique regular_resolve h'.gives
end

variable {o o' : TypePairs}

/-! ## Corresponding parts -/

/-- The types that have to be equal; `none` if nothing helps. -/
abbrev TypePairs := Option (List (Ty × Ty))

namespace TypePairs

def one (a b : Ty) : TypePairs := some [(a, b)]

def both (o o' : TypePairs) : TypePairs := o.bind fun l => o'.map (l ++ ·)

def optional : Option Ty → Option Ty → TypePairs
  | some a, some b => one a b
  | none, none => some []
  | _, _ => none

def each {α : Type} (pairs : α → α → TypePairs) : List α → List α → TypePairs
  | [], [] => some []
  | a :: as, b :: bs => both (pairs a b) (each pairs as bs)
  | _, _ => none

def flip (o : TypePairs) : TypePairs := o.map (map Prod.swap)

variable {l : List (Ty × Ty)}

theorem both_eq_some (h : both o o' = some l) : ∃ l1 l2, o = some l1 ∧ o' = some l2 ∧ l = l1 ++ l2 := by
  obtain ⟨l1, h1, h⟩ := Option.bind_eq_some_iff.1 h
  obtain ⟨l2, h2, rfl⟩ := Option.map_eq_some_iff.1 h
  exact ⟨l1, l2, h1, h2, rfl⟩

theorem flip_one (a b : Ty) : (one a b).flip = one b a := rfl

theorem flip_both (o o' : TypePairs) : (both o o').flip = both o.flip o'.flip := by
  cases o <;> cases o' <;> simp [both, flip]

theorem flip_optional (o o' : Option Ty) : (optional o o').flip = optional o' o := by
  cases o <;> cases o' <;> rfl

variable {pairs : α → α → TypePairs}

theorem flip_each (h : ∀ a b, (pairs a b).flip = pairs b a) (as bs : List α) :
    (each pairs as bs).flip = each pairs bs as := by
  induction as generalizing bs with
  | nil => cases bs <;> rfl
  | cons a as ih =>
    cases bs with
    | nil => rfl
    | cons => simp only [each, flip_both, h, ih]

theorem forall_each {P : Ty × Ty → Prop} {as bs : List α} (hl : each pairs as bs = some l)
    (h : ∀ a ∈ as, ∀ b ∈ bs, ∀ l, pairs a b = some l → ∀ p ∈ l, P p) : ∀ p ∈ l, P p := by
  induction as generalizing bs l with
  | nil =>
    cases bs with
    | nil =>
      cases hl
      nofun
    | cons => cases hl
  | cons a as ih =>
    cases bs with
    | nil => cases hl
    | cons b =>
      obtain ⟨l1, _, h1, h2, rfl⟩ := both_eq_some hl
      refine forall_mem_append.2 ⟨h a (.head _) b (.head _) l1 h1, ih h2 fun x hx y hy => ?_⟩
      exact h x (.tail _ hx) y (.tail _ hy)

def Diagonal (o : TypePairs) : Prop := ∃ l, o = some l ∧ ∀ p ∈ l, p.1 = p.2

theorem Diagonal.both (h : o.Diagonal) (h' : o'.Diagonal) : (both o o').Diagonal := by
  obtain ⟨l, rfl, hl⟩ := h
  obtain ⟨l', rfl, hl'⟩ := h'
  exact ⟨l ++ l', rfl, forall_mem_append.2 ⟨hl, hl'⟩⟩

theorem diagonal_one (a : Ty) : (one a a).Diagonal := ⟨_, rfl, by simp⟩

theorem diagonal_optional (o : Option Ty) : (optional o o).Diagonal := by
  cases o with
  | none => exact ⟨[], rfl, nofun⟩
  | some a => exact diagonal_one a

theorem diagonal_each (h : ∀ a, (pairs a a).Diagonal) (as : List α) : (each pairs as as).Diagonal := by
  induction as with
  | nil => exact ⟨[], rfl, nofun⟩
  | cons a as ih => exact (h a).both ih

end TypePairs

open TypePairs

/-- The types of two parameters, if both may be left out or none of them. -/
def ParameterOf.pairs (a b : Parameter) : TypePairs := if a.optional = b.optional then one a.typeOrAny b.typeOrAny else none

def SignatureOf.pairs (a b : Signature) : TypePairs :=
  if a.colon = b.colon then
    both (optional a.returns b.returns) (both (optional a.variadic b.variadic)
      (both (each ParameterOf.pairs a.params b.params) (each one a.typeParams b.typeParams)))
  else none

/-- The parts of two forms that correspond, if the forms are alike otherwise. -/
def FormOf.pairs : Form → Form → TypePairs
  | .array a, .array b => one a b
  | .param name _ bound, .param name' _ bound' => if name = name' then optional bound bound' else none
  | .function main overloads _, .function main' overloads' _ =>
    both (main.pairs main') (each SignatureOf.pairs overloads overloads')
  | .results types variadic, .results types' variadic' =>
    if variadic = variadic' then each one types types' else none
  | .generic base args, .generic base' args' => both (one base base') (each one args args')
  | _, _ => none

theorem ParameterOf.flip_pairs (a b : Parameter) : (a.pairs b).flip = b.pairs a := by
  unfold ParameterOf.pairs
  by_cases h : a.optional = b.optional
  · rw [if_pos h, if_pos h.symm]
    rfl
  · rw [if_neg h, if_neg (Ne.symm h)]
    rfl

theorem SignatureOf.flip_pairs (a b : Signature) : (a.pairs b).flip = b.pairs a := by
  unfold pairs
  by_cases h : a.colon = b.colon
  · rw [if_pos h, if_pos h.symm]
    simp only [flip_both, flip_optional, flip_each ParameterOf.flip_pairs, flip_each flip_one]
  · rw [if_neg h, if_neg (Ne.symm h)]
    rfl

theorem FormOf.flip_pairs (f g : Form) : (f.pairs g).flip = g.pairs f := by
  cases f <;> cases g <;> try rfl
  case function.function =>
    simp only [FormOf.pairs, flip_both, SignatureOf.flip_pairs, flip_each SignatureOf.flip_pairs]
  case generic.generic =>
    simp only [FormOf.pairs, flip_both, flip_one, flip_each flip_one]
  case results.results types variadic types' variadic' =>
    simp only [FormOf.pairs]
    by_cases h : variadic = variadic'
    · rw [if_pos h, if_pos h.symm, flip_each flip_one]
    · rw [if_neg h, if_neg (Ne.symm h)]
      rfl
  case param.param name written bound name' written' bound' =>
    simp only [FormOf.pairs]
    by_cases h : name = name'
    · rw [if_pos h, if_pos h.symm, flip_optional]
    · rw [if_neg h, if_neg (Ne.symm h)]
      rfl

theorem ParameterOf.diagonal_pairs (a : Parameter) : (a.pairs a).Diagonal := by
  rw [ParameterOf.pairs, if_pos rfl]
  exact diagonal_one _

theorem SignatureOf.diagonal_pairs (a : Signature) : (a.pairs a).Diagonal := by
  rw [pairs, if_pos rfl]
  exact (diagonal_optional _).both ((diagonal_optional _).both
    ((diagonal_each ParameterOf.diagonal_pairs _).both (diagonal_each diagonal_one _)))

theorem FormOf.diagonal_pairs (h : f.kind ∈ [Kind.array, .param, .function, .results, .generic]) :
    (f.pairs f).Diagonal := by
  cases f <;> simp only [FormOf.kind, mem_cons, not_mem_nil, reduceCtorEq, or_self] at h <;>
    simp only [FormOf.pairs, if_true]
  case array element => exact diagonal_one element
  case param bound => exact diagonal_optional bound
  case results types variadic => exact diagonal_each diagonal_one types
  case generic base args => exact (diagonal_one base).both (diagonal_each diagonal_one args)
  case function main overloads _ =>
    exact main.diagonal_pairs.both (diagonal_each SignatureOf.diagonal_pairs overloads)

/-! ### Parts that are stored -/

section
variable {P : Ty → Prop} {l : List (Ty × Ty)}

theorem TypePairs.one_parts (h : one a b = some l) (ha : P a) (hb : P b) : ∀ p ∈ l, P p.1 ∧ P p.2 := by
  cases h
  simp [ha, hb]

theorem TypePairs.optional_parts {o o' : Option Ty} (h : optional o o' = some l) (ho : ∀ a ∈ o, P a) (ho' : ∀ a ∈ o', P a) :
    ∀ p ∈ l, P p.1 ∧ P p.2 := by
  match o, o', h with
  | some a, some b, h => exact one_parts h (ho a rfl) (ho' b rfl)
  | none, none, h =>
    cases h
    nofun

variable (hany : P Ty.any)
include hany

theorem SignatureOf.pairs_parts {a b : Signature} (h : a.pairs b = some l) (ha : ∀ x ∈ a.parts, P x)
    (hb : ∀ x ∈ b.parts, P x) : ∀ p ∈ l, P p.1 ∧ P p.2 := by
  unfold pairs at h
  split at h
  · simp only [parts, forall_mem_append, forall_mem_flatMap, Option.mem_toList] at ha hb
    obtain ⟨⟨⟨hat, hap⟩, hav⟩, har⟩ := ha
    obtain ⟨⟨⟨hbt, hbp⟩, hbv⟩, hbr⟩ := hb
    obtain ⟨_, _, h1, hrest, rfl⟩ := both_eq_some h
    obtain ⟨_, _, h2, hrest', rfl⟩ := both_eq_some hrest
    obtain ⟨_, _, h3, h4, rfl⟩ := both_eq_some hrest'
    have htype {s : Signature} (hp : ∀ x ∈ s.params, ∀ y ∈ x.type, P y) : ∀ x ∈ s.params, P x.typeOrAny := by
      intro x hx
      unfold ParameterOf.typeOrAny
      cases ht : x.type with
      | none => exact hany
      | some y => exact hp x hx y ht
    simp only [forall_mem_append]
    refine ⟨optional_parts h1 har hbr, optional_parts h2 hav hbv, forall_each h3 fun x hx y hy l hl => ?_,
      forall_each h4 fun x hx y hy l hl => one_parts hl (hat x hx) (hbt y hy)⟩
    unfold ParameterOf.pairs at hl
    split at hl
    · exact one_parts hl (htype hap x hx) (htype hbp y hy)
    · cases hl
  · cases h

theorem FormOf.pairs_parts (h : f.pairs g = some l) (hf : ∀ x ∈ f.parts, P x) (hg : ∀ x ∈ g.parts, P x) :
    ∀ p ∈ l, P p.1 ∧ P p.2 := by
  cases f <;> cases g <;> simp only [FormOf.pairs, reduceCtorEq] at h <;>
    simp only [FormOf.parts, forall_mem_cons, flatMap_cons, forall_mem_append, forall_mem_flatMap,
      Option.mem_toList] at hf hg
  case array.array => exact one_parts h hf.1 hg.1
  case param.param =>
    split at h
    · exact optional_parts h hf hg
    · cases h
  case results.results =>
    split at h
    · exact forall_each h fun x hx y hy l hl => one_parts hl (hf x hx) (hg y hy)
    · cases h
  case generic.generic =>
    obtain ⟨l1, l2, h1, h2, rfl⟩ := both_eq_some h
    exact forall_mem_append.2 ⟨one_parts h1 hf.1 hg.1,
      forall_each h2 fun x hx y hy l hl => one_parts hl (hf.2 x hx) (hg.2 y hy)⟩
  case function.function =>
    obtain ⟨_, _, h1, h2, rfl⟩ := both_eq_some h
    exact forall_mem_append.2 ⟨pairs_parts hany h1 hf.1 hg.1,
      forall_each h2 fun x hx y hy l hl => pairs_parts hany hl (hf.2 x hx) (hg.2 y hy)⟩
end

/-! ## Comparisons part by part -/

structure Session.Tells (ctx : Context) (base : Session) {α : Type} (m : Solve α) (A : α → Prop) : Prop where
  keeps : Keeps m
  leads : base.Leads ctx m A

theorem tells_pure {base : Session} {a : α} {A : α → Prop} (h : A a) :
    base.Tells ctx (pure a) A := ⟨keeps_closed.pure a, leads_pure h⟩

structure Session.Judges (ctx : Context) (s : Session) (t : TypeTable) (n : Nat) (o : TypePairs) (answer : Bool) : Prop where
  yes : answer = true → ∃ l, o = some l ∧ ∀ p ∈ l, s.GivesBy ctx t (fun S => S.equal p.1 p.2) n true
  no : answer = false → ∀ l, o = some l → ∃ p ∈ l, s.GivesBy ctx t (fun S => S.equal p.1 p.2) n false

def partsEqual (S : Solver) : Form → Form → Solve Bool
  | .array a, .array b => S.equal a b
  | .param name _ bound, .param name' _ bound' => S.paramsEqual name bound name' bound'
  | .function main overloads _, .function main' overloads' _ =>
    S.signatureEqual main main' <&&> allEqual S.signatureEqual overloads overloads'
  | .results types variadic, .results types' variadic' =>
    if variadic = variadic' then allEqual S.equal types types' else return false
  | _, _ => return false

theorem regular_partsEqual : Regular fun (S : Solver) (x : Form × Form) => partsEqual S x.1 x.2 := by
  rintro L S S' hS p ⟨f, g⟩ ⟨f', g'⟩ h
  obtain ⟨⟨hf⟩, ⟨hg⟩⟩ := h.out
  cases hf <;> cases hg <;> first | exact L.pure | skip
  case array.array => exact hS.equal
  case param.param => exact L.paramsEqual hS
  case function.function =>
    exact L.andM (L.signatureEqual hS) (L.allEqual fun _ _ _ _ _ _ _ _ => L.signatureEqual hS)
  case results.results => exact L.ite (L.allEqual fun _ _ _ _ _ _ _ _ => hS.equal) L.pure

section
theorem judges_none : s.Judges ctx t n none false := ⟨nofun, fun _ _ => nofun⟩

theorem judges_nil : s.Judges ctx t n (some []) true := ⟨fun _ => ⟨[], rfl, nofun⟩, nofun⟩

theorem Session.Judges.and {b : Bool} (h : s.Judges ctx t n o true) (h' : s.Judges ctx t n o' b) :
    s.Judges ctx t n (both o o') b := by
  obtain ⟨l, rfl, hl⟩ := h.yes rfl
  refine ⟨fun hb => ?_, fun hb l' hl' => ?_⟩
  · obtain ⟨l', rfl, hl'⟩ := h'.yes hb
    exact ⟨l ++ l', rfl, forall_mem_append.2 ⟨hl, hl'⟩⟩
  · obtain ⟨_, l2, -, h2, rfl⟩ := both_eq_some hl'
    obtain ⟨p, hp, hfalse⟩ := h'.no hb l2 h2
    exact ⟨p, mem_append_right _ hp, hfalse⟩

theorem Session.Judges.left (h : s.Judges ctx t n o false) : s.Judges ctx t n (both o o') false := by
  refine ⟨nofun, fun _ l hl => ?_⟩
  obtain ⟨l1, _, h1, -, rfl⟩ := both_eq_some hl
  obtain ⟨p, hp, hfalse⟩ := h.no rfl l1 h1
  exact ⟨p, mem_append_left _ hp, hfalse⟩

theorem tells_and {m m' : Solve Bool} (hm : (s.holding t).Tells ctx.uncancelled m (s.Judges ctx t n o))
    (hm' : (s.holding t).Tells ctx.uncancelled m' (s.Judges ctx t n o')) :
    (s.holding t).Tells ctx.uncancelled (m <&&> m') (s.Judges ctx t n (both o o')) := by
  refine ⟨keeps_closed.bind hm.keeps fun b => ?_, fun u a w hu hr hw => ?_⟩
  · cases b with
    | true => exact hm'.keeps
    | false => exact keeps_closed.pure false
  · obtain ⟨b, v, hb, hr⟩ := bind_eq_some hr
    cases b with
    | true =>
      obtain ⟨hv, hj⟩ := hm.leads u true v hu hb ((hm'.keeps _ v a w hr).clear hw)
      obtain ⟨hw', hj'⟩ := hm'.leads v a w hv hr hw
      exact ⟨hw', hj.and hj'⟩
    | false =>
      obtain ⟨rfl, rfl⟩ := pure_eq_some hr
      obtain ⟨hv, hj⟩ := hm.leads u false w hu hb hw
      exact ⟨hv, hj.left⟩

variable {pairs : α → α → TypePairs} {as bs : List α}

theorem TypePairs.each_eq_none (h : as.length ≠ bs.length) : each pairs as bs = none := by
  induction as generalizing bs with
  | nil =>
    cases bs with
    | nil => exact absurd rfl h
    | cons => rfl
  | cons a as ih =>
    cases bs with
    | nil => rfl
    | cons b =>
      rw [each, ih (by simpa using h)]
      cases pairs a b <;> rfl

theorem allM_cons (f : α → Solve Bool) (x : α) (l : List α) : (x :: l).allM f = (f x <&&> l.allM f) := by
  refine congrArg (f x >>= ·) (funext fun b => ?_)
  cases b <;> rfl

theorem tells_allEqual {equal : α → α → Solve Bool}
    (h : ∀ a ∈ as, ∀ b ∈ bs, (s.holding t).Tells ctx.uncancelled (equal a b) (s.Judges ctx t n (pairs a b))) :
    (s.holding t).Tells ctx.uncancelled (allEqual equal as bs) (s.Judges ctx t n (each pairs as bs)) := by
  unfold allEqual
  split
  · rename_i hlen
    induction as generalizing bs with
    | nil =>
      obtain rfl := length_eq_zero_iff.1 hlen.symm
      exact tells_pure judges_nil
    | cons a as ih =>
      cases bs with
      | nil => cases hlen
      | cons b =>
        rw [zip_cons_cons, allM_cons]
        exact tells_and (h a (.head _) b (.head _))
          (ih (fun x hx y hy => h x (.tail _ hx) y (.tail _ hy)) (by simpa using hlen))
  · rename_i hlen
    rw [each_eq_none hlen]
    exact tells_pure judges_none

variable (hs : s.Sound ctx) (ht : s.Stage t)
include hs ht

theorem tells_equal (ha : t.Has a) (hb : t.Has b) :
    (s.holding t).Tells ctx.uncancelled ((ofBudget n).equal a b) (s.Judges ctx t n (one a b)) := by
  have hx := (hs.holding ht).stores_pair ha hb
  refine ⟨regular_equal.keeps (a, b), fun u v w hu hr hw => ?_⟩
  obtain ⟨hw', hgives⟩ := leads_givesBy regular_equal hs ht hx n u v w hu hr hw
  refine ⟨hw', fun hv => ⟨_, rfl, ?_⟩, fun hv l hl => ?_⟩
  · subst hv
    simpa using hgives
  · cases hl
    subst hv
    exact ⟨(a, b), .head _, hgives⟩

theorem tells_optionalEqual {o o' : Option Ty} (ho : ∀ a ∈ o, t.Has a) (ho' : ∀ a ∈ o', t.Has a) :
    (s.holding t).Tells ctx.uncancelled ((ofBudget n).optionalEqual o o') (s.Judges ctx t n (optional o o')) := by
  match o, o' with
  | some a, some b => exact tells_equal hs ht (ho a rfl) (ho' b rfl)
  | none, none => exact tells_pure judges_nil
  | some _, none => exact tells_pure judges_none
  | none, some _ => exact tells_pure judges_none

theorem tells_signatureEqual {a b : Signature} (ha : ∀ x ∈ a.parts, t.Has x) (hb : ∀ x ∈ b.parts, t.Has x) :
    (s.holding t).Tells ctx.uncancelled ((ofBudget n).signatureEqual a b) (s.Judges ctx t n (a.pairs b)) := by
  have hany : t.Has Ty.any := (ht.wf.lookup_builtin Ty.any rfl).1
  have htype {x : Parameter} (hx : ∀ y ∈ x.type, t.Has y) : t.Has x.typeOrAny := by
    unfold ParameterOf.typeOrAny
    cases hx' : x.type with
    | none => exact hany
    | some y => exact hx y hx'
  simp only [parts, forall_mem_append, forall_mem_flatMap, Option.mem_toList] at ha hb
  obtain ⟨⟨⟨hat, hap⟩, hav⟩, har⟩ := ha
  obtain ⟨⟨⟨hbt, hbp⟩, hbv⟩, hbr⟩ := hb
  unfold signatureEqual pairs
  split
  · refine tells_and (tells_optionalEqual hs ht har hbr) (tells_and (tells_optionalEqual hs ht hav hbv)
      (tells_and (tells_allEqual fun x hx y hy => ?_) (tells_allEqual fun x hx y hy => ?_)))
    · unfold parameterEqual ParameterOf.pairs
      split
      · exact tells_equal hs ht (htype (hap x hx)) (htype (hbp y hy))
      · exact tells_pure judges_none
    · exact tells_equal hs ht (hat x hx) (hbt y hy)
  · exact tells_pure judges_none

theorem tells_partsEqual (hkind : f.kind ≠ .generic) (hf : ∀ x ∈ f.parts, t.Has x) (hg : ∀ x ∈ g.parts, t.Has x) :
    (s.holding t).Tells ctx.uncancelled (partsEqual (ofBudget n) f g) (s.Judges ctx t n (f.pairs g)) := by
  cases f <;> cases g <;> first | exact tells_pure judges_none | skip
  case generic.generic => exact absurd rfl hkind
  case array.array => exact tells_equal hs ht (hf _ (.head _)) (hg _ (.head _))
  case param.param name _ bound name' _ bound' =>
    dsimp only [partsEqual, paramsEqual, FormOf.pairs]
    split
    · exact tells_optionalEqual hs ht (fun x hx => hf x (Option.mem_toList.2 hx)) fun x hx => hg x (Option.mem_toList.2 hx)
    · exact tells_pure judges_none
  case results.results types variadic types' variadic' =>
    dsimp only [partsEqual, FormOf.pairs]
    split
    · exact tells_allEqual fun x hx y hy => tells_equal hs ht (hf x hx) (hg y hy)
    · exact tells_pure judges_none
  case function.function main overloads _ main' overloads' _ =>
    simp only [FormOf.parts, flatMap_cons, forall_mem_append, forall_mem_flatMap] at hf hg
    exact tells_and (tells_signatureEqual hs ht hf.1 hg.1)
      (tells_allEqual fun x hx y hy => tells_signatureEqual hs ht (hf.2 x hx) (hg.2 y hy))
end

end AnnotatedLua
