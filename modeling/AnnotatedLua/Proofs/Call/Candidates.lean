/-
The candidates of a call. A signature that accepts a call is a candidate for it, if it is declared as its callee is
marked, every written argument has a value, and it can take the receiver (`mem_candidates_of_accepted`).
-/
import AnnotatedLua.Proofs.Shape.Plain

namespace AnnotatedLua

open Solve Solver

variable {a : Attempt} {verdict : Verdict}

section
variable {S : Solver} {ctx : Context} {s u : Session}

/-! ## Putting types into a signature -/

theorem mapM_length {α β : Type} {f : α → Solve β} {l : List α} {r : List β} (h : l.mapM f ctx s = some (r, u)) :
    r.length = l.length := by
  induction l generalizing s r with
  | nil =>
    rw [List.mapM_nil] at h
    cases h
    rfl
  | cons x rest ih =>
    rw [List.mapM_cons] at h
    obtain ⟨y, _, -, h⟩ := bind_eq_some h
    obtain ⟨_, _, hys, h⟩ := bind_eq_some h
    cases h
    simp [ih hys]

theorem substituteOptional_isSome {f : Ty → Solve Ty} {ty r : Option Ty}
    (h : substituteOptional f ty ctx s = some (r, u)) : r.isSome = ty.isSome := by
  cases ty with
  | none =>
    cases h
    rfl
  | some =>
    obtain ⟨_, _, -, h⟩ := bind_eq_some h
    cases h
    rfl

structure SignatureOf.SameArity (a b : Signature) : Prop where
  colon : a.colon = b.colon
  params : a.params.length = b.params.length
  variadic : a.variadic.isSome = b.variadic.isSome

variable {signature : Signature}

theorem substituteSignature_sameArity {sub : Substitution} {inst : Signature}
    (h : S.substituteSignature sub signature ctx s = some (inst, u)) : inst.SameArity signature := by
  obtain ⟨_, _, hparams, h⟩ := bind_eq_some h
  obtain ⟨_, _, -, h⟩ := bind_eq_some h
  obtain ⟨_, _, hvariadic, h⟩ := bind_eq_some h
  cases h
  exact ⟨rfl, mapM_length hparams, substituteOptional_isSome hvariadic⟩

/-! ## Values and parameters -/

def SignatureOf.arity (signature : Signature) (colon : Bool) : Nat :=
  if colon && !signature.colon then signature.params.length - 1
  else if !colon && signature.colon then signature.params.length + 1
  else signature.params.length

theorem callParameters_length (signature : Signature) (receiver : Option Ty) (colon : Bool) (t : TypeTable) :
    (callParameters signature receiver colon t).1.length = signature.arity colon := by
  unfold callParameters SignatureOf.arity
  cases colon <;> cases signature.colon
  · rfl
  · rfl
  · exact List.length_drop
  · rfl

theorem SignatureOf.SameArity.arity {a b : Signature} (h : a.SameArity b) (colon : Bool) : a.arity colon = b.arity colon := by
  unfold SignatureOf.arity
  rw [h.colon, h.params]

variable {count : Nat} {colon : Bool}

theorem filledCount_le (h : count ≤ signature.arity colon)
    (hself : colon = true → signature.colon = false → signature.params ≠ []) :
    filledCount signature.colon colon count ≤ signature.params.length := by
  unfold filledCount
  unfold SignatureOf.arity at h
  cases colon <;> cases hd : signature.colon <;> simp only [hd] at h
  · exact h
  · exact Nat.sub_le_of_le_add h
  · have := List.length_pos_iff.2 (hself rfl hd)
    exact Nat.add_le_of_le_sub this h
  · exact h

theorem checkRest_accepted (h : S.checkRest a count ctx s = some (verdict, u)) (ha : verdict.accepted = true) :
    a.signature.variadic.isSome = true ∨ a.call.args.length ≤ count ∨ a.passed.values.length ≤ count := by
  by_cases hvalues : count < a.passed.values.length
  · unfold Solver.checkRest at h
    rw [if_pos hvalues] at h
    cases hvariadic : a.signature.variadic with
    | some => exact .inl rfl
    | none =>
      rw [hvariadic] at h
      obtain ⟨rfl, -⟩ := pure_eq_some h
      refine .inr (.inl (Nat.le_of_not_lt fun hwritten => ?_))
      unfold checkExcess at ha
      rw [if_pos hwritten] at ha
      cases ha
  · exact .inr (.inr (Nat.le_of_not_lt hvalues))

theorem checkCandidate_accepted (h : S.checkCandidate a ctx s = some (verdict, u))
    (ha : verdict.accepted = true) : a.signature.variadic.isSome = true ∨
      a.call.args.length ≤ a.signature.arity a.call.colon ∨ a.passed.values.length ≤ a.signature.arity a.call.colon := by
  obtain ⟨_, _, -, h⟩ := bind_eq_some h
  obtain ⟨params, _, hparams, h⟩ := bind_eq_some h
  have hcount : params.length = a.signature.arity a.call.colon := by
    cases hparams
    exact callParameters_length ..
  obtain ⟨before, _, -, h⟩ := bind_eq_some h
  split at h
  · rename_i hrefused
    cases h
    simp [ha] at hrefused
  · obtain ⟨rest, _, hrest, h⟩ := bind_eq_some h
    cases h
    obtain ⟨-, hrest'⟩ := Bool.and_eq_true_iff.1 (show (before.accepted && rest.accepted) = true from ha)
    rw [← hcount]
    exact checkRest_accepted hrest hrest'

/-! ## The filter -/

theorem mem_candidates {callable : Ty} {signatures found : List Signature}
    (hsignatures : S.signaturesOf callable ctx s = some (signatures, u)) (hmem : signature ∈ signatures)
    (hable : filledCount (s.types.marks callable).method colon count ≤ signature.params.length ∨
      signature.variadic.isSome = true)
    (h : S.candidates callable count colon ctx s = some (found, u)) : signature ∈ found := by
  have h := of_read h rfl
  obtain ⟨_, _, hsignatures', h⟩ := bind_eq_some h
  cases hsignatures.symm.trans hsignatures'
  obtain ⟨rfl, -⟩ := pure_eq_some h
  have hkept : signature ∈ signatures.filter fun s' =>
      filledCount (s.types.marks callable).method colon count ≤ s'.params.length || s'.variadic.isSome :=
    List.mem_filter.2 ⟨hmem, by simpa using hable⟩
  dsimp only
  split
  · rename_i hempty
    rw [List.isEmpty_iff.1 hempty] at hkept
    cases hkept
  · exact hkept

/-- A signature that accepts a call after everything was put into it is one of the candidates for it, but for three
cases: it is declared with a colon and the callee is not marked as a method or the other way round, the last argument
may have no value, or it has no parameter for the receiver of a colon call. -/
theorem mem_candidates_of_accepted {callable : Ty} {call : CallSite} {wanted : Bool} {passed : PassedValues}
    {signatures found : List Signature} {signature : Signature} {trial : Trial} {s' u' : Session}
    (hsignatures : S.signaturesOf callable ctx s = some (signatures, u)) (hmem : signature ∈ signatures)
    (hfound : S.candidates callable call.args.length call.colon ctx s = some (found, u))
    (htrial : S.trySignature { wanted, call, passed } signature ctx s' = some (trial, u'))
    (haccepted : trial.verdict.accepted = true)
    (hmethod : (s.types.marks callable).method = signature.colon)
    (hvalues : call.args.length ≤ passed.values.length)
    (hself : call.colon = true → signature.colon = false → signature.params ≠ []) : signature ∈ found := by
  refine mem_candidates hsignatures hmem ?_ hfound
  obtain ⟨sub, s₁, -, htrial⟩ := bind_eq_some htrial
  obtain ⟨inst, s₂, hinst, htrial⟩ := bind_eq_some htrial
  obtain ⟨verdict, s₃, hverdict, htrial⟩ := bind_eq_some htrial
  cases htrial
  have hsame := substituteSignature_sameArity hinst
  have h := checkCandidate_accepted hverdict haccepted
  dsimp only at h
  rw [hsame.arity, hsame.variadic] at h
  rcases h with hvariadic | hwritten | hall
  · exact .inr hvariadic
  · exact .inl (hmethod ▸ filledCount_le hwritten hself)
  · exact .inl (hmethod ▸ filledCount_le (hvalues.trans hall) hself)
end

/-! ## Overloaded callees -/

/-- A signature whose parameters have these types; all parameters have one name. -/
def plainSignature (colon : Bool) (params : List Ty) : Signature :=
  ⟨colon, [], params.map fun ty => ⟨⟨4⟩, some ty, false⟩, none, some Ty.string⟩

/-- A class `C`, `⟨10⟩`, a method for a string or a number, `⟨11⟩`, a function of nothing or of two numbers, `⟨12⟩`, and
no values, `⟨13⟩`. -/
def overloadedTypes : TypeTable :=
  .ofForms ["C", "a"] [.classRef ⟨3⟩ Marks.none,
    .function (plainSignature true [Ty.number]) [plainSignature true [Ty.string]] { method := true },
    .function (plainSignature false [Ty.number, Ty.number]) [plainSignature false []] {}, .results [] false]

/-- A `C` is called as a method of a number, or with three numbers. -/
def overloaded : Declarations :=
  Declarations.empty.addClass
    { name := ⟨3⟩, marks := Marks.none
      signatures := [plainSignature true [Ty.number], plainSignature false [Ty.number, Ty.number, Ty.number]] }

def overloadedStart : Session := .start overloadedTypes Limits.standard

def plainCall (colon : Bool) (args : List Ty) : CallSite :=
  { node := ⟨1⟩, args := args.map fun ty => ⟨⟨2⟩, ty, false⟩, colon, receiver := none }

def plainPassed (args : List Ty) : PassedValues := ⟨args.map fun ty => ⟨ty, ⟨⟨2⟩, ty, false⟩⟩, none⟩

/-- Something is called with a dot, a `C` and a number. -/
def dottedCall : CallSite := plainCall false [⟨10⟩, Ty.number]

/-- A method is called with a dot, so its receiver is the first of two arguments. The overload for a string is tried
before the one that accepts the call. -/
theorem mem_candidates_of_accepted_dotted : ∃ trial u,
    (ofBudget 20).passedValues dottedCall overloaded.context overloadedStart =
      some (plainPassed [⟨10⟩, Ty.number], overloadedStart) ∧
    (ofBudget 20).trySignature ⟨true, dottedCall, plainPassed [⟨10⟩, Ty.number]⟩ (plainSignature true [Ty.number])
      overloaded.context overloadedStart = some (trial, u) ∧ trial.verdict.accepted = true ∧
    ∃ found, (ofBudget 20).candidates ⟨11⟩ dottedCall.args.length dottedCall.colon overloaded.context overloadedStart =
      some (found, overloadedStart) ∧ plainSignature true [Ty.number] ∈ found := by
  have hsignatures : (ofBudget 20).signaturesOf ⟨11⟩ overloaded.context overloadedStart =
      some ([plainSignature true [Ty.string], plainSignature true [Ty.number]], overloadedStart) := rfl
  have hfound : (ofBudget 20).candidates ⟨11⟩ dottedCall.args.length dottedCall.colon overloaded.context overloadedStart =
      some ([plainSignature true [Ty.string], plainSignature true [Ty.number]], overloadedStart) := rfl
  have haccepted : ((ofBudget 20).trySignature ⟨true, dottedCall, plainPassed [⟨10⟩, Ty.number]⟩
      (plainSignature true [Ty.number]) overloaded.context overloadedStart).map (·.1.verdict.accepted) = some true := by
    rfl
  obtain ⟨⟨trial, u⟩, htrial, ha⟩ := Option.map_eq_some_iff.1 haccepted
  refine ⟨trial, u, rfl, htrial, ha, _, hfound, ?_⟩
  exact mem_candidates_of_accepted hsignatures (.tail _ (.head _)) hfound htrial ha rfl (by decide) nofun

/-- Whether a signature of the callee accepts a call and is no candidate for it. -/
def dropsAccepted (callable : Ty) (call : CallSite) (signature : Signature) : Solve Bool := do
  let passed ← (ofBudget 20).passedValues call
  let trial ← (ofBudget 20).trySignature { wanted := true, call, passed } signature
  let signatures ← (ofBudget 20).signaturesOf callable
  let found ← (ofBudget 20).candidates callable call.args.length call.colon
  return trial.verdict.accepted && signatures.contains signature && !found.contains signature

/-- A method of a class that is called with a dot, a function of nothing that is called with no values in one argument,
and a function of nothing that is called with a colon are dropped, though they accept the call. -/
theorem candidates_drop_accepted :
    (dropsAccepted ⟨10⟩ dottedCall (plainSignature true [Ty.number]) overloaded.context
      overloadedStart).map Prod.fst = some true ∧
    (dropsAccepted ⟨12⟩ (plainCall false [⟨13⟩]) (plainSignature false []) overloaded.context overloadedStart).map
      Prod.fst = some true ∧
    (dropsAccepted ⟨12⟩ (plainCall true []) (plainSignature false []) overloaded.context overloadedStart).map
      Prod.fst = some true := by
  decide

end AnnotatedLua
