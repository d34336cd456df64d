/-
Which value fills which parameter. A call is checked value by value, and its type parameters are inferred from the types
of all arguments. The two walks agree on what a parameter is handed (`handed_eq_checked`), except in a colon call
without a receiver.
-/
import AnnotatedLua.Proofs.Call.Fits
import AnnotatedLua.Proofs.Query.Settled

namespace AnnotatedLua

open Solve Solver List

variable {position n param : Nat} {ctx : Context} {s u : Session} {call : CallSite} {signature : Signature}
  {colon : Bool}

/-! ## Asking again -/

theorem Session.Past.again {s1 s2 : Session} {ξ α : Type} [Value ξ] [Value α]
    {m : ξ → Solve α} (hm : Uniform (ofBudget n) m) (hs : s.Sound ctx) {x : ξ} (hx : hs.types.Stores x) {a a' : α}
    (hr : m x ctx s = some (a, s1)) (hlater : s2.Past ctx s1) (hr' : m x ctx s2 = some (a', u)) (hu : u.Clear ctx) :
    a' = a := by
  have hkeeps := (hm.unhindered x).keeps
  have hclear2 : s2.Clear ctx := (hkeeps ctx s2 a' u hr').clear hu
  have hclear1 : s1.Clear ctx := hlater.kept.clear hclear2
  have k0 : s.Since ctx s := hs.since ((hkeeps ctx s a s1 hr).clear hclear1)
  have := k0.after_base hs k0
  have k1 : s1.Since ctx s := .goes_left hm hs k0 k0 (Same.upTo hx _) hr hclear1
  have k2 : s2.Since ctx s := .trans ⟨hlater.toFrom, hlater.kept, hclear2⟩ k1
  have := k0.after_base hs k2
  obtain ⟨l, l', -, hsame⟩ := k0.step hm hs k2 (Same.upTo hx _) hr hr' hclear1 hu
  -- all that was stored for the first answer is still stored, so the same answer is made of the same handles
  have hgrown : s1.types.Extends u.types := hlater.grown.trans (hkeeps ctx s2 a' u hr').types
  have : (l.pairing l').After (l'.pairing l') := TypeTable.pairing_after hgrown (.refl _)
  exact (hsame.upTo (l'.pairing l') |>.eq_of_after (TypeTable.pairing_eq l'.types)).symm

/-! ## The values of a call -/

/-- The types of the values that a call passes, that of what may repeat last. -/
def Solver.PassedValues.types (passed : PassedValues) : List Ty :=
  passed.values.map Passed.type ++ passed.variadic.toList.map Passed.type

theorem splitVariadic_types (results : Results) :
    (splitVariadic results).1 ++ (splitVariadic results).2.toList = results.types := by
  unfold splitVariadic
  cases results.variadic with
  | false => exact append_nil _
  | true =>
    rcases eq_nil_or_concat results.types with h | ⟨init, last, h⟩
    · simp [h]
    · simp [h]

section
variable {S : Solver}

theorem argumentResults_variadic {arg : Argument} {results : Results}
    (h : S.argumentResults false arg ctx s = some (results, u)) : results.variadic = false := by
  obtain ⟨found, _, -, h⟩ := bind_eq_some h
  have hnone : found.filter (fun _ => false) = none := by cases found <;> rfl
  rw [hnone] at h
  obtain ⟨_, _, -, h⟩ := bind_eq_some h
  cases h
  rfl

variable {lists : List (Argument × Results)} {args : List Argument}

theorem argumentLists_length (h : S.argumentLists args ctx s = some (lists, u)) : lists.length = args.length := by
  induction args generalizing s lists with
  | nil =>
    cases h
    rfl
  | cons arg rest ih =>
    obtain ⟨_, _, -, h⟩ := bind_eq_some h
    obtain ⟨_, _, hrest, h⟩ := bind_eq_some h
    cases h
    simp [ih hrest]

theorem argumentLists_types (h : S.argumentLists args ctx s = some (lists, u)) : lists.flatMap (·.2.types) =
      lists.flatMap (fun list => (splitVariadic list.2).1) ++
        (lists.getLast?.bind fun list => (splitVariadic list.2).2).toList := by
  induction args generalizing s lists with
  | nil =>
    cases h
    rfl
  | cons arg rest ih =>
    obtain ⟨results, _, hresults, h⟩ := bind_eq_some h
    obtain ⟨lists, _, hrest, h⟩ := bind_eq_some h
    cases h
    have hlength := argumentLists_length hrest
    cases rest with
    | nil =>
      obtain rfl := length_eq_zero_iff.1 hlength
      simp [splitVariadic_types]
    | cons =>
      have hsplit := splitVariadic_types results
      have hnone : (splitVariadic results).2 = none := by simp [splitVariadic, argumentResults_variadic hresults]
      rw [hnone, Option.toList_none, append_nil] at hsplit
      have hlast : ((arg, results) :: lists).getLast? = lists.getLast? := by
        cases lists with
        | nil => cases hlength
        | cons => exact getLast?_cons_cons
      rw [hlast, flatMap_cons, flatMap_cons, ih hrest, hsplit, append_assoc]

variable {passed : PassedValues}

theorem passedValues_types (h : S.passedValues call ctx s = some (passed, u)) :
    ∃ lists, S.argumentLists call.args ctx s = some (lists, u) ∧ passed.types = lists.flatMap (·.2.types) := by
  obtain ⟨lists, _, hlists, h⟩ := bind_eq_some h
  cases h
  refine ⟨lists, hlists, ?_⟩
  rw [argumentLists_types hlists]
  unfold PassedValues.types
  congr 1
  · simp [map_flatMap, Function.comp_def]
  · cases lists.getLast? with
    | none => rfl
    | some last => cases h : (splitVariadic last.2).2 <;> simp [h]

theorem PassedValues.types_of_value {value : Passed} (h : passed.values[position]? = some value) :
    passed.types[position]? = some value.type := by
  obtain ⟨hlt, -⟩ := List.getElem?_eq_some_iff.1 h
  unfold PassedValues.types
  rw [List.getElem?_append_left (by simpa using hlt), List.getElem?_map, h]
  rfl

theorem analyzedTypes_lists {types : List Ty} (h : S.analyzedTypes call ctx s = some (types, u)) :
    ∃ lists, S.argumentLists call.args ctx s = some (lists, u) ∧
      types = (if call.colon then call.receiver.toList else []) ++ lists.flatMap (·.2.types) := by
  obtain ⟨lists, _, hlists, h⟩ := bind_eq_some h
  cases h
  exact ⟨lists, hlists, rfl⟩
end

/-! ## Parameters and values -/

namespace SignatureOf

/-- The value at a position of the call is the one for a declared parameter. A receiver that is passed with a colon is no
value of the call, and neither is the `self` of a method a declared parameter. -/
def FillsAt (signature : Signature) (colon : Bool) (position param : Nat) : Prop :=
  position + colon.toNat = param + signature.colon.toNat

/-- The type that a declared parameter is inferred from, out of the types of all arguments. -/
def handed (signature : Signature) (types : List Ty) (param : Nat) : Option Ty := types[signature.colon.toNat + param]?

theorem handed_of_fillsAt (h : signature.FillsAt colon position param) (types : List Ty) :
    signature.handed types param = types[position + colon.toNat]? := by
  unfold handed
  rw [h, Nat.add_comm]

end SignatureOf

theorem callParameters_fillsAt (h : signature.FillsAt colon position param) (receiver : Option Ty) (t : TypeTable) :
    (callParameters signature receiver colon t).1[position]? = signature.params[param]? := by
  unfold SignatureOf.FillsAt at h
  unfold callParameters
  cases colon <;> cases hcolon : signature.colon <;> rw [hcolon] at h <;>
    simp only [Bool.toNat_false, Bool.toNat_true, Nat.add_zero, Nat.add_right_cancel_iff] at h
  · rw [h]
    rfl
  · rw [h]
    rfl
  · rw [← h, Nat.add_comm]
    exact getElem?_drop
  · rw [h]
    rfl

/-! ## Trying a signature -/

/-- Infers type parameters from the type that is handed over for a declared parameter. -/
def Solver.inferFrom (S : Solver) (search : Search) (handed : Nat → Option Ty) (bindings : Bindings)
    (declared : Parameter × Nat) : Solve Bindings :=
  match handed declared.2, declared.1.type with
  | some arg, some type => S.analyze search bindings arg type
  | _, _ => return bindings

/-- Between the sessions `s` and `u` the type parameters were inferred from what was handed over for the declared
parameters, one after the other. -/
def Solver.InfersFrom (S : Solver) (ctx : Context) (s u : Session) (signature : Signature) (handed : Nat → Option Ty) :
    Prop :=
  ∃ search found s1 u1, s.Kept s1 ∧ u1.Kept u ∧
    signature.params.zipIdx.foldlM (S.inferFrom search handed) Bindings.empty ctx s1 = some (found, u1)

/-- Between the sessions `s` and `u` the parameters were checked, each against the value at its position. -/
def Solver.Attempt.Checks (a : Attempt) (S : Solver) (ctx : Context) (s u : Session) (params : List Parameter) : Prop :=
  ∃ self verdict s1 u1, s.Kept s1 ∧ u1.Kept u ∧
    S.checkParameters a self params.zipIdx .accept ctx s1 = some (verdict, u1)

theorem foldlM_declaredParameters (S : Solver) (search : Search) (types : List Ty) :
    (declaredParameters signature).foldlM (S.inferFrom search (types[·]?)) Bindings.empty =
      signature.params.zipIdx.foldlM (S.inferFrom search (signature.handed types)) Bindings.empty := by
  unfold declaredParameters
  rw [zipIdx_eq_map_add, foldlM_map]
  rfl

theorem keeps_inferFrom (search : Search) (handed : Nat → Option Ty) (bindings : Bindings) (declared : Parameter × Nat) :
    Keeps ((ofBudget n).inferFrom search handed bindings declared) := by
  unfold inferFrom
  split
  · exact keeps_of_agree (keeps_closed.logic.analyze (keeps_respects n))
  · exact keeps_closed.pure _

theorem inferBindings_handed {bindings : Bindings}
    (h : (ofBudget n).inferBindings signature call ctx s = some (bindings, u)) : ∃ types s1,
      (ofBudget n).analyzedTypes call ctx s = some (types, s1) ∧ s1.Kept u ∧
      (ofBudget n).InfersFrom ctx s u signature (signature.handed types) := by
  have hS := keeps_respects n
  obtain ⟨types, s1, htypes, h⟩ := bind_eq_some h
  obtain ⟨search, s2, hsearch, h⟩ := bind_eq_some h
  obtain ⟨found, s3, hfound, h⟩ := bind_eq_some h
  have hfound : signature.params.zipIdx.foldlM ((ofBudget n).inferFrom search (signature.handed types)) Bindings.empty
      ctx s2 = some (found, s3) := by
    rw [← foldlM_declaredParameters]
    exact hfound
  have k0 : s.Kept s1 := keeps_of_agree (keeps_closed.logic.analyzedTypes hS) ctx s _ _ htypes
  have k1 : s1.Kept s2 := keeps_of_agree keeps_closed.logic.startSearch ctx s1 _ _ hsearch
  have k2 : s2.Kept s3 := by
    refine keeps_of_agree (keeps_closed.logic.foldlM fun q _ b _ x _ hb hx hq => ?_) ctx s2 _ _ hfound
    obtain rfl := hb.eq_of_after hq
    obtain rfl := hx.eq_of_after hq
    exact ⟨rfl, keeps_inferFrom search _ b x⟩
  have k3 : s3.Kept u := by
    cases hdeclared : signature.variadic with
    | none =>
      rw [hdeclared] at h
      exact keeps_of_agree keeps_closed.logic.finishBindings ctx s3 _ _ h
    | some =>
      rw [hdeclared] at h
      obtain ⟨_, s4, hrest, h⟩ := bind_eq_some h
      have k := keeps_of_agree (keeps_closed.logic.foldlM fun _ _ _ _ _ _ _ _ => keeps_closed.logic.analyze hS) ctx s3
        _ _ hrest
      exact k.trans (keeps_of_agree keeps_closed.logic.finishBindings ctx s4 _ _ h)
  exact ⟨types, s1, htypes, k1.trans (k2.trans k3), search, found, s2, s3, k0.trans k1, k3, hfound⟩

theorem checkCandidate_checks {a : Attempt} {verdict : Verdict}
    (h : (ofBudget n).checkCandidate a ctx s = some (verdict, u)) :
    ∃ t, a.Checks (ofBudget n) ctx s u (callParameters a.signature a.call.receiver a.call.colon t).1 := by
  obtain ⟨self, s1, hself, h⟩ := bind_eq_some h
  obtain ⟨params, s2, hparams, h⟩ := bind_eq_some h
  obtain ⟨checked, s3, hchecked, h⟩ := bind_eq_some h
  have k1 : s.Kept s1 := keeps_closed.store (fun t => t.internText_extends selfName) ctx s self s1 hself
  have k2 : s1.Kept s2 := keeps_of_agree keeps_closed.logic.callParameters ctx s1 params s2 hparams
  have k3 : s3.Kept u := by
    split at h
    · cases h
      exact .refl _
    · obtain ⟨rest, _, hrest, h⟩ := bind_eq_some h
      cases h
      exact keeps_of_agree (keeps_closed.logic.checkRest (keeps_respects n) fun _ => trivial) ctx s3 rest u hrest
  cases hparams
  exact ⟨s1.types, self, checked, _, s3, k1.trans k2, k3, hchecked⟩

/-- Inference and check agree on which value fills which parameter. If a signature with type parameters is tried for a
call, its type parameters are inferred from what is handed over for each declared parameter, and its parameters are
checked in order. For a declared parameter that is checked against a value, the type handed over is the type of that
value. Only in a colon call without a receiver it is that of the next value, or of what repeats after the last one. -/
theorem handed_eq_checked {s₀ s₁ : Session} {passed : PassedValues} {wanted : Bool} {trial : Trial} (hs : s₀.Sound ctx)
    (hcall : hs.types.Stores call) (hpassed : (ofBudget n).passedValues call ctx s₀ = some (passed, s₁))
    (hlater : s.Past ctx s₁) (hgeneric : signature.isGeneric = true)
    (htrial : (ofBudget n).trySignature ⟨wanted, call, passed⟩ signature ctx s = some (trial, u)) (hu : u.Clear ctx) :
    ∃ handed params, (ofBudget n).InfersFrom ctx s u signature handed ∧
      Attempt.Checks ⟨wanted, trial.instantiated, call, passed⟩ (ofBudget n) ctx s u params ∧
      ∀ position param value, param < signature.params.length → signature.FillsAt call.colon position param →
        passed.values[position]? = some value →
        params[position]? = trial.instantiated.params[param]? ∧
        handed param = if call.colon && call.receiver.isNone then passed.types[position + 1]? else some value.type := by
  obtain ⟨substitution, s₂, hsubstitution, htrial⟩ := bind_eq_some htrial
  obtain ⟨instantiated, s₃, hinstantiated, htrial⟩ := bind_eq_some htrial
  obtain ⟨verdict, s₄, hverdict, htrial⟩ := bind_eq_some htrial
  cases htrial
  have hS := keeps_respects n
  have k₂ : s₂.Kept s₃ := keeps_of_agree (keeps_closed.logic.substituteSignature hS) ctx s₂ _ _ hinstantiated
  have k₃ : s₃.Kept u := keeps_of_agree (keeps_closed.logic.checkCandidate hS fun _ => trivial) ctx s₃ _ _ hverdict
  -- the inference
  unfold callSubstitution at hsubstitution
  simp only [hgeneric, Bool.not_true, Bool.false_eq_true, if_false] at hsubstitution
  obtain ⟨bindings, s₅, hbindings, hsubstitution⟩ := bind_eq_some hsubstitution
  cases hsubstitution
  obtain ⟨types, s₆, htypes, k₆, hinfers⟩ := inferBindings_handed hbindings
  have hlists : types = (if call.colon then call.receiver.toList else []) ++ passed.types := by
    have : Same hs.types.self call call := hcall
    obtain ⟨lists, hlists, hpassed⟩ := passedValues_types hpassed
    obtain ⟨lists', hlists', htypes⟩ := analyzedTypes_lists htypes
    have hm : Uniform (ofBudget n) (ofBudget n).argumentLists := fun L hS _ _ _ _ => L.argumentLists hS
    have hargs : hs.types.Stores call.args := Same.get hs.types.self call.args call.args
    have hsame := hlater.again hm hs hargs hlists hlists' (k₆.trans (k₂.trans k₃) |>.clear hu)
    rw [htypes, hpassed, hsame]
  -- the check
  obtain ⟨t, self, checked, s₇, s₈, k₇, k₈, hchecked⟩ := checkCandidate_checks hverdict
  obtain ⟨search, found, s₉, s₁₀, k₉, k₁₀, hfound⟩ := hinfers
  refine ⟨signature.handed types, _, ⟨search, found, s₉, s₁₀, k₉, k₁₀.trans (k₂.trans k₃), hfound⟩,
    ⟨self, checked, s₇, s₈, ?_, k₈, hchecked⟩, ?_⟩
  · exact (keeps_of_agree (keeps_closed.logic.inferBindings (keeps_respects n)) ctx s _ _ hbindings).trans (k₂.trans k₇)
  intro position param value hparam hfills hvalue
  have hcolon := (substituteSignature_sameArity hinstantiated).colon
  constructor
  · refine callParameters_fillsAt ?_ call.receiver t
    unfold SignatureOf.FillsAt
    rw [hcolon]
    exact hfills
  · have hown := PassedValues.types_of_value hvalue
    rw [SignatureOf.handed_of_fillsAt hfills, hlists]
    cases call.colon with
    | false => exact hown
    | true =>
      cases call.receiver with
      | none => rfl
      | some receiver => exact hown

/-! ## A method with a type parameter -/

/-- A type parameter `T`, `⟨10⟩`. -/
def paramTypes : TypeTable := .ofForms ["T", "x", "y"] [.param ⟨3⟩ ⟨3⟩ none]

def paramStart : Session := .start paramTypes Limits.standard

theorem paramTypes_wf : paramTypes.WF := TypeTable.Orderly.wf (by decide)

theorem paramStart_sound : paramStart.Sound undeclared :=
  .start paramTypes_wf _ (fun _ _ h => by cases h) (fun _ _ h => by cases h) fun _ _ _ h => by cases h

/-- A method of a `T` and anything else that returns a `T`. -/
def paramMethod : Signature := ⟨true, [⟨10⟩], [⟨⟨4⟩, some ⟨10⟩, false⟩, ⟨⟨5⟩, some Ty.any, false⟩], none, some ⟨10⟩⟩

def numberCall (receiver : Option Ty) : CallSite :=
  { node := ⟨1⟩, args := [⟨⟨2⟩, Ty.number, false⟩, ⟨⟨2⟩, Ty.string, false⟩], colon := true, receiver }

/-- Called through a string, the method has `T` inferred from the number that the first parameter is checked against. -/
theorem handed_eq_checked_method : ∃ trial u,
    (ofBudget 20).passedValues (numberCall (some Ty.string)) undeclared paramStart =
      some (plainPassed [Ty.number, Ty.string], paramStart) ∧
    (ofBudget 20).trySignature ⟨true, numberCall (some Ty.string), plainPassed [Ty.number, Ty.string]⟩ paramMethod
      undeclared paramStart = some (trial, u) ∧
    trial.instantiated.returns = some Ty.number ∧
    ∃ handed params, (ofBudget 20).InfersFrom undeclared paramStart u paramMethod handed ∧
      Attempt.Checks ⟨true, trial.instantiated, numberCall (some Ty.string), plainPassed [Ty.number, Ty.string]⟩
        (ofBudget 20) undeclared paramStart u params ∧
      params[0]? = trial.instantiated.params[0]? ∧ handed 0 = some Ty.number := by
  have hstored (ty : Ty) (hty : ty.isBuiltin = true) : Same paramTypes_wf.self ty ty :=
    ⟨paramTypes_wf.self.builtin ty hty⟩
  have := hstored Ty.number rfl
  have := hstored Ty.string rfl
  have hcall : Same paramTypes_wf.self (numberCall (some Ty.string))
      (numberCall (some Ty.string)) := inferInstanceAs (Same _ (CallSite.mk ..) (CallSite.mk ..))
  have hpassed : (ofBudget 20).passedValues (numberCall (some Ty.string)) undeclared paramStart =
      some (plainPassed [Ty.number, Ty.string], paramStart) := rfl
  have htrial : ((ofBudget 20).trySignature ⟨true, numberCall (some Ty.string), plainPassed [Ty.number, Ty.string]⟩
      paramMethod undeclared paramStart).map (fun r => (r.1.instantiated.returns, r.2.guard.exceeded, r.2.canceled)) =
        some (some Ty.number, false, false) := by decide +kernel
  obtain ⟨⟨trial, u⟩, hr, he⟩ := Option.map_eq_some_iff.1 htrial
  simp only [Prod.mk.injEq] at he
  obtain ⟨handed, params, hinfers, hchecks, h⟩ := handed_eq_checked paramStart_sound hcall hpassed
    ⟨⟨paramTypes_wf, .refl _, rfl, rfl⟩, .refl _⟩ rfl hr ⟨he.2.1, by simp [he.2.2]⟩
  obtain ⟨hparam, hhanded⟩ := h 0 0 ⟨Ty.number, ⟨⟨2⟩, Ty.number, false⟩⟩ (by decide) rfl rfl
  exact ⟨trial, u, hpassed, hr, he.1, handed, params, hinfers, hchecks, hparam, hhanded⟩

/-- Without a receiver the first parameter is still checked against the number, but `T` is inferred from the string. So the
number is refused. -/
theorem handed_ne_checked :
    (ofBudget 20).passedValues (numberCall none) undeclared paramStart =
      some (plainPassed [Ty.number, Ty.string], paramStart) ∧
    paramMethod.FillsAt (numberCall none).colon 0 0 ∧
    (plainPassed [Ty.number, Ty.string]).values[0]?.map Passed.type = some Ty.number ∧
    ((ofBudget 20).analyzedTypes (numberCall none) undeclared paramStart).map (paramMethod.handed ·.1 0) =
      some (some Ty.string) ∧
    ((ofBudget 20).trySignature ⟨true, numberCall none, plainPassed [Ty.number, Ty.string]⟩ paramMethod undeclared
      paramStart).map (fun r => (r.1.instantiated.returns, r.1.verdict.accepted)) = some (some Ty.string, false) := by
  refine ⟨rfl, rfl, rfl, ?_⟩
  decide +kernel

end AnnotatedLua
