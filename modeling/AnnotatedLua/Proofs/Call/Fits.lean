/-
The values of an accepted call. Every parameter that is not optional has a value, and each value fits the parameter at
its position, or else the variadic type (`checkCandidate_fits`). What may come after the last value is not looked at if
one stands beyond the parameters (`checkCandidate_skips_tail`).
-/
import AnnotatedLua.Proofs.Call.Candidates
import AnnotatedLua.Proofs.Call.Judge

namespace AnnotatedLua

open Solve Solver
open Declarations (empty)

variable {type variadic : Ty} {n : Nat} {S : Solver} {wanted : Bool} {value : Passed} {v before : Verdict} {a : Attempt}
  {ctx : Context} {s u s0 u0 : Session} {self : Symbol}

/-! ## Values that fit -/

section
variable (S : Solver) (ctx : Context) (wanted : Bool) (s u : Session) (type : Ty) (value : Passed)

/-- Somewhere between the sessions `s` and `u` the value was found to fit the type: it was accepted or, if problems are
wanted, it was checked without an error. -/
inductive Fits : Prop where
  | accepted {s1 u1} (unwanted : wanted = false) (before : s.Kept s1)
    (run : S.accepts type value.type value.arg.mode ctx s1 = some (true, u1)) (after : u1.Kept u)
  | checked {s1 u1 verdict} (wanted : wanted = true) (before : s.Kept s1)
    (run : S.check true type value.type value.arg.mode none value.arg.node ctx s1 = some (verdict, u1))
    (good : verdict.accepted = true) (after : u1.Kept u)

/-- The first of the values that a value stands for was found to fit. -/
def FirstFits : Prop := ∃ first s1 u1, s.Kept s1 ∧ S.resultAt value.type 0 ctx s1 = some (first, u1) ∧
  Fits S ctx wanted u1 u type ⟨first, value.arg⟩
end

theorem Fits.within (h : Fits S ctx wanted s u type value) (hs : s0.Kept s) (hu : u.Kept u0) :
    Fits S ctx wanted s0 u0 type value := by
  cases h with
  | accepted unwanted before run after => exact .accepted unwanted (hs.trans before) run (after.trans hu)
  | checked wanted before run good after => exact .checked wanted (hs.trans before) run good (after.trans hu)

theorem FirstFits.within (h : FirstFits S ctx wanted s u type value) (hs : s0.Kept s) (hu : u.Kept u0) :
    FirstFits S ctx wanted s0 u0 type value := by
  obtain ⟨first, s1, u1, before, run, fits⟩ := h
  exact ⟨first, s1, u1, hs.trans before, run, fits.within (.refl _) hu⟩

theorem checkArgument_fits {wider : Reason → Reason}
    (h : S.checkArgument wanted type value wider ctx s = some (v, u)) (hv : v.accepted = true) :
    Fits S ctx wanted s u type value := by
  cases wanted with
  | false =>
    obtain ⟨accepted, s1, run, h⟩ := bind_eq_some h
    cases h
    obtain rfl : accepted = true := hv
    exact .accepted rfl (.refl s) run (.refl _)
  | true =>
    obtain ⟨_, _, run, h⟩ := bind_eq_some h
    cases h
    exact .checked rfl (.refl s) run hv (.refl _)

theorem resultAt_single {ty first : Ty} (hunion : s.types.kind ty ≠ .union)
    (hresults : s.types.kind ty ≠ .results) (h : (ofBudget n).resultAt ty 0 ctx s = some (first, u)) :
    first = ty ∧ u = s := by
  cases n with
  | zero => cases h
  | succ n =>
    have hmerge : (ofBudget n).mergeResults ty ctx s = some (ty, s) := by
      refine (run_bind (show Solve.lookup ty ctx s = some (s.types.lookup ty, s) from rfl)).trans ?_
      unfold TypeTable.kind at hunion
      cases hform : s.types.lookup ty with
      | union => simp [hform] at hunion
      | _ => rfl
    obtain ⟨_, _, hm, h⟩ := bind_eq_some (show Rule.resultAt (ofBudget n) ty 0 ctx s = some (first, u) from h)
    cases hmerge.symm.trans hm
    have h := of_read h rfl
    dsimp only at h
    unfold TypeTable.kind at hresults
    cases hform : s.types.lookup ty with
    | results => simp [hform] at hresults
    | _ =>
      rw [hform] at h
      cases h
      exact ⟨rfl, rfl⟩

/-! ## Parameters -/

/-- The types of the parameters that a call fills, and whether they are optional. -/
def SignatureOf.filled (signature : Signature) (receiver : Option Ty) (colon : Bool) : List (Ty × Bool) :=
  let declared := signature.params.map fun param => (param.typeOrAny, param.optional)
  if colon && !signature.colon then declared.drop 1
  else if !colon && signature.colon then (receiver.getD Ty.any, false) :: declared
  else declared

theorem callParameters_filled (signature : Signature) (receiver : Option Ty) (colon : Bool) (t : TypeTable) :
    (callParameters signature receiver colon t).1.map (fun param => (param.typeOrAny, param.optional)) =
      signature.filled receiver colon := by
  unfold callParameters SignatureOf.filled
  cases colon <;> cases signature.colon
  · rfl
  · rfl
  · exact List.map_drop
  · rfl

/-- A position of the call has a value if one is required there, and its value was found to fit the type. -/
structure Solver.Attempt.Filled (a : Attempt) (S : Solver) (ctx : Context) (s u : Session) (position : Nat) (type : Ty)
    (optional : Bool) : Prop where
  given : optional = false → position < a.passed.values.length
  fits : ∀ value, a.passed.values[position]? = some value → Fits S ctx a.wanted s u type value

section
variable {position : Nat}

theorem Solver.Attempt.Filled.within {optional : Bool}
    (h : a.Filled S ctx s u position type optional) (hs : s0.Kept s) (hu : u.Kept u0) :
    a.Filled S ctx s0 u0 position type optional :=
  ⟨h.given, fun value hvalue => (h.fits value hvalue).within hs hu⟩

theorem checkParameter_fits {param : Parameter}
    (h : (ofBudget n).checkParameter a self position param ctx s = some (v, u)) (hv : v.accepted = true) :
    a.Filled (ofBudget n) ctx s u position param.typeOrAny param.optional := by
  unfold checkParameter at h
  cases hvalue : a.passed.values[position]? with
  | some =>
    rw [hvalue] at h
    constructor
    · exact fun _ => (List.getElem?_eq_some_iff.1 hvalue).1
    · intro value' hvalue'
      cases hvalue.symm.trans hvalue'
      exact checkArgument_fits h hv
  | none =>
    refine ⟨fun hoptional => ?_, fun _ hvalue' => by simp [hvalue] at hvalue'⟩
    simp only [hvalue, hoptional, Bool.false_eq_true, if_false] at h
    -- The missing argument is an error, whatever is found out about the values after the last one.
    obtain ⟨_, _, hmissing, h⟩ := bind_eq_some h
    have hrefused := missingArgument_refuses hmissing
    cases hvariadic : a.passed.variadic with
    | none =>
      rw [hvariadic] at h
      cases h
      simp [hrefused] at hv
    | some =>
      rw [hvariadic] at h
      obtain ⟨_, _, -, h⟩ := bind_eq_some h
      cases h
      simp [Verdict.and, hrefused] at hv

theorem keeps_checkParameter (self : Symbol) (position : Nat) (param : Parameter) :
    Keeps ((ofBudget n).checkParameter a self position param) :=
  keeps_of_agree (keeps_closed.logic.checkParameter (keeps_respects n) fun _ => trivial)

theorem keeps_checkParameters (self : Symbol) (params : List (Parameter × Nat)) (before : Verdict) :
    Keeps ((ofBudget n).checkParameters a self params before) :=
  keeps_of_agree (keeps_closed.logic.checkParameters (keeps_respects n) fun _ => trivial)

theorem checkParameters_fits {params : List (Parameter × Nat)}
    (h : (ofBudget n).checkParameters a self params before ctx s = some (v, u)) (hv : v.accepted = true) :
    ∀ x ∈ params, a.Filled (ofBudget n) ctx s u x.2 x.1.typeOrAny x.1.optional := by
  induction params generalizing before s with
  | nil => simp
  | cons x rest ih =>
    obtain ⟨param, position⟩ := x
    obtain ⟨part, s1, hpart, h⟩ := bind_eq_some h
    dsimp only at h
    split at h
    · -- The check ends here with an error, against what it found.
      rename_i hends
      cases h
      simp [endsCheck, hv] at hends
    · have hs := keeps_checkParameter self position param ctx s part s1 hpart
      have hu := keeps_checkParameters self rest _ ctx s1 v u h
      have hand : (before.accepted && part.accepted) = true := checkParameters_accepted h hv
      intro y hmem
      rcases List.mem_cons.1 hmem with rfl | hmem
      · exact (checkParameter_fits hpart (Bool.and_eq_true_iff.1 hand).2).within (.refl s) hu
      · exact (ih h y hmem).within hs (.refl u)

/-! ## What comes after the parameters -/

theorem keeps_checkVariadic (variadic : Ty) (values : List Passed) (before : Verdict) :
    Keeps (values.foldlM ((ofBudget n).checkRepeated a.wanted variadic) before) :=
  keeps_of_agree (keeps_closed.logic.foldlM (keeps_closed.logic.checkRepeated (keeps_respects n) fun _ => trivial))

theorem checkRepeated_fits {values : List Passed}
    (h : values.foldlM ((ofBudget n).checkRepeated a.wanted variadic) before ctx s = some (v, u))
    (hv : v.accepted = true) :
    before.accepted = true ∧ ∀ value ∈ values, FirstFits (ofBudget n) ctx a.wanted s u variadic value := by
  induction values generalizing before s with
  | nil =>
    cases h
    exact ⟨hv, nofun⟩
  | cons value rest ih =>
    rw [List.foldlM_cons] at h
    obtain ⟨next, s1, hstep, h⟩ := bind_eq_some h
    have hs : s.Kept s1 := keeps_checkVariadic (a := a) variadic [value] before ctx s next s1 (by
      rw [List.foldlM_cons, run_bind hstep]
      rfl)
    have hu : s1.Kept u := keeps_checkVariadic (a := a) variadic rest next ctx s1 v u h
    obtain ⟨hnext, hrest⟩ := ih h
    obtain ⟨first, s2, hfirst, hstep⟩ := bind_eq_some hstep
    obtain ⟨part, _, hpart, hstep⟩ := bind_eq_some hstep
    cases hstep
    obtain ⟨hbefore, hpart'⟩ := Bool.and_eq_true_iff.1 (show (before.accepted && part.accepted) = true from hnext)
    refine ⟨hbefore, fun value' hmem => ?_⟩
    rcases List.mem_cons.1 hmem with rfl | hmem
    · exact ⟨first, s, s2, .refl s, hfirst, (checkArgument_fits hpart hpart').within (.refl s2) hu⟩
    · exact (hrest value' hmem).within hs (.refl u)

theorem checkRest_fits {count : Nat} (hvariadic : a.signature.variadic = some variadic)
    (h : (ofBudget n).checkRest a count ctx s = some (v, u)) (hv : v.accepted = true) :
    (∀ value ∈ a.passed.values.drop count, FirstFits (ofBudget n) ctx a.wanted s u variadic value) ∧
    (a.passed.values.length ≤ count → ∀ value, a.passed.variadic = some value →
      Fits (ofBudget n) ctx a.wanted s u variadic value) := by
  unfold checkRest at h
  rw [hvariadic] at h
  split at h
  · rename_i hcount
    have h : (ofBudget n).checkVariadic a variadic (a.passed.values.drop count) ctx s = some (v, u) := h
    rw [checkVariadic_eq] at h
    exact ⟨(checkRepeated_fits h hv).2, fun hle => absurd hcount (Nat.not_lt.2 hle)⟩
  · rename_i hcount
    constructor
    · simp [List.drop_eq_nil_of_le (Nat.le_of_not_lt hcount)]
    · intro _ _ hvalue
      rw [hvalue] at h
      exact checkArgument_fits h hv
end

/-! ## Candidates -/

/-- A call is well typed value by value, as was found out between the sessions `s` and `u`. -/
structure Solver.Attempt.WellTyped (a : Attempt) (S : Solver) (ctx : Context) (s u : Session) : Prop where
  /-- A parameter that is not optional has a value, and a value at the position of a parameter fits it. -/
  filled : ∀ (i : Nat) type optional,
    (a.signature.filled a.call.receiver a.call.colon)[i]? = some (type, optional) → a.Filled S ctx s u i type optional
  /-- A value beyond the parameters fits the variadic type, as the single value that it is there. -/
  beyond : ∀ (i : Nat) variadic value, a.signature.variadic = some variadic →
    (a.signature.filled a.call.receiver a.call.colon).length ≤ i → a.passed.values[i]? = some value →
    FirstFits S ctx a.wanted s u variadic value
  /-- If its type is neither a union nor a list, that is the value itself. -/
  beyond_single : ∀ (i : Nat) variadic value, a.signature.variadic = some variadic →
    (a.signature.filled a.call.receiver a.call.colon).length ≤ i → a.passed.values[i]? = some value →
    s.types.Has value.type → s.types.kind value.type ≠ .union → s.types.kind value.type ≠ .results →
    Fits S ctx a.wanted s u variadic value
  /-- What repeats after the last value fits the variadic type, unless a value stands beyond the parameters. -/
  tail : ∀ variadic value, a.signature.variadic = some variadic → a.passed.variadic = some value →
    a.passed.values.length ≤ (a.signature.filled a.call.receiver a.call.colon).length →
    Fits S ctx a.wanted s u variadic value

section
variable {verdict : Verdict}

theorem FirstFits.single (h : FirstFits (ofBudget n) ctx wanted s u type value) (hhas : s.types.Has value.type)
    (hunion : s.types.kind value.type ≠ .union) (hresults : s.types.kind value.type ≠ .results) :
    Fits (ofBudget n) ctx wanted s u type value := by
  obtain ⟨_, _, _, before, run, fits⟩ := h
  have hkind := before.types.kind hhas
  obtain ⟨rfl, rfl⟩ := resultAt_single (hkind ▸ hunion) (hkind ▸ hresults) run
  exact fits.within before (.refl u)

/-- A call that a signature accepts is well typed value by value. -/
theorem checkCandidate_fits (h : (ofBudget n).checkCandidate a ctx s = some (verdict, u))
    (ha : verdict.accepted = true) : a.WellTyped (ofBudget n) ctx s u := by
  obtain ⟨self, s₁, hself, h⟩ := bind_eq_some h
  obtain ⟨params, s₂, hparams, h⟩ := bind_eq_some h
  have hs : s.Kept s₂ := (keeps_closed.store (fun t => t.internText_extends selfName) ctx s self s₁ hself).trans
    (keeps_of_agree keeps_closed.logic.callParameters ctx s₁ params s₂ hparams)
  have hfilled : params.map (fun param => (param.typeOrAny, param.optional)) =
      a.signature.filled a.call.receiver a.call.colon := by
    cases hparams
    exact callParameters_filled ..
  have hlength : (a.signature.filled a.call.receiver a.call.colon).length = params.length := by
    rw [← hfilled, List.length_map]
  obtain ⟨before, s₃, hbefore, h⟩ := bind_eq_some h
  split at h
  · -- An error in the parameters ends the check, against what it found.
    rename_i hrefused
    cases h
    simp [ha] at hrefused
  obtain ⟨rest, s₄, hrest, h⟩ := bind_eq_some h
  cases h
  obtain ⟨hbefore', hrest'⟩ := Bool.and_eq_true_iff.1 (show (before.accepted && rest.accepted) = true from ha)
  have hs₃ : s.Kept s₃ := hs.trans (keeps_checkParameters self _ _ ctx s₂ before s₃ hbefore)
  have hu : s₃.Kept u := keeps_of_agree (keeps_closed.logic.checkRest (keeps_respects n) fun _ => trivial) ctx s₃ rest u hrest
  have hbeyond {i : Nat} {variadic : Ty} {value : Passed} (hvariadic : a.signature.variadic = some variadic)
      (hi : params.length ≤ i) (hvalue : a.passed.values[i]? = some value) :
      FirstFits (ofBudget n) ctx a.wanted s u variadic value := by
    have hmem : value ∈ a.passed.values.drop params.length := by
      apply List.mem_of_getElem? (i := i - params.length)
      rw [List.getElem?_drop, Nat.add_sub_cancel' hi, hvalue]
    exact ((checkRest_fits hvariadic hrest hrest').1 value hmem).within hs₃ (.refl u)
  constructor
  case filled =>
    -- `filled` lists what is checked of each parameter; the parameter itself is the one at that position.
    intro i type optional hi
    rw [← hfilled, List.getElem?_map, Option.map_eq_some_iff] at hi
    obtain ⟨param, hparam, heq⟩ := hi
    cases heq
    have hmem : (param, i) ∈ params.zipIdx := List.mem_zipIdx_iff_getElem?.2 hparam
    exact (checkParameters_fits hbefore hbefore' (param, i) hmem).within hs hu
  case beyond =>
    intro i variadic value hvariadic hi hvalue
    exact hbeyond hvariadic (hlength ▸ hi) hvalue
  case beyond_single =>
    intro i variadic value hvariadic hi hvalue hhas hunion hresults
    exact (hbeyond hvariadic (hlength ▸ hi) hvalue).single hhas hunion hresults
  case tail =>
    intro variadic value hvariadic hvalue hle
    exact ((checkRest_fits hvariadic hrest hrest').2 (hlength ▸ hle) value hvalue).within hs₃ (.refl u)
end

/-! ## Variadic calls -/

/-- Strings in any number, `⟨10⟩`. -/
def repeatedTypes : TypeTable := (TypeTable.initial.intern (.results [Ty.string] true)).2

def repeatedStart : Session := .start repeatedTypes Limits.standard

/-- A function of a string, maybe a number, and then any number of values of a type. -/
def variadicSignature (variadic : Ty) : Signature :=
  ⟨false, [], [⟨⟨4⟩, some Ty.string, false⟩, ⟨⟨4⟩, some Ty.number, true⟩], some variadic, some Ty.nil⟩

/-- A call that passes these values, after which strings may come. -/
def repeatedCall (wanted : Bool) (variadic : Ty) (values : List Ty) : Attempt where
  wanted
  signature := variadicSignature variadic
  call := plainCall false (values ++ [⟨10⟩])
  passed := { plainPassed values with variadic := some ⟨Ty.string, ⟨⟨2⟩, ⟨10⟩, false⟩⟩ }

/-- A string is passed, and any number of strings after it: the optional parameter has no value, and they fit the
variadic type. -/
theorem checkCandidate_fits_repeated : ∃ verdict u,
    (ofBudget 20).checkCandidate (repeatedCall true Ty.string [Ty.string]) empty.context repeatedStart =
      some (verdict, u) ∧ verdict.accepted = true ∧
    (repeatedCall true Ty.string [Ty.string]).WellTyped (ofBudget 20) empty.context repeatedStart u := by
  have haccepted : ((ofBudget 20).checkCandidate (repeatedCall true Ty.string [Ty.string]) empty.context
      repeatedStart).map (·.1.accepted) = some true := by
    decide
  obtain ⟨⟨verdict, u⟩, hrun, ha⟩ := Option.map_eq_some_iff.1 haccepted
  exact ⟨verdict, u, hrun, ha, checkCandidate_fits hrun ha⟩

/-- Numbers are required beyond the parameters. A call that passes one there may pass strings after it, though a string
is not accepted as a number. -/
theorem checkCandidate_skips_tail :
    (ofBudget 20).passedValues (plainCall false [Ty.string, Ty.number, Ty.number, ⟨10⟩]) empty.context
      repeatedStart = some ((repeatedCall true Ty.number [Ty.string, Ty.number, Ty.number]).passed, repeatedStart) ∧
    (∀ wanted, ((ofBudget 20).checkCandidate (repeatedCall wanted Ty.number [Ty.string, Ty.number, Ty.number])
      empty.context repeatedStart).map (·.1.accepted) = some true) ∧
    ((ofBudget 20).accepts Ty.number Ty.string {} empty.context repeatedStart).map Prod.fst =
      some false ∧
    ((ofBudget 20).check true Ty.number Ty.string {} none ⟨2⟩ empty.context repeatedStart).map
      (·.1.accepted) = some false := by
  refine ⟨rfl, ?_⟩
  decide

end AnnotatedLua
