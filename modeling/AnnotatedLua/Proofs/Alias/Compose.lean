/-
Types that are put in one after the other. `TypeTable.Fills` says what a type is once types stand for its parameters. It
determines the handle, composes, and is what `substitute` finds (`ends_substitute_fills`), so that two substitutions are
one (`substitute_comp`).
-/
import AnnotatedLua.Proofs.Alias.Substitute

namespace AnnotatedLua

open Solve Solver TypeTable List

variable {ctx : Context} {s : Session} {b b' : Bindings} {ty r : Ty} {t t' : TypeTable}

/-! ## Forms -/

theorem forall₂_comp {α β γ : Type} {R : α → β → Prop} {S : β → γ → Prop} {T : α → γ → Prop}
    (hT : ∀ x y z, R x y → S y z → T x z) {l : List α} {m : List β} {r : List γ} (h : Forall₂ R l m)
    (h' : Forall₂ S m r) : Forall₂ T l r := by
  induction h generalizing r with
  | nil => cases h'; exact .nil
  | cons hxy _ ih => cases h' with | cons hyz h' => exact .cons (hT _ _ _ hxy hyz) (ih h')

namespace FormOf.Refilled

variable {R R' R'' : Ty → Ty → Prop} {form a b : Form}

theorem imp (h : form.Refilled R a) (hR : ∀ p ∈ form.parts, ∀ r, R p r → R' p r) : form.Refilled R' a := by
  rw [← slots_parts, forall_mem_map] at hR
  refine ⟨h.shape, ((forall₂_and_left _ _).2 ⟨hR, h.slots⟩).imp fun x y hxy => ?_⟩
  exact ⟨hxy.2.kind, fun hx => hxy.1 _ (hxy.2.filled hx), hxy.2.kept⟩

theorem comp (h : form.Refilled R a) (h' : a.Refilled R' b) (hR : ∀ p q r, R p q → R' q r → R'' p r) :
    form.Refilled R'' b := by
  refine ⟨h'.shape.trans h.shape, forall₂_comp (fun x y z hxy hyz => ?_) h.slots h'.slots⟩
  refine ⟨hyz.kind.trans hxy.kind, fun hx => ?_, fun hx => ?_⟩
  · exact hR _ _ _ (hxy.filled hx) (hyz.filled (hxy.kind.trans hx))
  · exact (hyz.kept (hxy.kind.trans hx)).trans (hxy.kept hx)

theorem unique (h : form.Refilled R a) (h' : form.Refilled R' b) (hR : ∀ p q r, R p q → R' p r → q = r) : a = b := by
  have hslots : Forall₂ Eq a.slots b.slots := by
    refine forall₂_comp (fun y x z hxy hxz => ?_) (Forall₂.flip h.slots) h'.slots
    refine Prod.ext ?_ (hxy.kind.trans hxz.kind.symm)
    cases hx : x.2 with
    | true => exact hR _ _ _ (hxy.filled hx) (hxz.filled hx)
    | false => exact (hxy.kept hx).trans (hxz.kept hx).symm
  rw [forall₂_eq_eq_eq] at hslots
  exact eq_of_shape (h.shape.trans h'.shape.symm) (by rw [← slots_parts, ← slots_parts, hslots])

theorem refl (hR : form.kind ∈ [Kind.array, .generic, .function] → ∀ p ∈ form.parts, R p p) : form.Refilled R form := by
  refine ⟨rfl, forall₂_same.2 ?_⟩
  rintro ⟨x, _ | _⟩ hx
  · exact ⟨rfl, nofun, fun _ => rfl⟩
  · refine .of_filled (hR ?_ x (slots_parts form ▸ mem_map_of_mem hx))
    cases form <;> simp_all [FormOf.slots]

end FormOf.Refilled

/-! ## Types -/

namespace TypeTable

/-- Put into `ty`, the bindings give `r`; the number bounds the depth. -/
def Fills (t : TypeTable) (b : Bindings) : Nat → Ty → Ty → Prop
  | 0, _, _ => False
  | n + 1, ty, r =>
    if t.kind ty = .param then r = ((t.className? ty).bind b.get?).getD ty
    else t.Has r ∧ (t.lookup ty).Refilled (t.Fills b n) (t.lookup r)

variable {whole : Bindings} {n m : Nat} {q : Ty}

theorem Fills.mono (h : t.Fills b n ty r) (hn : n ≤ m) : t.Fills b m ty r := by
  induction n generalizing ty r m with
  | zero => exact h.elim
  | succ n ih =>
    obtain ⟨m, rfl⟩ := Nat.exists_eq_succ_of_ne_zero (show m ≠ 0 by omega)
    by_cases hkind : t.kind ty = .param
    · simpa only [Fills, if_pos hkind] using h
    · simp only [Fills, if_neg hkind] at h ⊢
      exact ⟨h.1, h.2.imp fun p _ r hp => ih hp (by omega)⟩

theorem Fills.extends (hx : t.Extends t') (hw : t.WF) (hty : t.Has ty) (h : t.Fills b n ty r) : t'.Fills b n ty r := by
  induction n generalizing ty r with
  | zero => exact h.elim
  | succ n ih =>
    have hkind : t'.kind ty = t.kind ty := kind_of (hx.lookup hty)
    have hname : t'.className? ty = t.className? ty := by
      unfold className?
      rw [hx.lookup hty]
    unfold Fills at h ⊢
    rw [hname, hkind, hx.lookup hty]
    split at h
    · rwa [if_pos ‹_›]
    · rw [if_neg ‹_›, hx.lookup h.1]
      exact ⟨hx.has h.1, h.2.imp fun p hp r => ih (hw.part_lt hp).2⟩

theorem Fills.unique (hw : t.WF) (h : t.Fills b n ty q) (h' : t.Fills b m ty r) : q = r := by
  induction n generalizing ty q r m with
  | zero => exact h.elim
  | succ n ih =>
    cases m with
    | zero => exact h'.elim
    | succ =>
      unfold Fills at h h'
      split at h
      · rw [if_pos ‹_›] at h'
        exact h.trans h'.symm
      · rw [if_neg ‹_›] at h'
        exact hw.eq_of_lookup h.1 h'.1 (h.2.unique h'.2 fun p q r => ih)

theorem kind_of_refilled {R : Ty → Ty → Prop} (h : (t.lookup ty).Refilled R (t'.lookup r)) : t'.kind r = t.kind ty := by
  unfold kind
  rw [← FormOf.kind_shape, h.shape, FormOf.kind_shape]

theorem Fills.comp (hw : t.WF)
    (hsome : ∀ name v, b.get? name = some v → ∃ w k, whole.get? name = some w ∧ t.Fills b' k v w)
    (hnone : ∀ name, b.get? name = none → whole.get? name = b'.get? name)
    (h : t.Fills b n ty q) (h' : t.Fills b' m q r) : t.Fills whole n ty r := by
  induction n generalizing ty q r m with
  | zero => exact h.elim
  | succ n ih =>
    cases m with
    | zero => exact h'.elim
    | succ m =>
      unfold Fills at h ⊢
      split at h
      · rename_i hkind
        rw [if_pos hkind]
        -- a parameter that the first types leave is left to the second ones
        have hkept (he : q = ty) : r = ((t.className? ty).bind b'.get?).getD ty := by
          unfold Fills at h'
          rwa [he, if_pos hkind] at h'
        cases hname : t.className? ty with
        | none =>
          rw [hname] at h hkept
          exact hkept h
        | some name =>
          simp only [hname, Option.bind_some] at h hkept ⊢
          cases hget : b.get? name with
          | none =>
            rw [hget] at h
            rw [hnone name hget]
            exact hkept h
          | some v =>
            obtain ⟨w, k, hwhole, hv⟩ := hsome name v hget
            rw [hget] at h
            cases (show q = v from h)
            rw [hwhole]
            exact h'.unique hw hv
      · rename_i hkind
        unfold Fills at h'
        rw [if_neg (kind_of_refilled h.2 ▸ hkind)] at h'
        rw [if_neg hkind]
        exact ⟨h'.1, h.2.comp h'.2 fun p q r => ih⟩

/-- The type has no unions or lists in it, and none of the tables. -/
inductive Simple (t : TypeTable) (tables : Symbol → Marks → Prop) : Ty → Prop
  | mk {ty : Ty} (hty : t.Has ty) (hkind : t.kind ty ∉ [Kind.union, .results])
      (htable : ∀ name marks, t.lookup ty = .classRef name marks → ¬ tables name marks)
      (hparts : t.kind ty ∈ [Kind.array, .generic, .function] → ∀ p ∈ (t.lookup ty).parts, Simple t tables p) :
      Simple t tables ty

variable {tables : Symbol → Marks → Prop}

theorem Simple.has (h : t.Simple tables ty) : t.Has ty := by
  cases h
  assumption

theorem Simple.kind (h : t.Simple tables ty) : t.kind ty ∉ [Kind.union, .results] := by
  cases h
  assumption

theorem Simple.leaf (hty : t.Has ty) (hkind : t.kind ty ∉ [Kind.classRef, .union, .results, .array, .generic, .function]) :
    t.Simple tables ty := by
  refine ⟨hty, ?_, fun _ _ hl => ?_, fun h => ?_⟩
  · simp_all
  · simp [kind_of hl] at hkind
  · simp only [mem_cons, not_or] at hkind h
    tauto

theorem Simple.extends (hx : t.Extends t') (h : t.Simple tables ty) : t'.Simple tables ty := by
  induction h with
  | mk hty hkind htable _ ih =>
    unfold TypeTable.kind at hkind ih
    rw [← hx.lookup hty] at hkind htable ih
    exact ⟨hx.has hty, hkind, htable, ih⟩

theorem Fills.self (hw : t.WF) (h : t.Simple tables ty) (hfree : ∀ name, ¬ t.Uses ty name) :
    t.Fills b (ty.index + 1) ty ty := by
  induction h with
  | @mk ty hty hkind htable hparts ih =>
    have hparam : t.kind ty ≠ .param := by
      intro hparam
      unfold kind at hparam
      cases hl : t.lookup ty with
      | param name => exact hfree name (.param hl)
      | _ =>
        rw [hl] at hparam
        cases hparam
    unfold Fills
    rw [if_neg hparam]
    refine ⟨hty, .refl fun hcompound p hp => ?_⟩
    have hmem : t.kind ty ∈ [Kind.array, .union, .function, .generic] := by
      unfold kind
      simp only [mem_cons, not_mem_nil, or_false] at hcompound ⊢
      tauto
    exact (ih hcompound p hp fun name h => hfree name (.part hmem hp h)).mono (hw.part_lt hp).1

end TypeTable

/-! ## Runs -/

section
variable [Solvers]

theorem ends_resultAt_self (hw : s.types.WF) (hkind : s.types.kind ty ∉ [Kind.union, .results]) :
    s.Ends ctx (·.resultAt ty 0) fun r u => s = u ∧ r = ty := by
  have hmerge : s.Ends ctx (·.mergeResults ty) fun r u => s = u ∧ r = ty := by
    refine .lookup hw ty fun form hform => ?_
    rw [kind_of hform.symm] at hkind
    cases form with
    | union => simp at hkind
    | _ => exact .pure hw ⟨rfl, rfl⟩
  refine .ask rfl (hmerge.bind ?_)
  rintro merged _ - ⟨rfl, rfl⟩
  refine .lookup hw merged fun form hform => ?_
  rw [kind_of hform.symm] at hkind
  cases form with
  | results => simp at hkind
  | _ => exact .pure hw ⟨rfl, rfl⟩

/-- The type `r` that is found for a part `p`. -/
structure TypeTable.Filled (t : TypeTable) (tables : Symbol → Marks → Prop) (b : Bindings) (p r : Ty) : Prop where
  part : t.Has p
  simple : t.Simple tables r
  fills : t.Fills b (p.index + 1) p r

omit [Solvers] in
theorem TypeTable.Filled.extends (hx : t.Extends t') (hw : t.WF) {tables : Symbol → Marks → Prop}
    {p : Ty} (h : t.Filled tables b p r) : t'.Filled tables b p r :=
  ⟨hx.has h.part, h.simple.extends hx, h.fills.extends hx hw h.part⟩

/-- Types are put into a simple type as `TypeTable.Fills` says. -/
theorem ends_substitute_fills (hty : s.types.Simple (s.Instantiated ctx) ty)
    (hb : ∀ name v, b.get? name = some v → s.types.Simple (s.Instantiated ctx) v) {u : Session} (hu : u.Past ctx s) :
    u.Ends ctx (·.substitute ty (.params b)) fun r v => v.types.Filled (s.Instantiated ctx) b ty r := by
  induction hty generalizing u with
  | @mk ty hhas hkind htable hparts ih =>
    have hlookup := hu.grown.lookup hhas
    have hhas' := hu.grown.has hhas
    by_cases hcompound : s.types.kind ty ∈ [Kind.array, .generic, .function]
    · have hpart : ∀ p ∈ (s.types.lookup ty).parts, u.Onward ctx (·.substitute p (.params b)) fun r w => w.types.Filled (s.Instantiated ctx) b p r :=
        fun p hp v hv => ih hcompound p hp (hu.trans hv)
      have hsingle : ∀ p ∈ (s.types.lookup ty).parts, u.Onward ctx (·.substituteSingle (.params b) p) fun r w => w.types.Filled (s.Instantiated ctx) b p r := by
        intro p hp v hv
        refine (hpart p hp v hv).bind fun r w hw hr => (ends_resultAt_self hw.types hr.simple.kind).imp ?_
        rintro _ _ - ⟨rfl, rfl⟩
        exact hr
      rw [← hlookup] at hpart hsingle
      refine (ends_substitute_compound (s := u) (R := fun t p r => t.Filled (s.Instantiated ctx) b p r)
        (fun v w hv hw p r h => h.extends hw.grown hv.types) hu.types hhas' (fun _ _ _ h => h.simple.has) hpart hsingle
        (by rwa [hu.kind hhas]) (.of_wf hu.types)).imp ?_
      rintro r v hv ⟨hr, hrefilled⟩
      rw [← hv.grown.lookup hhas'] at hrefilled
      have hkinds : v.types.kind r = s.types.kind ty :=
        (kind_of_refilled hrefilled).trans ((hu.trans hv).kind hhas)
      refine ⟨hv.grown.has hhas', ⟨hr, hkinds ▸ hkind, fun name marks hl => ?_, fun _ => ?_⟩, ?_⟩
      · rw [← hkinds, kind_of hl] at hcompound
        simp at hcompound
      · refine hrefilled.forall_parts (fun _ _ h => h.simple) fun p hp => ?_
        rw [(hu.trans hv).grown.lookup hhas] at hp
        exact (hparts hcompound p hp).extends (hu.trans hv).grown
      · have hparam : v.types.kind ty ≠ .param := by
          rintro h
          rw [(hu.trans hv).kind hhas] at h
          simp [h] at hcompound
        unfold Fills
        rw [if_neg hparam]
        exact ⟨hr, hrefilled.imp fun p hp r h => h.fills.mono (hv.types.part_lt hp).1⟩
    -- a type that is not made of others stays, unless it is a type parameter
    have hself {v : Session} (hv : v.Past ctx s) (hparam : s.types.kind ty ≠ .param) :
        v.types.Filled (s.Instantiated ctx) b ty ty := by
      refine ⟨hv.grown.has hhas, (Simple.mk hhas hkind htable hparts).extends hv.grown, ?_⟩
      unfold Fills
      rw [if_neg (by rwa [hv.kind hhas]), hv.grown.lookup hhas]
      exact ⟨hv.grown.has hhas, .refl fun h => absurd h hcompound⟩
    have hsimple : u.types.Simple (s.Instantiated ctx) ty :=
      (Simple.mk hhas hkind htable hparts).extends hu.grown
    refine .ask rfl (.lookup hu.types ty fun form hform => ?_)
    rw [hlookup] at hform
    rw [kind_of hform.symm] at hkind hcompound hself
    cases form with
    | param name =>
      refine .pure hu.types ⟨hhas', ?_, ?_⟩
      · cases hget : b.get? name with
        | none => exact hsimple
        | some v => exact (hb name v hget).extends hu.grown
      · unfold Fills TypeTable.kind className?
        rw [hlookup, ← hform]
        rfl
    | classRef name marks =>
      have htable : ¬ u.Instantiated ctx name marks := hu.instantiated ▸ htable name marks hform.symm
      refine (ends_instantiateTable hu.types (fun h => absurd h htable) (fun name v h => hu.grown.has (hb name v h).has)
        hhas').imp fun r v hv hr => ?_
      rcases hr with rfl | ⟨-, h, -⟩
      · exact hself (hu.trans hv) (by simp)
      · exact absurd h htable
    | union | results | array | generic | function => simp at hkind hcompound
    | _ => exact .pure hu.types (hself hu (by simp))
end

/-! ## Two substitutions -/

/-- The names of `b` with other types, and the names of `b'` after them. -/
def Bindings.compose (b : Bindings) (types : List Ty) (b' : Bindings) : Bindings :=
  ⟨(b.entries.map Prod.fst).zip types ++ b'.entries⟩

theorem Bindings.mem_of_get? {name : Symbol} {v : Ty} (h : b.get? name = some v) : (name, v) ∈ b.entries := by
  obtain ⟨l, r, he, -⟩ := lookup_eq_some_iff.1 h
  simp [he]

theorem Bindings.get?_compose {R : Ty → Ty → Prop} {types : List Ty}
    (h : Forall₂ (fun e r => R e.2 r) b.entries types) (name : Symbol) :
    (∀ v, b.get? name = some v → ∃ w, (b.compose types b').get? name = some w ∧ R v w) ∧
      (b.get? name = none → (b.compose types b').get? name = b'.get? name) := by
  unfold Bindings.get? Bindings.compose
  generalize b.entries = entries at h ⊢
  induction h with
  | nil => simp
  | @cons e r _ _ he _ ih =>
    obtain ⟨x, v⟩ := e
    simp only [map_cons, zip_cons_cons, cons_append, lookup_cons]
    cases name == x with
    | true => simpa using he
    | false => exact ih

/-- Puts in one after the other, with what there is in between. -/
def Solver.substituteTwice (S : Solver) (ty : Ty) (b b' : Bindings) : Solve (Ty × Ty) := do
  let first ← S.substitute ty (.params b)
  return (first, ← S.substitute first (.params b'))

def Solver.substituteBoth (S : Solver) (ty : Ty) (b b' : Bindings) : Solve (Ty × Ty) := do
  let twice ← S.substituteTwice ty b b'
  let types ← b.entries.mapM fun e => S.substitute e.2 (.params b')
  return (twice.2, ← S.substitute ty (.params (b.compose types b')))

section
variable (hw : s.types.WF) (hty : s.types.Simple (s.Instantiated ctx) ty)
  (hb : ∀ e ∈ b.entries, s.types.Simple (s.Instantiated ctx) e.2)
include hw hty hb

theorem ends_substituteTwice (hb' : ∀ e ∈ b'.entries, s.types.Simple (s.Instantiated ctx) e.2) :
    s.Ends ctx (·.substituteTwice ty b b') fun r u => u.types.Filled (s.Instantiated ctx) b ty r.1 ∧
      u.types.Filled (s.Instantiated ctx) b' r.1 r.2 := by
  refine (ends_substitute_fills hty (fun _ _ h => hb _ (b.mem_of_get? h)) (.of_wf hw)).bind fun _ u hu hfirst => ?_
  have hsimple := hfirst.simple
  rw [← hu.instantiated] at hsimple hb'
  refine (ends_substitute_fills hsimple (fun _ _ h => (hb' _ (b'.mem_of_get? h)).extends hu.grown) (.of_wf hu.types)).bind
    fun _ v hv hsecond => .pure hv.types ⟨hfirst.extends hv.grown hu.types, ?_⟩
  rwa [hu.instantiated] at hsecond

/-- The substitution lemma: to put types in one after the other is to put them in at once, and into those that are put
in first. -/
theorem substitute_comp (hb' : ∀ e ∈ b'.entries, s.types.Simple (s.Instantiated ctx) e.2) :
    s.Ends ctx (·.substituteBoth ty b b') fun r _ => r.1 = r.2 := by
  refine (ends_substituteTwice hw hty hb hb').bind fun r u hu hr => ?_
  have hfills : ∀ e ∈ b.entries, ∀ v : Session, v.Past ctx u →
      v.Ends ctx (·.substitute e.2 (.params b')) fun r w => w.types.Filled (s.Instantiated ctx) b' e.2 r :=
    fun e he v hv => ends_substitute_fills (hb e he) (fun _ _ h => hb' _ (b'.mem_of_get? h)) (hu.trans hv)
  refine (ends_mapM_forall₂ hu.types (fun e _ r v w hv hw h => h.extends hw.grown hv.types) hfills).bind
    fun types v hv htypes => ?_
  have hv' := hu.trans hv
  have hwhole : ∀ name x, (b.compose types b').get? name = some x → v.types.Simple (s.Instantiated ctx) x := by
    intro name x h
    rcases List.mem_append.1 (Bindings.mem_of_get? h) with h | h
    · exact forall₂_right (htypes.imp fun _ _ h => h.simple) x (List.of_mem_zip h).2
    · exact (hb' _ h).extends hv'.grown
  rw [← hv'.instantiated] at hwhole hty
  refine (ends_substitute_fills (hty.extends hv'.grown) hwhole (.of_wf hv.types)).bind fun whole w hw' hall => ?_
  have hlater := (hv.trans hw').grown
  have htwice : w.types.Fills (b.compose types b') (ty.index + 1) ty r.2 := by
    refine (hr.1.extends hlater hu.types).fills.comp hw'.types (fun name x h => ?_)
      (fun name => (Bindings.get?_compose htypes name).2) (hr.2.extends hlater hu.types).fills
    obtain ⟨r, hr, hfilled⟩ := (Bindings.get?_compose htypes name).1 x h
    exact ⟨r, _, hr, (hfilled.extends hw'.grown hv.types).fills⟩
  exact .pure hw'.types (htwice.unique hw'.types hall.fills)
end

/-- The type parameters `T`, `⟨10⟩`, and `U`, `⟨11⟩`, and the array `T[]`, `⟨12⟩`. -/
def chainedTypes : TypeTable := .ofForms ["T", "U"] [.param ⟨3⟩ ⟨3⟩ none, .param ⟨4⟩ ⟨4⟩ none, .array ⟨10⟩]

theorem chainedTypes_wf : chainedTypes.WF := Orderly.wf (by decide)

theorem chainedTypes_simple (tables : Symbol → Marks → Prop) : chainedTypes.Simple tables ⟨12⟩ := by
  refine ⟨by decide, by decide, fun _ _ hl => ?_, fun _ p hp => ?_⟩
  · exact absurd (kind_of hl) (show chainedTypes.kind ⟨12⟩ ≠ .classRef by decide)
  · obtain rfl : p = ⟨10⟩ := by
      rwa [show (chainedTypes.lookup ⟨12⟩).parts = [⟨10⟩] by decide, mem_singleton] at hp
    exact .leaf (by decide) (by decide)

/-- `U` for `T` and then `string` for `U`. -/
theorem substitute_comp_array : (Session.start chainedTypes Limits.standard).Ends { provider := Declarations.empty.provider }
    (·.substituteBoth ⟨12⟩ ⟨[(⟨3⟩, ⟨11⟩)]⟩ ⟨[(⟨4⟩, Ty.string)]⟩) fun r _ => r.1 = r.2 :=
  substitute_comp chainedTypes_wf (chainedTypes_simple _)
    (List.forall_mem_singleton.2 (.leaf (by decide) (by decide)))
    (List.forall_mem_singleton.2 (.leaf (by decide) (by decide)))

/-- Types without type parameters are put in once: there is nothing left to put them in for. -/
theorem substitute_idem {ctx : Context} {s : Session} {b : Bindings} {ty : Ty} (hw : s.types.WF)
    (hty : s.types.Simple (s.Instantiated ctx) ty) (hb : ∀ e ∈ b.entries, s.types.Simple (s.Instantiated ctx) e.2)
    (hfree : ∀ e ∈ b.entries, ∀ name, ¬ s.types.Uses e.2 name) :
    s.Ends ctx (·.substituteTwice ty b b) fun r _ => r.2 = r.1 := by
  refine (ends_substituteTwice hw hty hb hb).imp fun r u hu hr => ?_
  refine (hr.1.fills.comp hu.types (fun name v h => ⟨v, v.index + 1, h, ?_⟩) (fun _ _ => rfl) hr.2.fills).unique hu.types
    hr.1.fills
  have hmem := b.mem_of_get? h
  exact (TypeTable.Fills.self hw (hb _ hmem) (hfree _ hmem)).extends hu.grown hw (hb _ hmem).has

theorem substitute_idem_array : (Session.start chainedTypes Limits.standard).Ends { provider := Declarations.empty.provider }
    (·.substituteTwice ⟨12⟩ ⟨[(⟨3⟩, Ty.string)]⟩ ⟨[(⟨3⟩, Ty.string)]⟩) fun r _ => r.2 = r.1 := by
  refine substitute_idem chainedTypes_wf (chainedTypes_simple _) (List.forall_mem_singleton.2 ?_)
    (List.forall_mem_singleton.2 fun name h => ?_)
  · exact .leaf (by decide) (by decide)
  · cases h with
    | param hl => exact absurd (TypeTable.kind_of hl) (show chainedTypes.kind Ty.string ≠ .param by decide)
    | part hkind => exact absurd hkind (by decide)

end AnnotatedLua
