/-
Two well-formed tables side by side. Handles stand for the same if what is behind them, written out, is equal
(`TypeTable.pairing`).
-/
import AnnotatedLua.Proofs.Pair.Values
import AnnotatedLua.Proofs.Type.Intern

namespace AnnotatedLua

open List Same

variable {l l' : List Ty} {form : Form}

/-! ## Values that are known by what they are written out as -/

section
variable {α β : Type} [Value α] {p : Pairing} {D D' : α → Prop} {f f' : α → β}

theorem sameList_iff (h : ∀ a a', Same p a a' ↔ D a ∧ D' a' ∧ f a = f' a') {l l' : List α} :
    Same p l l' ↔ (∀ a ∈ l, D a) ∧ (∀ a ∈ l', D' a) ∧ l.map f = l'.map f' := by
  constructor
  · intro hl
    refine hl.induction (by simp) fun a a' l l' ha _ ih => ?_
    obtain ⟨h1, h2, h3⟩ := (h a a').1 ha
    simp_all
  · intro hl
    induction l generalizing l' with
    | nil =>
      cases l' with
      | nil => infer_instance
      | cons => simp at hl
    | cons a l ih =>
      cases l' with
      | nil => simp at hl
      | cons a' =>
        simp only [forall_mem_cons, map_cons, cons.injEq] at hl
        obtain ⟨⟨h1, k1⟩, ⟨h2, k2⟩, h3, k3⟩ := hl
        have := (h a a').2 ⟨h1, h2, h3⟩
        have := ih ⟨k1, k2, k3⟩
        infer_instance

theorem sameOption_iff (h : ∀ a a', Same p a a' ↔ D a ∧ D' a' ∧ f a = f' a') {o o' : Option α} :
    Same p o o' ↔ (∀ a ∈ o, D a) ∧ (∀ a ∈ o', D' a) ∧ o.map f = o'.map f' := by
  constructor
  · intro ho
    refine ho.option (by simp) fun a a' ha => ?_
    simpa using (h a a').1 ha
  · intro ho
    cases o <;> cases o' <;> simp at ho
    · infer_instance
    · have := (h _ _).2 ho
      infer_instance
end

namespace TypeTable

/-! ## The pairing -/

variable {t t' u u' : TypeTable}

/-- Handles of two tables that stand for the same type, or for the same text. -/
def pairing (h : t.WF) (h' : t'.WF) : Pairing where
  type a a' := t.Has a ∧ t'.Has a' ∧ t.tree a = t'.tree a'
  symbol s s' := t.HasSymbol s ∧ t'.HasSymbol s' ∧ t.text s = t'.text s'
  builtin ty hty := by
    have hi := initial_has hty
    refine ⟨h.base.has hi, h'.base.has hi, ?_⟩
    rw [h.base.tree_eq initial_wf h hi, h'.base.tree_eq initial_wf h' hi]
  type_iff := by
    rintro a a' b b' ⟨ha, ha', ea⟩ ⟨hb, hb', eb⟩
    constructor
    · rintro rfl
      exact h'.eq_of_tree ha' hb' (ea.symm.trans eb)
    · rintro rfl
      exact h.eq_of_tree ha hb (ea.trans eb.symm)
  symbol_iff := by
    rintro a a' b b' ⟨ha, ha', ea⟩ ⟨hb, hb', eb⟩
    constructor
    · rintro rfl
      exact h'.eq_of_text ha' hb' (ea.symm.trans eb)
    · rintro rfl
      exact h.eq_of_text ha hb (ea.trans eb.symm)

/-- The handles of a table, each of which stands for itself. -/
abbrev WF.self (h : t.WF) : Pairing := pairing h h

variable {h : t.WF} {h' : t'.WF}

theorem pairing_after {k : u.WF} {k' : u'.WF} (hx : t.Extends u) (hx' : t'.Extends u') :
    (pairing h h').After (pairing k k') where
  type := by
    rintro a a' ⟨ha, ha', e⟩
    refine ⟨hx.has ha, hx'.has ha', ?_⟩
    rw [hx.tree_eq h k ha, hx'.tree_eq h' k' ha', e]
  symbol := by
    rintro a a' ⟨ha, ha', e⟩
    refine ⟨hx.hasSymbol ha, hx'.hasSymbol ha', ?_⟩
    rw [hx.text ha, hx'.text ha', e]

theorem pairing_after_eq (hx : t.Extends t') : (pairing h h').After .eq where
  type := fun ⟨ha, ha', e⟩ => h'.eq_of_tree (hx.has ha) ha' ((hx.tree_eq h h' ha).trans e)
  symbol := fun ⟨ha, ha', e⟩ => h'.eq_of_text (hx.hasSymbol ha) ha' ((hx.text ha).trans e)

variable {s s' : Symbol} {base : TypeTable}

theorem symbol_of_base (hx : base.Extends t) (hx' : base.Extends t')
    (e : (pairing h h').symbol s s') (hs : base.HasSymbol s ∨ base.HasSymbol s') : s' = s := by
  obtain ⟨hl, hr, e⟩ := e
  rcases hs with hs | hs
  · refine h'.eq_of_text hr (hx'.hasSymbol hs) ?_
    rw [← e, hx.text hs, hx'.text hs]
  · refine (h.eq_of_text hl (hx.hasSymbol hs) ?_).symm
    rw [e, hx.text hs, hx'.text hs]

theorem same_of_base {α : Type} [Value α] (hb : base.WF) (hx : base.Extends t)
    (hx' : base.Extends t') {f : Symbol → Option α}
    (hf : ∀ name a, f name = some a → base.HasSymbol name ∧ Same (pairing hb hb) a a)
    (e : (pairing h h').symbol s s') : Same (pairing h h') (f s) (f s') := by
  have : (pairing hb hb).After (pairing h h') := pairing_after hx hx'
  cases hs : f s with
  | some a =>
    obtain ⟨hn, _⟩ := hf s a hs
    rw [symbol_of_base hx hx' e (.inl hn), hs]
    infer_instance
  | none =>
    cases hs' : f s' with
    | some a =>
      rw [symbol_of_base hx hx' e (.inr (hf s' a hs').1), hs] at hs'
      cases hs'
    | none => infer_instance

/-! ## Forms -/

theorem sameType_iff {a a' : Ty} :
    Same (pairing h h') a a' ↔ t.Has a ∧ t'.Has a' ∧ t.tree a = t'.tree a' := ⟨fun e => e.out, fun e => ⟨e⟩⟩

theorem sameSymbol_iff : Same (pairing h h') s s' ↔ t.HasSymbol s ∧ t'.HasSymbol s' ∧ t.text s = t'.text s' :=
  ⟨fun e => e.out, fun e => ⟨e⟩⟩

theorem sameTypes_iff : Same (pairing h h') l l' ↔
    (∀ a ∈ l, t.Has a) ∧ (∀ a ∈ l', t'.Has a) ∧ l.map t.tree = l'.map t'.tree :=
  sameList_iff fun _ _ => sameType_iff

theorem sameTypeOption_iff {o o' : Option Ty} : Same (pairing h h') o o' ↔
    (∀ a ∈ o, t.Has a) ∧ (∀ a ∈ o', t'.Has a) ∧ o.map t.tree = o'.map t'.tree :=
  sameOption_iff fun _ _ => sameType_iff

theorem sameParameter_iff {x x' : Parameter} : Same (pairing h h') x x' ↔
    t.HoldsParameter x ∧ t'.HoldsParameter x' ∧ x.map t.text t.tree = x'.map t'.text t'.tree := by
  simp only [ParameterOf.map, ParameterOf.mk.injEq]
  constructor
  · intro e
    obtain ⟨h1, h2, h3⟩ := sameSymbol_iff.1 (get (pairing h h') x.name x'.name)
    obtain ⟨k1, k2, k3⟩ := sameTypeOption_iff.1 (get (pairing h h') x.type x'.type)
    exact ⟨⟨h1, k1⟩, ⟨h2, k2⟩, h3, k3, (get (pairing h h') x.optional x'.optional).eq⟩
  · rintro ⟨⟨h1, k1⟩, ⟨h2, k2⟩, h3, k3, e⟩
    have : Same (pairing h h') x.name x'.name := sameSymbol_iff.2 ⟨h1, h2, h3⟩
    have : Same (pairing h h') x.type x'.type := sameTypeOption_iff.2 ⟨k1, k2, k3⟩
    obtain ⟨_, _, _⟩ := x
    obtain ⟨_, _, _⟩ := x'
    dsimp only at *
    subst e
    infer_instance

theorem holdsSignature_iff {s : Signature} : t.HoldsSignature s ↔ (∀ p ∈ s.typeParams, t.Has p) ∧
    (∀ x ∈ s.params, t.HoldsParameter x) ∧ (∀ p ∈ s.variadic, t.Has p) ∧ ∀ p ∈ s.returns, t.Has p := by
  constructor
  · rintro ⟨hp, hn⟩
    simp only [SignatureOf.parts, mem_append, mem_flatMap, Option.mem_toList] at hp
    simp only [SignatureOf.names, mem_map] at hn
    exact ⟨fun p h => hp p (.inl (.inl (.inl h))),
      fun x hx => ⟨hn _ ⟨x, hx, rfl⟩, fun p h => hp p (.inl (.inl (.inr ⟨x, hx, h⟩)))⟩,
      fun p h => hp p (.inl (.inr h)), fun p h => hp p (.inr h)⟩
  · rintro ⟨h1, h2, h3, h4⟩
    constructor
    · simp only [SignatureOf.parts, mem_append, mem_flatMap, Option.mem_toList]
      rintro p (((h | ⟨x, hx, h⟩) | h) | h)
      · exact h1 p h
      · exact (h2 x hx).type p h
      · exact h3 p h
      · exact h4 p h
    · simp only [SignatureOf.names, mem_map]
      rintro _ ⟨x, hx, rfl⟩
      exact (h2 x hx).name

theorem sameSignature_iff {s s' : Signature} : Same (pairing h h') s s' ↔
    t.HoldsSignature s ∧ t'.HoldsSignature s' ∧ s.map t.text t.tree = s'.map t'.text t'.tree := by
  rw [holdsSignature_iff, holdsSignature_iff]
  simp only [SignatureOf.map, SignatureOf.mk.injEq]
  constructor
  · intro e
    obtain ⟨h1, h2, h3⟩ := sameTypes_iff.1 (get (pairing h h') s.typeParams s'.typeParams)
    obtain ⟨k1, k2, k3⟩ := (sameList_iff fun _ _ => sameParameter_iff).1
      (get (pairing h h') s.params s'.params)
    obtain ⟨v1, v2, v3⟩ := sameTypeOption_iff.1 (get (pairing h h') s.variadic s'.variadic)
    obtain ⟨r1, r2, r3⟩ := sameTypeOption_iff.1 (get (pairing h h') s.returns s'.returns)
    exact ⟨⟨h1, k1, v1, r1⟩, ⟨h2, k2, v2, r2⟩, (get (pairing h h') s.colon s'.colon).eq, h3, k3, v3, r3⟩
  · rintro ⟨⟨h1, k1, v1, r1⟩, ⟨h2, k2, v2, r2⟩, e, h3, k3, v3, r3⟩
    have : Same (pairing h h') s.typeParams s'.typeParams := sameTypes_iff.2 ⟨h1, h2, h3⟩
    have : Same (pairing h h') s.params s'.params :=
      (sameList_iff fun _ _ => sameParameter_iff).2 ⟨k1, k2, k3⟩
    have : Same (pairing h h') s.variadic s'.variadic := sameTypeOption_iff.2 ⟨v1, v2, v3⟩
    have : Same (pairing h h') s.returns s'.returns := sameTypeOption_iff.2 ⟨r1, r2, r3⟩
    obtain ⟨_, _, _, _, _⟩ := s
    obtain ⟨_, _, _, _, _⟩ := s'
    dsimp only at *
    subst e
    infer_instance

theorem sameSignatures_iff {l l' : List Signature} : Same (pairing h h') l l' ↔
    (∀ s ∈ l, t.HoldsSignature s) ∧ (∀ s ∈ l', t'.HoldsSignature s) ∧
      l.map (·.map t.text t.tree) = l'.map (·.map t'.text t'.tree) :=
  sameList_iff fun _ _ => sameSignature_iff

theorem holds_iff : t.Holds form ↔ (∀ p ∈ form.parts, t.Has p) ∧ ∀ s ∈ form.names, t.HasSymbol s :=
  ⟨fun h => ⟨h.parts, h.names⟩, fun h => ⟨h.1, h.2⟩⟩

theorem holds_function {main : Signature} {overloads : List Signature} {marks : Marks} :
    t.Holds (.function main overloads marks) ↔ t.HoldsSignature main ∧ ∀ s ∈ overloads, t.HoldsSignature s := by
  simp only [holds_iff, FormOf.parts, FormOf.names, flatMap_cons, forall_mem_append, forall_mem_flatMap]
  constructor
  · rintro ⟨⟨h1, h2⟩, h3, h4⟩
    exact ⟨⟨h1, h3⟩, fun s hs => ⟨h2 s hs, h4 s hs⟩⟩
  · rintro ⟨⟨h1, h3⟩, h⟩
    exact ⟨⟨h1, fun s hs => (h s hs).parts⟩, h3, fun s hs => (h s hs).names⟩

variable {form' : Form}

theorem holds_of_same (e : Same (pairing h h') form form') :
    t.Holds form ∧ t'.Holds form' ∧ form.map t.text t.tree = form'.map t'.text t'.tree := by
  cases e.out with
  | function main main' overloads overloads' =>
    have hm := sameSignature_iff.1 (get (pairing h h') main main')
    have ho := sameSignatures_iff.1 (get (pairing h h') overloads overloads')
    rw [holds_function, holds_function]
    exact ⟨⟨hm.1, ho.1⟩, ⟨hm.2.1, ho.2.1⟩, by simp only [FormOf.map, hm.2.2, ho.2.2]⟩
  | _ =>
    simp_all [sameType_iff, sameSymbol_iff, sameTypes_iff, sameTypeOption_iff, holds_iff, FormOf.map, or_imp]

theorem same_of_holds (hf : t.Holds form) (hf' : t'.Holds form')
    (e : form.map t.text t.tree = form'.map t'.text t'.tree) : Same (pairing h h') form form' := by
  have type {a a' : Ty} (ha : a ∈ form.parts) (ha' : a' ∈ form'.parts) (e : t.tree a = t'.tree a') :
      Same (pairing h h') a a' := sameType_iff.2 ⟨hf.parts a ha, hf'.parts a' ha', e⟩
  have name {s s' : Symbol} (hs : s ∈ form.names) (hs' : s' ∈ form'.names) (e : t.text s = t'.text s') :
      Same (pairing h h') s s' := sameSymbol_iff.2 ⟨hf.names s hs, hf'.names s' hs', e⟩
  have types {l l' : List Ty} (hl : l ⊆ form.parts) (hl' : l' ⊆ form'.parts) (e : l.map t.tree = l'.map t'.tree) :
      Same (pairing h h') l l' :=
    sameTypes_iff.2 ⟨fun a ha => hf.parts a (hl ha), fun a ha => hf'.parts a (hl' ha), e⟩
  constructor
  cases form <;> cases form' <;> simp only [FormOf.map, reduceCtorEq] at e
  case any.any => exact .any
  case nil.nil => exact .nil
  case void.void => exact .void
  case primitive.primitive =>
    simp only [FormOf.primitive.injEq] at e
    exact e ▸ .primitive _
  case literal.literal =>
    simp only [FormOf.literal.injEq] at e
    have := name (by simp) (by simp) e.2
    exact e.1 ▸ .literal ..
  case array.array =>
    simp only [FormOf.array.injEq] at e
    have := type (by simp) (by simp) e
    exact .array ..
  case classRef.classRef =>
    simp only [FormOf.classRef.injEq] at e
    have := name (by simp) (by simp) e.1
    exact e.2 ▸ .classRef ..
  case aliasRef.aliasRef =>
    simp only [FormOf.aliasRef.injEq] at e
    have := name (by simp) (by simp) e.1
    have := types (by simp) (by simp) e.2.1
    have := type (by simp) (by simp) e.2.2
    exact .aliasRef ..
  case union.union =>
    simp only [FormOf.union.injEq] at e
    have := types (by simp) (by simp) e
    exact .union ..
  case generic.generic =>
    simp only [FormOf.generic.injEq] at e
    have := type (by simp) (by simp) e.1
    have := types (by simp) (by simp) e.2
    exact .generic ..
  case function.function =>
    simp only [FormOf.function.injEq] at e
    obtain ⟨h1, h2⟩ := holds_function.1 hf
    obtain ⟨k1, k2⟩ := holds_function.1 hf'
    have : Same (pairing h h') _ _ := sameSignature_iff.2 ⟨h1, k1, e.1⟩
    have : Same (pairing h h') _ _ := sameSignatures_iff.2 ⟨h2, k2, e.2.1⟩
    exact e.2.2 ▸ .function ..
  case results.results =>
    simp only [FormOf.results.injEq] at e
    have := types (by simp) (by simp) e.1
    exact e.2 ▸ .results ..
  case param.param =>
    simp only [FormOf.param.injEq] at e
    have := name (by simp) (by simp) e.1
    have := name (by simp) (by simp) e.2.1
    have : Same (pairing h h') _ _ := sameTypeOption_iff.2
      ⟨fun a ha => hf.parts a (Option.mem_toList.2 ha), fun a ha => hf'.parts a (Option.mem_toList.2 ha), e.2.2⟩
    exact .param ..
  case snippet.snippet =>
    simp only [FormOf.snippet.injEq] at e
    have := name (by simp) (by simp) e
    exact .snippet ..

/-- The same types have the same forms and the same names in both tables. -/
instance pairing_reads : (pairing h h').Reads t t' where
  lookup e := same_of_holds ⟨fun _ hp => (h.part_lt hp).2, fun _ hs => h.hasSymbol hs⟩
    ⟨fun _ hp => (h'.part_lt hp).2, fun _ hs => h'.hasSymbol hs⟩
    (form_of_tree h.toGrounded h'.toGrounded e.out.2.2)
  text e := e.out.2.2

variable {ty ty' : Ty}

theorem name_of_same (e : Same (pairing h h') ty ty') : t.name ty = t'.name ty' := by
  rw [h.name_eq, h'.name_eq]
  exact render_of_tree h.toGrounded h'.toGrounded e.out.2.2

/-! ## Storing -/

theorem internText_same (h : t.WF) (h' : t'.WF) (text : String) :
    Same (pairing (h.internText text) (h'.internText text)) (t.internText text).1 (t'.internText text).1 := by
  obtain ⟨hs, ht⟩ := t.internText_text text
  obtain ⟨hs', ht'⟩ := t'.internText_text text
  exact sameSymbol_iff.2 ⟨hs, hs', ht.trans ht'.symm⟩

theorem tree_intern (h : t.WF) (hf : t.Holds form) :
    (t.intern form).2.tree (t.intern form).1 = .node (form.map t.text t.tree) := by
  have hx := intern_extends t form
  have k := h.intern hf
  rw [k.tree_eq, lookup_of_form (intern_form t form)]
  exact congrArg _ (FormOf.map_congr (fun s hs => hx.text (hf.names s hs))
    fun p hp => hx.tree_eq h k (hf.parts p hp))

theorem intern_same (e : Same (pairing h h') form form') :
    ∃ (k : (t.intern form).2.WF) (k' : (t'.intern form').2.WF),
      Same (pairing k k') (t.intern form).1 (t'.intern form').1 := by
  obtain ⟨hf, hf', e⟩ := holds_of_same e
  refine ⟨h.intern hf, h'.intern hf', sameType_iff.2 ⟨t.intern_has form, t'.intern_has form', ?_⟩⟩
  rw [tree_intern h hf, tree_intern h' hf', e]

/-! ### Unions -/

theorem insertByName_same [Same (pairing h h') ty ty'] (hl : Same (pairing h h') l l') :
    Same (pairing h h') (t.insertByName ty l) (t'.insertByName ty' l') := by
  refine hl.induction (by unfold insertByName; infer_instance) fun a _ l _ ha _ ih => ?_
  unfold insertByName
  rw [name_of_same ha, name_of_same (get (pairing h h') ty ty')]
  split <;> infer_instance

theorem sortByName_same (hl : Same (pairing h h') l l') : Same (pairing h h') (t.sortByName l) (t'.sortByName l') :=
  hl.induction ⟨.nil⟩ fun _ _ _ _ _ _ ih => insertByName_same ih

theorem dropRepeatsAfter_same {last last' : Ty} (hlast : Same (pairing h h') last last')
    (hl : Same (pairing h h') l l') :
    Same (pairing h h') (t.dropRepeatsAfter last l) (t'.dropRepeatsAfter last' l') := by
  refine hl.induction (motive := fun l l' => ∀ last last', Same (pairing h h') last last' →
    Same (pairing h h') (t.dropRepeatsAfter last l) (t'.dropRepeatsAfter last' l'))
    (fun _ _ _ => by unfold dropRepeatsAfter; infer_instance)
    (fun a a' l _ ha _ ih last last' hlast => ?_) last last' hlast
  unfold dropRepeatsAfter
  rw [name_of_same ha, name_of_same hlast]
  have := ih a a' ha
  split
  · exact ih last last' hlast
  · infer_instance

theorem dropRepeats_same (hl : Same (pairing h h') l l') : Same (pairing h h') (t.dropRepeats l) (t'.dropRepeats l') :=
  hl.list ⟨.nil⟩ fun a _ l _ ha hl => by
    have := dropRepeatsAfter_same ha hl
    unfold dropRepeats
    infer_instance

theorem keepName_same (e : Same (pairing h h') ty ty') :
    (t.keepName ty).WF ∧ (t'.keepName ty').WF ∧ (t.keepName ty).name ty = (t'.keepName ty').name ty' := by
  obtain ⟨hty, hty', -⟩ := e.out
  have k := h.keepName hty
  have k' := h'.keepName hty'
  have : (pairing h h').After (pairing k k') := pairing_after (keepName_extends ..) (keepName_extends ..)
  exact ⟨k, k', name_of_same (e.upTo (pairing k k'))⟩

theorem internMembers_same {m m' : List Ty} (hm : Same (pairing h h') m m') :
    ∃ (k : (match m with | [ty] => (ty, t) | m => t.intern (.union m)).2.WF)
      (k' : (match m' with | [ty] => (ty, t') | m => t'.intern (.union m)).2.WF),
      Same (pairing k k') (match m with | [ty] => (ty, t) | m => t.intern (.union m)).1
        (match m' with | [ty] => (ty, t') | m => t'.intern (.union m)).1 := by
  obtain ⟨_ | ⟨ha, _ | ⟨_, hm⟩⟩⟩ := hm
  · have e : Same (pairing h h') (FormOf.union [] : Form) (.union []) := ⟨.union ..⟩
    exact intern_same e
  · exact ⟨h, h', ha⟩
  · have : Same (pairing h h') (_ : List Ty) _ := ⟨hm⟩
    exact intern_same ⟨.union ..⟩

theorem unionOfSeveral_same (hl : Same (pairing h h') l l') :
    ∃ (k : (t.unionOfSeveral l).2.WF) (k' : (t'.unionOfSeveral l').2.WF),
      Same (pairing k k') (t.unionOfSeveral l).1 (t'.unionOfSeveral l').1 := by
  obtain ⟨hty, hty', -⟩ := sameTypes_iff.1 hl
  obtain ⟨k, hx, -, -⟩ := h.keepNames hty
  obtain ⟨k', hx', -, -⟩ := h'.keepNames hty'
  have : (pairing h h').After (pairing k k') := pairing_after hx hx'
  exact internMembers_same (dropRepeats_same (sortByName_same (hl.upTo (pairing k k'))))

theorem unionOf_same (hl : Same (pairing h h') l l') : ∃ (k : (t.unionOf l).2.WF) (k' : (t'.unionOf l').2.WF),
      Same (pairing k k') (t.unionOf l).1 (t'.unionOf l').1 := by
  obtain ⟨_ | ⟨ha, _ | ⟨hb, hl⟩⟩⟩ := hl
  · exact ⟨h, h', get _ Ty.void Ty.void⟩
  · exact ⟨h, h', ha⟩
  · exact unionOfSeveral_same ⟨.cons ha (.cons hb hl)⟩

end TypeTable

end AnnotatedLua
