/-
The type table as a store that only grows (`TypeTable.Extends`). In a well-formed table (`TypeTable.WF`) no text and no
form comes twice, parts come before wholes, and every kept name is the fresh one. A type is known by its tree there
(`TypeTable.tree`), which stays as the table grows.
-/
import AnnotatedLua.Proofs.Type.Form
import AnnotatedLua.Type.Intern

namespace AnnotatedLua

variable {t t' : TypeTable} {p ty a b : Ty} {i : Nat} {α : Type}

/-! ## Handles are ordered by their numbers -/

theorem lawfulEqCmp_compareOn {f : α → Nat} (hf : ∀ a b, f a = f b → a = b) :
    Std.LawfulEqCmp (compareOn f) where
  eq_of_compare {a b} h := hf a b (Nat.compare_eq_eq.1 h)
  compare_self {_} := Nat.compare_eq_eq.2 rfl

instance : Std.TransOrd Ty := inferInstanceAs (Std.TransCmp (compareOn Ty.index))

instance : Std.TransOrd Symbol := inferInstanceAs (Std.TransCmp (compareOn Symbol.index))

instance : Std.TransOrd Node := inferInstanceAs (Std.TransCmp (compareOn Node.id))

instance : Std.LawfulEqOrd Ty := lawfulEqCmp_compareOn fun ⟨_⟩ ⟨_⟩ h => congrArg Ty.mk h

instance : Std.LawfulEqOrd Symbol := lawfulEqCmp_compareOn fun ⟨_⟩ ⟨_⟩ h => congrArg Symbol.mk h

instance : Std.LawfulEqOrd Node := lawfulEqCmp_compareOn fun ⟨_⟩ ⟨_⟩ h => congrArg Node.mk h

variable {s : Symbol}

/-! ## Symbols -/

namespace SymbolTable

variable {t : SymbolTable}
variable {text : String}

theorem findBelow_some :
    ∀ {n : Nat}, t.findBelow text n = some i → t.texts[i]? = some text
  | 0, h => by simp [findBelow] at h
  | n + 1, h => by
    unfold findBelow at h
    split at h
    · rename_i stored hs
      split at h
      · rename_i he
        cases h; rw [hs, he]
      · exact findBelow_some h
    · exact findBelow_some h

theorem findBelow_none :
    ∀ {n : Nat}, t.findBelow text n = none → ∀ i < n, t.texts[i]? ≠ some text
  | 0, _, i, hi => by omega
  | n + 1, h, i, hi => by
    unfold findBelow at h
    rcases Nat.lt_succ_iff_lt_or_eq.1 hi with hlt | rfl
    · split at h
      · split at h
        · cases h
        · exact findBelow_none h i hlt
      · exact findBelow_none h i hlt
    · intro he
      rw [he] at h
      simp at h

theorem find?_some (h : t.find? text = some s) : t.texts[s.index]? = some text := by
  unfold find? at h
  rw [Option.map_eq_some_iff] at h
  obtain ⟨i, hi, rfl⟩ := h
  exact findBelow_some hi

theorem find?_none (h : t.find? text = none) (i : Nat) : t.texts[i]? ≠ some text := by
  unfold find? at h
  rw [Option.map_eq_none_iff] at h
  by_cases hi : i < t.texts.size
  · exact findBelow_none h i hi
  · rw [Array.getElem?_eq_none (by omega)]; simp

def Unique (t : SymbolTable) : Prop :=
  ∀ (i j : Nat) (text : String), t.texts[i]? = some text → t.texts[j]? = some text → i = j

theorem intern_text (t : SymbolTable) (text : String) :
    (t.intern text).2.texts[(t.intern text).1.index]? = some text := by
  unfold intern
  split
  · rename_i s hs; exact find?_some hs
  · simp

theorem intern_stored {stored : String}
    (h : t.texts[i]? = some stored) : (t.intern text).2.texts[i]? = some stored := by
  unfold intern
  split
  · exact h
  · have hi := (Array.getElem?_eq_some_iff.1 h).1
    rw [Array.getElem?_push, if_neg (by omega)]; exact h

theorem intern_unique (h : t.Unique) (text : String) : (t.intern text).2.Unique := by
  unfold intern
  split
  · exact h
  · rename_i hn
    have hno := find?_none hn
    intro i j x hi hj
    simp only [Array.getElem?_push] at hi hj
    split at hi <;> split at hj
    · omega
    · cases hi; exact absurd hj (hno j)
    · cases hj; exact absurd hi (hno i)
    · exact h i j x hi hj

theorem intern_of_stored (h : t.Unique) {text : String} (hs : t.texts[s.index]? = some text) :
    t.intern text = (s, t) := by
  unfold intern
  split
  · rename_i s' hs'
    have : s'.index = s.index := h _ _ _ (find?_some hs') hs
    obtain ⟨i⟩ := s; obtain ⟨j⟩ := s'
    simp only at this; rw [this]
  · rename_i hn; exact absurd hs (find?_none hn _)

end SymbolTable

/-! ## Growth -/

namespace TypeTable

structure Extends (t t' : TypeTable) : Prop where
  texts : ∀ (i : Nat) text, t.symbols.texts[i]? = some text → t'.symbols.texts[i]? = some text
  forms : ∀ (i : Nat) form, t.forms[i]? = some form → t'.forms[i]? = some form
  names : ∀ (ty : Ty) name, t.names[ty]? = some name → t'.names[ty]? = some name

theorem Extends.refl (t : TypeTable) : t.Extends t := ⟨fun _ _ h => h, fun _ _ h => h, fun _ _ h => h⟩

theorem Extends.trans {a b c : TypeTable} (h : a.Extends b) (h' : b.Extends c) : a.Extends c :=
  ⟨fun i x hx => h'.texts i x (h.texts i x hx), fun i x hx => h'.forms i x (h.forms i x hx),
    fun i x hx => h'.names i x (h.names i x hx)⟩

def Has (t : TypeTable) (ty : Ty) : Prop := ty.index < t.size

def HasSymbol (t : TypeTable) (s : Symbol) : Prop := s.index < t.symbols.size

instance (t : TypeTable) (ty : Ty) : Decidable (t.Has ty) := inferInstanceAs (Decidable (_ < _))

instance (t : TypeTable) (s : Symbol) : Decidable (t.HasSymbol s) := inferInstanceAs (Decidable (_ < _))

theorem Has.form (h : t.Has ty) : t.forms[ty.index]? = some (t.lookup ty) := by
  unfold lookup
  rw [Array.getElem?_eq_getElem h]; rfl

variable {form : Form}

theorem lookup_of_form (h : t.forms[ty.index]? = some form) : t.lookup ty = form := by
  unfold lookup; rw [h]; rfl

theorem has_of_form {form : Form} (h : t.forms[i]? = some form) : t.Has ⟨i⟩ :=
  (Array.getElem?_eq_some_iff.1 h).1

theorem lookup_of_not_has (h : ¬ t.Has ty) : t.lookup ty = .any := by
  unfold lookup
  rw [Array.getElem?_eq_none (by unfold Has size at h; omega)]; rfl

theorem HasSymbol.text (h : t.HasSymbol s) : t.symbols.texts[s.index]? = some (t.text s) := by
  unfold TypeTable.text SymbolTable.text
  rw [Array.getElem?_eq_getElem h]; rfl

theorem text_of_stored {x : String} (h : t.symbols.texts[s.index]? = some x) : t.text s = x := by
  unfold TypeTable.text SymbolTable.text; rw [h]; rfl

section
variable (h : t.Extends t')
include h

theorem Extends.has (hty : t.Has ty) : t'.Has ty := has_of_form (h.forms _ _ hty.form)

theorem Extends.lookup (hty : t.Has ty) : t'.lookup ty = t.lookup ty :=
  lookup_of_form (h.forms _ _ hty.form)

theorem Extends.hasSymbol (hs : t.HasSymbol s) : t'.HasSymbol s :=
  (Array.getElem?_eq_some_iff.1 (h.texts _ _ hs.text)).1

theorem Extends.text (hs : t.HasSymbol s) : t'.text s = t.text s :=
  text_of_stored (h.texts _ _ hs.text)
end

/-! ## Well-formed tables -/

/-- A table whose entries were stored one after the other, parts before wholes. -/
structure Grounded (t : TypeTable) : Prop where
  base : initial.Extends t
  texts : t.symbols.Unique
  unique : ∀ (i j : Nat) form, t.forms[i]? = some form → t.forms[j]? = some form → i = j
  below : ∀ (i : Nat) form, t.forms[i]? = some form → ∀ p ∈ form.parts, p.index < i
  stored : ∀ (i : Nat) form, t.forms[i]? = some form → ∀ s ∈ form.names, t.HasSymbol s
  /-- The index finds every form. -/
  indexed : ∀ (i : Nat) form, t.forms[i]? = some form → ⟨i⟩ ∈ t.withKey form.key

structure WF (t : TypeTable) : Prop extends Grounded t where
  /-- A name that was shown is what would be shown now. -/
  shown : ∀ (ty : Ty) name, t.names[ty]? = some name → t.Has ty ∧ name = t.render ty

section
variable (h : t.Grounded)
include h

theorem Grounded.part_lt (hp : p ∈ (t.lookup ty).parts) : p.index < ty.index ∧ t.Has p := by
  by_cases hty : t.Has ty
  · have := h.below _ _ hty.form p hp
    exact ⟨this, by unfold Has at *; omega⟩
  · rw [lookup_of_not_has hty] at hp; simp at hp

theorem Grounded.part_has {form : Form} (hl : t.lookup ty = form) (hp : p ∈ form.parts) : t.Has p :=
  (h.part_lt (hl ▸ hp)).2

theorem Grounded.hasSymbol (hs : s ∈ (t.lookup ty).names) : t.HasSymbol s := by
  by_cases hty : t.Has ty
  · exact h.stored _ _ hty.form s hs
  · rw [lookup_of_not_has hty] at hs; simp at hs

theorem Grounded.eq_of_lookup (ha : t.Has a) (hb : t.Has b) (e : t.lookup a = t.lookup b) : a = b := by
  have := h.unique a.index b.index _ ha.form (e ▸ hb.form)
  obtain ⟨i⟩ := a; obtain ⟨j⟩ := b
  simp only at this; rw [this]

theorem Grounded.eq_of_text {a b : Symbol} (ha : t.HasSymbol a) (hb : t.HasSymbol b) (e : t.text a = t.text b) :
    a = b := by
  have := h.texts a.index b.index _ ha.text (e ▸ hb.text)
  obtain ⟨i⟩ := a; obtain ⟨j⟩ := b
  simp only at this; rw [this]
end

/-! ## Walks down to the parts -/

def reads : Form → List Ty
  | .any => []
  | form => Ty.any :: form.parts

theorem mem_reads (hp : p ∈ form.parts) : p ∈ reads form := by
  cases form <;> first | exact List.mem_cons_of_mem _ hp | simp at hp

theorem Grounded.lookup_any (h : t.Grounded) : t.lookup Ty.any = .any :=
  lookup_of_form (h.base.forms 0 .any (by decide))

theorem Grounded.reads_lt (h : t.Grounded) (hp : p ∈ reads (t.lookup ty)) : p.index < ty.index ∧ t.Has p := by
  have hne : t.lookup ty ≠ .any := by rintro e; rw [e] at hp; simp [reads] at hp
  have hmem : p = Ty.any ∨ p ∈ (t.lookup ty).parts := by
    revert hp hne
    cases t.lookup ty <;> simp [reads]
  rcases hmem with rfl | hmem
  · have hty : t.Has ty := by
      by_contra hno; exact hne (lookup_of_not_has hno)
    have hpos : ty.index ≠ 0 := by
      rintro h0
      obtain ⟨i⟩ := ty
      simp only at h0; subst h0
      exact hne h.lookup_any
    unfold Has at *
    simp only [Ty.any]
    omega
  · exact h.part_lt hmem

theorem Grounded.walk_eq (h : t.Grounded) (step : (Ty → α) → Form → α)
    (hstep : ∀ g g' form, (∀ p ∈ reads form, g p = g' p) → step g form = step g' form)
    (walk : Nat → Ty → α) (hwalk : ∀ n ty, walk (n + 1) ty = step (walk n) (t.lookup ty)) (ty : Ty) :
    walk (t.size + 1) ty = step (walk (t.size + 1)) (t.lookup ty) := by
  have stable : ∀ n m (ty : Ty), ty.index < n → ty.index < m → walk n ty = walk m ty := by
    intro n
    induction n with
    | zero => intro m ty hn; omega
    | succ n ih =>
      intro m _ _ _
      obtain ⟨m, rfl⟩ : ∃ k, m = k + 1 := ⟨m - 1, by omega⟩
      rw [hwalk, hwalk]
      refine hstep _ _ _ fun p hp => ih m p ?_ ?_
      · have := (h.reads_lt hp).1; omega
      · have := (h.reads_lt hp).1; omega
  rw [hwalk]
  refine hstep _ _ _ fun p hp => ?_
  have hp' := (h.reads_lt hp).2
  unfold Has at hp'
  exact stable _ _ p hp' (by omega)

/-! ## Finding forms -/

theorem find?_some (h : t.find? form = some ty) : t.forms[ty.index]? = some form := by
  unfold find? at h
  simpa using List.find?_some h

theorem Grounded.find?_none (hw : t.Grounded) {form : Form} (h : t.find? form = none) (i : Nat) :
    t.forms[i]? ≠ some form := by
  intro hi
  unfold find? at h
  rw [List.find?_eq_none] at h
  have := h ⟨i⟩ (hw.indexed i form hi)
  simp [hi] at this

theorem Grounded.intern_of_stored (hw : t.Grounded) {form : Form} (h : t.forms[ty.index]? = some form) :
    t.intern form = (ty, t) := by
  unfold intern
  split
  · rename_i ty' hty'
    have := hw.unique _ _ _ (find?_some hty') h
    obtain ⟨i⟩ := ty; obtain ⟨j⟩ := ty'
    simp only at this; rw [this]
  · rename_i hn; exact absurd h (hw.find?_none hn _)

theorem intern_form (t : TypeTable) (form : Form) : (t.intern form).2.forms[(t.intern form).1.index]? = some form := by
  unfold intern
  split
  · rename_i ty hty; exact find?_some hty
  · simp [push]

theorem intern_extends (t : TypeTable) (form : Form) : t.Extends (t.intern form).2 := by
  unfold intern
  split
  · exact .refl t
  · refine ⟨fun _ _ h => h, fun i f hf => ?_, fun _ _ h => h⟩
    have hi := (Array.getElem?_eq_some_iff.1 hf).1
    simp only [push, Array.getElem?_push]
    rw [if_neg (by omega)]; exact hf

theorem internText_extends (t : TypeTable) (text : String) : t.Extends (t.internText text).2 :=
  ⟨fun _ _ h => SymbolTable.intern_stored h, fun _ _ h => h, fun _ _ h => h⟩

theorem keepName_extends (t : TypeTable) (ty : Ty) : t.Extends (t.keepName ty) := by
  unfold keepName
  split
  · exact .refl t
  · rename_i hn
    refine ⟨fun _ _ h => h, fun _ _ h => h, fun _ _ h => ?_⟩
    simp only [Std.TreeMap.getElem?_insert, Std.LawfulEqOrd.compare_eq_iff_eq]
    split
    · rename_i he; subst he; rw [hn] at h; cases h
    · exact h

end TypeTable

/-! ## Types written out -/

open FormOf

inductive Tree where
  | node (form : FormOf String Tree)

namespace TypeTable

def treeBelow (t : TypeTable) : Nat → Ty → Tree
  | 0, _ => .node .any
  | n + 1, ty => .node ((t.lookup ty).map t.text (t.treeBelow n))

def tree (t : TypeTable) (ty : Ty) : Tree := t.treeBelow (t.size + 1) ty

theorem Grounded.tree_eq (h : t.Grounded) (ty : Ty) : t.tree ty = .node ((t.lookup ty).map t.text t.tree) :=
  h.walk_eq (fun g form => Tree.node (form.map t.text g))
    (fun _ _ _ hg => congrArg Tree.node (map_congr (fun _ _ => rfl) fun p hp => hg p (mem_reads hp)))
    t.treeBelow (fun _ _ => rfl) ty

variable {ty' : Ty}

theorem form_of_tree (h : t.Grounded) (h' : t'.Grounded) (e : t.tree ty = t'.tree ty') :
    (t.lookup ty).map t.text t.tree = (t'.lookup ty').map t'.text t'.tree := by
  rw [h.tree_eq, h'.tree_eq] at e
  exact Tree.node.inj e

theorem Grounded.eq_of_tree (h : t.Grounded) (ha : t.Has a) (hb : t.Has b) (e : t.tree a = t.tree b) : a = b := by
  have main : ∀ n (a b : Ty), a.index < n → t.Has a → t.Has b → t.tree a = t.tree b → a = b := by
    intro n
    induction n with
    | zero => intro a b hn; omega
    | succ n ih =>
      intro a b _ ha hb e
      refine h.eq_of_lookup ha hb (map_injOn (form_of_tree h h e) ?_ ?_)
      · exact fun x hx y hy => h.eq_of_text (h.hasSymbol hx) (h.hasSymbol hy)
      · intro x hx y hy
        have := (h.part_lt hx).1
        exact ih x y (by omega) (h.part_lt hx).2 (h.part_lt hy).2
  exact main _ a b (Nat.lt_succ_self _) ha hb e

theorem Extends.tree (hx : t.Extends t') (h : t.Grounded) (h' : t'.Grounded) (hty : t.Has ty) :
    t'.tree ty = t.tree ty := by
  have main : ∀ n (ty : Ty), ty.index < n → t.Has ty → t'.tree ty = t.tree ty := by
    intro n
    induction n with
    | zero => intro ty hn; omega
    | succ n ih =>
      intro ty _ hty
      rw [h.tree_eq, h'.tree_eq, hx.lookup hty]
      refine congrArg Tree.node (map_congr (fun s hs => hx.text (h.hasSymbol hs)) fun p hp => ?_)
      have := (h.part_lt hp).1
      exact ih p (by omega) (h.part_lt hp).2
  exact main _ ty (Nat.lt_succ_self _) hty

theorem Extends.tree_eq (hx : t.Extends t') (h : t.WF) (h' : t'.WF) (hty : t.Has ty) : t'.tree ty = t.tree ty :=
  hx.tree h.toGrounded h'.toGrounded hty

/-! ## Display names -/

structure View where
  shown : String
  kind : Kind
  bounded : Bool
  /-- The name of a class by itself. -/
  className : Option String

def bareName (t : TypeTable) (ty : Ty) : Option String :=
  match t.lookup ty with
  | .classRef name _ => some (t.text name)
  | _ => none

def view (t : TypeTable) (part : Ty → String) (ty : Ty) : View :=
  ⟨part ty, t.kind ty, t.isBoundedParam ty, t.bareName ty⟩

section
variable {part part' : Ty → String} (ha : t.view part Ty.any = t'.view part' Ty.any)
include ha

theorem renderParameter_congr {p p' : Parameter} (e : p.map t.text (t.view part) = p'.map t'.text (t'.view part')) :
    t.renderParameter part p = t'.renderParameter part' p' := by
  simp only [ParameterOf.map, ParameterOf.mk.injEq] at e
  have hv : t.view part p.typeOrAny = t'.view part' p'.typeOrAny := by
    unfold ParameterOf.typeOrAny
    cases hp : p.type <;> cases hp' : p'.type <;> simp_all
  simp only [view, View.mk.injEq] at hv
  simp only [renderParameter, e.1, hv.1, hv.2.2.1]

theorem renderCall_congr {s s' : Signature} (e : s.map t.text (t.view part) = s'.map t'.text (t'.view part')) :
    t.renderCall part s = t'.renderCall part' s' := by
  simp only [SignatureOf.map, SignatureOf.mk.injEq] at e
  obtain ⟨-, -, hp, _, _⟩ := e
  have hparams : s.params.map (t.renderParameter part) = s'.params.map (t'.renderParameter part') :=
    map_eq_transfer hp fun p _ _ _ he => renderParameter_congr ha he
  unfold renderCall
  rw [hparams]
  cases h1 : s.variadic <;> cases h1' : s'.variadic <;> cases h2 : s.returns <;>
    cases h2' : s'.returns <;> simp_all [view]

theorem renderForm_congr {form form' : Form} (e : form.map t.text (t.view part) = form'.map t'.text (t'.view part')) :
    t.renderForm part form = t'.renderForm part' form' := by
  cases form <;> cases form' <;> simp only [map, reduceCtorEq] at e
  case any.any => rfl
  case nil.nil => rfl
  case void.void => rfl
  case primitive.primitive => cases e; rfl
  case literal.literal kind text kind' text' =>
    simp only [literal.injEq] at e
    obtain ⟨rfl, e⟩ := e
    cases kind <;> simp [renderForm, e]
  case array.array =>
    simp only [array.injEq, view, View.mk.injEq] at e
    simp only [renderForm, e.1, e.2.1, e.2.2.1]
  case classRef.classRef =>
    simp only [classRef.injEq] at e
    simp only [renderForm, renderClass, e.1, e.2]
  case aliasRef.aliasRef =>
    simp only [aliasRef.injEq] at e
    simp only [renderForm, e.1]
  case union.union =>
    simp only [union.injEq] at e
    simp only [renderForm]
    congr 1
    refine map_eq_transfer e fun m _ m' _ he => ?_
    simp only [view, View.mk.injEq] at he
    simp only [he.1, he.2.1]
  case generic.generic base args base' args' =>
    simp only [generic.injEq] at e
    have hargs : args.map part = args'.map part' :=
      map_eq_transfer e.2 fun m _ m' _ he => by simp only [view, View.mk.injEq] at he; exact he.1
    have hbase := e.1
    simp only [view, View.mk.injEq, bareName] at hbase
    obtain ⟨_, -, -, _⟩ := hbase
    simp only [renderForm, hargs]
    cases hl : t.lookup base <;> cases hl' : t'.lookup base' <;> simp_all
  case function.function =>
    simp only [function.injEq] at e
    exact renderCall_congr ha e.1
  case results.results types _ types' _ =>
    simp only [results.injEq] at e
    have ht : types.map part = types'.map part' := map_eq_transfer e.1 fun m _ _ _ he => by
      simp only [view, View.mk.injEq] at he; exact he.1
    simp only [renderForm, ht, e.2]
  case param.param bound _ _ bound' =>
    simp only [param.injEq] at e
    cases bound <;> cases bound' <;> simp_all [renderForm, view]
  case snippet.snippet =>
    simp only [snippet.injEq] at e
    simp only [renderForm, e]
end

theorem Grounded.render_eq (h : t.Grounded) (ty : Ty) : t.render ty = t.renderForm t.render (t.lookup ty) := by
  refine h.walk_eq (fun g form => t.renderForm g form) (fun g g' form hg => ?_) t.renderBelow
    (fun _ _ => rfl) ty
  by_cases hf : form = .any
  · subst hf; rfl
  · have hv : ∀ p ∈ reads form, t.view g p = t.view g' p := fun p hp => by unfold view; rw [hg p hp]
    refine renderForm_congr (hv _ ?_) (map_congr (fun _ _ => rfl) fun p hp => hv p (mem_reads hp))
    cases form <;> simp_all [reads]

theorem view_of_tree (h : t.Grounded) (h' : t'.Grounded) (e : t.tree ty = t'.tree ty')
    (hr : t.render ty = t'.render ty') : t.view t.render ty = t'.view t'.render ty' := by
  have hf := form_of_tree h h' e
  have hk : t.kind ty = t'.kind ty' := by
    have := congrArg FormOf.kind hf
    rwa [FormOf.kind_map, FormOf.kind_map] at this
  have hb : t.isBoundedParam ty = t'.isBoundedParam ty' ∧ t.bareName ty = t'.bareName ty' := by
    unfold isBoundedParam bareName
    generalize t.lookup ty = a at hf
    generalize t'.lookup ty' = b at hf
    cases a <;> cases b <;> simp only [FormOf.map, reduceCtorEq] at hf <;> simp_all
    case param.param bound _ _ bound' => cases bound <;> cases bound' <;> simp_all
  unfold view
  rw [hr, hk, hb.1, hb.2]

theorem render_of_tree (h : t.Grounded) (h' : t'.Grounded) (e : t.tree ty = t'.tree ty') :
    t.render ty = t'.render ty' := by
  have hany : t.tree Ty.any = t'.tree Ty.any := by
    rw [h.tree_eq, h'.tree_eq, h.lookup_any, h'.lookup_any]; rfl
  have hra : t.render Ty.any = t'.render Ty.any := by
    rw [h.render_eq, h'.render_eq, h.lookup_any, h'.lookup_any]; rfl
  have main : ∀ n (ty ty' : Ty), ty.index < n → t.tree ty = t'.tree ty' → t.render ty = t'.render ty' := by
    intro n
    induction n with
    | zero => intro ty ty' hn; omega
    | succ n ih =>
      intro ty ty' _ e
      rw [h.render_eq, h'.render_eq]
      refine renderForm_congr (view_of_tree h h' hany hra)
        (map_transfer (form_of_tree h h' e) (fun _ _ _ _ hs => hs) ?_)
      intro p hp q _ hpq
      have := (h.part_lt hp).1
      exact view_of_tree h h' hpq (ih p q (by omega) hpq)
  exact main _ ty ty' (Nat.lt_succ_self _) e

theorem WF.name_eq (h : t.WF) (ty : Ty) : t.name ty = t.render ty := by
  unfold name
  split
  · rename_i shown hs; exact (h.shown ty shown hs).2
  · rfl

end TypeTable

end AnnotatedLua
