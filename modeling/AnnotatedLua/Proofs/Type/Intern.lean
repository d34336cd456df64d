/-
Storing keeps a table well-formed. Whether a table that shows no name yet is well-formed can be decided (`Orderly.wf`).
-/
import AnnotatedLua.Proofs.Type.Table
import Mathlib.Data.String.Basic

namespace AnnotatedLua.TypeTable

open Std.TreeMap

variable {t : TypeTable}

/-! ## Tables that can be gone through -/

def Orderly (t : TypeTable) : Prop :=
  (∀ i < initial.symbols.size, t.symbols.texts[i]? = initial.symbols.texts[i]?) ∧
  (∀ i < initial.size, t.forms[i]? = initial.forms[i]?) ∧
  t.names.isEmpty = true ∧ t.symbols.texts.toList.Nodup ∧ t.forms.toList.Nodup ∧
  ∀ i < t.size, (∀ p ∈ (t.lookup ⟨i⟩).parts, p.index < i) ∧ (∀ s ∈ (t.lookup ⟨i⟩).names, t.HasSymbol s) ∧
    ⟨i⟩ ∈ t.withKey (t.lookup ⟨i⟩).key

instance (t : TypeTable) : Decidable t.Orderly := inferInstanceAs (Decidable (_ ∧ _))

theorem eq_of_nodup {α : Type} {xs : Array α} (h : xs.toList.Nodup) (i j : Nat) (x : α) (hi : xs[i]? = some x)
    (hj : xs[j]? = some x) : i = j := by
  have hlt := (Array.getElem?_eq_some_iff.1 hi).1
  exact (List.getElem?_inj hlt h).1 (by rw [Array.getElem?_toList, Array.getElem?_toList, hi, hj])

theorem Orderly.wf (h : t.Orderly) : t.WF := by
  obtain ⟨htexts, hforms, hnames, huniqueTexts, huniqueForms, hall⟩ := h
  have hat (i : Nat) (form : Form) (hi : t.forms[i]? = some form) : (∀ p ∈ form.parts, p.index < i) ∧
      (∀ s ∈ form.names, t.HasSymbol s) ∧ ⟨i⟩ ∈ t.withKey form.key := by
    have := hall i (Array.getElem?_eq_some_iff.1 hi).1
    rwa [lookup_of_form (show t.forms[(⟨i⟩ : Ty).index]? = some form from hi)] at this
  have hbase : initial.Extends t := by
    refine ⟨fun i _ hi => ?_, fun i form hi => ?_, fun ty name hname => ?_⟩
    · rw [htexts i (Array.getElem?_eq_some_iff.1 hi).1, hi]
    · rw [hforms i (Array.getElem?_eq_some_iff.1 hi).1, hi]
    · cases (getElem?_emptyc).symm.trans hname
  exact {
    base := hbase
    texts := eq_of_nodup huniqueTexts
    unique := eq_of_nodup huniqueForms
    below := fun i form hi => (hat i form hi).1
    stored := fun i form hi => (hat i form hi).2.1
    indexed := fun i form hi => (hat i form hi).2.2
    shown := fun ty _ hname => by rw [getElem?_of_isEmpty hnames] at hname; cases hname }

theorem initial_wf : initial.WF := Orderly.wf (by decide)

/-- A table of the texts, `⟨3⟩` and on, and the types, `⟨10⟩` and on. -/
def ofForms (texts : List String) (forms : List Form) : TypeTable :=
  forms.foldl (fun t form => (t.intern form).2) (texts.foldl (fun t text => (t.internText text).2) initial)

variable {ty : Ty}

theorem initial_has (h : ty.isBuiltin = true) : initial.Has ty := by
  have hsize : initial.size = Ty.builtinCount := by decide
  simpa [Has, hsize, Ty.isBuiltin] using h

theorem WF.lookup_builtin (h : t.WF) (ty : Ty) (hty : ty.isBuiltin = true) :
    t.Has ty ∧ t.lookup ty = initial.lookup ty :=
  ⟨h.base.has (initial_has hty), h.base.lookup (initial_has hty)⟩

theorem WF.lookup_primitive (h : t.WF) (kind : Primitive) : t.lookup kind.type = .primitive kind := by
  rw [(h.lookup_builtin kind.type (by cases kind <;> rfl)).2]
  cases kind <;> decide

theorem WF.lookup_nil (h : t.WF) : t.lookup Ty.nil = .nil := (h.lookup_builtin Ty.nil rfl).2.trans (by decide)

theorem has_of_lookup (h : t.lookup ty ≠ .any) : t.Has ty := by
  by_contra hn
  exact h (lookup_of_not_has hn)

variable {form : Form}

theorem has_of (h : t.lookup ty = form) (hform : form ≠ .any := by simp) : t.Has ty :=
  has_of_lookup (h ▸ hform)

theorem kind_of (h : t.lookup ty = form) : t.kind ty = form.kind := congrArg FormOf.kind h

/-! ## Storing -/

/-- The parts and the texts of the form are stored. -/
structure Holds (t : TypeTable) (form : Form) : Prop where
  parts : ∀ p ∈ form.parts, t.Has p
  names : ∀ s ∈ form.names, t.HasSymbol s

structure HoldsParameter (t : TypeTable) (p : Parameter) : Prop where
  name : t.HasSymbol p.name
  type : ∀ q ∈ p.type, t.Has q

structure HoldsSignature (t : TypeTable) (s : Signature) : Prop where
  parts : ∀ q ∈ s.parts, t.Has q
  names : ∀ n ∈ s.names, t.HasSymbol n

theorem shown_of_extends {t' : TypeTable} (h : t.WF) (h' : t'.Grounded) (hx : t.Extends t')
    (hn : t'.names = t.names) (ty : Ty) (name : String) (hk : t'.names[ty]? = some name) :
    t'.Has ty ∧ name = t'.render ty := by
  rw [hn] at hk
  obtain ⟨hty, rfl⟩ := h.shown ty name hk
  exact ⟨hx.has hty, render_of_tree h.toGrounded h' (hx.tree h.toGrounded h' hty).symm⟩

theorem Grounded.push (h : t.Grounded) (hf : t.Holds form)
    (hno : ∀ i : Nat, t.forms[i]? ≠ some form) : (t.push form).Grounded := by
  have hx : t.Extends (t.push form) := by
    refine ⟨fun _ _ h => h, fun i f hi => ?_, fun _ _ h => h⟩
    have := (Array.getElem?_eq_some_iff.1 hi).1
    simp only [TypeTable.push, Array.getElem?_push]
    rw [if_neg (by omega)]; exact hi
  have hcase : ∀ (i : Nat) f, (t.push form).forms[i]? = some f →
      (i = t.size ∧ f = form) ∨ t.forms[i]? = some f := by
    intro i f hi
    simp only [TypeTable.push, Array.getElem?_push] at hi
    split at hi
    · rename_i he; cases hi; exact .inl ⟨he, rfl⟩
    · exact .inr hi
  refine ⟨h.base.trans hx, h.texts, ?_, ?_, ?_, ?_⟩
  · intro i j f hi hj
    rcases hcase i f hi with ⟨rfl, rfl⟩ | hi' <;> rcases hcase j f hj with ⟨rfl, he⟩ | hj'
    · rfl
    · exact absurd hj' (hno j)
    · exact absurd (he ▸ hi') (hno i)
    · exact h.unique i j f hi' hj'
  · intro i f hi p hp
    rcases hcase i f hi with ⟨rfl, rfl⟩ | hi'
    · exact hf.parts p hp
    · exact h.below i f hi' p hp
  · intro i f hi s hs
    rcases hcase i f hi with ⟨rfl, rfl⟩ | hi'
    · exact hx.hasSymbol (hf.names s hs)
    · exact hx.hasSymbol (h.stored i f hi' s hs)
  · intro i f hi
    have hkey : ∀ key, (t.push form).withKey key =
        if form.key = key then ⟨t.size⟩ :: t.withKey form.key else t.withKey key := by
      intro _
      simp only [withKey, TypeTable.push, getD_insert,
        Std.LawfulEqOrd.compare_eq_iff_eq]
    rw [hkey]
    rcases hcase i f hi with ⟨rfl, rfl⟩ | hi'
    · simp
    · have hmem := h.indexed i f hi'
      split
      · rename_i he; rw [he]; exact List.mem_cons_of_mem _ hmem
      · exact hmem

theorem WF.intern (h : t.WF) (hf : t.Holds form) : (t.intern form).2.WF := by
  have hx := intern_extends t form
  unfold TypeTable.intern at hx ⊢
  split
  · exact h
  · rename_i hn
    rw [hn] at hx
    have hg := h.toGrounded.push hf (h.find?_none hn)
    exact ⟨hg, shown_of_extends h hg hx rfl⟩

theorem intern_has (t : TypeTable) (form : Form) : (t.intern form).2.Has (t.intern form).1 :=
  has_of_form (intern_form t form)

theorem WF.internText (h : t.WF) (text : String) : (t.internText text).2.WF := by
  have hx := internText_extends t text
  have hg : (t.internText text).2.Grounded :=
    ⟨h.base.trans hx, SymbolTable.intern_unique h.texts text, h.unique, h.below,
      fun i form hi s hs => hx.hasSymbol (h.stored i form hi s hs), h.indexed⟩
  exact ⟨hg, shown_of_extends h hg hx rfl⟩

theorem internText_text (t : TypeTable) (text : String) :
    (t.internText text).2.HasSymbol (t.internText text).1 ∧
      (t.internText text).2.text (t.internText text).1 = text := by
  have := SymbolTable.intern_text t.symbols text
  exact ⟨(Array.getElem?_eq_some_iff.1 this).1, text_of_stored this⟩

theorem WF.internText_of_stored (h : t.WF) {s : Symbol} (hs : t.HasSymbol s) : t.internText (t.text s) = (s, t) := by
  unfold TypeTable.internText
  rw [SymbolTable.intern_of_stored h.texts hs.text]

/-! ## Keeping names -/

theorem keepName_forms (t : TypeTable) (ty : Ty) : (t.keepName ty).forms = t.forms := by
  unfold keepName; split <;> rfl

theorem keepName_symbols (t : TypeTable) (ty : Ty) : (t.keepName ty).symbols = t.symbols := by
  unfold keepName; split <;> rfl

theorem renderBelow_names (t : TypeTable) (names : Std.TreeMap Ty String) :
    ∀ n, ({ t with names } : TypeTable).renderBelow n = t.renderBelow n
  | 0 => rfl
  | n + 1 => by
    funext ty
    show renderForm { t with names } (renderBelow { t with names } n) (t.lookup ty) = _
    rw [renderBelow_names t names n]
    rfl

theorem WF.keepName (h : t.WF) {ty : Ty} (hty : t.Has ty) : (t.keepName ty).WF := by
  have hx := keepName_extends t ty
  unfold TypeTable.keepName at hx ⊢
  split
  · exact h
  · rename_i hn
    rw [hn] at hx
    refine ⟨{ h with base := h.base.trans hx }, ?_⟩
    intro ty' name hk
    have hr : ({ t with names := t.names.insert ty (t.render ty) } : TypeTable).render ty' = t.render ty' :=
      congrFun (renderBelow_names t _ (t.size + 1)) ty'
    rw [hr]
    simp only [getElem?_insert, Std.LawfulEqOrd.compare_eq_iff_eq] at hk
    split at hk
    · rename_i he; subst he; cases hk; exact ⟨hty, rfl⟩
    · exact h.shown ty' name hk

theorem WF.keepNames : ∀ {types : List Ty} {t : TypeTable}, t.WF → (∀ ty ∈ types, t.Has ty) →
    (types.foldl TypeTable.keepName t).WF ∧ t.Extends (types.foldl TypeTable.keepName t) ∧
      (types.foldl TypeTable.keepName t).forms = t.forms ∧
      (types.foldl TypeTable.keepName t).symbols = t.symbols
  | [], t, h, _ => ⟨h, .refl t, rfl, rfl⟩
  | ty :: types, t, h, hty => by
    have hx := keepName_extends t ty
    obtain ⟨h1, h2, h3, h4⟩ := @WF.keepNames types _ (h.keepName (hty ty (by simp)))
      fun u hu => hx.has (hty u (by simp [hu]))
    exact ⟨h1, hx.trans h2, h3.trans (keepName_forms t ty), h4.trans (keepName_symbols t ty)⟩

/-! ## Unions -/

theorem keepNames_extends (t : TypeTable) (types : List Ty) : t.Extends (types.foldl TypeTable.keepName t) := by
  induction types generalizing t with
  | nil => exact .refl t
  | cons ty types ih => exact (keepName_extends t ty).trans (ih _)

theorem unionOf_extends (t : TypeTable) (types : List Ty) : t.Extends (t.unionOf types).2 := by
  unfold TypeTable.unionOf unionOfSeveral
  split
  · exact .refl t
  · exact .refl t
  · have h := keepNames_extends t types
    simp only
    split
    · exact h
    · exact h.trans (intern_extends _ _)

theorem sortByName_of_ordered : ∀ {types : List Ty},
    types.Pairwise (fun a b => t.name a < t.name b) → t.sortByName types = types
  | [], _ => rfl
  | ty :: rest, h => by
    rw [List.pairwise_cons] at h
    have ih := sortByName_of_ordered h.2
    unfold sortByName at ih ⊢
    rw [List.foldr_cons, ih]
    cases rest with
    | nil => rfl
    | cons head =>
      unfold insertByName
      rw [if_pos (le_of_lt (h.1 head (by simp)))]

theorem dropRepeatsAfter_of_ordered : ∀ {types : List Ty} {last : Ty},
    (last :: types).Pairwise (fun a b => t.name a < t.name b) → t.dropRepeatsAfter last types = types
  | [], _, _ => rfl
  | ty :: rest, last, h => by
    rw [List.pairwise_cons] at h
    unfold dropRepeatsAfter
    rw [if_neg (ne_of_gt (h.1 ty (by simp))), dropRepeatsAfter_of_ordered h.2]

theorem dropRepeats_of_ordered {types : List Ty} (h : types.Pairwise (fun a b => t.name a < t.name b)) :
    t.dropRepeats types = types := by
  cases types with
  | nil => rfl
  | cons ty => exact congrArg (ty :: ·) (dropRepeatsAfter_of_ordered h)

end AnnotatedLua.TypeTable
