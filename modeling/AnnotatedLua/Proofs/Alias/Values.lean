/-
What can be made by putting types into the parts of stored ones. With a given number of layers that is finitely many
(`TypeTable.made_finite`), however much the table grows. Unions can be joined without leaving them (`joins_made`).
-/
import AnnotatedLua.Proofs.Termination.Union
import Mathlib.Data.Finite.Prod
import Mathlib.Data.Set.Finite.Lattice

namespace AnnotatedLua

open TypeTable SignatureOf List FormOf

open FormOf (kind_map map names param parts)

variable {α ν τ τ' : Type} {n : Nat}

/-! ## Shapes -/

section
def FormOf.shape (form : FormOf ν τ) : FormOf ν Unit := form.map id fun _ => ()

variable {l l' : List τ}

theorem option_of_shape {o o' : Option τ} (hs : o.map (fun _ => ()) = o'.map fun _ => ())
    (h : o.toList ++ l = o'.toList ++ l') : o = o' ∧ l = l' := by
  cases o <;> cases o' <;> simp_all

theorem list_of_shape {σ : Type} {parts : α → List τ} {shape : α → σ}
    (hone : ∀ a a' l l', shape a = shape a' → parts a ++ l = parts a' ++ l' → a = a' ∧ l = l') {as as' : List α}
    (hs : as.map shape = as'.map shape) (h : as.flatMap parts ++ l = as'.flatMap parts ++ l') : as = as' ∧ l = l' := by
  induction as generalizing as' with
  | nil =>
    obtain rfl : as' = [] := by simpa using hs.symm
    exact ⟨rfl, h⟩
  | cons a as ih =>
    cases as' with
    | nil => simp at hs
    | cons a' =>
      simp only [map_cons, cons.injEq] at hs
      simp only [flatMap_cons, append_assoc] at h
      obtain ⟨rfl, hrest⟩ := hone a a' _ _ hs.1 h
      obtain ⟨rfl, hl⟩ := ih hs.2 hrest
      exact ⟨rfl, hl⟩

theorem types_of_shape {as as' : List τ} (hs : as.map (fun _ => ()) = as'.map fun _ => ())
    (h : as ++ l = as' ++ l') : as = as' ∧ l = l' :=
  append_inj h (by simpa using congrArg length hs)

theorem ParameterOf.eq_of_shape {p q : ParameterOf ν τ} (hs : p.map id (fun _ => ()) = q.map id fun _ => ())
    (h : p.type.toList ++ l = q.type.toList ++ l') : p = q ∧ l = l' := by
  obtain ⟨_, _, _⟩ := p
  obtain ⟨_, _, _⟩ := q
  simp only [ParameterOf.map, ParameterOf.mk.injEq, id] at hs
  obtain ⟨rfl, ht, rfl⟩ := hs
  obtain ⟨rfl, hl⟩ := option_of_shape ht h
  exact ⟨rfl, hl⟩

theorem SignatureOf.eq_of_shape {s s' : SignatureOf ν τ}
    (hs : s.map id (fun _ => ()) = s'.map id fun _ => ()) (h : s.parts ++ l = s'.parts ++ l') : s = s' ∧ l = l' := by
  obtain ⟨_, _, _, _, _⟩ := s
  obtain ⟨_, _, _, _, _⟩ := s'
  simp only [map, mk.injEq] at hs
  obtain ⟨rfl, ht, hp, hv, hr⟩ := hs
  simp only [parts, append_assoc] at h
  obtain ⟨rfl, h1⟩ := types_of_shape ht h
  obtain ⟨rfl, h2⟩ := list_of_shape (fun _ _ _ _ => ParameterOf.eq_of_shape) hp h1
  obtain ⟨rfl, h3⟩ := option_of_shape hv h2
  obtain ⟨rfl, h4⟩ := option_of_shape hr h3
  exact ⟨rfl, h4⟩

theorem FormOf.eq_of_shape {a b : FormOf ν τ} (hs : a.shape = b.shape) (h : a.parts = b.parts) : a = b := by
  unfold shape at hs
  cases a <;> cases b <;> simp only [map, reduceCtorEq] at hs <;> simp only [parts] at h
  case any.any | nil.nil | void.void => rfl
  case primitive.primitive => simp_all
  case literal.literal => simp_all
  case array.array => simp_all
  case classRef.classRef => simp_all
  case union.union => simp_all
  case generic.generic => simp_all
  case results.results => simp_all
  case snippet.snippet => simp_all
  case aliasRef.aliasRef params target name' params' target' =>
    simp only [aliasRef.injEq, id] at hs
    obtain ⟨rfl, hp, -⟩ := hs
    obtain ⟨rfl, -⟩ := types_of_shape hp h
    simp_all
  case function.function main overloads marks main' overloads' marks' =>
    simp only [function.injEq] at hs
    obtain ⟨hmain, hover, rfl⟩ := hs
    simp only [flatMap_cons] at h
    obtain ⟨rfl, hrest⟩ := SignatureOf.eq_of_shape hmain h
    have hrest : overloads.flatMap SignatureOf.parts ++ [] = overloads'.flatMap SignatureOf.parts ++ [] := by simpa using hrest
    obtain ⟨rfl, -⟩ := list_of_shape (fun _ _ _ _ => SignatureOf.eq_of_shape) hover hrest
    rfl
  case param.param name written bound name' written' bound' =>
    simp only [param.injEq, id] at hs
    obtain ⟨rfl, rfl, hb⟩ := hs
    have h : bound.toList ++ [] = bound'.toList ++ [] := by simpa using h
    obtain ⟨rfl, -⟩ := option_of_shape hb h
    rfl

variable {ν' : Type}

theorem SignatureOf.parts_map (f : ν → ν') (g : τ → τ') (s : SignatureOf ν τ) : (s.map f g).parts = s.parts.map g := by
  have hparams : (s.params.map (ParameterOf.map f g)).flatMap (fun p => p.type.toList) =
      (s.params.flatMap fun p => p.type.toList).map g := by
    rw [map_flatMap, flatMap_map]
    exact flatMap_congr fun p _ => Option.toList_map
  simp [parts, map, hparams, Option.toList_map]

theorem FormOf.parts_map (f : ν → ν') (g : τ → τ') (a : FormOf ν τ) : (a.map f g).parts = a.parts.map g := by
  cases a with
  | function =>
    simp only [map, parts, flatMap_cons, map_append, SignatureOf.parts_map, flatMap_map,
      map_flatMap]
  | _ => simp [map, parts, Option.toList_map]

theorem FormOf.names_map (f : ν → ν') (g : τ → τ') (a : FormOf ν τ) : (a.map f g).names = a.names.map f := by
  have hsignature (s : SignatureOf ν τ) : (s.map f g).names = s.names.map f := by
    simp [SignatureOf.names, SignatureOf.map, Function.comp_def, ParameterOf.map]
  cases a with
  | function =>
    simp only [map, names, flatMap_cons, map_append, hsignature, flatMap_map, map_flatMap]
  | _ => simp [map, names]

theorem FormOf.names_of_shape {a : FormOf ν τ} {b : FormOf ν τ'} (h : a.shape = b.shape) : a.names = b.names := by
  have hnames := congrArg names h
  unfold shape at hnames
  rwa [names_map, names_map, List.map_id, List.map_id] at hnames

theorem SignatureOf.map_shape (f : ν → ν') (g : τ → τ') (s : SignatureOf ν τ) :
    (s.map f g).map id (fun _ => ()) = s.map f fun _ => () := by
  simp [map, Function.comp_def, ParameterOf.map]

theorem FormOf.shape_map (f : ν → ν') (g : τ → τ') (a : FormOf ν τ) : (a.map f g).shape = a.map f fun _ => () := by
  cases a <;> simp [shape, map, Function.comp_def, map_shape]

theorem FormOf.kind_shape (a : FormOf ν τ) : a.shape.kind = a.kind := kind_map ..
end

/-! ## Finitely many types -/

theorem finite_lists {X : Set α} (hX : X.Finite) (n : Nat) : {l : List α | l.length ≤ n ∧ ∀ x ∈ l, x ∈ X}.Finite := by
  induction n with
  | zero =>
    refine (Set.finite_singleton []).subset ?_
    rintro l ⟨hlen, -⟩
    exact length_eq_zero_iff.1 (Nat.le_zero.1 hlen)
  | succ n ih =>
    refine ((Set.Finite.image2 cons hX ih).insert []).subset ?_
    rintro l ⟨hlen, hmem⟩
    cases l with
    | nil => exact .inl rfl
    | cons x rest =>
      obtain ⟨hx, hrest⟩ := forall_mem_cons.1 hmem
      exact .inr ⟨x, hx, rest, ⟨by simpa using hlen, hrest⟩, rfl⟩

theorem finite_forms (shape : FormOf ν Unit) {X : Set τ} (hX : X.Finite) :
    {form : FormOf ν τ | form.shape = shape ∧ ∀ p ∈ form.parts, p ∈ X}.Finite := by
  refine Set.Finite.of_finite_image (f := parts) ((finite_lists hX shape.parts.length).subset ?_) ?_
  · rintro _ ⟨form, ⟨rfl, hparts⟩, rfl⟩
    refine ⟨?_, hparts⟩
    unfold FormOf.shape
    rw [FormOf.parts_map]
    simp
  · rintro a ⟨ha, -⟩ b ⟨hb, -⟩ h
    exact FormOf.eq_of_shape (ha.trans hb.symm) h

def unions (X : Set Tree) : Set Tree := X ∪ {x | ∃ l : List Tree, x = .node (.union l) ∧ l.Nodup ∧ ∀ p ∈ l, p ∈ X}

theorem unions_mono {X Y : Set Tree} (h : X ⊆ Y) : unions X ⊆ unions Y := by
  rintro x (hx | ⟨l, rfl, hn, hl⟩)
  · exact .inl (h hx)
  · exact .inr ⟨l, rfl, hn, fun p hp => h (hl p hp)⟩

theorem unions_finite {X : Set Tree} (hX : X.Finite) : (unions X).Finite := by
  refine hX.union (((finite_lists hX hX.toFinset.card).image fun l => Tree.node (.union l)).subset ?_)
  rintro x ⟨l, rfl, hn, hl⟩
  refine ⟨l, ⟨?_, hl⟩, rfl⟩
  classical
  rw [← toFinset_card_of_nodup hn]
  exact Finset.card_le_card fun p hp => hX.mem_toFinset.2 (hl p (mem_toFinset.1 hp))

namespace TypeTable

def made (t : TypeTable) : Nat → Set Tree
  | 0 => {x | ∃ ty, t.Has ty ∧ x = t.tree ty}
  | n + 1 => t.made n ∪ {x | ∃ ty form, t.Has ty ∧ x = .node form ∧ form.kind ∈ [Kind.array, .generic, .function] ∧
      form.shape = ((t.lookup ty).map t.text id).shape ∧ ∀ p ∈ form.parts, p ∈ unions (t.made n)}

variable (t : TypeTable)

theorem made_mono {m : Nat} (h : n ≤ m) : t.made n ⊆ t.made m :=
  monotone_nat_of_le_succ (fun n => by rw [made]; exact Set.subset_union_left) h

theorem finite_of_has (f : Ty → Set α) (hf : ∀ ty, t.Has ty → (f ty).Finite) :
    {x | ∃ ty, t.Has ty ∧ x ∈ f ty}.Finite := by
  refine ((Set.finite_lt_nat t.size).biUnion fun i hi => hf ⟨i⟩ hi).subset ?_
  rintro x ⟨ty, hty, hx⟩
  exact Set.mem_biUnion (show ty.index < t.size from hty) hx

theorem made_finite (n : Nat) : (t.made n).Finite := by
  induction n with
  | zero => exact t.finite_of_has (fun ty => {t.tree ty}) fun _ _ => Set.finite_singleton _
  | succ n ih =>
    refine ih.union (Set.Finite.subset (t.finite_of_has (fun ty => Tree.node '' {form : FormOf String Tree |
      form.shape = ((t.lookup ty).map t.text id).shape ∧ ∀ p ∈ form.parts, p ∈ unions (t.made n)}) fun ty _ =>
        (finite_forms _ (unions_finite ih)).image _) ?_)
    rintro x ⟨ty, form, hty, rfl, -, hshape, hparts⟩
    exact ⟨ty, hty, form, ⟨hshape, hparts⟩, rfl⟩

/-! ### Types of a table that grew -/

section
variable {t} {t' : TypeTable} (hw : t.WF) (hw' : t'.WF) (hx : t.Extends t') {ty z : Ty}
include hw hw' hx

theorem tree_old (hz : t.Has z) : t'.tree z ∈ t.made n :=
  t.made_mono (Nat.zero_le n) ⟨z, hz, hx.tree_eq hw hw' hz⟩

theorem old_of_made (hz : t'.Has z) (h : t'.tree z ∈ t.made n) :
    t.Has z ∨ t'.kind z ∈ [Kind.array, .generic, .function] := by
  induction n with
  | zero =>
    obtain ⟨_, hold, he⟩ := h
    rw [← hx.tree_eq hw hw' hold] at he
    exact .inl (hw'.eq_of_tree hz (hx.has hold) he ▸ hold)
  | succ n ih =>
    rcases h with h | ⟨-, form, -, he, hkind, -⟩
    · exact ih h
    · rw [hw'.toGrounded.tree_eq] at he
      cases he
      exact .inr (by rwa [kind_map] at hkind)

theorem members_made (hty : t'.Has ty) (h : t'.tree ty ∈ unions (t.made n)) (hz : z ∈ t'.members ty) :
    t'.tree z ∈ t.made n := by
  rcases h with h | ⟨l, he, -, hl⟩
  · rcases old_of_made hw hw' hx hty h with hold | hkind
    · rw [hx.members hold] at hz
      exact tree_old hw hw' hx (hw.member_has hold hz)
    · rw [members_eq_self (fun hunion => by rw [hunion] at hkind; simp at hkind)] at hz
      obtain rfl := mem_singleton.1 hz
      exact h
  · rw [hw'.toGrounded.tree_eq] at he
    have he := Tree.node.inj he
    unfold members at hz
    cases hform : t'.lookup ty with
    | union =>
      rw [hform] at he hz
      obtain rfl := union.inj he
      exact hl _ (mem_map_of_mem hz)
    | _ => rw [hform] at he; cases he

omit hw hx in
theorem union_made {l : List Ty} (hl : t'.lookup ty = .union l) (hn : l.Nodup) (h : ∀ z ∈ l, t'.tree z ∈ t.made n) :
    t'.tree ty ∈ unions (t.made n) := by
  refine .inr ⟨l.map t'.tree, ?_, ?_, by simpa using h⟩
  · rw [hw'.toGrounded.tree_eq, hl]
    rfl
  · refine List.Nodup.map_on (fun a ha b hb he => ?_) hn
    exact hw'.eq_of_tree (hw'.part_has hl ha) (hw'.part_has hl hb) he

theorem shape_made (hty : t.Has ty) {r : Ty} (hkind : t.kind ty ∈ [Kind.array, .generic, .function])
    (hs : (t'.lookup r).shape = (t.lookup ty).shape)
    (hparts : ∀ p ∈ (t'.lookup r).parts, t'.tree p ∈ unions (t.made n)) : t'.tree r ∈ t.made (n + 1) := by
  refine .inr ⟨ty, (t'.lookup r).map t'.text t'.tree, hty, hw'.toGrounded.tree_eq r, ?_, ?_, ?_⟩
  · rw [kind_map, ← kind_shape, hs, kind_shape]
    exact hkind
  · rw [shape_map, shape_map]
    refine FormOf.map_transfer hs ?_ fun _ _ _ _ => id
    rintro a - b hb rfl
    exact hx.text (hw.hasSymbol hb)
  · rw [FormOf.parts_map]
    simpa using hparts
end

end TypeTable

/-! ## Joining what is made -/

def Session.Decides [Solvers] (ctx : Context) (s : Session) : Prop :=
  ∀ u : Session, u.Past ctx s → ∀ x y, u.types.Has x → u.types.Has y → u.Stops ctx fun S => S.subsumes x y

section
variable [Solvers] {ctx : Context} {s : Session} (hw : s.types.WF) (hc : s.Decides ctx)
include hw hc

theorem joins_has : s.Joins ctx Has Has where
  types := hw
  later _ _ _ hv _ := hv.grown.has
  wholeLater _ _ _ hv _ := hv.grown.has
  has _ _ _ := id
  void _ hu := (hu.types.lookup_builtin _ rfl).1
  nil _ hu := (hu.types.lookup_builtin _ rfl).1
  boolean _ hu _ _ _ := (hu.types.lookup_builtin _ rfl).1
  members _ hu _ hty _ hz := hu.types.member_has hty hz
  single _ _ _ := id
  union _ _ _ _ hl _ _ := has_of hl
  subsumes := hc

theorem ends_resultAt_has {ty : Ty} (hty : s.types.Has ty) (position : Nat) :
    s.Ends ctx (·.resultAt ty position) fun r u => u.types.Has r :=
  ends_resultAt (joins_has hw hc)
    (fun _ hu _ _ _ _ hl _ hp => hu.types.part_has hl hp) hty position

variable {X : TypeTable → Ty → Prop} (hold : ∀ u : Session, u.Past ctx s → ∀ z, s.types.Has z → X u.types z)
  (hlater : ∀ u v : Session, u.Past ctx s → v.Past ctx u → ∀ z, u.types.Has z → X u.types z → X v.types z)
include hold hlater

/-- What is made of old types with up to `n` layers can be joined, and so can those of it that have `X`. -/
theorem joins_made (n : Nat) : s.Joins ctx (fun t z => t.Has z ∧ t.tree z ∈ s.types.made n ∧ X t z)
    fun t ty => t.Has ty ∧ t.tree ty ∈ unions (s.types.made n) ∧ ∀ z ∈ t.members ty, X t z where
  types := hw
  later u v hu hv z hz := by
    refine ⟨hv.grown.has hz.1, ?_, hlater u v hu hv z hz.1 hz.2.2⟩
    rw [hv.grown.tree_eq hu.types hv.types hz.1]
    exact hz.2.1
  wholeLater u v hu hv ty hty := by
    refine ⟨hv.grown.has hty.1, ?_, fun z hz => ?_⟩
    · rw [hv.grown.tree_eq hu.types hv.types hty.1]
      exact hty.2.1
    · rw [hv.grown.members hty.1] at hz
      exact hlater u v hu hv z (hu.types.member_has hty.1 hz) (hty.2.2 z hz)
  has _ _ _ hz := hz.1
  void u hu := by
    have h := (hw.lookup_builtin Ty.void rfl).1
    exact ⟨hu.grown.has h, tree_old hw hu.types hu.grown h, hold u hu _ h⟩
  nil u hu := by
    have h := (hw.lookup_builtin Ty.nil rfl).1
    exact ⟨hu.grown.has h, tree_old hw hu.types hu.grown h, hold u hu _ h⟩
  boolean u hu _ _ _ := by
    have h := (hw.lookup_builtin Ty.boolean rfl).1
    exact ⟨hu.grown.has h, tree_old hw hu.types hu.grown h, hold u hu _ h⟩
  members u hu ty hty z hz :=
    ⟨hu.types.member_has hty.1 hz, members_made hw hu.types hu.grown hty.1 hty.2.1 hz, hty.2.2 z hz⟩
  single u hu z hz := by
    refine ⟨hz.1, .inl hz.2.1, fun x hx => ?_⟩
    rcases old_of_made hw hu.types hu.grown hz.1 hz.2.1 with h | hkind
    · rw [hu.grown.members h] at hx
      exact hold u hu x (hw.member_has h hx)
    · rw [members_eq_self (fun hunion => by rw [hunion] at hkind; simp at hkind)] at hx
      obtain rfl := mem_singleton.1 hx
      exact hz.2.2
  union u hu ty l hl hn hz := by
    refine ⟨has_of hl,
      union_made hu.types hl hn fun z hm => (hz z hm).2.1, ?_⟩
    unfold members
    rw [hl]
    exact fun z hm => (hz z hm).2.2
  subsumes u hu x y hx hy := hc u hu x y hx.1 hy.1

theorem ends_resultAt_made {u : Session} (hu : u.Past ctx s) {ty : Ty} (hty : u.types.Has ty)
    (hmade : u.types.tree ty ∈ unions (s.types.made n)) (hX : ∀ z ∈ u.types.members ty, X u.types z) (position : Nat) :
    u.Ends ctx (·.resultAt ty position) fun r v =>
      v.types.Has r ∧ v.types.tree r ∈ unions (s.types.made n) ∧ ∀ z ∈ v.types.members r, X v.types z := by
  have hj := (joins_made hw hc hold hlater n).at hu
  refine ends_resultAt hj (fun v hv z _ _ hz hl p hp => ?_) ⟨hty, hmade, hX⟩ position
  -- no list is made, so it is an old one
  have hv := hu.trans hv
  rcases old_of_made hw hv.types hv.grown hz.1 hz.2.1 with h | hkind
  · rw [hv.grown.lookup h] at hl
    have hp := (hw.part_has hl hp)
    refine ⟨hv.grown.has hp, .inl (tree_old hw hv.types hv.grown hp), fun x hx => ?_⟩
    rw [hv.grown.members hp] at hx
    exact hold v hv x (hw.member_has hp hx)
  · rw [kind_of hl] at hkind
    simp at hkind
end

end AnnotatedLua
