/-
Two runs side by side. One type has a different handle in each run. A pairing says which handles stand for the same
thing, and is carried over to everything that is made of handles (`Same`).
-/
import AnnotatedLua.Proofs.Type.Table
import Mathlib.Data.Option.Basic

namespace AnnotatedLua

open List

variable {p : Pairing} {α β : Type}

/-! ## Pairings -/

/-- Which handles of two runs stand for the same. The builtin types have the same handles in both. -/
structure Pairing where
  type : Ty → Ty → Prop
  symbol : Symbol → Symbol → Prop
  builtin : ∀ ty : Ty, ty.isBuiltin = true → type ty ty
  type_iff : ∀ {a a' b b' : Ty}, type a a' → type b b' → (a = b ↔ a' = b')
  symbol_iff : ∀ {a a' b b' : Symbol}, symbol a a' → symbol b b' → (a = b ↔ a' = b')

namespace Pairing

def eq : Pairing where
  type := Eq
  symbol := Eq
  builtin _ _ := rfl
  type_iff := by rintro a _ b _ rfl rfl; rfl
  symbol_iff := by rintro a _ b _ rfl rfl; rfl

class After (p : outParam Pairing) (q : Pairing) : Prop where
  type : ∀ {a a' : Ty}, p.type a a' → q.type a a'
  symbol : ∀ {a a' : Symbol}, p.symbol a a' → q.symbol a a'

theorem After.refl (p : Pairing) : p.After p := ⟨id, id⟩

theorem After.trans {q r : Pairing} (h : p.After q) (h' : q.After r) : p.After r :=
  ⟨h'.type ∘ h.type, h'.symbol ∘ h.symbol⟩

end Pairing

/-! ## Values -/

/-- How a pairing of handles is carried over to a type. -/
class Value (α : Type) where
  same : Pairing → α → α → Prop
  later : ∀ {p q : Pairing} [p.After q] {a a' : α}, same p a a' → same q a a'
  eq_iff : ∀ {a a' : α}, same .eq a a' ↔ a = a'

/-- The value of the one run and that of the other are the same. -/
class Same {α : Type} [Value α] (p : Pairing) (a a' : α) : Prop where
  out : Value.same p a a'

instance (priority := low) Same.later {α : Type} [Value α] {p q : Pairing} [p.After q] {a a' : α}
    [h : Same p a a'] : Same q a a' := ⟨Value.later h.out⟩

theorem Same.get [Value α] (p : Pairing) (a a' : α) [h : Same p a a'] : Same p a a' := h

variable {a a' : α}

theorem Same.upTo [Value α] (_ : Same p a a') (q : Pairing) [p.After q] :
    Same q a a' := inferInstance

theorem same_eq_iff [Value α] : Same .eq a a' ↔ a = a' :=
  ⟨fun h => Value.eq_iff.1 h.out, fun h => ⟨Value.eq_iff.2 h⟩⟩

instance {α : Type} [Value α] {a : α} : Same .eq a a := same_eq_iff.2 rfl

theorem same_eq [Value α] : (Same .eq : α → α → Prop) = Eq := by
  funext a a'
  exact propext same_eq_iff

namespace Value

/-- A type without handles. -/
@[reducible] def discrete (α : Type) : Value α where
  same _ := Eq
  later h := h
  eq_iff := Iff.rfl

/-- A type whose values are given by their parts. -/
@[reducible] def via {α β : Type} [Value β] (parts : α → β) (inj : Function.Injective parts) : Value α where
  same p a a' := Value.same p (parts a) (parts a')
  later h := Value.later h
  eq_iff := by
    intro a a'
    rw [Value.eq_iff, inj.eq_iff]

end Value

instance : Value Ty where
  same p := p.type
  later h := Pairing.After.type h
  eq_iff := Iff.rfl

instance : Value Symbol where
  same p := p.symbol
  later h := Pairing.After.symbol h
  eq_iff := Iff.rfl

instance : Value Unit := .discrete _
instance : Value Bool := .discrete _
instance : Value Nat := .discrete _
instance : Value Int := .discrete _
instance : Value String := .discrete _
instance : Value Node := .discrete _
instance : Value Kind := .discrete _
instance : Value Primitive := .discrete _
instance : Value Marks := .discrete _

instance {α : Type} [Value α] : Value (List α) where
  same p := List.Forall₂ (Same p)
  later h := h.imp fun _ _ h => h.upTo _
  eq_iff := by rw [same_eq, forall₂_eq_eq_eq]

instance {α : Type} [Value α] : Value (Option α) where
  same p := Option.Rel (Same p)
  later h := by
    cases h with
    | none => exact .none
    | some => exact .some inferInstance
  eq_iff {o o'} := by
    rw [same_eq]
    constructor
    · rintro (rfl | _) <;> rfl
    · rintro rfl
      cases o with
      | none => exact .none
      | some => exact .some rfl

instance {α β : Type} [Value α] [Value β] : Value (α × β) where
  same p x x' := Same p x.1 x'.1 ∧ Same p x.2 x'.2
  later h := by
    obtain ⟨_, _⟩ := h
    exact ⟨inferInstance, inferInstance⟩
  eq_iff := by
    intro x x'
    rw [same_eq_iff, same_eq_iff, Prod.ext_iff]

instance {α β : Type} [Value α] [Value β] : Value (α ⊕ β) where
  same p := Sum.LiftRel (Same p) (Same p)
  later h := by
    cases h with
    | inl => exact .inl inferInstance
    | inr => exact .inr inferInstance
  eq_iff {x x'} := by
    rw [same_eq, same_eq]
    constructor
    · rintro (rfl | rfl) <;> rfl
    · rintro rfl
      cases x with
      | inl => exact .inl rfl
      | inr => exact .inr rfl

/-! ## Equality -/

/-- A type without handles: the same values are equal. -/
class Discrete (α : Type) [Value α] : Prop where
  iff : ∀ {p : Pairing} {a a' : α}, Value.same p a a' ↔ a = a'

/-- Two values of the one run are equal if those of the other are. -/
class Faithful (α : Type) [Value α] : Prop where
  iff : ∀ {p : Pairing} {a a' b b' : α}, Same p a a' → Same p b b' → (a = b ↔ a' = b')

theorem Faithful.of_parts [Value α] [Value β] [Faithful β] (parts : α → β)
    (h : ∀ {p : Pairing} {a a' : α}, Value.same p a a' ↔ Value.same p (parts a) (parts a')) : Faithful α where
  iff ha hb := by
    have inj : ∀ {a a' : α}, a = a' ↔ parts a = parts a' := fun {_ _} => by
      rw [← Value.eq_iff, h, Value.eq_iff]
    rw [inj, inj]
    exact Faithful.iff ⟨h.1 ha.out⟩ ⟨h.1 hb.out⟩

theorem Same.eq [Value α] [Discrete α] (h : Same p a a') : a = a' :=
  Discrete.iff.1 h.out

instance : Discrete Unit := ⟨Iff.rfl⟩
instance : Discrete Bool := ⟨Iff.rfl⟩
instance : Discrete Nat := ⟨Iff.rfl⟩
instance : Discrete Int := ⟨Iff.rfl⟩
instance : Discrete String := ⟨Iff.rfl⟩
instance : Discrete Node := ⟨Iff.rfl⟩
instance : Discrete Kind := ⟨Iff.rfl⟩
instance : Discrete Primitive := ⟨Iff.rfl⟩
instance : Discrete Marks := ⟨Iff.rfl⟩

section
variable [Value α] [Value β]

instance [Discrete α] {a : α} : Same p a a := ⟨Discrete.iff.2 rfl⟩

theorem Discrete.same_eq [Discrete α] : (Same p : α → α → Prop) = Eq := by
  funext a a'
  exact propext ⟨fun h => h.eq, fun h => h ▸ inferInstance⟩

instance [Discrete α] : Discrete (List α) where
  iff := by
    intro p l l'
    show List.Forall₂ (Same p) l l' ↔ l = l'
    rw [Discrete.same_eq, forall₂_eq_eq_eq]

instance [Discrete α] : Discrete (Option α) where
  iff := by
    intro p o o'
    show Option.Rel (Same p) o o' ↔ o = o'
    rw [Discrete.same_eq, ← AnnotatedLua.same_eq (α := α)]
    exact Value.eq_iff (α := Option α)

instance [Discrete α] [Discrete β] : Discrete (α × β) where
  iff := by
    intro p x x'
    show Same p x.1 x'.1 ∧ Same p x.2 x'.2 ↔ x = x'
    rw [Discrete.same_eq, Discrete.same_eq, Prod.ext_iff]

instance [Discrete α] [Discrete β] : Discrete (α ⊕ β) where
  iff := by
    intro p x x'
    show Sum.LiftRel (Same p) (Same p) x x' ↔ x = x'
    rw [Discrete.same_eq, Discrete.same_eq, ← AnnotatedLua.same_eq (α := α), ← AnnotatedLua.same_eq (α := β)]
    exact Value.eq_iff (α := α ⊕ β)

instance : Faithful Ty := ⟨fun h h' => Pairing.type_iff _ h.out h'.out⟩

instance : Faithful Symbol := ⟨fun h h' => Pairing.symbol_iff _ h.out h'.out⟩

instance (priority := low) [Discrete α] : Faithful α := ⟨fun h h' => by rw [h.eq, h'.eq]⟩

instance [Faithful α] : Faithful (Option α) where
  iff := by
    rintro p a a' b b' ⟨h⟩ ⟨h'⟩
    cases h with
    | none => cases h' <;> simp
    | some h =>
      cases h' with
      | none => simp
      | some h' => simp [Faithful.iff h h']

instance [Faithful α] [Faithful β] : Faithful (α × β) where
  iff := by
    rintro p a a' b b' ⟨h⟩ ⟨h'⟩
    rw [Prod.ext_iff, Prod.ext_iff, Faithful.iff h.1 h'.1, Faithful.iff h.2 h'.2]

instance [Faithful α] : Faithful (List α) where
  iff := by
    rintro p a a' b b' ⟨h⟩ ⟨h'⟩
    induction h generalizing b b' with
    | nil => cases h' <;> simp
    | cons h _ ih =>
      cases h' with
      | nil => simp
      | cons h' hr => simp [Faithful.iff h h', ih hr]
end

/-! ## Conditions -/

class SameProp (p : Pairing) (c c' : Prop) : Prop where
  iff : c ↔ c'

section
variable [Value α] {c c' d d' : Prop}

instance [Faithful α] {a a' b b' : α} [h : Same p a a'] [k : Same p b b'] : SameProp p (a = b) (a' = b') :=
  ⟨Faithful.iff h k⟩

instance [Faithful α] {a a' b b' : α} [h : Same p a a'] [k : Same p b b'] : SameProp p (a ≠ b) (a' ≠ b') :=
  ⟨not_congr (Faithful.iff h k)⟩

instance [h : SameProp p c c'] [k : SameProp p d d'] : SameProp p (c ∧ d) (c' ∧ d') :=
  ⟨and_congr h.iff k.iff⟩

instance {m m' n n' : Nat} [h : Same p m m'] [k : Same p n n'] : SameProp p (m < n) (m' < n') :=
  ⟨by rw [h.eq, k.eq]⟩

instance {m m' n n' : Nat} [h : Same p m m'] [k : Same p n n'] : SameProp p (m ≤ n) (m' ≤ n') :=
  ⟨by rw [h.eq, k.eq]⟩

instance [Decidable c] [Decidable c'] [h : SameProp p c c'] : Same p (decide c) (decide c') :=
  ⟨decide_eq_decide.2 h.iff⟩

instance [Decidable c] [Decidable c'] {a a' b b' : α} [h : SameProp p c c'] [Same p a a'] [Same p b b'] :
    Same p (if c then a else b) (if c' then a' else b') := by
  by_cases hc : c
  · rw [if_pos hc, if_pos (h.iff.1 hc)]; infer_instance
  · rw [if_neg hc, if_neg (mt h.iff.2 hc)]; infer_instance

instance {b b' : Bool} [h : Same p b b'] : Same p (!b) (!b') := ⟨congrArg _ h.eq⟩

instance {b b' d d' : Bool} [h : Same p b b'] [k : Same p d d'] : Same p (b && d) (b' && d') :=
  ⟨congrArg₂ _ h.eq k.eq⟩

instance {b b' d d' : Bool} [h : Same p b b'] [k : Same p d d'] : Same p (b || d) (b' || d') :=
  ⟨congrArg₂ _ h.eq k.eq⟩

instance [Faithful α] [BEq α] [LawfulBEq α] {a a' b b' : α} [h : Same p a a'] [k : Same p b b'] :
    Same p (a == b) (a' == b') :=
  ⟨Bool.eq_iff_iff.2 (by simpa using Faithful.iff h k)⟩

instance [Faithful α] [BEq α] [LawfulBEq α] {a a' b b' : α} [Same p a a'] [Same p b b'] :
    Same p (a != b) (a' != b') :=
  inferInstanceAs (Same p (!(a == b)) (!(a' == b')))

instance {m m' n n' : Nat} [h : Same p m m'] [k : Same p n n'] : Same p (m + n) (m' + n') :=
  ⟨congrArg₂ _ h.eq k.eq⟩

instance {m m' n n' : Nat} [h : Same p m m'] [k : Same p n n'] : Same p (m - n) (m' - n') :=
  ⟨congrArg₂ _ h.eq k.eq⟩
end

/-! ## Pairs, options and lists -/

section
variable [Value α] [Value β]

instance {a a' : α} {b b' : β} [h : Same p a a'] [k : Same p b b'] : Same p (a, b) (a', b') := ⟨⟨h, k⟩⟩

instance {x x' : α × β} [h : Same p x x'] : Same p x.1 x'.1 := h.out.1

instance {x x' : α × β} [h : Same p x x'] : Same p x.2 x'.2 := h.out.2

/-! ### Options -/

instance : Same p (none : Option α) none := ⟨.none⟩

instance {a a' : α} [h : Same p a a'] : Same p (some a) (some a') := ⟨.some h⟩

variable {o o' : Option α}

/-- The same options are both absent or hold the same. -/
@[elab_as_elim]
theorem Same.option {motive : Option α → Option α → Prop} (h : Same p o o')
    (none : motive none none) (some : ∀ (a a' : α) [Same p a a'], motive (some a) (some a')) : motive o o' := by
  obtain ⟨h | _⟩ := h
  · exact some _ _
  · exact none

theorem Same.option_cases (h : Same p o o') :
    (o = none ∧ o' = none) ∨ ∃ a a', o = some a ∧ o' = some a' ∧ Same p a a' :=
  h.option (.inl ⟨rfl, rfl⟩) fun a a' h => .inr ⟨a, a', rfl, rfl, h⟩

theorem Same.of_some {a a' : α} (h : Same p (some a) (some a')) : Same p a a' := by
  obtain ⟨⟨h⟩⟩ := h
  exact h

section
variable [h : Same p o o']

instance {a a' : α} [k : Same p a a'] : Same p (o.getD a) (o'.getD a') :=
  h.option k fun _ _ h => h

instance : Same p o.isSome o'.isSome :=
  h.option inferInstance fun _ _ _ => inferInstanceAs (Same p true true)

instance : Same p o.isNone o'.isNone :=
  h.option inferInstance fun _ _ _ => inferInstanceAs (Same p false false)

instance : Same p o.toList o'.toList :=
  ⟨h.option .nil fun _ _ k => .cons k .nil⟩

instance {k k' : Option α} [hk : Same p k k'] : Same p (o.or k) (o'.or k') :=
  h.option (by simpa using hk) fun _ _ _ => by simp only [Option.some_or]; infer_instance

instance {o o' : Option (Option α)} [h : Same p o o'] : Same p o.join o'.join :=
  h.option ⟨.none⟩ fun _ _ k => k

theorem Same.mapOption {f f' : α → β}
    (hf : ∀ (a a' : α) [Same p a a'], Same p (f a) (f' a')) : Same p (o.map f) (o'.map f') :=
  ⟨h.option .none fun a a' _ => .some (hf a a')⟩

theorem Same.bindOption {f f' : α → Option β}
    (hf : ∀ (a a' : α) [Same p a a'], Same p (f a) (f' a')) : Same p (o.bind f) (o'.bind f') :=
  h.option ⟨.none⟩ fun a a' _ => hf a a'
end

/-! ### Lists -/

instance : Same p ([] : List α) [] := ⟨.nil⟩

instance {a a' : α} {l l' : List α} [h : Same p a a'] [k : Same p l l'] : Same p (a :: l) (a' :: l') :=
  ⟨.cons h k.out⟩

variable {motive : List α → List α → Prop} {l l' : List α}

/-- The same lists are both empty or have the same first element. -/
@[elab_as_elim]
theorem Same.list (h : Same p l l') (nil : motive [] [])
    (cons : ∀ (a a' : α) (l l' : List α) [Same p a a'] [Same p l l'], motive (a :: l) (a' :: l')) : motive l l' := by
  obtain ⟨_ | ⟨h, k⟩⟩ := h
  · exact nil
  · have : Same p (_ : List α) _ := ⟨k⟩
    exact cons _ _ _ _

@[elab_as_elim]
theorem Same.induction (h : Same p l l') (nil : motive [] [])
    (cons : ∀ (a a' : α) (l l' : List α) [Same p a a'] [Same p l l'], motive l l' →
      motive (a :: l) (a' :: l')) : motive l l' := by
  obtain ⟨h⟩ := h
  induction h with
  | nil => exact nil
  | cons h k ih =>
    have : Same p (_ : List α) _ := ⟨k⟩
    exact cons _ _ _ _ ih

section
variable [h : Same p l l']

instance {k k' : List α} [hk : Same p k k'] : Same p (l ++ k) (l' ++ k') :=
  ⟨rel_append h.out hk.out⟩

instance : Same p l.length l'.length := ⟨h.out.length_eq⟩

instance : Same p l.isEmpty l'.isEmpty :=
  h.list inferInstance fun _ _ _ _ _ _ => inferInstanceAs (Same p false false)

instance : Same p l.tail l'.tail :=
  h.list ⟨.nil⟩ fun _ _ _ _ _ k => k

instance : Same p l.head? l'.head? :=
  h.list ⟨.none⟩ fun _ _ _ _ h _ => ⟨.some h⟩

instance : Same p l.reverse l'.reverse := ⟨rel_reverse h.out⟩

instance {n n' : Nat} [k : Same p n n'] : Same p l[n]? l'[n']? := by
  obtain rfl := k.eq
  refine h.induction (motive := fun l l' => ∀ n : Nat, Same p l[n]? l'[n]?) (fun n => ?_)
    (fun a a' l l' _ _ ih n => ?_) n
  · simp only [getElem?_nil]; infer_instance
  · cases n with
    | zero => simp only [getElem?_cons_zero]; infer_instance
    | succ n => simp only [getElem?_cons_succ]; exact ih n

instance : Same p l.getLast? l'.getLast? := by
  rw [getLast?_eq_getElem?, getLast?_eq_getElem?]
  infer_instance

instance {n n' : Nat} [k : Same p n n'] : Same p (l.take n) (l'.take n') := by
  obtain rfl := k.eq
  exact ⟨forall₂_take n h.out⟩

instance {n n' : Nat} [k : Same p n n'] : Same p (l.drop n) (l'.drop n') := by
  obtain rfl := k.eq
  exact ⟨forall₂_drop n h.out⟩

instance : Same p l.dropLast l'.dropLast := by
  rw [dropLast_eq_take, dropLast_eq_take]
  infer_instance

instance [Faithful α] [BEq α] [LawfulBEq α] {a a' : α} [k : Same p a a'] :
    Same p (l.contains a) (l'.contains a') :=
  h.induction ⟨rfl⟩ fun b b' l l' _ _ ih => by
    simp only [contains_cons]
    infer_instance

instance [Faithful α] [BEq α] [LawfulBEq α] {a a' : α} [k : Same p a a'] :
    Same p (l.erase a) (l'.erase a') :=
  h.induction ⟨.nil⟩ fun b b' l l' hb _ ih => by
    have hiff : b = a ↔ b' = a' := Faithful.iff hb k
    simp only [erase_cons, beq_iff_eq]
    infer_instance

instance {n n' : Nat} {a a' : α} [k : Same p n n'] [Same p a a'] :
    Same p (l.set n a) (l'.set n' a') := by
  obtain rfl := k.eq
  refine h.induction (motive := fun l l' => ∀ n : Nat, Same p (l.set n a) (l'.set n a')) (fun n => ?_)
    (fun b b' l l' _ _ ih n => ?_) n
  · simp only [set_nil]; infer_instance
  · have := ih (n - 1)
    cases n with
    | zero => simp only [set_cons_zero]; infer_instance
    | succ => simp only [set_cons_succ]; infer_instance

instance {k k' : List β} [hk : Same p k k'] : Same p (l.zip k) (l'.zip k') :=
  h.induction (motive := fun l l' => ∀ k k' : List β, Same p k k' → Same p (l.zip k) (l'.zip k'))
    (fun _ _ _ => by simp only [zip_nil_left]; infer_instance)
    (fun _ _ _ _ _ _ ih _ _ hk => hk.list (by simp only [zip_nil_right]; infer_instance)
      fun _ _ _ _ _ hk => by
        have := ih _ _ hk
        simp only [zip_cons_cons]; infer_instance) _ _ hk

instance {n n' : Nat} [k : Same p n n'] : Same p (l.zipIdx n) (l'.zipIdx n') := by
  obtain rfl := k.eq
  refine h.induction (motive := fun l l' => ∀ n : Nat, Same p (l.zipIdx n) (l'.zipIdx n)) (fun n => ?_)
    (fun a a' l l' _ _ ih n => ?_) n
  · simp only [zipIdx_nil]; infer_instance
  · have := ih (n + 1)
    simp only [zipIdx_cons]; infer_instance

instance [Faithful α] [BEq α] [LawfulBEq α] {l l' : List (α × β)} {a a' : α} [h : Same p l l']
    [k : Same p a a'] : Same p (l.lookup a) (l'.lookup a') :=
  h.induction ⟨.none⟩ fun x x' l l' hx _ ih => by
    have hiff : a = x.1 ↔ a' = x'.1 := Faithful.iff k inferInstance
    obtain ⟨b, c⟩ := x
    obtain ⟨b', c'⟩ := x'
    simp only [lookup_cons]
    by_cases hb : a = b
    · rw [beq_iff_eq.2 hb, beq_iff_eq.2 (hiff.1 hb)]
      exact ⟨.some hx.out.2⟩
    · rw [beq_eq_false_iff_ne.2 hb, beq_eq_false_iff_ne.2 (mt hiff.2 hb)]
      exact ih

theorem Same.map {f f' : α → β} (hf : ∀ (a a' : α) [Same p a a'], Same p (f a) (f' a')) :
    Same p (l.map f) (l'.map f') :=
  h.induction ⟨.nil⟩ fun a a' l _ _ _ ih => by
    have := hf a a'
    simp only [map_cons]; infer_instance

theorem Same.flatMap {f f' : α → List β} (hf : ∀ (a a' : α) [Same p a a'], Same p (f a) (f' a')) :
    Same p (l.flatMap f) (l'.flatMap f') :=
  h.induction ⟨.nil⟩ fun a a' l _ _ _ ih => by
    have := hf a a'
    simp only [flatMap_cons]; infer_instance

theorem Same.filterMap {f f' : α → Option β} (hf : ∀ (a a' : α) [Same p a a'], Same p (f a) (f' a')) :
    Same p (l.filterMap f) (l'.filterMap f') :=
  h.induction ⟨.nil⟩ fun a a' l _ _ _ ih => by
    simp only [filterMap_cons]
    refine (hf a a').option ?_ fun b _ _ => ?_ <;> simp only <;> infer_instance

theorem Same.foldl {f f' : β → α → β} {b b' : β} [k : Same p b b']
    (hf : ∀ (b b' : β) (a a' : α) [Same p b b'] [Same p a a'], Same p (f b a) (f' b' a')) :
    Same p (l.foldl f b) (l'.foldl f' b') :=
  h.induction (motive := fun l l' => ∀ b b' : β, Same p b b' → Same p (l.foldl f b) (l'.foldl f' b'))
    (fun _ _ k => k) (fun a a' _ _ _ _ ih b b' _ => ih _ _ (hf b b' a a')) _ _ k

variable {f f' : α → Bool} (hf : ∀ (a a' : α) [Same p a a'], Same p (f a) (f' a'))
include hf

theorem Same.filter : Same p (l.filter f) (l'.filter f') :=
  h.induction ⟨.nil⟩ fun a a' l _ _ _ ih => by
    have := hf a a'
    simp only [filter_cons]; infer_instance

theorem Same.any : Same p (l.any f) (l'.any f') :=
  h.induction ⟨rfl⟩ fun a a' l _ _ _ ih => by
    have := hf a a'
    simp only [any_cons]; infer_instance

theorem Same.all : Same p (l.all f) (l'.all f') :=
  h.induction ⟨rfl⟩ fun a a' l _ _ _ ih => by
    have := hf a a'
    simp only [all_cons]; infer_instance
end

end

end AnnotatedLua
