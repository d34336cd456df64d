/-
Forms as containers. Two forms that become the same when their names and types are replaced become the same under any
replacement that tells no more of them apart (`FormOf.map_transfer`).
-/
import AnnotatedLua.Type.Form
import Mathlib.Data.List.Forall2

namespace AnnotatedLua

open FormOf SignatureOf List

variable {ν ν' τ τ' α β : Type}

/-! ## Lists and options -/

theorem map_eq_transfer {f : τ → α} {f' : τ' → α} {g : τ → β} {g' : τ' → β} :
    ∀ {l : List τ} {l' : List τ'}, l.map f = l'.map f' →
      (∀ a ∈ l, ∀ b ∈ l', f a = f' b → g a = g' b) → l.map g = l'.map g'
  | [], [], _, _ => rfl
  | [], _ :: _, h, _ => by simp at h
  | _ :: _, [], h, _ => by simp at h
  | a :: l, b :: l', h, hg => by
    simp only [map_cons, cons.injEq] at h ⊢
    exact ⟨hg a (by simp) b (by simp) h.1,
      map_eq_transfer h.2 fun x hx y hy => hg x (by simp [hx]) y (by simp [hy])⟩

theorem option_map_eq_transfer {f : τ → α} {f' : τ' → α} {g : τ → β} {g' : τ' → β}
    {o : Option τ} {o' : Option τ'} (h : o.map f = o'.map f')
    (hg : ∀ a ∈ o, ∀ b ∈ o', f a = f' b → g a = g' b) : o.map g = o'.map g' := by
  cases o <;> cases o' <;> simp_all

/-! ## Parts, names and replacement -/

namespace ParameterOf

def map (f : ν → ν') (g : τ → τ') (p : ParameterOf ν τ) : ParameterOf ν' τ' :=
  ⟨f p.name, p.type.map g, p.optional⟩

end ParameterOf

namespace SignatureOf

def parts (s : SignatureOf ν τ) : List τ :=
  s.typeParams ++ s.params.flatMap (fun p => p.type.toList) ++ s.variadic.toList ++ s.returns.toList

def names (s : SignatureOf ν τ) : List ν := s.params.map ParameterOf.name

def map (f : ν → ν') (g : τ → τ') (s : SignatureOf ν τ) : SignatureOf ν' τ' where
  colon := s.colon
  typeParams := s.typeParams.map g
  params := s.params.map (ParameterOf.map f g)
  variadic := s.variadic.map g
  returns := s.returns.map g

def lengths (s : SignatureOf ν τ) : List Nat := [s.typeParams.length, s.params.length]

end SignatureOf

namespace FormOf

attribute [simp] kind

@[simp]
def parts : FormOf ν τ → List τ
  | .any => []
  | .nil => []
  | .void => []
  | .primitive _ => []
  | .literal _ _ => []
  | .array element => [element]
  | .classRef _ _ => []
  | .aliasRef _ params target => params ++ [target]
  | .union members => members
  | .generic base args => base :: args
  | .function main overloads _ => (main :: overloads).flatMap SignatureOf.parts
  | .results types _ => types
  | .param _ _ bound => bound.toList
  | .snippet _ => []

@[simp]
def names : FormOf ν τ → List ν
  | .any => []
  | .nil => []
  | .void => []
  | .primitive _ => []
  | .literal _ text => [text]
  | .array _ => []
  | .classRef name _ => [name]
  | .aliasRef name _ _ => [name]
  | .union _ => []
  | .generic _ _ => []
  | .function main overloads _ => (main :: overloads).flatMap SignatureOf.names
  | .results _ _ => []
  | .param name written _ => [name, written]
  | .snippet text => [text]

def map (f : ν → ν') (g : τ → τ') : FormOf ν τ → FormOf ν' τ'
  | .any => .any
  | .nil => .nil
  | .void => .void
  | .primitive kind => .primitive kind
  | .literal kind text => .literal kind (f text)
  | .array element => .array (g element)
  | .classRef name marks => .classRef (f name) marks
  | .aliasRef name params target => .aliasRef (f name) (params.map g) (g target)
  | .union members => .union (members.map g)
  | .generic base args => .generic (g base) (args.map g)
  | .function main overloads marks => .function (main.map f g) (overloads.map (·.map f g)) marks
  | .results types variadic => .results (types.map g) variadic
  | .param name written bound => .param (f name) (f written) (bound.map g)
  | .snippet text => .snippet (f text)

def lengths : FormOf ν τ → List Nat
  | .aliasRef _ params _ => [params.length]
  | .union members => [members.length]
  | .generic _ args => [args.length]
  | .function main overloads _ => overloads.length :: (main :: overloads).flatMap SignatureOf.lengths
  | .results types _ => [types.length]
  | _ => []

end FormOf

/-! ## Transfer -/

section
variable {ν'' τ'' ν1 τ1 : Type} {f : ν → ν''} {f' : ν' → ν''} {g : τ → τ''} {g' : τ' → τ''}
  {k : ν → ν1} {k' : ν' → ν1} {h : τ → τ1} {h' : τ' → τ1}

theorem ParameterOf.map_transfer {p : ParameterOf ν τ} {q : ParameterOf ν' τ'}
    (e : p.map f g = q.map f' g') (hn : f p.name = f' q.name → k p.name = k' q.name)
    (hp : ∀ a ∈ p.type, ∀ b ∈ q.type, g a = g' b → h a = h' b) : p.map k h = q.map k' h' := by
  simp only [ParameterOf.map, ParameterOf.mk.injEq] at e ⊢
  exact ⟨hn e.1, option_map_eq_transfer e.2.1 hp, e.2.2⟩

theorem SignatureOf.map_transfer {s : SignatureOf ν τ} {u : SignatureOf ν' τ'} (e : s.map f g = u.map f' g')
    (hn : ∀ a ∈ s.names, ∀ b ∈ u.names, f a = f' b → k a = k' b)
    (hp : ∀ a ∈ s.parts, ∀ b ∈ u.parts, g a = g' b → h a = h' b) : s.map k h = u.map k' h' := by
  simp only [map, mk.injEq] at e ⊢
  obtain ⟨e1, e2, e3, e4, e5⟩ := e
  simp only [parts, mem_append, mem_flatMap, Option.mem_toList] at hp
  simp only [names, mem_map] at hn
  refine ⟨e1, map_eq_transfer e2 fun a ha b hb => hp a (by simp [ha]) b (by simp [hb]),
    map_eq_transfer e3 fun p hm q hq he => ?_,
    option_map_eq_transfer e4 fun a ha b hb => hp a (.inl (.inr ha)) b (.inl (.inr hb)),
    option_map_eq_transfer e5 fun a ha b hb => hp a (.inr ha) b (.inr hb)⟩
  exact ParameterOf.map_transfer he (hn p.name ⟨p, hm, rfl⟩ q.name ⟨q, hq, rfl⟩)
    fun a ha b hb => hp a (.inl (.inl (.inr ⟨p, hm, ha⟩))) b (.inl (.inl (.inr ⟨q, hq, hb⟩)))

theorem FormOf.map_transfer {a : FormOf ν τ} {b : FormOf ν' τ'} (e : a.map f g = b.map f' g')
    (hn : ∀ x ∈ a.names, ∀ y ∈ b.names, f x = f' y → k x = k' y)
    (hp : ∀ x ∈ a.parts, ∀ y ∈ b.parts, g x = g' y → h x = h' y) : a.map k h = b.map k' h' := by
  cases a <;> cases b <;> simp only [map, reduceCtorEq] at e ⊢
  case primitive.primitive => simp only [primitive.injEq] at e ⊢; exact e
  case literal.literal =>
    simp only [literal.injEq] at e ⊢
    exact ⟨e.1, hn _ (by simp) _ (by simp) e.2⟩
  case array.array =>
    simp only [array.injEq] at e ⊢
    exact hp _ (by simp) _ (by simp) e
  case classRef.classRef =>
    simp only [classRef.injEq] at e ⊢
    exact ⟨hn _ (by simp) _ (by simp) e.1, e.2⟩
  case aliasRef.aliasRef =>
    simp only [aliasRef.injEq] at e ⊢
    simp only [parts, mem_append, mem_singleton] at hp
    exact ⟨hn _ (by simp) _ (by simp) e.1,
      map_eq_transfer e.2.1 fun x hx y hy => hp x (.inl hx) y (.inl hy),
      hp _ (.inr rfl) _ (.inr rfl) e.2.2⟩
  case union.union =>
    simp only [union.injEq] at e ⊢
    exact map_eq_transfer e hp
  case generic.generic =>
    simp only [generic.injEq] at e ⊢
    simp only [parts, mem_cons] at hp
    exact ⟨hp _ (.inl rfl) _ (.inl rfl) e.1,
      map_eq_transfer e.2 fun x hx y hy => hp x (.inr hx) y (.inr hy)⟩
  case function.function main overloads _ main' overloads' _ =>
    simp only [function.injEq] at e ⊢
    simp only [parts, mem_flatMap, mem_cons] at hp
    simp only [names, mem_flatMap, mem_cons] at hn
    refine ⟨SignatureOf.map_transfer e.1 (fun x hx y hy => hn x ⟨_, .inl rfl, hx⟩ y ⟨_, .inl rfl, hy⟩)
      (fun x hx y hy => hp x ⟨_, .inl rfl, hx⟩ y ⟨_, .inl rfl, hy⟩),
      map_eq_transfer e.2.1 fun s hs u hu he => ?_, e.2.2⟩
    exact SignatureOf.map_transfer he (fun x hx y hy => hn x ⟨s, .inr hs, hx⟩ y ⟨u, .inr hu, hy⟩)
      (fun x hx y hy => hp x ⟨s, .inr hs, hx⟩ y ⟨u, .inr hu, hy⟩)
  case results.results =>
    simp only [results.injEq] at e ⊢
    exact ⟨map_eq_transfer e.1 hp, e.2⟩
  case param.param =>
    simp only [param.injEq] at e ⊢
    simp only [parts, Option.mem_toList] at hp
    exact ⟨hn _ (by simp) _ (by simp) e.1,
      hn _ (by simp) _ (by simp) e.2.1, option_map_eq_transfer e.2.2 hp⟩
  case snippet.snippet =>
    simp only [snippet.injEq] at e ⊢
    exact hn _ (by simp) _ (by simp) e
end

namespace FormOf

theorem map_congr {f k : ν → ν'} {g h : τ → τ'} {a : FormOf ν τ} (hn : ∀ x ∈ a.names, f x = k x)
    (hp : ∀ x ∈ a.parts, g x = h x) : a.map f g = a.map k h :=
  map_transfer (show a.map id id = a.map id id from rfl)
    (by rintro x hx y - rfl; exact hn x hx) (by rintro x hx y - rfl; exact hp x hx)

@[simp] theorem map_id (a : FormOf ν τ) : a.map id id = a := by
  have hs : ∀ s : SignatureOf ν τ, s.map id id = s := by
    intro s
    have : (ParameterOf.map id id : ParameterOf ν τ → ParameterOf ν τ) = id := by
      funext p; simp [ParameterOf.map]
    simp [SignatureOf.map, this]
  cases a <;> simp [map, hs]

theorem map_injOn {f : ν → ν'} {g : τ → τ'} {a b : FormOf ν τ} (e : a.map f g = b.map f g)
    (hn : ∀ x ∈ a.names, ∀ y ∈ b.names, f x = f y → x = y)
    (hp : ∀ x ∈ a.parts, ∀ y ∈ b.parts, g x = g y → x = y) : a = b := by
  have : a.map id id = b.map id id := map_transfer e hn hp
  simpa using this

@[simp] theorem kind_map (f : ν → ν') (g : τ → τ') (a : FormOf ν τ) : (a.map f g).kind = a.kind := by
  cases a <;> rfl

@[simp] theorem marks_map (f : ν → ν') (g : τ → τ') (a : FormOf ν τ) : (a.map f g).marks = a.marks := by
  cases a <;> rfl

end FormOf

end AnnotatedLua
