/-
Lists of sets of values, and how they are laid over each other. A value that one of the lists has in a position stays
there (`ValueList.mem_ofParts`), but for `nil` where a list repeats its last values, and for the first position if a
single type takes it.
-/
import AnnotatedLua.Proofs.Union.Canonical

namespace AnnotatedLua

open List

/-- A list of values: what the fixed positions hold, and what repeats after them. -/
structure ValueList where
  fixed : List (Set LuaValue)
  tail : Option (Set LuaValue) := none

inductive ListPart where
  | single (values : Set LuaValue)
  | list (l : ValueList)

def ListPart.values : ListPart → ValueList
  | .single values => { fixed := [values] }
  | .list l => l

namespace ValueList

/-- The values at a position. Beyond the fixed ones there may be none. -/
def get (l : ValueList) (i : Nat) : Set LuaValue := l.fixed[i]?.getD ({.nil} ∪ l.tail.getD ∅)

def share (l : ValueList) (i : Nat) : Set LuaValue := l.fixed[i]?.getD (l.tail.getD {.nil})

def overlay (fill : Set LuaValue) (beyond : Set LuaValue → Set LuaValue) :
    List (Set LuaValue) → List (Set LuaValue) → List (Set LuaValue)
  | old, [] => old.map (· ∪ fill)
  | [], next :: rest => (next :: rest).map beyond
  | values :: old, next :: rest => (values ∪ next) :: overlay fill beyond old rest

def join (l next : ValueList) : ValueList where
  fixed := overlay (next.tail.getD {.nil}) (fun values => l.tail.getD ∅ ∪ values ∪ {.nil}) l.fixed next.fixed
  tail := Option.merge (· ∪ ·) l.tail next.tail

def add (l : ValueList) : ListPart → ValueList
  | .single values => if l.fixed.isEmpty then { l with fixed := [values] } else l.join { fixed := [values] }
  | .list next => l.join next

def ofParts : List ListPart → ValueList
  | [] => { fixed := [] }
  | first :: rest => rest.foldl add first.values

variable {l next : ValueList} {part : ListPart} {value : LuaValue} {i : Nat}

/-! ## Two lists -/

section
variable (fill : Set LuaValue) (beyond : Set LuaValue → Set LuaValue) (old next : List (Set LuaValue))

theorem overlay_nil : overlay fill beyond old [] = old.map (· ∪ fill) := by
  cases old <;> rfl

theorem nil_overlay : overlay fill beyond [] next = next.map beyond := by
  cases next <;> rfl

theorem getElem?_overlay (i : Nat) : (overlay fill beyond old next)[i]? =
      if i < old.length then old[i]?.map (· ∪ next[i]?.getD fill) else next[i]?.map beyond := by
  induction old generalizing next i with
  | nil =>
    cases next with
    | nil => rfl
    | cons => exact getElem?_map
  | cons values old ih =>
    cases next with
    | nil =>
      rw [overlay_nil, getElem?_map]
      split
      · rfl
      · rw [getElem?_eq_none (by omega)]
        rfl
    | cons =>
      cases i with
      | zero => simp [overlay]
      | succ => simp [overlay, ih]

theorem length_overlay : (overlay fill beyond old next).length = max old.length next.length := by
  induction old generalizing next with
  | nil => cases next <;> simp [overlay]
  | cons values old ih => cases next <;> simp [overlay, ih]
end

theorem get_join (l next : ValueList) (i : Nat) :
    (l.join next).get i = l.get i ∪ if i < l.fixed.length then next.share i else next.get i := by
  have htail : (Option.merge (· ∪ ·) l.tail next.tail).getD ∅ = l.tail.getD ∅ ∪ next.tail.getD ∅ := by
    cases l.tail <;> cases next.tail <;> simp
  unfold get share join
  dsimp only
  rw [getElem?_overlay, htail]
  split
  · rename_i hi
    rw [getElem?_eq_getElem hi]
    rfl
  · rename_i hi
    rw [getElem?_eq_none (by omega : l.fixed.length ≤ i)]
    cases next.fixed[i]? with
    | some =>
      simp only [Option.map_some, Option.getD_some, Option.getD_none]
      ext value
      simp only [Set.mem_union]
      tauto
    | none =>
      simp only [Option.map_none, Option.getD_none]
      ext value
      simp only [Set.mem_union]
      tauto

/-! ## One member after the other -/

theorem add_cases (l : ValueList) (part : ListPart) : l.add part = l.join part.values ∨
    l.fixed = [] ∧ ∃ values, part = .single values ∧ l.add part = { fixed := [values], tail := l.tail } := by
  cases part with
  | list => exact .inl rfl
  | single values =>
    by_cases h : l.fixed = []
    · exact .inr ⟨h, values, rfl, if_pos (List.isEmpty_iff.2 h)⟩
    · exact .inl (if_neg (mt List.isEmpty_iff.1 h))

theorem length_add (l : ValueList) (part : ListPart) :
    (l.add part).fixed.length = max l.fixed.length part.values.fixed.length := by
  rcases add_cases l part with h | ⟨hempty, values, rfl, h⟩
  · rw [h]
    exact length_overlay ..
  · rw [h, hempty]
    rfl

theorem mem_add_of_mem (h : value ∈ l.get i) (hfirst : i = 0 → ∀ values, part = .single values → l.fixed ≠ []) :
    value ∈ (l.add part).get i := by
  rcases add_cases l part with hadd | ⟨hempty, values, hpart, hadd⟩
  · rw [hadd, get_join]
    exact .inl h
  · rw [hadd]
    cases i with
    | zero => exact absurd hempty (hfirst rfl values hpart)
    | succ =>
      unfold get at h ⊢
      rw [hempty] at h
      simpa using h

theorem mem_add (h : value ∈ part.values.get i) (hshare : i < l.fixed.length → value ∈ part.values.share i) :
    value ∈ (l.add part).get i := by
  rcases add_cases l part with hadd | ⟨-, values, rfl, hadd⟩
  · rw [hadd, get_join]
    split
    · exact .inr (hshare ‹_›)
    · exact .inr h
  · rw [hadd]
    cases i with
    | zero => exact h
    | succ => exact .inl (by simpa [get, ListPart.values] using h)

theorem lt_length_foldl_add (parts : List ListPart) :
    i < (parts.foldl add l).fixed.length ↔ i < l.fixed.length ∨ ∃ part ∈ parts, i < part.values.fixed.length := by
  induction parts generalizing l with
  | nil => simp
  | cons part rest ih =>
    rw [foldl_cons, ih, length_add, lt_max_iff, or_assoc, exists_mem_cons_iff]

theorem mem_foldl_add (h : value ∈ l.get i) {parts : List ListPart}
    (hfirst : i = 0 → ∀ between values rest, parts = between ++ .single values :: rest →
      0 < l.fixed.length ∨ ∃ part ∈ between, 0 < part.values.fixed.length) : value ∈ (parts.foldl add l).get i := by
  induction parts generalizing l with
  | nil => exact h
  | cons part rest ih =>
    refine ih (mem_add_of_mem h fun hi values hpart => ?_) fun hi between values rest' hrest => ?_
    · have hpos := hfirst hi [] values rest (by rw [hpart]; rfl)
      refine ne_nil_of_length_pos (hpos.resolve_right ?_)
      rintro ⟨part, hpart, -⟩
      cases hpart
    · have hpos := hfirst hi (part :: between) values rest' (by rw [hrest]; rfl)
      rwa [exists_mem_cons_iff, ← or_assoc, ← lt_max_iff, ← length_add] at hpos

theorem mem_ofParts {before after : List ListPart} (h : value ∈ part.values.get i)
    (hshare : (∃ other ∈ before, i < other.values.fixed.length) → value ∈ part.values.share i)
    (hfirst : i = 0 → ∀ between values rest, after = between ++ .single values :: rest →
      ∃ other ∈ before ++ part :: between, 0 < other.values.fixed.length) :
    value ∈ (ofParts (before ++ part :: after)).get i := by
  cases before with
  | nil =>
    refine mem_foldl_add h fun hi between values rest hafter => ?_
    simpa using hfirst hi between values rest hafter
  | cons first before =>
    show value ∈ ((before ++ part :: after).foldl add first.values).get i
    rw [foldl_append, foldl_cons]
    refine mem_foldl_add (mem_add h fun hlt => hshare ?_) fun hi between values rest hafter => ?_
    · rw [lt_length_foldl_add] at hlt
      simpa using hlt
    · have hpos := hfirst hi between values rest hafter
      rw [length_add, lt_max_iff, lt_length_foldl_add]
      simpa [or_assoc, or_and_right, exists_or] using hpos

/-! ## Single members -/

theorem ofParts_single {values : List (Set LuaValue)} (hne : values ≠ []) :
    ofParts (values.map .single) = { fixed := [{ value | ∃ v ∈ values, value ∈ v }] } := by
  have hfold : ∀ (rest : List (Set LuaValue)) (v : Set LuaValue), (rest.map ListPart.single).foldl add { fixed := [v] } =
      { fixed := [v ∪ { value | ∃ w ∈ rest, value ∈ w }] } := by
    intro rest
    induction rest with
    | nil => simp
    | cons next rest ih =>
      intro v
      have hadd : add { fixed := [v] } (.single next) = { fixed := [v ∪ next] } := rfl
      rw [map_cons, foldl_cons, hadd, ih, Set.union_assoc]
      congr
      ext value
      simp
  cases values with
  | nil => exact absurd rfl hne
  | cons v rest =>
    refine (hfold rest v).trans ?_
    congr
    ext value
    simp

end ValueList

end AnnotatedLua
