/-
Lists of types as lists of sets of values. The members of a union of lists are merged as their values are laid over each
other (`Session.Over.ends_mergeResults`, `Session.Over.ends_resultAt`).
-/
import AnnotatedLua.Proofs.Result.Values
import AnnotatedLua.Proofs.Union.Made

namespace AnnotatedLua

open Solve Solver TypeTable ValueList List
open List (Forall₂ foldlM_cons getLast?_map map_congr_left map_cons rel_append)

variable {t : TypeTable} {ty : Ty} {types parts : List Ty} {variadic : Bool} {values : List (Set LuaValue)}
  {v : Set LuaValue} {m : Merge} {l : ValueList}

/-! ## What lists of types stand for -/

def fixedValues (variadic : Bool) (values : List (Set LuaValue)) : List (Set LuaValue) :=
  if variadic then values.dropLast else values

namespace Results

/-- How many values come before the ones that repeat. -/
def fixedCount (r : Results) : Nat := if r.variadic then r.types.length - 1 else r.types.length

/-- Whether the last type may repeat any number of times. -/
def repeats (r : Results) : Bool := r.variadic && !r.types.isEmpty

end Results

namespace TypeTable

def listOf (t : TypeTable) (r : Results) : ValueList where
  fixed := fixedValues r.variadic (r.types.map t.held)
  tail := if r.variadic then r.types.getLast?.map t.held else none

theorem length_listOf (t : TypeTable) (r : Results) : (t.listOf r).fixed.length = r.fixedCount := by
  unfold listOf fixedValues Results.fixedCount
  split <;> simp

theorem tail_listOf {r : Results} (h : r.repeats = false) : (t.listOf r).tail = none := by
  simp only [Results.repeats, Bool.and_eq_false_iff, Bool.not_eq_false', List.isEmpty_iff] at h
  rcases h with h | h <;> simp [listOf, h]

section
variable {i : Nat}

theorem get_listOf_nil : (t.listOf ⟨[], variadic⟩).get i = {.nil} := by
  cases variadic <;> simp [ValueList.get, listOf, fixedValues]

theorem get_listOf_lt (hi : i + 1 < types.length) (hty : types[i]? = some ty) :
    (t.listOf ⟨types, variadic⟩).get i = t.held ty := by
  cases variadic with
  | false => simp [ValueList.get, listOf, fixedValues, hty]
  | true =>
    have hdrop : (types.map t.held).dropLast[i]? = some (t.held ty) := by
      rw [getElem?_dropLast, if_pos (by simp; omega), getElem?_map, hty]
      rfl
    simp [ValueList.get, listOf, fixedValues, hdrop]

theorem get_listOf_repeats (hi : types.length ≤ i + 1) (hlast : types.getLast? = some ty) :
    (t.listOf ⟨types, true⟩).get i = {.nil} ∪ t.held ty := by
  have hdrop : (types.map t.held).dropLast[i]? = none := by simp; omega
  simp [ValueList.get, listOf, fixedValues, hdrop, hlast]

theorem get_listOf_stops (hi : types.length ≤ i + 1) (hlast : types.getLast? = some ty) :
    (t.listOf ⟨types, false⟩).get i = if i - (types.length - 1) = 0 then t.held ty else {.nil} := by
  have hpos : 0 < types.length := length_pos_of_mem (mem_of_getLast? hlast)
  rw [getLast?_eq_getElem?] at hlast
  split
  · obtain rfl : i = types.length - 1 := by omega
    simp [ValueList.get, listOf, fixedValues, hlast]
  · have hnone : types[i]? = none := getElem?_eq_none (by omega)
    simp [ValueList.get, listOf, fixedValues, hnone]
end

def partOf (t : TypeTable) (ty : Ty) : ListPart :=
  match t.lookup ty with
  | .results types variadic => .list (t.listOf ⟨types, variadic⟩)
  | _ => .single (t.held ty)

theorem partOf_list (h : t.lookup ty = .results types variadic) : t.partOf ty = .list (t.listOf ⟨types, variadic⟩) := by
  unfold partOf
  rw [h]

theorem partOf_single (h : t.kind ty ≠ .results) : t.partOf ty = .single (t.held ty) := by
  unfold partOf
  split
  · rename_i hl
    exact absurd (kind_of hl) h
  · rfl

/-- The list that a member of a union of lists is: a single type is a list of one. -/
def resultsOf (t : TypeTable) (ty : Ty) : Results :=
  match t.lookup ty with
  | .results types variadic => ⟨types, variadic⟩
  | _ => ⟨[ty], false⟩

theorem values_partOf (t : TypeTable) (ty : Ty) : (t.partOf ty).values = t.listOf (t.resultsOf ty) := by
  unfold partOf resultsOf
  cases t.lookup ty <;> rfl

/-- A type made of the atoms, or a list of such types. -/
inductive Listed (t : TypeTable) (atoms : List Ty) (neat : Prop) : Ty → Prop
  | single {ty : Ty} (h : t.Denotes atoms neat ty (t.held ty)) : Listed t atoms neat ty
  | list {ty : Ty} {types : List Ty} {variadic : Bool} (hform : t.lookup ty = .results types variadic)
      (h : ∀ x ∈ types, t.Denotes atoms neat x (t.held x)) : Listed t atoms neat ty

structure Merged (t : TypeTable) (atoms : List Ty) (neat : Prop) (m : Merge) (l : ValueList) : Prop where
  positions : List.Forall₂ (t.Denotes atoms neat) m.positions l.fixed
  tail : Option.Rel (t.Denotes atoms neat) m.tail l.tail

end TypeTable

/-! ## The next position -/

theorem fixedValues_cons (v : Set LuaValue) (h : ¬ (variadic = true ∧ values = [])) :
    fixedValues variadic (v :: values) = v :: fixedValues variadic values := by
  unfold fixedValues
  split
  · rename_i hvariadic
    rw [dropLast_cons_of_ne_nil fun hnil => h ⟨hvariadic, hnil⟩]
  · rfl

theorem overlay_fixedValues {fill : Set LuaValue} (hlast : variadic = true ∧ values = [] → v = fill)
    (beyond : Set LuaValue → Set LuaValue) (oldValues : Set LuaValue)
    (old : List (Set LuaValue)) : overlay fill beyond (oldValues :: old) (fixedValues variadic (v :: values)) =
      (oldValues ∪ v) :: overlay fill beyond old (fixedValues variadic values) := by
  by_cases hend : variadic = true ∧ values = []
  · obtain rfl := hlast hend
    obtain ⟨rfl, rfl⟩ := hend
    exact congrArg _ (overlay_nil ..).symm
  · rw [fixedValues_cons v hend]
    rfl

section
variable (S : Solver) (m : Merge) (next : Results) (done : List Ty) (ty : Ty)

theorem mergeValue_old (old : Ty) (rest : List Ty) : S.mergeValue m next (done ++ old :: rest) (ty, done.length) =
    S.union old ty >>= fun r => pure (done ++ r :: rest) := by
  unfold mergeValue
  simp

theorem mergeValue_end : S.mergeValue m next done (ty, done.length) =
    if next.variadic && next.types.length - 1 ≤ done.length then pure done
    else S.beyond m ty >>= fun r => pure (done ++ [r]) := by
  unfold mergeValue
  simp

variable {next} in
theorem mergeList_repeats {last : Ty} (hvariadic : next.variadic = true) (hlast : next.types.getLast? = some last) :
    S.mergeList m next = (next.types.zipIdx.foldlM (S.mergeValue m next) m.positions >>=
      S.widenFrom next.types.length last) >>= fun positions => S.unionWith m.tail last >>= fun tail =>
        pure { positions, tail := some tail, fresh := false } := by
  unfold mergeList
  rw [hvariadic, hlast]
  simp only [bind_assoc]

variable {next} in
theorem mergeList_stops (hstops : ¬ (next.variadic = true ∧ next.types ≠ [])) :
    S.mergeList m next = (next.types.zipIdx.foldlM (S.mergeValue m next) m.positions >>=
      S.widenFrom next.types.length Ty.nil) >>= fun positions => pure { positions, tail := m.tail, fresh := false } := by
  unfold mergeList
  cases hvariadic : next.variadic with
  | false => cases next.types.getLast? <;> simp only [bind_assoc]
  | true =>
    obtain hnil : next.types = [] := by
      by_contra hne
      exact hstops ⟨hvariadic, hne⟩
    rw [hnil]
    simp only [getLast?_nil, bind_assoc]
end

def Solver.resultIn (S : Solver) (merged : Ty) (position : Nat) : Solve Ty := do
  match ← lookup merged with
  | .results types variadic =>
    match types.getLast? with
    | none => return Ty.nil
    | some last =>
      let lastIndex := types.length - 1
      if position < lastIndex then S.resultAt (types[position]?.getD last) 0
      else if variadic then
        let tail ← S.union (← S.resultAt last 0) (← S.resultAt last (position - lastIndex))
        S.union Ty.nil tail
      else S.resultAt last (position - lastIndex)
  | _ => return if position = 0 then merged else Ty.nil

theorem Rule.resultAt_eq (S : Solver) (ty : Ty) (i : Nat) :
    Rule.resultAt S ty i = S.mergeResults ty >>= (S.resultIn · i) := rfl

namespace Session.Over

variable {ctx : Context} {s u : Session} {atoms : List Ty} {neat : Prop}

section
variable (hs : s.Over ctx atoms)
include hs

theorem forall₂_later (hu : u.Past ctx s) (h : Forall₂ (s.types.Denotes atoms neat) types values) :
    Forall₂ (u.types.Denotes atoms neat) types values :=
  h.imp fun _ _ h => hs.denotes_later hu h

theorem rel_later (hu : u.Past ctx s) {ty : Option Ty} {values : Option (Set LuaValue)}
    (h : Option.Rel (s.types.Denotes atoms neat) ty values) : Option.Rel (u.types.Denotes atoms neat) ty values := by
  cases h with
  | some h => exact .some (hs.denotes_later hu h)
  | none => exact .none

theorem merged_later (hu : u.Past ctx s) (h : s.types.Merged atoms neat m l) : u.types.Merged atoms neat m l :=
  ⟨hs.forall₂_later hu h.positions, hs.rel_later hu h.tail⟩

theorem denotes_nil : s.types.Denotes atoms neat Ty.nil {.nil} := by
  refine ⟨.atom hs.nil, ?_, fun _ => hs.tidy_atom hs.nil⟩
  ext value
  rw [mem_held (by decide), (hs.isAtom _ hs.nil).members hs.types]
  simp [valuesOf, hs.types.lookup_nil]

/-! ## Positions -/

theorem ends_mapM_union (htypes : Forall₂ (s.types.Denotes atoms neat) types values)
    (hty : s.types.Denotes atoms neat ty v) : s.Ends ctx (fun S => types.mapM (S.union · ty)) fun r u =>
      Forall₂ (u.types.Denotes atoms neat) r (values.map (· ∪ v)) := by
  induction types generalizing s values with
  | nil =>
    cases htypes
    have h : s.Ends ctx (fun _ => (pure [] : Solve (List Ty))) fun r u =>
        Forall₂ (u.types.Denotes atoms neat) r (([] : List (Set LuaValue)).map (· ∪ v)) := .pure hs.types .nil
    simpa only [mapM_nil] using h
  | cons x rest ih =>
    cases htypes with
    | cons hx hrest =>
      simp only [mapM_cons]
      refine (hs.ends_union hx hty).bind fun r u hu hr => ?_
      refine (ih (hs.later hu) (hs.forall₂_later hu hrest) (hs.denotes_later hu hty)).bind fun rs w hw hrs => ?_
      exact .pure hw.types (.cons ((hs.later hu).denotes_later hw hr) hrs)

theorem ends_beyond (hm : s.types.Merged atoms neat m l) (hty : s.types.Denotes atoms neat ty v) :
    s.Ends ctx (·.beyond m ty) fun r u =>
      u.types.Denotes atoms neat r (l.tail.getD ∅ ∪ v ∪ if m.fresh then ∅ else {.nil}) := by
  refine (hs.ends_unionWith hm.tail hty).bind fun r u hu hr => ?_
  cases m.fresh with
  | true =>
    refine .pure hu.types ?_
    rwa [if_pos rfl, Set.union_empty]
  | false => exact (hs.later hu).ends_union hr (hs.later hu).denotes_nil

theorem ends_widenFrom {start : Nat} {front back : List Ty} {frontValues backValues : List (Set LuaValue)}
    (hfront : Forall₂ (s.types.Denotes atoms neat) front frontValues)
    (hback : Forall₂ (s.types.Denotes atoms neat) back backValues) (hty : s.types.Denotes atoms neat ty v)
    (hstart : start = front.length ∨ front.length ≤ start ∧ back = []) :
    s.Ends ctx (·.widenFrom start ty (front ++ back)) fun r u =>
      Forall₂ (u.types.Denotes atoms neat) r (frontValues ++ backValues.map (· ∪ v)) := by
  have hsplit : (front ++ back).take start = front ∧ (front ++ back).drop start = back := by
    rcases hstart with rfl | ⟨hle, rfl⟩
    · exact ⟨take_left, drop_left⟩
    · rw [append_nil]
      exact ⟨take_of_length_le hle, drop_of_length_le hle⟩
  unfold widenFrom
  rw [hsplit.1, hsplit.2]
  refine (hs.ends_mapM_union hback hty).bind fun r u hu hr => .pure hu.types ?_
  exact rel_append (hs.forall₂_later hu hfront) hr

section
variable (hm : s.types.Merged atoms neat m l)
include hm

theorem ends_mergeValues {next : Results} {fill : Ty} {fillValues : Set LuaValue}
    (hfill : s.types.Denotes atoms neat fill fillValues)
    {done rest : List Ty} {doneValues restValues : List (Set LuaValue)}
    (hdone : Forall₂ (s.types.Denotes atoms neat) done doneValues)
    (hrest : Forall₂ (s.types.Denotes atoms neat) rest restValues)
    (htypes : Forall₂ (s.types.Denotes atoms neat) types values)
    (hlength : next.types.length = done.length + types.length)
    (hlast : next.variadic = true → values ≠ [] → values.getLast? = some fillValues) :
    s.Ends ctx (fun S => (types.zipIdx done.length).foldlM (S.mergeValue m next) (done ++ rest) >>=
        S.widenFrom next.types.length fill) fun r u => Forall₂ (u.types.Denotes atoms neat) r
      (doneValues ++ overlay fillValues (fun v => l.tail.getD ∅ ∪ v ∪ if m.fresh then ∅ else {.nil}) restValues
        (fixedValues next.variadic values)) := by
  -- `done` are the positions before that of the next type
  induction types generalizing s done rest doneValues restValues values with
  | nil =>
    cases htypes
    have hnil : fixedValues next.variadic [] = [] := by simp [fixedValues]
    simp only [zipIdx_nil, foldlM_nil, pure_bind, hnil, overlay_nil]
    exact hs.ends_widenFrom hdone hrest hfill (.inl hlength)
  | cons ty types ih =>
    cases htypes with
    | cons hty htypes =>
      rename_i v values
      simp only [zipIdx_cons, foldlM_cons, bind_assoc]
      have hlast' : next.variadic = true → values ≠ [] → values.getLast? = some fillValues := by
        intro hvariadic hne
        rw [← getLast?_cons_of_ne_nil hne]
        exact hlast hvariadic (by simp)
      -- the types after this one, with one more position done
      have hgo {u : Session} (hu : u.Past ctx s) {r : Ty} {rv : Set LuaValue} (hr : u.types.Denotes atoms neat r rv)
          {rest : List Ty} {restValues : List (Set LuaValue)}
          (hrest : Forall₂ (s.types.Denotes atoms neat) rest restValues) :=
        ih (hs.later hu) (hs.merged_later hu hm) (hs.denotes_later hu hfill)
          (rel_append (hs.forall₂_later hu hdone) (.cons hr .nil)) (hs.forall₂_later hu hrest)
          (hs.forall₂_later hu htypes) (by simp at hlength ⊢; omega) hlast'
      simp only [length_append, length_singleton, append_assoc, singleton_append] at hgo
      cases hrest with
      | cons hold hrest =>
        simp only [mergeValue_old, bind_assoc, pure_bind]
        refine (hs.ends_union hold hty).bind fun r u hu hr => ?_
        rw [overlay_fixedValues fun hend => by simpa [hend.2] using hlast hend.1 (by simp)]
        exact hgo hu hr hrest
      | nil =>
        simp only [append_nil, mergeValue_end, nil_overlay] at hgo ⊢
        by_cases hend : next.variadic = true ∧ values = []
        · obtain ⟨hvariadic, rfl⟩ := hend
          cases htypes
          have hskip : (next.variadic && decide (next.types.length - 1 ≤ done.length)) = true := by
            simp only [length_cons, length_nil] at hlength
            simp only [hvariadic, Bool.true_and, decide_eq_true_eq]
            omega
          simp only [hskip, if_true, pure_bind, zipIdx_nil, foldlM_nil]
          have hle : done.length ≤ next.types.length := by omega
          simpa [hvariadic, fixedValues] using hs.ends_widenFrom hdone .nil hfill (.inr ⟨hle, rfl⟩)
        · have hgoes : (next.variadic && decide (next.types.length - 1 ≤ done.length)) = false := by
            by_contra hskip
            simp only [Bool.not_eq_false, Bool.and_eq_true, decide_eq_true_eq] at hskip
            simp only [length_cons] at hlength
            refine hend ⟨hskip.1, eq_nil_of_length_eq_zero ?_⟩
            rw [← htypes.length_eq]
            omega
          simp only [hgoes, Bool.false_eq_true, if_false, bind_assoc, pure_bind]
          refine (hs.ends_beyond hm hty).bind fun r u hu hr => ?_
          rw [fixedValues_cons v hend]
          have hrun := hgo hu hr .nil
          rwa [nil_overlay] at hrun

/-! ## Members -/

theorem ends_mergeList (hfresh : m.fresh = true → l = { fixed := [] }) {next : Results}
    (hnext : ∀ x ∈ next.types, s.types.Denotes atoms neat x (s.types.held x)) :
    s.Ends ctx (·.mergeList m next) fun m' u => m'.fresh = false ∧
      u.types.Merged atoms neat m' (if m.fresh then s.types.listOf next else l.join (s.types.listOf next)) := by
  have htypes : Forall₂ (s.types.Denotes atoms neat) next.types (next.types.map s.types.held) := by
    rw [forall₂_map_right_iff]
    exact forall₂_same.2 hnext
  -- what the list puts over the earlier positions
  have hlaid : (if m.fresh then s.types.listOf next else l.join (s.types.listOf next)) =
      { fixed := overlay ((s.types.listOf next).tail.getD {.nil})
          (fun v => l.tail.getD ∅ ∪ v ∪ if m.fresh then ∅ else {.nil}) l.fixed (s.types.listOf next).fixed,
        tail := Option.merge (· ∪ ·) l.tail (s.types.listOf next).tail } := by
    cases hf : m.fresh with
    | false => rfl
    | true =>
      rw [hfresh hf]
      simp [nil_overlay]
  rw [hlaid]
  have hpositions {fill : Ty} (hfill : s.types.Denotes atoms neat fill ((s.types.listOf next).tail.getD {.nil}))
      (hlast : next.variadic = true → next.types ≠ [] →
        next.types.getLast?.map s.types.held = some ((s.types.listOf next).tail.getD {.nil})) :
      s.Ends ctx (fun S => next.types.zipIdx.foldlM (S.mergeValue m next) m.positions >>=
        S.widenFrom next.types.length fill) fun r u => Forall₂ (u.types.Denotes atoms neat) r
          (overlay ((s.types.listOf next).tail.getD {.nil})
            (fun v => l.tail.getD ∅ ∪ v ∪ if m.fresh then ∅ else {.nil}) l.fixed (s.types.listOf next).fixed) :=
    hs.ends_mergeValues hm hfill .nil hm.positions htypes (by simp) fun hvariadic hne => by
      rw [getLast?_map]
      exact hlast hvariadic (by simpa using hne)
  by_cases hend : next.variadic = true ∧ next.types ≠ []
  · obtain ⟨hvariadic, hne⟩ := hend
    obtain ⟨last, hlast⟩ := Option.isSome_iff_exists.1 (getLast?_isSome.2 hne)
    have htail : (s.types.listOf next).tail = some (s.types.held last) := by simp [listOf, hvariadic, hlast]
    have hdenotes := hnext last (mem_of_getLast? hlast)
    simp only [mergeList_repeats _ _ hvariadic hlast]
    refine (hpositions (by rwa [htail]) fun _ _ => by rw [htail, hlast]; rfl).bind fun positions u hu hp => ?_
    refine ((hs.later hu).ends_unionWith (hs.rel_later hu hm.tail) (hs.denotes_later hu hdenotes)).bind
      fun _ w hw ht => .pure hw.types ⟨rfl, (hs.later hu).forall₂_later hw hp, ?_⟩
    have hmerge : Option.merge (· ∪ ·) l.tail (some (s.types.held last)) = some (l.tail.getD ∅ ∪ s.types.held last) := by
      cases l.tail <;> simp
    rw [htail, hmerge]
    exact .some ht
  · have htail : (s.types.listOf next).tail = none := by
      unfold listOf
      dsimp only
      split
      · rename_i hvariadic
        have hnil : next.types = [] := by
          by_contra hne
          exact hend ⟨hvariadic, hne⟩
        rw [hnil]
        rfl
      · rfl
    simp only [mergeList_stops _ _ hend]
    refine (hpositions (by rw [htail]; exact hs.denotes_nil) fun hvariadic hne => absurd ⟨hvariadic, hne⟩ hend).bind
      fun _ u hu hp => .pure hu.types ⟨rfl, hp, ?_⟩
    rw [htail, Option.merge_none_right]
    exact hs.rel_later hu hm.tail

theorem ends_mergeSingle (hty : s.types.Denotes atoms neat ty v) : s.Ends ctx (·.mergeSingle m ty) fun m' u =>
      m'.fresh = false ∧ u.types.Merged atoms neat m' (l.add (.single v)) := by
  have hadd : l.add (.single v) =
      { fixed := [l.fixed.head?.getD ∅ ∪ v] ++ l.fixed.tail.map (· ∪ {.nil}), tail := l.tail } := by
    rcases l with ⟨_ | ⟨first, _⟩, _⟩
    · simp [add]
    · simp [add, join, overlay, overlay_nil]
  have hhead : Option.Rel (s.types.Denotes atoms neat) m.positions.head? l.fixed.head? := by
    have h := hm.positions
    generalize m.positions = positions at h
    generalize l.fixed = fixed at h
    cases h with
    | nil => exact .none
    | cons h => exact .some h
  have htail : Forall₂ (s.types.Denotes atoms neat) m.positions.tail l.fixed.tail := by
    have h := hm.positions
    generalize m.positions = positions at h
    generalize l.fixed = fixed at h
    cases h with
    | nil => exact .nil
    | cons _ h => exact h
  rw [hadd]
  refine (hs.ends_unionWith hhead hty).bind fun _ u hu hfirst => ?_
  have hwiden := (hs.later hu).ends_widenFrom (.cons hfirst .nil) (hs.forall₂_later hu htail) (hs.later hu).denotes_nil
    (.inl rfl)
  refine hwiden.bind fun _ w hw hp => .pure hw.types ⟨rfl, hp, ?_⟩
  exact (hs.later hu).rel_later hw (hs.rel_later hu hm.tail)

theorem ends_mergeMember (hfresh : m.fresh = true → l = { fixed := [] }) (hty : s.types.Listed atoms neat ty) :
    s.Ends ctx (·.mergeMember m ty) fun m' u => m'.fresh = false ∧
      u.types.Merged atoms neat m' (if m.fresh then (s.types.partOf ty).values else l.add (s.types.partOf ty)) := by
  refine .lookup hs.types ty fun form hform => ?_
  cases hty with
  | list hlookup hentries =>
    rw [hlookup] at hform
    subst hform
    rw [partOf_list hlookup]
    exact hs.ends_mergeList hm hfresh hentries
  | single h =>
    have hkind := (hs.single h.made).kind_ne hs.types
    have hadd : (if m.fresh then (s.types.partOf ty).values else l.add (s.types.partOf ty)) =
        l.add (.single (s.types.held ty)) := by
      rw [partOf_single hkind]
      split
      · rename_i hf
        rw [hfresh hf]
        rfl
      · rfl
    rw [hadd]
    have hsingle := hs.ends_mergeSingle hm h
    cases form with
    | results => exact absurd (kind_of hform.symm) hkind
    | _ => exact hsingle
end

theorem listed_later (hu : u.Past ctx s) (h : s.types.Listed atoms neat ty) :
    u.types.Listed atoms neat ty ∧ u.types.partOf ty = s.types.partOf ty := by
  have hheld {x : Ty} (hx : s.types.Denotes atoms neat x (s.types.held x)) : u.types.held x = s.types.held x :=
    (hs.denotes_later hu hx).held
  cases h with
  | single h =>
    have h' := hs.denotes_later hu h
    rw [← hheld h] at h'
    refine ⟨.single h', ?_⟩
    rw [partOf_single ((hs.single h.made).kind_ne hs.types),
      partOf_single (((hs.later hu).single h'.made).kind_ne hu.types), hheld h]
  | list hform h =>
    rename_i types variadic
    have hform' := (hu.grown.lookup (has_of hform)).trans hform
    have hmap : types.map u.types.held = types.map s.types.held := map_congr_left fun x hx => hheld (h x hx)
    refine ⟨.list hform' fun x hx => ?_, ?_⟩
    · rw [hheld (h x hx)]
      exact hs.denotes_later hu (h x hx)
    · rw [partOf_list hform, partOf_list hform']
      unfold listOf
      simp only [← getLast?_map, hmap]

theorem ends_mergeMembers (hparts : ∀ ty ∈ parts, s.types.Listed atoms neat ty)
    (hm : s.types.Merged atoms neat m l) (hfresh : m.fresh = false) :
    s.Ends ctx (fun S => parts.foldlM S.mergeMember m) fun m' u =>
      u.types.Merged atoms neat m' ((parts.map s.types.partOf).foldl add l) := by
  induction parts generalizing s m l with
  | nil => exact .pure hs.types hm
  | cons ty rest ih =>
    obtain ⟨hty, hrest⟩ := forall_mem_cons.1 hparts
    simp only [foldlM_cons]
    refine (hs.ends_mergeMember hm (fun h => by rw [hfresh] at h; cases h) hty).bind ?_
    rintro m' u hu ⟨hfresh', hm'⟩
    rw [hfresh, if_neg Bool.false_ne_true] at hm'
    have hparts' : rest.map s.types.partOf = rest.map u.types.partOf :=
      map_congr_left fun x hx => (hs.listed_later hu (hrest x hx)).2.symm
    rw [map_cons, foldl_cons, hparts']
    exact ih (hs.later hu) (fun x hx => (hs.listed_later hu (hrest x hx)).1) hm' hfresh'

theorem ends_mergeAll (hparts : ∀ ty ∈ parts, s.types.Listed atoms neat ty) :
    s.Ends ctx (fun S => parts.foldlM S.mergeMember {}) fun m' u =>
      u.types.Merged atoms neat m' (.ofParts (parts.map s.types.partOf)) := by
  have hm : s.types.Merged atoms neat {} { fixed := [] } := ⟨.nil, .none⟩
  cases parts with
  | nil => exact .pure hs.types hm
  | cons ty rest =>
    obtain ⟨hty, hrest⟩ := forall_mem_cons.1 hparts
    simp only [foldlM_cons]
    refine (hs.ends_mergeMember hm (fun _ => rfl) hty).bind ?_
    rintro m' u hu ⟨hfresh', hm'⟩
    have hparts' : rest.map s.types.partOf = rest.map u.types.partOf :=
      map_congr_left fun x hx => (hs.listed_later hu (hrest x hx)).2.symm
    rw [map_cons, hparts']
    exact (hs.later hu).ends_mergeMembers (fun x hx => (hs.listed_later hu (hrest x hx)).1) hm' hfresh'
end

/-! ## Positions of a type -/

theorem map_held (h : Forall₂ (t.Denotes atoms neat) types values) : types.map t.held = values := by
  induction h with
  | nil => rfl
  | cons h _ ih => rw [map_cons, h.held, ih]

theorem denotes_held
    (h : Forall₂ (t.Denotes atoms neat) types values) : ∀ x ∈ types, t.Denotes atoms neat x (t.held x) := by
  rw [← map_held h, forall₂_map_right_iff] at h
  exact forall₂_same.1 h

theorem merged_all (hm : t.Merged atoms neat m l) :
    Forall₂ (t.Denotes atoms neat) (m.positions ++ m.tail.toList) (l.fixed ++ l.tail.toList) := by
  refine rel_append hm.positions ?_
  have htail := hm.tail
  generalize m.tail = tail at htail
  generalize l.tail = tailValues at htail
  cases htail with
  | some h => exact .cons h .nil
  | none => exact .nil

section
variable (hs : s.Over ctx atoms)
include hs

theorem ends_storeMerged (hm : s.types.Merged atoms neat m l) :
    s.Ends ctx (fun _ => intern (.results (m.positions ++ m.tail.toList) m.tail.isSome)) fun r u =>
      u.types.Listed atoms neat r ∧ (u.types.partOf r).values = l := by
  have hholds : s.types.Holds (.results (m.positions ++ m.tail.toList) m.tail.isSome) :=
    ⟨fun x hx => (hs.single (denotes_held (merged_all hm) x hx).made).has hs.types, fun _ h => by cases h⟩
  refine (ends_intern hs.types hholds).imp ?_
  rintro r u hu ⟨-, hform⟩
  have hm' := hs.merged_later hu hm
  refine ⟨.list hform (denotes_held (merged_all hm')), ?_⟩
  have hsome : m.tail.isSome = l.tail.isSome := by
    have htail := hm.tail
    generalize m.tail = tail at htail
    generalize l.tail = tailValues at htail
    cases htail <;> rfl
  rw [partOf_list hform]
  show u.types.listOf _ = l
  unfold listOf fixedValues
  simp only [← getLast?_map, map_held (merged_all hm'), hsome]
  rcases l with ⟨_, _ | v⟩ <;> simp

theorem ends_mergeResults (hform : s.types.lookup ty = .union parts)
    (hparts : ∀ ty ∈ parts, s.types.Listed atoms neat ty) :
    s.Ends ctx (·.mergeResults ty) fun r u => u.types.Listed atoms neat r ∧
      (u.types.partOf r).values = .ofParts (parts.map s.types.partOf) ∧
      ∀ values, .ofParts (parts.map s.types.partOf) = ({ fixed := [values] } : ValueList) → u.types.kind r ≠ .results := by
  refine (ends_lookup hs.types ty).bind ?_
  rintro _ _ - ⟨rfl, rfl⟩
  rw [hform]
  refine (hs.ends_mergeAll hparts).bind fun m u hu hm => ?_
  generalize ofParts (parts.map s.types.partOf) = l at hm
  have hstore := (hs.later hu).ends_storeMerged hm
  obtain ⟨positions, tail, _⟩ := m
  obtain ⟨fixed, tailValues⟩ := l
  obtain ⟨hpositions, htail⟩ := hm
  dsimp only at hpositions htail hstore ⊢
  have hlist (hmore : ∀ values, (⟨fixed, tailValues⟩ : ValueList) ≠ { fixed := [values] }) : u.Ends ctx
      (fun _ => intern (.results (positions ++ tail.toList) tail.isSome)) fun r u => u.types.Listed atoms neat r ∧
        (u.types.partOf r).values = ⟨fixed, tailValues⟩ ∧
        ∀ values, (⟨fixed, tailValues⟩ : ValueList) = { fixed := [values] } → u.types.kind r ≠ .results :=
    hstore.imp fun r u _ h => ⟨h.1, h.2, fun values hvalues => absurd hvalues (hmore values)⟩
  cases hpositions with
  | nil => exact hlist (by simp)
  | cons hsingle hrest =>
    cases hrest with
    | cons => exact hlist (by simp)
    | nil =>
      cases htail with
      | some => exact hlist (by simp)
      | none =>
        have h := hsingle
        rw [← h.held] at h
        have hkind := ((hs.later hu).single h.made).kind_ne hu.types
        refine .pure hu.types ⟨.single h, ?_, fun _ _ => hkind⟩
        rw [partOf_single hkind, hsingle.held]
        rfl

theorem ends_mergeResults_single (h : s.types.Denotes atoms False ty v) :
    s.Ends ctx (·.mergeResults ty) fun r u =>
      u.types.Denotes atoms True r v := by
  have hother (htidy : s.types.Tidy ty) (hkind : s.types.kind ty ≠ .union) :
      s.Ends ctx (·.mergeResults ty) fun r u => u.types.Denotes atoms True r v := by
    refine .lookup hs.types ty fun form hform => ?_
    cases form with
    | union => exact absurd (kind_of hform.symm) hkind
    | _ => exact .pure hs.types ⟨h.made, h.held, fun _ => htidy⟩
  have hmade := h.made
  cases hmade with
  | any => exact hother hs.tidy_any (by unfold TypeTable.kind; rw [hs.types.lookup_any]; simp)
  | atom hatom =>
    refine hother (hs.tidy_atom hatom) fun hkind => ?_
    exact (hs.isAtom ty hatom).lookup_ne_union hs.types (lookup_of_union hkind)
  | union hform hnodup hlen hsub =>
    rename_i parts
    have hpart {z : Ty} (hz : z ∈ parts) : s.types.Denotes atoms True z (s.types.held z) :=
      ⟨.atom (hsub hz), rfl, fun _ => hs.tidy_atom (hsub hz)⟩
    -- all members come in the first position
    have hvalues : ofParts (parts.map s.types.partOf) = { fixed := [v] } := by
      have hmap : parts.map s.types.partOf = (parts.map s.types.held).map .single := by
        rw [map_map]
        exact map_congr_left fun z hz => partOf_single ((hs.single (hpart hz).made).kind_ne hs.types)
      have hheld : { value | ∃ w ∈ parts.map s.types.held, value ∈ w } = s.types.held ty := by
        ext value
        rw [mem_held (by rintro rfl; exact hs.types.lookup_any_ne_union hform), members_of_union hform]
        simp only [mem_map, exists_exists_and_eq_and, Set.mem_ofPred_eq]
        refine exists_congr fun z => and_congr_right fun hz => ?_
        have hatom := hs.isAtom z (hsub hz)
        rw [mem_held (hatom.ne hs.types).1, hatom.members hs.types]
        simp
      rw [hmap, ofParts_single (by rintro hnil; simp [map_eq_nil_iff.1 hnil] at hlen), hheld, h.held]
    refine (hs.ends_mergeResults hform fun z hz => .single (hpart hz)).imp ?_
    rintro r u hu ⟨hlisted, hpartOf, hkind⟩
    rw [hvalues] at hpartOf
    cases hlisted with
    | list hform => exact absurd (kind_of hform) (hkind v hvalues)
    | single hr =>
      rw [partOf_single (hkind v hvalues)] at hpartOf
      have hheld : u.types.held r = v := head_eq_of_cons_eq (congrArg fixed hpartOf)
      rwa [hheld] at hr

theorem ends_resultIn_single (h : s.types.Denotes atoms neat ty v) (i : Nat) :
    s.Ends ctx (·.resultIn ty i) fun r u => u.types.Denotes atoms neat r (if i = 0 then v else {.nil}) := by
  have hkind := (hs.single h.made).kind_ne hs.types
  refine .lookup hs.types ty fun form hform => ?_
  have hend : s.Ends ctx (fun _ => pure (if i = 0 then ty else Ty.nil)) fun r u =>
      u.types.Denotes atoms neat r (if i = 0 then v else {.nil}) := by
    refine .pure hs.types ?_
    split
    · exact h
    · exact hs.denotes_nil
  cases form with
  | results => exact absurd (kind_of hform.symm) hkind
  | _ => exact hend

theorem ends_resultAt_single (h : s.types.Denotes atoms False ty v) (i : Nat) :
    s.Ends ctx (·.resultAt ty i) fun r u =>
      u.types.Denotes atoms True r (if i = 0 then v else {.nil}) := by
  refine .ask rfl ?_
  simp only [rule, Rule.resultAt_eq]
  exact (hs.ends_mergeResults_single h).bind fun r u hu hr => (hs.later hu).ends_resultIn_single hr i

section
variable (hform : s.types.lookup ty = .results types variadic)
  (h : ∀ x ∈ types, s.types.Denotes atoms False x (s.types.held x)) (i : Nat)
include hform h

theorem ends_resultIn_list : s.Ends ctx (·.resultIn ty i) fun r u =>
    u.types.Denotes atoms True r ((s.types.listOf ⟨types, variadic⟩).get i) := by
  refine (ends_lookup hs.types ty).bind ?_
  rintro _ _ - ⟨rfl, rfl⟩
  rw [hform]
  dsimp only
  cases hlast : types.getLast? with
  | none =>
    rw [getLast?_eq_none_iff.1 hlast, get_listOf_nil]
    exact .pure hs.types hs.denotes_nil
  | some last =>
    have hl := h last (mem_of_getLast? hlast)
    refine .ite (fun hi => ?_) fun _ => ?_
    · have hlt : i < types.length := by omega
      rw [get_listOf_lt (by omega) (getElem?_eq_getElem hlt), getElem?_eq_getElem hlt]
      exact hs.ends_resultAt_single (h _ (getElem_mem hlt)) 0
    · have hi' : types.length ≤ i + 1 := by omega
      refine .ite (fun hvariadic => ?_) fun hvariadic => ?_
      · rw [hvariadic, get_listOf_repeats hi' hlast]
        refine (hs.ends_resultAt_single hl 0).bind fun _ u hu hfirst => ?_
        refine ((hs.later hu).ends_resultAt_single (hs.denotes_later hu hl) (i - (types.length - 1))).bind
          fun _ w hw hrest => ?_
        have hw' := (hs.later hu).later hw
        refine (hw'.ends_union ((hs.later hu).denotes_later hw hfirst) hrest).bind fun _ x hx htail => ?_
        refine ((hw'.later hx).ends_union (hw'.later hx).denotes_nil htail).imp fun r y _ hr => ?_
        have hvalues : {.nil} ∪ ((if 0 = 0 then s.types.held last else {.nil}) ∪
            if i - (types.length - 1) = 0 then s.types.held last else {.nil}) = {.nil} ∪ s.types.held last := by
          rw [if_pos rfl]
          split
          · rw [Set.union_self]
          · rw [Set.union_comm (s.types.held last), ← Set.union_assoc, Set.union_self]
        rwa [hvalues] at hr
      · rw [Bool.eq_false_iff.2 hvariadic, get_listOf_stops hi' hlast]
        exact hs.ends_resultAt_single hl _

theorem ends_resultAt_list : s.Ends ctx (·.resultAt ty i) fun r u =>
    u.types.Denotes atoms True r ((s.types.listOf ⟨types, variadic⟩).get i) := by
  have hmerged : s.Ends ctx (·.mergeResults ty) fun r u => r = ty ∧ u = s := by
    refine (ends_lookup hs.types ty).bind ?_
    rintro _ _ - ⟨rfl, rfl⟩
    rw [hform]
    exact .pure hs.types ⟨rfl, rfl⟩
  refine .ask rfl ?_
  simp only [rule, Rule.resultAt_eq]
  refine hmerged.bind ?_
  rintro _ _ - ⟨rfl, rfl⟩
  exact hs.ends_resultIn_list hform h i
end

theorem ends_resultAt_part (h : s.types.Listed atoms neat ty) (i : Nat) :
    s.Ends ctx (·.resultAt ty i) fun r u =>
      u.types.Denotes atoms True r ((s.types.partOf ty).values.get i) := by
  cases h with
  | single h =>
    rw [partOf_single ((hs.single h.made).kind_ne hs.types)]
    refine (hs.ends_resultAt_single ⟨h.made, rfl, False.elim⟩ i).imp fun r u _ hr => ?_
    cases i with
    | zero => exact hr
    | succ => simpa [ListPart.values, ValueList.get] using hr
  | list hform h =>
    rw [partOf_list hform]
    exact hs.ends_resultAt_list hform (fun x hx => ⟨(h x hx).made, rfl, False.elim⟩) i

theorem ends_resultAt (hform : s.types.lookup ty = .union parts)
    (hparts : ∀ ty ∈ parts, s.types.Listed atoms neat ty) (i : Nat) :
    s.Ends ctx (·.resultAt ty i) fun r u =>
      u.types.Denotes atoms neat r ((ofParts (parts.map s.types.partOf)).get i) := by
  refine .ask rfl ?_
  simp only [rule, Rule.resultAt_eq]
  refine (hs.ends_mergeResults hform hparts).bind ?_
  rintro r u hu ⟨hlisted, hvalues, -⟩
  rw [← hvalues]
  cases hlisted with
  | single h =>
    rw [partOf_single (((hs.later hu).single h.made).kind_ne hu.types)]
    refine ((hs.later hu).ends_resultIn_single h i).imp fun r w _ hr => ?_
    cases i with
    | zero => exact hr
    | succ => simpa [ListPart.values, ValueList.get] using hr
  | list hform h =>
    rw [partOf_list hform]
    refine ((hs.later hu).ends_resultIn_list hform (fun x hx => ?_) i).imp fun r w _ hr => ?_
    · exact ⟨(h x hx).made, rfl, False.elim⟩
    · exact ⟨hr.made, hr.held, fun _ => hr.tidy trivial⟩
end

end Session.Over

end AnnotatedLua
