/-
Pairing two lists of values. The positions of the first list are paired in order, and with `several` the last of them
gets all that is left of the second one, so that no value is lost and none is used twice (`pairUp_lossless`).
-/
import AnnotatedLua.Proofs.Union.Canonical

namespace AnnotatedLua

open Solve Solver TypeTable List

variable {ctx : Context} {s : Session} {S : Solver} {first second : Results} {k j : Nat}

/-! ## Lists of queries -/

section
variable {α β γ : Type} {l : List α} {f f' : α → Solve β}

theorem mapM_congr (h : ∀ a ∈ l, f a = f' a) : l.mapM f = l.mapM f' := by
  induction l with
  | nil => rfl
  | cons a l ih =>
    rw [forall_mem_cons] at h
    rw [mapM_cons, mapM_cons, h.1, ih h.2]

theorem mapM_bind_pure (g : α → β → γ) :
    (l.mapM fun a => f a >>= fun b => pure (g a b)) = l.mapM f >>= fun bs => pure (zipWith g l bs) := by
  induction l with
  | nil => simp
  | cons a l ih => simp only [mapM_cons, ih, bind_assoc, pure_bind, zipWith_cons_cons]
end

/-! ## One position -/

/-- The values at a position: those of a list of values, or the type alone. -/
def TypeTable.spread (t : TypeTable) (ty : Ty) : List Ty :=
  match t.lookup ty with
  | .results types _ => types
  | _ => [ty]

theorem pairRight_eq (h : second.variadic = true → second.types ≠ [] → k + 1 < second.types.length) :
    S.pairRight second k = pure second.types[k]? := by
  unfold Solver.pairRight
  cases hv : second.variadic with
  | false => rfl
  | true =>
    cases hlast : second.types.getLast? with
    | none => rfl
    | some tail =>
      have := h hv (ne_nil_of_mem (mem_of_getLast? hlast))
      exact if_neg (by omega)

theorem run_stored (ctx : Context) (s : Session) (types : List Ty) (variadic : Bool) : ∃ ty u,
    (some <$> intern (.results types variadic)) ctx s = some (some ty, u) ∧ u.types.lookup ty = .results types variadic :=
  ⟨_, { s with types := (s.types.intern _).2 }, rfl, lookup_of_form (intern_form _ _)⟩

/-- The last position gets what is left. -/
theorem run_pairRest (ctx : Context) (h : k < second.types.length)
    (hsingle : ∀ ty ∈ second.types, s.types.kind ty ≠ .results) :
    ∃ ty u, pairRest second k ctx s = some (some ty, u) ∧ u.types.spread ty = second.types.drop k ∧
      ((∃ types, u.types.lookup ty = .results types true) ↔ second.variadic = true) := by
  obtain ⟨ty, u, hr, hl⟩ := run_stored ctx s (second.types.drop k) second.variadic
  have hspread : u.types.spread ty = second.types.drop k := by simp [spread, hl]
  unfold pairRest
  split
  · have hdrop : second.types.drop k = [second.types[k]] := by
      rw [drop_eq_getElem_cons h, drop_eq_nil_of_le (by omega)]
    have hlast : second.types.getLast? = some second.types[k] := by
      rw [getLast?_eq_getElem?, show second.types.length - 1 = k by omega, getElem?_eq_getElem h]
    rw [hlast]
    cases hv : second.variadic with
    | true =>
      rw [hv, hdrop] at hr hl
      exact ⟨ty, u, hr, hspread, by simp [hl]⟩
    | false =>
      have hkind := hsingle _ (getElem_mem h)
      refine ⟨second.types[k], s, by rw [getElem?_eq_getElem h]; rfl, ?_, ?_⟩
      · unfold spread
        split
        · rename_i hl
          exact absurd (kind_of hl) hkind
        · exact hdrop.symm
      · refine iff_of_false ?_ Bool.false_ne_true
        rintro ⟨types, hl⟩
        exact hkind (kind_of hl)
  · exact ⟨ty, u, hr, hspread, by simp [hl]⟩

/-! ## All positions -/

theorem pairUp_eq (hfixed : first.variadic = false) (hj : first.types.length = j + 1) :
    S.pairUp first second true = (range j).mapM (S.pairRight second) >>= fun rs =>
      pairRest second j >>= fun r => pure (first.types.zip (rs ++ [r])) := by
  obtain ⟨last, hlast⟩ : ∃ last, first.types.getLast? = some last :=
    Option.isSome_iff_exists.1 (getLast?_isSome.2 (by rintro h; simp [h] at hj))
  let right (k : Nat) : Solve (Option Ty) := if k = j then pairRest second k else S.pairRight second k
  have hzip (rs : List (Option Ty)) : zipWith (fun k r => (first.types[k]?.getD last, r)) (range (j + 1)) rs =
      first.types.zip rs := by
    rw [← zipWith_map_left (f := fun k => first.types[k]?.getD last) (g := Prod.mk)]
    refine congrArg (zip · rs) (ext_getElem (by simp [hj]) (by simp +contextual))
  have hright : (range j).mapM right = (range j).mapM (S.pairRight second) :=
    mapM_congr fun k hk => if_neg (mem_range.1 hk).ne
  have hpairs : S.pairUp first second true = (range (j + 1)).mapM right >>= fun rs => pure (first.types.zip rs) := by
    simp only [← hzip]
    rw [← mapM_bind_pure]
    unfold Solver.pairUp
    rw [hlast, hfixed, hj]
    refine mapM_congr fun k _ => ?_
    unfold Solver.pairLeft
    by_cases hk : k = j <;> simp [right, hk, hfixed]
  rw [hpairs, range_succ, mapM_append, hright]
  simp [right]

theorem mapM_pairRight (h : second.variadic = true → second.types ≠ [] → j < second.types.length) :
    (range j).mapM (S.pairRight second) = pure ((range j).map (second.types[·]?)) := by
  rw [mapM_congr fun k hk => pairRight_eq fun hv hne => by have := h hv hne; have := mem_range.1 hk; omega]
  exact mapM_pure

theorem range_map_getElem? (types : List Ty) (j : Nat) :
    (range j).map (types[·]?) = (types.take j).map some ++ replicate (j - types.length) none := by
  refine ext_getElem? fun i => ?_
  simp [getElem?_append, getElem?_take]
  grind

/-- A variadic list that is too short is gone on with by its last type or `nil`. -/
theorem run_mapM_pairRight (hv : second.variadic = true) {tail : Ty} (hlast : second.types.getLast? = some tail)
    (hshort : second.types.length ≤ j)
    (hends : ((range (j + 1 - second.types.length)).mapM fun _ => S.union Ty.nil tail) ctx s ≠ none) :
    ∃ rs u, (range j).mapM (S.pairRight second) ctx s = some (rs, u) := by
  have hpos := length_pos_of_mem (mem_of_getLast? hlast)
  have hsplit : j = second.types.length - 1 + (j + 1 - second.types.length) := by omega
  have htail (i : Nat) : S.pairRight second (second.types.length - 1 + i) =
      S.union Ty.nil tail >>= fun r => pure (some r) := by
    unfold Solver.pairRight
    rw [hv, hlast]
    simp
  obtain ⟨⟨rs, u⟩, hr⟩ := Option.ne_none_iff_exists'.1 hends
  rw [hsplit, range_add, mapM_append, mapM_pairRight (by omega), pure_bind, mapM_map]
  simp only [Function.comp_def, htail]
  rw [mapM_bind_pure (fun _ => some)]
  exact ⟨_, _, run_bind (run_bind hr)⟩

/-- Pairing neither loses nor repeats a value. The positions of `first`, which is not variadic, are paired in order. If
there are enough values, they make up the second components, the last of which is a list that goes on just if `second`
does; if there are too few, `none` stands for the missing ones. A variadic `second` that is too short is gone on with by
its last type or `nil`, and there the pairs depend on that union having an answer. -/
theorem pairUp_lossless (S : Solver) (first second : Results) (ctx : Context) (s : Session)
    (hfixed : first.variadic = false) (hne : first.types ≠ [])
    (hsingle : ∀ ty ∈ second.types, s.types.kind ty ≠ .results)
    (hends : second.variadic = true → ∀ tail ∈ second.types.getLast?,
      ((range (first.types.length - second.types.length)).mapM fun _ => S.union Ty.nil tail) ctx s ≠ none) :
    ∃ pairs u, S.pairUp first second true ctx s = some (pairs, u) ∧ pairs.map Prod.fst = first.types ∧
      (first.types.length ≤ second.types.length → ∃ values last,
        pairs.map Prod.snd = values.map some ++ [some last] ∧ values ++ u.types.spread last = second.types ∧
        ((∃ types, u.types.lookup last = .results types true) ↔ second.variadic = true)) ∧
      (second.types.length < first.types.length → second.variadic = false → pairs.map Prod.snd =
        second.types.map some ++ replicate (first.types.length - second.types.length) none) := by
  obtain ⟨j, hj⟩ : ∃ j, first.types.length = j + 1 := Nat.exists_eq_succ_of_ne_zero (by simpa using hne)
  have hpairs {rs r v u} (hinit : (range j).mapM (S.pairRight second) ctx s = some (rs, v))
      (hrest : pairRest second j ctx v = some (r, u)) :
      S.pairUp first second true ctx s = some (first.types.zip (rs ++ [r]), u) ∧
        (first.types.zip (rs ++ [r])).map Prod.fst = first.types ∧
        (first.types.zip (rs ++ [r])).map Prod.snd = rs ++ [r] := by
    have hgives := Solve.Gives.mapM (R := fun _ _ => True) (fun _ _ _ _ _ _ => trivial) _ ctx s rs v hinit
    have hlen : rs.length = j := by simpa using hgives.1
    refine ⟨?_, map_fst_zip (by simp; omega), map_snd_zip (by simp; omega)⟩
    rw [pairUp_eq hfixed hj, run_bind hinit, run_bind hrest]
    rfl
  rw [hj] at hends ⊢
  -- if there are enough values, the last position gets what is left
  by_cases hlong : j < second.types.length
  · obtain ⟨last, u, hr, hspread, hlast⟩ := run_pairRest ctx hlong hsingle
    obtain ⟨hup, hfst, hsnd⟩ := hpairs (by rw [mapM_pairRight fun _ _ => hlong]; rfl) hr
    refine ⟨_, u, hup, hfst, fun _ => ⟨second.types.take j, last, ?_, ?_, hlast⟩, fun h => by omega⟩
    · rw [hsnd, range_map_getElem?, Nat.sub_eq_zero_of_le hlong.le, replicate_zero, append_nil]
    · rw [hspread, take_append_drop]
  -- too few, and nothing goes on
  by_cases hplain : second.variadic = true → second.types = []
  · have hrest : pairRest second j = pure second.types[j]? := by
      unfold pairRest
      rw [if_pos (by omega)]
      cases hv : second.variadic with
      | false => rfl
      | true => simp [hplain hv]
    obtain ⟨hup, hfst, hsnd⟩ := hpairs (by rw [mapM_pairRight fun hv h => absurd (hplain hv) h]; rfl) (by rw [hrest]; rfl)
    refine ⟨_, s, hup, hfst, fun h => by omega, fun _ _ => ?_⟩
    have hall := range_map_getElem? second.types (j + 1)
    rwa [range_succ, map_append, take_of_length_le (by omega), map_singleton, ← hsnd] at hall
  · -- only here unions are asked for
    obtain ⟨hv, hne⟩ := Classical.not_imp.1 hplain
    obtain ⟨tail, hlast⟩ := Option.isSome_iff_exists.1 (getLast?_isSome.2 hne)
    obtain ⟨rs, v, hr⟩ := run_mapM_pairRight hv hlast (by omega) (hends hv tail hlast)
    obtain ⟨ty, u, hrest, -⟩ := run_stored ctx v [tail] true
    obtain ⟨hup, hfst, -⟩ := hpairs hr (by unfold pairRest; rw [if_pos (by omega), hv, hlast]; exact hrest)
    exact ⟨_, u, hup, hfst, fun h => by omega, fun _ h => by rw [hv] at h; cases h⟩

/-- The last of two positions gets the two values that are left. -/
theorem pairUp_lossless_three : ∃ pairs u values last,
    standard.pairUp ⟨[Ty.string, Ty.number], false⟩ ⟨[Ty.boolean, Ty.table, Ty.string], true⟩ true undeclared
      (.start initial Limits.standard) = some (pairs, u) ∧ pairs.map Prod.snd = values.map some ++ [some last] ∧
    values ++ u.types.spread last = [Ty.boolean, Ty.table, Ty.string] ∧
    ∃ types, u.types.lookup last = .results types true := by
  obtain ⟨pairs, u, hup, -, hlong, -⟩ := pairUp_lossless standard ⟨[Ty.string, Ty.number], false⟩
    ⟨[Ty.boolean, Ty.table, Ty.string], true⟩ undeclared (.start initial Limits.standard) rfl (cons_ne_nil _ _)
    (by decide) fun _ _ _ => Option.some_ne_none _
  obtain ⟨values, last, hsnd, hvalues, hvariadic⟩ := hlong (by decide)
  exact ⟨pairs, u, values, last, hup, hsnd, hvalues, hvariadic.2 rfl⟩

end AnnotatedLua
