/-
Unions of string literals. The display name of a literal can be read back (`quoted_injective`), and no literal subsumes
another one, whatever the guard says (`always_subsumes_string`). So a union keeps all of them (`unionAll_strings`).
-/
import AnnotatedLua.Proofs.Union.Made

namespace AnnotatedLua

open Solve Solver TypeTable List
open Session (Always)

/-! ## Display names -/

/-- Reads back what stands between the quotes. -/
def unescape : List Char → List Char
  | [] => []
  | '\\' :: c :: rest => (if c = 'n' then '\n' else c) :: unescape rest
  | c :: rest => c :: unescape rest

theorem unescape_flatMap {escape : Char → List Char} (h : ∀ c rest, unescape (escape c ++ rest) = c :: unescape rest)
    (text : List Char) : unescape (text.flatMap escape) = text := by
  induction text with
  | nil => rfl
  | cons c text ih => rw [flatMap_cons, h, ih]

theorem quoted_injective : Function.Injective quoted := by
  intro a b e
  have hlist := String.ofList_injective e
  rw [cons_append, cons_append, cons_inj_right, append_left_inj] at hlist
  have hread := congrArg unescape hlist
  rw [unescape_flatMap, unescape_flatMap] at hread
  · exact String.toList_injective hread
  all_goals
    intro c rest
    split
    · rfl
    · rfl
    · rfl
    · rename_i hne _
      exact unescape.eq_3 c rest fun _ _ h _ => hne h

theorem TypeTable.render_string {t : TypeTable} {ty : Ty} {x : Symbol} (h : t.lookup ty = .literal .string x) :
    t.render ty = quoted (t.text x) := by
  unfold render renderBelow
  rw [h]
  rfl

theorem TypeTable.render_string_inj {t t' : TypeTable} {a b : Ty} {x y : Symbol} (ha : t.lookup a = .literal .string x)
    (hb : t'.lookup b = .literal .string y) (e : t.render a = t'.render b) : t.text x = t'.text y := by
  rw [render_string ha, render_string hb] at e
  exact quoted_injective e

/-! ## Comparisons -/

section
variable {ctx : Context} {s : Session} {ty target source : Ty} {form : Form} {x y : Symbol}

theorem always_denied {m : Solver → Solve Bool} (activity : Activity) (subject : Subject)
    (hm : ∀ u : Session, s.types.Extends u.types → u.types.WF → u.Always ctx m false) : s.Always ctx (fun S => do
      let answer ← withGuard activity subject (m S)
      return answer.getD false) false := by
  intro u hu
  have hguarded := ends_withGuard (Q := (· = false)) hu.types activity subject fun g _ =>
    (hm { u with guard := g } hu.grown hu.types).now hu.types
  refine hguarded.bind fun answer v hv h => .pure hv.types ?_
  cases answer with
  | none => rfl
  | some b => exact h b rfl

/-- Neither a string literal nor `string` stands for anything else. -/
theorem always_resolve_string (hl : s.types.lookup ty = form)
    (hform : form = .primitive .string ∨ ∃ x, form = .literal .string x) : s.Always ctx (·.resolve ty) ty := by
  have hhas : s.types.Has ty := has_of hl (by rcases hform with rfl | ⟨x, rfl⟩ <;> simp)
  have hwill : s.Always ctx (·.willResolve ty) false := by
    refine .ask ((Always.lookup hhas).after ?_)
    rw [hl]
    rcases hform with rfl | ⟨x, rfl⟩ <;> exact .pure false
  have hmembers : s.Always ctx (fun _ => members ty) (s.types.members ty) := .members hhas
  rw [members_eq_self (by rw [kind_of hl]; rcases hform with rfl | ⟨x, rfl⟩ <;> simp)] at hmembers
  have hany : s.Always ctx (fun S => [ty].anyM S.willResolve) ([ty].any fun _ => false) := .anyM (by simpa using hwill)
  exact hmembers.after (hany.after (.pure ty))

theorem always_accepts_string (ht : s.types.lookup target = .literal .string x) (hl : s.types.lookup source = form)
    (hform : form = .primitive .string ∨ ∃ x, form = .literal .string x) (hne : target ≠ source)
    (hsuper : s.Always ctx (·.acceptsSuper target source subsumption) false) :
    s.Always ctx (·.accepts target source subsumption) false := by
  have hresolve : s.Always ctx (·.resolve source) source := always_resolve_string hl hform
  have hhas : s.types.Has source := has_of hl (by rcases hform with rfl | ⟨x, rfl⟩ <;> simp)
  have hequal : s.Always ctx (·.equal target source) false := by
    refine .ask (.ite (fun h => absurd h hne) fun _ => (Always.lookup (has_of ht)).after ?_)
    rw [ht]
    refine hresolve.after ?_
    rw [decide_eq_false hne.symm]
    exact .pure false
  have hlenient : s.Always ctx (fun _ => isLenient source subsumption) false := by
    rw [show false = ctx.lets subsumption false source by simp [Context.lets, subsumption]]
    exact always_isLenient source subsumption
  have hbase : s.Always ctx (·.acceptsBase target source subsumption) false := by
    change s.Always ctx _ (false || (false || false))
    refine hlenient.orElse (hresolve.after (hequal.orElse ?_))
    refine .ite (fun h => absurd rfl h) fun _ => (Always.lookup hhas).after ?_
    rw [hl]
    rcases hform with rfl | ⟨x, rfl⟩ <;> exact (Always.pure false).after hsuper
  refine .ask (.ite (fun h => absurd h hne) fun _ => (Always.lookup (has_of ht)).after ?_)
  rw [ht]
  exact hresolve.after (.ite (fun h => absurd h.symm hne) fun _ => hbase)

theorem always_subsumes_string (ht : s.types.lookup target = .literal .string x)
    (hs : s.types.lookup source = .literal .string y) (hne : target ≠ source) :
    s.Always ctx (·.subsumes target source) false := by
  refine always_denied _ _ fun u hu _ => ?_
  replace ht := (hu.lookup (has_of ht)).trans ht
  replace hs := (hu.lookup (has_of hs)).trans hs
  refine always_accepts_string ht hs (.inr ⟨y, rfl⟩) hne ?_
  have hsuper : u.Always ctx (·.superClass source) (some Ty.string) := by
    refine .ask ((Always.lookup (has_of hs)).after ?_)
    rw [hs]
    exact .pure (some Ty.string)
  refine hsuper.after (always_denied _ _ fun v hv hw => ?_)
  replace ht := (hv.lookup (has_of ht)).trans ht
  have hl := hw.lookup_primitive .string
  refine always_accepts_string ht hl (.inl rfl) (fun h => ?_) ?_
  · cases (h ▸ ht).symm.trans hl
  · have hnone : v.Always ctx (·.superClass Ty.string) none := by
      refine .ask ((Always.lookup (has_of hl)).after ?_)
      rw [hl]
      exact .pure none
    exact hnone.after (.pure false)
end

/-! ## Unions -/

theorem Subsumption.insertAll_apart {R : Subsumption} {types children : List Ty} (hR : ∀ x y, R x y = false)
    (hb : ∀ z ∈ types, otherBoolean? z = none) (hn : children.Nodup) :
    (types.foldl R.insert children).Nodup ∧ ∀ z, z ∈ types.foldl R.insert children ↔ z ∈ children ∨ z ∈ types := by
  induction types generalizing children with
  | nil => exact ⟨hn, by simp⟩
  | cons member types ih =>
    obtain ⟨hm, hb⟩ := forall_mem_cons.1 hb
    have hinsert : R.insert children member = if member ∈ children then children else children ++ [member] := by
      simp [insert, covers, append, hR, hm]
    rw [foldl_cons, hinsert]
    split_ifs with hmem
    · have := ih hb hn
      grind
    · have hn : (children ++ [member]).Nodup := by grind
      have := ih hb hn
      grind

section
variable {ctx : Context} {s : Session} (hw : s.types.WF) {types : List Ty}
  (htypes : ∀ ty ∈ types, ∃ x, s.types.lookup ty = .literal .string x)
include hw htypes

theorem strings_apart : s.types.NamesApart types := by
  intro a ha b hb e
  obtain ⟨x, hx⟩ := htypes a ha
  obtain ⟨y, hy⟩ := htypes b hb
  rw [hw.name_eq, hw.name_eq] at e
  obtain rfl : x = y :=
    hw.eq_of_names hx hy (by simp) (by simp) (render_string_inj hx hy e)
  exact hw.eq_of_lookup (has_of hx) (has_of hy) (hx.trans hy.symm)

variable (ctx) in
theorem ends_unionAll_strings : s.Ends ctx (·.unionAll types) fun r u => ∃ (v : Session) (children : List Ty),
    v.Past ctx s ∧ children.Nodup ∧ (∀ z, z ∈ children ↔ z ∈ types) ∧ v.types.unionOf children = (r, u.types) := by
  have hatom (ty) (hty : ty ∈ types) : s.Atom ctx ty := (htypes ty hty).elim fun _ hx => .literal (.inl rfl) hx
  have hhas (ty) (hty : ty ∈ types) : s.types.Has ty := ((hatom ty hty).form hw).1
  have hflat : s.types.flat types = types := by
    unfold flat
    rw [flatMap_congr fun ty hty => (hatom ty hty).members hw, flatMap_singleton', filter_eq_self]
    exact fun ty hty => by simpa [Ty.isVoid] using ((hatom ty hty).ne hw).2
  have habsorbs : s.types.absorbs (s.types.flat types) = false :=
    Session.Ground.absorbs hw fun ty hty => ⟨hhas ty hty, fun z hz => .inr (by
      rw [(hatom ty hty).members hw, mem_singleton] at hz
      exact hz ▸ hatom ty hty)⟩
  have hother (z) (hz : z ∈ types) : otherBoolean? z = none := by
    obtain ⟨x, hx⟩ := htypes z hz
    unfold otherBoolean?
    rw [if_neg (by rintro rfl; cases hx.symm.trans hw.lookup_trueLiteral),
      if_neg (by rintro rfl; cases hx.symm.trans hw.lookup_falseLiteral)]
  have hends : s.Ends ctx (·.unionAll types) _ := ends_unionAll_insertAll (M := (· ∈ types)) (R := fun _ _ => false)
    (fun a b ha hb hne => (htypes a ha).elim fun _ hx => (htypes b hb).elim fun _ hy => always_subsumes_string hx hy hne)
    hw (fun z hz h => absurd (hother z hz) h) hhas (by rw [hflat]; exact fun _ h => h) habsorbs
  obtain ⟨hnodup, hmem⟩ := Subsumption.insertAll_apart (R := fun _ _ => false) (fun _ _ => rfl) hother nodup_nil
  simp only [not_mem_nil, false_or] at hmem
  rw [hflat] at hends
  refine hends.imp fun r u _ h => ?_
  obtain ⟨v, hv, rfl, ht⟩ := h
  exact ⟨v, _, hv, hnodup, hmem, Prod.ext rfl ht.symm⟩

/-- Two literals or more are stored as they are, in order. -/
theorem lookup_unionOf_strings {v : Session} (hv : v.Past ctx s) {children : List Ty} (hnodup : children.Nodup)
    (hmem : ∀ z, z ∈ children ↔ z ∈ types) (hlen : 2 ≤ children.length) {r : Ty} {t : TypeTable}
    (hunion : v.types.unionOf children = (r, t)) (ht : t.WF) : ∃ members, t.lookup r = .union members ∧ members.Nodup ∧
      (∀ z, z ∈ members ↔ z ∈ types) ∧ members.Pairwise fun a b => t.render a < t.render b := by
  have hhas (ty) (hty : ty ∈ types) : s.types.Has ty := (htypes ty hty).elim fun _ hx => has_of hx
  have hd := ((strings_apart hw htypes).extends hv.grown hw hv.types hhas).subset fun z => (hmem z).1
  have hstored (z) (hz : z ∈ children) := hv.grown.has (hhas z ((hmem z).1 hz))
  have hperm := v.types.sortByName_perm children
  have hx := unionOf_extends v.types children
  have hl := (hv.types.unionOf hstored hd hnodup hlen).2.2
  rw [hunion] at hx hl
  refine ⟨_, hl, hperm.nodup_iff.2 hnodup, fun z => hperm.mem_iff.trans (hmem z),
    Pairwise.imp_of_mem (fun ha hb h => ?_) (sortByName_ordered hd hnodup)⟩
  rwa [← ht.name_eq, ← ht.name_eq, hx.name hv.types ht (hstored _ (hperm.subset ha)),
    hx.name hv.types ht (hstored _ (hperm.subset hb))]
end

/-- A union of string literals keeps every literal, whatever is declared and even if the guard is exhausted, for no two
texts are shown alike. It is `void` if there is no literal, the literal if there is only one, and otherwise the union of
all of them, each once, ordered by their display names. -/
theorem unionAll_strings (ctx : Context) {s : Session} (hw : s.types.WF) {types : List Ty}
    (htypes : ∀ ty ∈ types, ∃ x, s.types.lookup ty = .literal .string x) :
    (∀ (t t' : TypeTable) a b x y, t.lookup a = .literal .string x → t'.lookup b = .literal .string y →
      t.render a = t'.render b → t.text x = t'.text y) ∧
    ∃ N r u, (∀ n, N ≤ n → (ofBudget n).unionAll types ctx s = some (r, u)) ∧ (types = [] → r = Ty.void) ∧
      (∀ ty ∈ types, (∀ z ∈ types, z = ty) → r = ty) ∧
      ((∃ a ∈ types, ∃ b ∈ types, a ≠ b) → ∃ members, u.types.lookup r = .union members ∧ members.Nodup ∧
        (∀ z, z ∈ members ↔ z ∈ types) ∧ members.Pairwise fun a b => u.types.render a < u.types.render b) := by
  refine ⟨fun _ _ _ _ _ _ => render_string_inj, ?_⟩
  obtain ⟨N, r, u, hr, hu, v, children, hv, hnodup, hmem, hunion⟩ := ends_unionAll_strings ctx hw htypes
  refine ⟨N, r, u, hr, ?_, ?_, ?_⟩
  · rintro rfl
    obtain rfl : children = [] := eq_nil_iff_forall_not_mem.2 fun z hz => by simpa using (hmem z).1 hz
    exact (congrArg Prod.fst hunion).symm
  · intro ty hty hall
    obtain rfl : children = [ty] := by
      refine perm_singleton.1 ((perm_ext_iff_of_nodup hnodup (nodup_singleton ty)).2 fun z => ?_)
      rw [hmem, mem_singleton]
      exact ⟨hall z, fun h => h ▸ hty⟩
    exact (congrArg Prod.fst hunion).symm
  · rintro ⟨a, ha, b, hb, hab⟩
    have hlen : [a, b].length ≤ children.length :=
      (subperm_of_subset (by simpa using hab) (by simp [hmem, ha, hb])).length_le
    exact lookup_unionOf_strings hw htypes hv hnodup hmem hlen hunion hu.types

/-- Two string literals, after some handles were shown. -/
def literalTypes (shown : List Ty) : TypeTable :=
  (Interning.literal .string "y" (Interning.literal .string "x" (shown.foldl keepName initial)).2).2

def literalStart (shown : List Ty) : Session := .start (literalTypes shown) ⟨0, 0⟩

theorem unionAll_strings_exhausted : ∃ N r u members, (∀ n, N ≤ n →
    (ofBudget n).unionAll [⟨11⟩, ⟨10⟩, ⟨11⟩] undeclared (literalStart []) = some (r, u)) ∧
    u.types.lookup r = .union members ∧ ∀ z, z ∈ members ↔ z ∈ [⟨11⟩, ⟨10⟩, ⟨11⟩] := by
  have hw : (literalTypes []).WF := Orderly.wf (by decide)
  have htypes : ∀ ty ∈ [⟨11⟩, ⟨10⟩, ⟨11⟩], ∃ x, (literalTypes []).lookup ty = .literal .string x := by
    simp only [forall_mem_cons, not_mem_nil, false_imp_iff, implies_true, and_true]
    exact ⟨⟨⟨4⟩, by decide⟩, ⟨⟨3⟩, by decide⟩, ⟨⟨4⟩, by decide⟩⟩
  obtain ⟨-, N, r, u, hr, -, -, hunion⟩ := unionAll_strings undeclared (s := literalStart []) hw htypes
  obtain ⟨members, hl, -, hmem, -⟩ := hunion ⟨⟨10⟩, by decide, ⟨11⟩, by decide, by decide⟩
  exact ⟨N, r, u, members, hr, hl, hmem⟩

/-- A handle that was shown before it was given out is shown as `any` ever after, so that one literal is lost. -/
theorem unionAll_strings_shown_early : (literalTypes [⟨10⟩, ⟨11⟩]).lookup ⟨10⟩ = .literal .string ⟨3⟩ ∧
    (literalTypes [⟨10⟩, ⟨11⟩]).lookup ⟨11⟩ = .literal .string ⟨4⟩ ∧
    (standard.unionAll [⟨10⟩, ⟨11⟩] undeclared (literalStart [⟨10⟩, ⟨11⟩])).map Prod.fst = some ⟨10⟩ := by
  decide

end AnnotatedLua
