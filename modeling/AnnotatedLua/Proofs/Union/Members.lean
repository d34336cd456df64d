/-
The members of a union, when it is known which types subsume which. Members are put in one by one as the solver does it
(`Subsumption.insert`). If subsumption orders the types, the members in the end are the greatest ones of what was put
in, with `boolean` for `true` and `false` (`Orders.settled_insertAll`, `Orders.covered_insertAll`); so neither order nor
repetition matters (`Orders.insertAll_perm`). The members that the solver gives a union. Where the comparisons have
known answers, its insertions have the members that the order of subsumption says (`Finds.insertMember`), so a union
that nothing stopped is stored with these members (`unionAll_run`).
-/
import AnnotatedLua.Proofs.Query.Answer
import AnnotatedLua.Proofs.Type.Canonical
import Mathlib.Data.List.Nodup
import Mathlib.Data.List.Perm.Basic

namespace AnnotatedLua

open Solve List Solver

abbrev Subsumption := Ty → Ty → Bool

namespace Subsumption

variable (R : Subsumption)

/-! ## Insertion -/

def append (children : List Ty) (member : Ty) : List Ty := (children.filter fun child => !R member child) ++ [member]

def covers (children : List Ty) (member : Ty) : Bool :=
  children.contains member || children.any fun child => R child member

def insertPlain (children : List Ty) (member : Ty) : List Ty :=
  if R.covers children member then children else R.append children member

def insert (children : List Ty) (member : Ty) : List Ty :=
  if R.covers children member then children
  else match otherBoolean? member with
    | some other =>
      if children.contains other then R.insertPlain (children.erase other) Ty.boolean
      else R.append children member
    | none => R.append children member

def insertAll (types : List Ty) : List Ty := types.foldl R.insert []

/-! ## What the members stand for -/

/-- One of the types is `ty` or subsumes it. -/
def Covered (types : List Ty) (ty : Ty) : Prop := ∃ other ∈ types, ty = other ∨ R other ty = true

def Spans (types : List Ty) (ty : Ty) : Prop :=
  R.Covered types ty ∨ R.Covered types Ty.trueLiteral ∧ R.Covered types Ty.falseLiteral ∧
    R.Covered [Ty.boolean] ty

/-- Subsumption orders the types of `M`, `boolean` and its literals among them. What is above a literal
is above `boolean`. -/
structure Orders (M : Ty → Prop) : Prop where
  trans : ∀ x y z, M x → M y → M z → R x y = true → R y z = true → R x z = true
  antisymm : ∀ x y, M x → M y → R x y = true → R y x = true → x = y
  boolean : M Ty.boolean
  trueLiteral : M Ty.trueLiteral
  falseLiteral : M Ty.falseLiteral
  boolean_true : R Ty.boolean Ty.trueLiteral = true
  boolean_false : R Ty.boolean Ty.falseLiteral = true
  above_true : ∀ x, M x → R x Ty.trueLiteral = true → x = Ty.trueLiteral ∨ x = Ty.boolean ∨ R x Ty.boolean = true
  above_false : ∀ x, M x → R x Ty.falseLiteral = true → x = Ty.falseLiteral ∨ x = Ty.boolean ∨ R x Ty.boolean = true

/-- No member makes another one superfluous, and `true` and `false` are not members side by side. -/
structure Settled (children : List Ty) : Prop where
  nodup : children.Nodup
  apart : ∀ x ∈ children, ∀ y ∈ children, R x y = true → x = y
  collapsed : R.Covered children Ty.trueLiteral → R.Covered children Ty.falseLiteral →
    R.Covered children Ty.boolean

variable {R} {M : Ty → Prop} {children types types' : List Ty} {x y member : Ty}

theorem Covered.of_mem (h : x ∈ types) : R.Covered types x := ⟨x, h, .inl rfl⟩

theorem Covered.mono (h : R.Covered types x) (hs : types ⊆ types') : R.Covered types' x := by
  obtain ⟨y, hy, hxy⟩ := h
  exact ⟨y, hs hy, hxy⟩

theorem covers_iff : R.covers children member = true ↔ R.Covered children member := by
  unfold covers Covered
  simp only [Bool.or_eq_true, contains_iff_mem, any_eq_true]
  constructor
  · rintro (h | ⟨y, hy, hr⟩)
    · exact ⟨member, h, .inl rfl⟩
    · exact ⟨y, hy, .inr hr⟩
  · rintro ⟨y, hy, rfl | hr⟩
    · exact .inl hy
    · exact .inr ⟨y, hy, hr⟩

theorem mem_append : x ∈ R.append children member ↔ (x ∈ children ∧ R member x = false) ∨ x = member := by
  simp [append]

theorem otherBoolean?_eq_some {other : Ty} (h : otherBoolean? member = some other) :
    (member = Ty.trueLiteral ∧ other = Ty.falseLiteral) ∨ (member = Ty.falseLiteral ∧ other = Ty.trueLiteral) := by
  unfold otherBoolean? at h
  split_ifs at h with h1 h2
  · exact .inl ⟨h1, (Option.some.inj h).symm⟩
  · exact .inr ⟨h2, (Option.some.inj h).symm⟩

theorem otherBoolean?_eq_none (h : otherBoolean? member = none) :
    member ≠ Ty.trueLiteral ∧ member ≠ Ty.falseLiteral := by
  unfold otherBoolean? at h
  split_ifs at h with h1 h2
  exact ⟨h1, h2⟩

/-- Whatever stands for both literals stands for `boolean`. -/
theorem spans_boolean (ht : R.Spans types Ty.trueLiteral) (hf : R.Spans types Ty.falseLiteral) :
    R.Spans types Ty.boolean := by
  have hb : R.Covered [Ty.boolean] Ty.boolean := .of_mem (by simp)
  rcases ht with ht | ⟨ht, hf, -⟩
  · rcases hf with hf | ⟨ht, hf, -⟩
    · exact .inr ⟨ht, hf, hb⟩
    · exact .inr ⟨ht, hf, hb⟩
  · exact .inr ⟨ht, hf, hb⟩

theorem append_mem (hm : ∀ z ∈ children, M z) (hmem : M member) : ∀ z ∈ R.append children member, M z := by
  intro z hz
  rcases mem_append.1 hz with ⟨hz, -⟩ | rfl
  · exact hm z hz
  · exact hmem

theorem settled_nil : R.Settled [] where
  nodup := nodup_nil
  apart _ hx := by cases hx
  collapsed := by
    rintro ⟨_, h, -⟩
    cases h

namespace Orders

variable (hR : R.Orders M)
include hR

theorem covered_trans (hx : M x) (hy : M y) (hm : ∀ z ∈ types, M z) (hxy : x = y ∨ R y x = true)
    (h : R.Covered types y) : R.Covered types x := by
  obtain ⟨z, hz, hyz⟩ := h
  refine ⟨z, hz, ?_⟩
  rcases hxy with rfl | hxy
  · exact hyz
  · rcases hyz with rfl | hyz
    · exact .inr hxy
    · exact .inr (hR.trans z y x (hm z hz) hy hx hyz hxy)

theorem spans_trans (hx : M x) (hy : M y) (hm : ∀ z ∈ types, M z) (hxy : x = y ∨ R y x = true)
    (h : R.Spans types y) : R.Spans types x := by
  rcases h with h | ⟨ht, hf, hb⟩
  · exact .inl (hR.covered_trans hx hy hm hxy h)
  · exact .inr ⟨ht, hf, hR.covered_trans hx hy (by simpa using hR.boolean) hxy hb⟩

theorem spans_of_forall (hm : ∀ z ∈ types, M z) (hm' : ∀ z ∈ types', M z)
    (hall : ∀ y ∈ types, R.Spans types' y) (hx : M x) (h : R.Spans types x) : R.Spans types' x := by
  have covered {z : Ty} (hz : M z) (h : R.Covered types z) : R.Spans types' z := by
    obtain ⟨y, hy, hzy⟩ := h
    exact hR.spans_trans hz (hm y hy) hm' hzy (hall y hy)
  rcases h with h | ⟨ht, hf, y, hy, hxy⟩
  · exact covered hx h
  · rw [mem_singleton] at hy
    subst hy
    exact hR.spans_trans hx hR.boolean hm' hxy
      (spans_boolean (covered hR.trueLiteral ht) (covered hR.falseLiteral hf))

theorem spans_iff_covered (hc : R.Settled children) (hm : ∀ z ∈ children, M z) (hx : M x) :
    R.Spans children x ↔ R.Covered children x := by
  refine ⟨fun h => ?_, .inl⟩
  rcases h with h | ⟨ht, hf, y, hy, hxy⟩
  · exact h
  · rw [mem_singleton] at hy
    subst hy
    exact hR.covered_trans hx hR.boolean hm hxy (hc.collapsed ht hf)

/-! ## One insertion -/

theorem covered_append (hx : M x) (hm : ∀ z ∈ children, M z) (hmem : M member) :
    R.Covered (R.append children member) x ↔ R.Covered (member :: children) x := by
  constructor
  · refine fun h => h.mono fun z hz => ?_
    rcases mem_append.1 hz with ⟨hz, -⟩ | rfl
    · exact mem_cons_of_mem _ hz
    · exact mem_cons_self
  · rintro ⟨y, hy, hxy⟩
    have hlast : member ∈ R.append children member := mem_append.2 (.inr rfl)
    rcases mem_cons.1 hy with rfl | hy
    · exact ⟨y, hlast, hxy⟩
    · by_cases hr : R member y = true
      · exact hR.covered_trans hx (hm y hy) (append_mem hm hmem) hxy ⟨member, hlast, .inr hr⟩
      · exact ⟨y, mem_append.2 (.inl ⟨hy, by simpa using hr⟩), hxy⟩

theorem spans_append (hx : M x) (hm : ∀ z ∈ children, M z) (hmem : M member) :
    R.Spans (R.append children member) x ↔ R.Spans (member :: children) x := by
  unfold Spans
  rw [hR.covered_append hx hm hmem, hR.covered_append hR.trueLiteral hm hmem,
    hR.covered_append hR.falseLiteral hm hmem]

/-- A member that is a literal of `boolean` or above it is the literal itself or covers `boolean`. -/
theorem literal_or_boolean {literal : Ty} (hliteral : literal = Ty.trueLiteral ∨ literal = Ty.falseLiteral)
    (hm : ∀ z ∈ types, M z) (h : R.Covered types literal) : literal ∈ types ∨ R.Covered types Ty.boolean := by
  have habove : ∀ y, M y → R y literal = true → y = literal ∨ y = Ty.boolean ∨ R y Ty.boolean = true := by
    rcases hliteral with rfl | rfl
    · exact hR.above_true
    · exact hR.above_false
  obtain ⟨y, hy, rfl | hr⟩ := h
  · exact .inl hy
  · rcases habove y (hm y hy) hr with rfl | rfl | hb
    · exact .inl hy
    · exact .inr (.of_mem hy)
    · exact .inr ⟨y, hy, .inr hb⟩

section
variable (hc : R.Settled children) (hm : ∀ z ∈ children, M z)
include hc hm

/-- Where a literal is a member, `boolean` is not covered: it would make the literal superfluous. -/
theorem not_covered_boolean {literal : Ty} (hlit : M literal) (hne : literal ≠ Ty.boolean)
    (hr : R Ty.boolean literal = true) (hmem : literal ∈ children) : ¬ R.Covered children Ty.boolean := by
  rintro ⟨y, hy, hby⟩
  have hyl : R y literal = true := by
    rcases hby with rfl | hby
    · exact hr
    · exact hR.trans y _ _ (hm y hy) hR.boolean hlit hby hr
  obtain rfl := hc.apart y hy literal hmem hyl
  rcases hby with hby | hby
  · exact hne hby.symm
  · exact hne (hR.antisymm _ _ hlit hR.boolean hby hr)

theorem settled_append (hmem : M member) (hn : ¬ R.Covered children member)
    (hpair : Ty.trueLiteral ∈ member :: children → Ty.falseLiteral ∈ member :: children → False) :
    R.Settled (R.append children member) where
  nodup := by
    refine List.Nodup.append (hc.nodup.filter _) (nodup_singleton _) ?_
    intro z hz hz'
    rw [mem_singleton] at hz'
    subst hz'
    exact hn (.of_mem (mem_of_mem_filter hz))
  apart := by
    intro x hx y hy hxy
    rcases mem_append.1 hx with ⟨hx', -⟩ | rfl
    · rcases mem_append.1 hy with ⟨hy', -⟩ | rfl
      · exact hc.apart x hx' y hy' hxy
      · exact absurd ⟨x, hx', .inr hxy⟩ hn
    · rcases mem_append.1 hy with ⟨-, hyr⟩ | rfl
      · rw [hxy] at hyr
        cases hyr
      · rfl
  collapsed := by
    have hall : ∀ z ∈ member :: children, M z := forall_mem_cons.2 ⟨hmem, hm⟩
    rw [hR.covered_append hR.trueLiteral hm hmem, hR.covered_append hR.falseLiteral hm hmem,
      hR.covered_append hR.boolean hm hmem]
    intro ht hf
    rcases hR.literal_or_boolean (.inl rfl) hall ht with ht | hb
    · rcases hR.literal_or_boolean (.inr rfl) hall hf with hf | hb
      · exact (hpair ht hf).elim
      · exact hb
    · exact hb

theorem not_both (ht : Ty.trueLiteral ∈ children) (hf : Ty.falseLiteral ∈ children) : False :=
  hR.not_covered_boolean hc hm hR.trueLiteral (by decide) hR.boolean_true ht (hc.collapsed (.of_mem ht) (.of_mem hf))

theorem settled_erase (literal : Ty) : R.Settled (children.erase literal) where
  nodup := hc.nodup.erase literal
  apart x hx y hy := hc.apart x (mem_of_mem_erase hx) y (mem_of_mem_erase hy)
  collapsed ht hf := by
    have hm' : ∀ z ∈ children.erase literal, M z := fun z hz => hm z (mem_of_mem_erase hz)
    rcases hR.literal_or_boolean (.inl rfl) hm' ht with ht | hb
    · rcases hR.literal_or_boolean (.inr rfl) hm' hf with hf | hb
      · exact (hR.not_both hc hm (mem_of_mem_erase ht) (mem_of_mem_erase hf)).elim
      · exact hb
    · exact hb

/-- What an insertion does: nothing if the member is covered, else it adds the member, or `boolean` in
place of the other literal. -/
theorem insert_cases (member : Ty) : (R.Covered children member ∧ R.insert children member = children) ∨
    (¬ R.Covered children member ∧
      (Ty.trueLiteral ∈ member :: children → Ty.falseLiteral ∈ member :: children → False) ∧
      R.insert children member = R.append children member) ∨
    (∃ literal ∈ children, ¬ R.Covered (children.erase literal) Ty.boolean ∧
      ((member = Ty.trueLiteral ∧ literal = Ty.falseLiteral) ∨ (member = Ty.falseLiteral ∧ literal = Ty.trueLiteral)) ∧
      R.insert children member = R.append (children.erase literal) Ty.boolean) := by
  by_cases hcov : R.Covered children member
  · exact .inl ⟨hcov, if_pos (covers_iff.2 hcov)⟩
  have hinsert : R.insert children member = _ := if_neg (mt covers_iff.1 hcov)
  have hmember : member ∉ children := fun h => hcov (.of_mem h)
  cases ho : otherBoolean? member with
  | none =>
    obtain ⟨h1, h2⟩ := otherBoolean?_eq_none ho
    rw [ho] at hinsert
    refine .inr (.inl ⟨hcov, fun ht hf => ?_, hinsert⟩)
    exact hR.not_both hc hm (mem_of_ne_of_mem h1.symm ht) (mem_of_ne_of_mem h2.symm hf)
  | some literal =>
    have hpair := otherBoolean?_eq_some ho
    rw [ho] at hinsert
    dsimp only at hinsert
    by_cases hl : literal ∈ children
    · -- the other literal is a member: `boolean` is put in, which nothing covers
      rw [if_pos (contains_iff_mem.2 hl)] at hinsert
      have hnot : ¬ R.Covered (children.erase literal) Ty.boolean := by
        refine fun h => absurd (h.mono erase_subset) ?_
        rcases hpair with ⟨-, rfl⟩ | ⟨-, rfl⟩
        · exact hR.not_covered_boolean hc hm hR.falseLiteral (by decide) hR.boolean_false hl
        · exact hR.not_covered_boolean hc hm hR.trueLiteral (by decide) hR.boolean_true hl
      exact .inr (.inr ⟨literal, hl, hnot, hpair, hinsert.trans (if_neg (mt covers_iff.1 hnot))⟩)
    · rw [if_neg (mt contains_iff_mem.1 hl)] at hinsert
      refine .inr (.inl ⟨hcov, fun ht hf => ?_, hinsert⟩)
      rcases hpair with ⟨rfl, rfl⟩ | ⟨rfl, rfl⟩
      · exact hl (mem_of_ne_of_mem (by decide) hf)
      · exact hl (mem_of_ne_of_mem (by decide) ht)

theorem settled_insert (hmem : M member) :
    R.Settled (R.insert children member) ∧ ∀ z ∈ R.insert children member, M z := by
  rcases hR.insert_cases hc hm member with ⟨-, h⟩ | ⟨hn, hpair, h⟩ | ⟨literal, -, hn, -, h⟩
  · rw [h]
    exact ⟨hc, hm⟩
  · rw [h]
    exact ⟨hR.settled_append hc hm hmem hn hpair, append_mem hm hmem⟩
  · rw [h]
    have hm' : ∀ z ∈ children.erase literal, M z := fun z hz => hm z (mem_of_mem_erase hz)
    refine ⟨hR.settled_append (hR.settled_erase hc hm literal) hm' hR.boolean hn fun ht hf => ?_,
      append_mem hm' hR.boolean⟩
    exact hR.not_both hc hm (mem_of_mem_erase (mem_of_ne_of_mem (by decide) ht))
      (mem_of_mem_erase (mem_of_ne_of_mem (by decide) hf))

theorem spans_insert (hmem : M member) (hx : M x) :
    R.Spans (R.insert children member) x ↔ R.Spans (member :: children) x := by
  have hall : ∀ z ∈ member :: children, M z := forall_mem_cons.2 ⟨hmem, hm⟩
  rcases hR.insert_cases hc hm member with ⟨hcov, h⟩ | ⟨hn, -, h⟩ | ⟨literal, hl, -, hpair, h⟩
  · rw [h]
    constructor
    · exact hR.spans_of_forall hm hall (fun y hy => .inl (.of_mem (mem_cons_of_mem _ hy))) hx
    · refine hR.spans_of_forall hall hm (fun y hy => ?_) hx
      rcases mem_cons.1 hy with rfl | hy
      · exact .inl hcov
      · exact .inl (.of_mem hy)
  · rw [h, hR.spans_append hx hm hmem]
  · rw [h]
    have hm' : ∀ z ∈ children.erase literal, M z := fun z hz => hm z (mem_of_mem_erase hz)
    have hall' : ∀ z ∈ Ty.boolean :: children.erase literal, M z := forall_mem_cons.2 ⟨hR.boolean, hm'⟩
    rw [hR.spans_append hx hm' hR.boolean]
    -- `boolean` stands for the two literals, and they stand for it
    have hcov {ty : Ty} (h : R Ty.boolean ty = true) : R.Spans (Ty.boolean :: children.erase literal) ty :=
      .inl ⟨Ty.boolean, mem_cons_self, .inr h⟩
    have hboolean : R.Spans (member :: children) Ty.boolean := by
      have h1 : R.Spans (member :: children) member := .inl (.of_mem mem_cons_self)
      have h2 : R.Spans (member :: children) literal := .inl (.of_mem (mem_cons_of_mem _ hl))
      rcases hpair with ⟨rfl, rfl⟩ | ⟨rfl, rfl⟩
      · exact spans_boolean h1 h2
      · exact spans_boolean h2 h1
    have hlits : R Ty.boolean member = true ∧ R Ty.boolean literal = true := by
      rcases hpair with ⟨rfl, rfl⟩ | ⟨rfl, rfl⟩
      · exact ⟨hR.boolean_true, hR.boolean_false⟩
      · exact ⟨hR.boolean_false, hR.boolean_true⟩
    constructor
    · refine hR.spans_of_forall hall' hall (fun y hy => ?_) hx
      rcases mem_cons.1 hy with rfl | hy
      · exact hboolean
      · exact .inl (.of_mem (mem_cons_of_mem _ (mem_of_mem_erase hy)))
    · refine hR.spans_of_forall hall hall' (fun y hy => ?_) hx
      rcases mem_cons.1 hy with rfl | hy
      · exact hcov hlits.1
      · by_cases hyl : y = literal
        · rw [hyl]
          exact hcov hlits.2
        · exact .inl (.of_mem (mem_cons_of_mem _ ((mem_erase_of_ne hyl).2 hy)))

/-! ## All insertions -/

theorem foldl_insert (ht : ∀ z ∈ types, M z) :
    R.Settled (types.foldl R.insert children) ∧ (∀ z ∈ types.foldl R.insert children, M z) ∧
      ∀ x, M x → (R.Spans (types.foldl R.insert children) x ↔ R.Spans (types ++ children) x) := by
  induction types generalizing children with
  | nil => exact ⟨hc, hm, fun x _ => Iff.rfl⟩
  | cons member types ih =>
    rw [forall_mem_cons] at ht
    obtain ⟨hc', hm'⟩ := hR.settled_insert hc hm ht.1
    obtain ⟨h1, h2, h3⟩ := ih hc' hm' ht.2
    refine ⟨h1, h2, fun x hx => (h3 x hx).trans ?_⟩
    have hnew : ∀ z ∈ types ++ R.insert children member, M z := by
      simpa [or_imp, forall_and] using ⟨ht.2, hm'⟩
    have hold : ∀ z ∈ member :: types ++ children, M z := by
      simpa [or_imp, forall_and] using ⟨ht.1, ht.2, hm⟩
    have hall : ∀ z ∈ member :: children, M z := forall_mem_cons.2 ⟨ht.1, hm⟩
    -- both lists stand for what the other one holds, by the step for one member
    constructor
    · refine hR.spans_of_forall hnew hold (fun y hy => ?_) hx
      rcases List.mem_append.1 hy with hy | hy
      · exact .inl (.of_mem (by simp [hy]))
      · have hspan := (hR.spans_insert hc hm ht.1 (hm' y hy)).1 (.inl (.of_mem hy))
        refine hR.spans_of_forall hall hold (fun z hz => .inl (.of_mem ?_)) (hm' y hy) hspan
        rcases mem_cons.1 hz with rfl | hz <;> simp [*]
    · refine hR.spans_of_forall hold hnew (fun y hy => ?_) hx
      by_cases hy' : y ∈ types
      · exact .inl (.of_mem (List.mem_append_left _ hy'))
      · have hy : y ∈ member :: children := by
          simp only [List.cons_append, mem_cons, List.mem_append] at hy ⊢
          tauto
        have hspan := (hR.spans_insert hc hm ht.1 (hall y hy)).2 (.inl (.of_mem hy))
        exact hR.spans_of_forall hm' hnew (fun z hz => .inl (.of_mem (List.mem_append_right _ hz))) (hall y hy) hspan
end

theorem settled_insertAll (ht : ∀ z ∈ types, M z) : R.Settled (R.insertAll types) ∧ ∀ z ∈ R.insertAll types, M z := by
  obtain ⟨h1, h2, -⟩ := hR.foldl_insert settled_nil (by simp) ht
  exact ⟨h1, h2⟩

theorem covered_insertAll (ht : ∀ z ∈ types, M z) (hx : M x) : R.Covered (R.insertAll types) x ↔ R.Spans types x := by
  obtain ⟨hc, hm, hs⟩ := hR.foldl_insert settled_nil (by simp) ht
  have := hs x hx
  rw [append_nil] at this
  exact (hR.spans_iff_covered hc hm hx).symm.trans this

theorem mem_of_covered (hc : R.Settled children) (hm : ∀ z ∈ children, M z) (hm' : ∀ z ∈ types, M z)
    (h : ∀ x, M x → (R.Covered children x ↔ R.Covered types x)) (hx : x ∈ children) : x ∈ types := by
  obtain ⟨y, hy, hxy⟩ := (h x (hm x hx)).1 (.of_mem hx)
  obtain ⟨z, hz, hyz⟩ := (h y (hm' y hy)).2 (.of_mem hy)
  rcases hxy with rfl | hxy
  · exact hy
  · -- `x` is below `y`, which is below a member; that member is `x`
    rcases hyz with rfl | hyz
    · obtain rfl := hc.apart y hz x hx hxy
      exact hy
    · obtain rfl := hc.apart z hz x hx (hR.trans z y x (hm z hz) (hm' y hy) (hm x hx) hyz hxy)
      exact hR.antisymm y z (hm' y hy) (hm z hz) hxy hyz ▸ hy

theorem insertAll_perm (ht : ∀ z ∈ types, M z) (ht' : ∀ z ∈ types', M z)
    (h : ∀ x, M x → (R.Spans types x ↔ R.Spans types' x)) : (R.insertAll types).Perm (R.insertAll types') := by
  obtain ⟨hc, hm⟩ := hR.settled_insertAll ht
  obtain ⟨hc', hm'⟩ := hR.settled_insertAll ht'
  have hcov x (hx : M x) : R.Covered (R.insertAll types) x ↔ R.Covered (R.insertAll types') x := by
    rw [hR.covered_insertAll ht hx, hR.covered_insertAll ht' hx, h x hx]
  refine (perm_ext_iff_of_nodup hc.nodup hc'.nodup).2 fun x => ⟨?_, ?_⟩
  · exact hR.mem_of_covered hc hm hm' hcov
  · exact hR.mem_of_covered hc' hm' hm fun x hx => (hcov x hx).symm

end Orders

end Subsumption

variable {total : Prop} {ctx : Context} {S : Solver} {R : Subsumption} {types : List Ty}

/-! ## Queries of a known answer -/

structure Finds (total : Prop) (ctx : Context) (P : Session → Prop) {α : Type} (m : Solve α) (I : α → Prop)
    (a : α) : Prop where
  ends : total → ∀ s, P s → ∃ r, m ctx s = some r
  run : ∀ s b u, P s → m ctx s = some (b, u) → P u ∧ s.Kept u ∧ I b ∧ (u.Clear ctx → b = a)

namespace Finds

variable {P : Session → Prop} {α β : Type} {I : α → Prop} {J : β → Prop} {a : α}

theorem pure (h : I a) : Finds total ctx P (Pure.pure a) I a where
  ends _ s _ := ⟨(a, s), rfl⟩
  run s b u hs hr := by
    obtain ⟨rfl, rfl⟩ := pure_eq_some hr
    exact ⟨hs, .refl _, h, fun _ => rfl⟩

variable {f : α → Solve β} {m : Solve α}

theorem bind {g : α → β} (hm : Finds total ctx P m I a)
    (hf : ∀ a, I a → Finds total ctx P (f a) J (g a)) : Finds total ctx P (m >>= f) J (g a) where
  ends ht s hs := by
    obtain ⟨⟨b, u⟩, hr⟩ := hm.ends ht s hs
    obtain ⟨hu, -, hb, -⟩ := hm.run s b u hs hr
    rw [run_bind hr]
    exact (hf b hb).ends ht u hu
  run s c v hs hr := by
    obtain ⟨b, u, hma, hfa⟩ := bind_eq_some hr
    obtain ⟨hu, hk, hb, ha⟩ := hm.run s b u hs hma
    obtain ⟨hv, hk', hc, hg⟩ := (hf b hb).run u c v hu hfa
    -- what did not stop the whole query did not stop its first part
    refine ⟨hv, hk.trans hk', hc, fun hclear => ?_⟩
    rw [hg hclear, ha (hk'.clear hclear)]

theorem after {b : β} (hm : Finds total ctx P m (· = a) a)
    (hf : Finds total ctx P (f a) J b) : Finds total ctx P (m >>= f) J b :=
  bind (g := fun _ => b) hm fun _ h => h ▸ hf

theorem ofTypes {f : TypeTable → α} (h : I a) (hf : ∀ s, P s → f s.types = a) :
    Finds total ctx P (Solve.ofTypes f) I a where
  ends _ s _ := ⟨(f s.types, s), rfl⟩
  run s b u hs hr := by
    cases hr
    have := hf s hs
    exact ⟨hs, .refl _, this ▸ h, fun _ => this⟩

abbrev Truth (total : Prop) (ctx : Context) (P : Session → Prop) (m : Solve Bool) (b : Bool) : Prop :=
  Finds total ctx P m (fun _ => True) b

variable {l : List α} {f : α → Solve Bool} {g : α → Bool}

theorem anyM (hf : ∀ a ∈ l, Truth total ctx P (f a) (g a)) : Truth total ctx P (l.anyM f) (l.any g) := by
  induction l with
  | nil => exact pure trivial
  | cons a l ih =>
    rw [forall_mem_cons] at hf
    refine bind (g := fun b => b || l.any g) hf.1 fun b _ => ?_
    cases b with
    | true => exact pure trivial
    | false => exact ih hf.2

theorem filterM (hl : ∀ a ∈ l, I a) (hf : ∀ a ∈ l, Truth total ctx P (f a) (g a)) :
    Finds total ctx P (l.filterM f) (fun l => ∀ a ∈ l, I a) (l.filter g) := by
  induction l with
  | nil => exact pure (by simp)
  | cons a l ih =>
    rw [forall_mem_cons] at hf hl
    rw [filterM_cons, show (a :: l).filter g = cond (g a) (a :: l.filter g) (l.filter g) by grind]
    refine bind (g := fun b => cond b (a :: l.filter g) (l.filter g)) hf.1 fun b _ => ?_
    refine bind (g := fun r => cond b (a :: r) r) (ih hl.2 hf.2) fun r hr => pure ?_
    cases b with
    | true => exact forall_mem_cons.2 ⟨hl.1, hr⟩
    | false => exact hr

theorem foldlM {f : β → α → Solve β} {g : β → α → β} {b : β} (hb : J b)
    (hf : ∀ b, J b → ∀ a ∈ l, Finds total ctx P (f b a) J (g b a)) :
    Finds total ctx P (l.foldlM f b) J (l.foldl g b) := by
  induction l generalizing b with
  | nil => exact pure hb
  | cons a l ih =>
    rw [foldlM_cons, foldl_cons]
    exact bind (g := fun b => l.foldl g b) (hf b hb a mem_cons_self)
      fun b hb => ih hb fun b hb x hx => hf b hb x (mem_cons_of_mem _ hx)

/-! ## Insertion -/

section
variable {M : Ty → Prop} {children : List Ty} {member : Ty}
  (hJ : ∀ x y, M x → M y → Truth total ctx P (S.subsumes x y) (R x y))
include hJ

section
variable (hc : ∀ z ∈ children, M z) (hm : M member)
include hc hm

theorem appendMember :
    Finds total ctx P (S.appendMember children member) (fun l => ∀ z ∈ l, M z) (R.append children member) := by
  refine bind (g := fun kept => kept ++ [member]) (filterM (g := fun child => !R member child) hc fun x hx => ?_)
    fun _ hkept => pure (by simpa [or_imp, forall_and] using ⟨hkept, hm⟩)
  exact bind (g := fun b => !b) (hJ member x hm (hc x hx)) fun _ _ => pure trivial

theorem covers :
    Truth total ctx P (S.covers children member) (R.covers children member) := by
  unfold Solver.covers Subsumption.covers
  cases hmem : children.contains member with
  | true => exact pure trivial
  | false => exact anyM fun x hx => hJ x member (hc x hx) hm

theorem insertPlain :
    Finds total ctx P (S.insertPlain children member) (fun l => ∀ z ∈ l, M z) (R.insertPlain children member) := by
  refine bind (g := fun covered => if covered then children else R.append children member) (covers hJ hc hm)
    fun covered _ => ?_
  cases covered with
  | true => exact pure hc
  | false => exact appendMember hJ hc hm

theorem insertMember (hboolean : M Ty.boolean) :
    Finds total ctx P (S.insertMember children member) (fun l => ∀ z ∈ l, M z) (R.insert children member) := by
  let apart := (otherBoolean? member).elim (R.append children member) fun other =>
    if children.contains other then R.insertPlain (children.erase other) Ty.boolean else R.append children member
  have hinsert : R.insert children member = if R.covers children member then children else apart := by
    unfold Subsumption.insert apart
    cases otherBoolean? member <;> rfl
  rw [hinsert]
  refine bind (g := fun covered => if covered then children else apart) (covers hJ hc hm) fun covered _ => ?_
  cases covered with
  | true => exact pure hc
  | false =>
    unfold apart
    cases otherBoolean? member with
    | none => exact appendMember hJ hc hm
    | some other =>
      show Finds total ctx P (if children.contains other then S.insertPlain (children.erase other) Ty.boolean
        else S.appendMember children member) _ (if children.contains other then
          R.insertPlain (children.erase other) Ty.boolean else R.append children member)
      split
      · exact insertPlain hJ (fun z hz => hc z (mem_of_mem_erase hz)) hboolean
      · exact appendMember hJ hc hm
end

theorem insertAll (hboolean : M Ty.boolean) (ht : ∀ z ∈ types, M z) :
    Finds total ctx P (types.foldlM S.insertMember []) (fun l => ∀ z ∈ l, M z) (R.insertAll types) :=
  foldlM (by simp) fun _ hc z hz => insertMember hJ hc (ht z hz) hboolean
end

end Finds

/-! ## Unions -/

section
variable {s : Session}

theorem run_unionOf (children : List Ty) : unionOf children ctx s =
    some ((s.types.unionOf children).1, { s with types := (s.types.unionOf children).2 }) := by
  unfold unionOf
  match children with
  | [] => rfl
  | [ty] => rfl
  | a :: b :: rest => rfl

theorem TypeTable.WF.unionOf_stored {t : TypeTable} (h : t.WF) (hty : ∀ ty ∈ types, t.Has ty) :
    (t.unionOf types).2.WF ∧ (t.unionOf types).2.Has (t.unionOf types).1 := by
  have hs : Same h.self types types := TypeTable.sameTypes_iff.2 ⟨hty, hty, rfl⟩
  obtain ⟨hw, _, hr⟩ := TypeTable.unionOf_same hs
  exact ⟨hw, (TypeTable.sameType_iff.1 hr).1⟩

def TypeTable.absorbs (t : TypeTable) (flat : List Ty) : Bool :=
  !flat.any (t.kind · == .results) && flat.any Ty.isAny

theorem unionAll_absorbed (h : s.types.absorbs (s.types.flat types) = true) :
    S.unionAll types ctx s = some (Ty.any, s) := by
  show (if s.types.absorbs (s.types.flat types) = true then Pure.pure Ty.any else _ : Solve Ty) ctx s = _
  rw [if_pos h]
  rfl

theorem unionAll_inserted (h : s.types.absorbs (s.types.flat types) = false) :
    S.unionAll types ctx s = ((s.types.flat types).foldlM S.insertMember [] >>= unionOf) ctx s := by
  show (if s.types.absorbs (s.types.flat types) = true then Pure.pure Ty.any else _ : Solve Ty) ctx s = _
  rw [if_neg (by rw [h]; exact Bool.false_ne_true)]
  rfl

variable {P : Session → Prop} {M : Ty → Prop} (hJ : ∀ x y, M x → M y → Finds.Truth total ctx P (S.subsumes x y) (R x y))
  (hboolean : M Ty.boolean) (hs : P s) (ht : ∀ z ∈ s.types.flat types, M z)
  (habsorbs : s.types.absorbs (s.types.flat types) = false)
include hJ hboolean hs ht habsorbs

theorem unionAll_ends (htotal : total) : ∃ r, S.unionAll types ctx s = some r := by
  rw [unionAll_inserted habsorbs]
  have hinsert := Finds.insertAll hJ hboolean ht
  obtain ⟨⟨children, v⟩, hr⟩ := hinsert.ends htotal s hs
  rw [run_bind hr]
  exact ⟨_, run_unionOf children⟩

theorem unionAll_run {r : Ty} {u : Session} (hr : S.unionAll types ctx s = some (r, u)) :
    ∃ children v, P v ∧ s.Kept v ∧ (∀ z ∈ children, M z) ∧
      (v.Clear ctx → children = R.insertAll (s.types.flat types)) ∧
      r = (v.types.unionOf children).1 ∧ u = { v with types := (v.types.unionOf children).2 } := by
  rw [unionAll_inserted habsorbs] at hr
  obtain ⟨children, v, hinsert, hunion⟩ := bind_eq_some hr
  obtain ⟨hv, hk, hc, hR⟩ := (Finds.insertAll hJ hboolean ht).run s children v hs hinsert
  rw [run_unionOf] at hunion
  cases hunion
  exact ⟨children, v, hv, hk, hc, hR, rfl, rfl⟩
end

/-! ## Two types -/

variable {a b : Ty}

end AnnotatedLua
