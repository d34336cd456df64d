/-
Differences of types. If no boolean literal is taken from `boolean`, the difference has the members that no removed type
drops (`subtract_run`), and to subtract again changes nothing (`subtract_again`).
-/
import AnnotatedLua.Proofs.Union.Canonical
import AnnotatedLua.Proofs.Query.Sound

namespace AnnotatedLua

open Solve Solver List

variable {α : Type} {children removed : List Ty} {ctx : Context} {s : Session}

theorem foldl_filter {β : Type} (p : β → α → Bool) (xs : List β) (l : List α) :
    xs.foldl (fun l x => l.filter (p x)) l = l.filter fun a => xs.all (p · a) := by
  induction xs generalizing l with
  | nil => simp
  | cons x xs ih => simp [ih, filter_filter, Bool.and_comm]

theorem Finds.gives {total : Prop} {P : Session → Prop} {m : Solve α} {I Q : α → Prop} {a : α}
    (h : Finds total ctx P m I a) (hm : m.Gives Q) : Finds total ctx P m Q a where
  ends := h.ends
  run s b u hs hr := by
    obtain ⟨hu, hk, -, he⟩ := h.run s b u hs hr
    exact ⟨hu, hk, hm ctx s b u hr, he⟩

theorem regular_subtract : Regular fun (S : Solver) (x : Ty × Ty) => S.subtract x.1 x.2 :=
  fun L _ _ hS p _ _ _ => L.differences (hS.comparing p)

/-- Whether a member goes with the removed one: it is the same, a literal of it or one that it accepts. -/
noncomputable def Session.drops (ctx : Context) (s : Session) (removed child : Ty) : Bool :=
  child == removed || ((otherBoolean? removed).isNone &&
    if removed = Ty.boolean then child == Ty.trueLiteral || child == Ty.falseLiteral
    else s.truth ctx (·.accepts removed child { strictNil := true }))

/-- No boolean literal is taken from `boolean`, and a removed type that is a member drops no other. -/
def Session.Apart (ctx : Context) (s : Session) (children removed : List Ty) : Prop :=
  ∀ x ∈ removed, ((otherBoolean? x).isSome → Ty.boolean ∉ children) ∧
    (x ∈ children → ∀ z ∈ children, s.drops ctx x z → z = x)

theorem Session.Apart.subset {children' : List Ty} (h : s.Apart ctx children removed)
    (hsub : children' ⊆ children) : s.Apart ctx children' removed := fun x hx =>
  ⟨fun hx' hm => (h x hx).1 hx' (hsub hm), fun hm z hz => (h x hx).2 (hsub hm) z (hsub hz)⟩

theorem finds_removeMember (hs : s.Sound ctx) {pool : List Ty} (hpool : ∀ z ∈ pool, s.types.Has z)
    (hremoved : ∀ x ∈ removed, s.types.Has x) (hnodup : pool.Nodup) (hapart : s.Apart ctx pool removed) (n : Nat)
    (hc : children.Sublist pool) {x : Ty} (hx : x ∈ removed) :
    Finds False ctx (Session.Past ctx · s) ((ofBudget n).removeMember children x) (·.Sublist pool)
      (children.filter (!s.drops ctx x ·)) := by
  obtain ⟨hsplit, hlone⟩ := hapart x hx
  unfold Solver.removeMember
  by_cases hm : x ∈ children
  · -- only the member itself is taken out, and it drops no other
    rw [if_pos (contains_iff_mem.2 hm)]
    have : children.erase x = children.filter (!s.drops ctx x ·) := by
      rw [(hnodup.sublist hc).erase_eq_filter]
      refine filter_congr fun z hz => ?_
      by_cases he : z = x
      · simp [Session.drops, he]
      · have hkept : s.drops ctx x z = false :=
          Bool.eq_false_iff.2 (mt (hlone (hc.subset hm) z (hc.subset hz)) he)
        simp [hkept, he]
    rw [← this]
    exact .pure ((erase_sublist ..).trans hc)
  rw [if_neg (mt contains_iff_mem.1 hm)]
  have hne : ∀ z ∈ children, z ≠ x := fun z hz he => hm (he ▸ hz)
  cases hother : otherBoolean? x with
  | some =>
    have hboolean : Ty.boolean ∉ children := fun h => hsplit (by simp [hother]) (hc.subset h)
    have hall : children.filter (!s.drops ctx x ·) = children :=
      filter_eq_self.2 fun z hz => by simp [Session.drops, hne z hz, hother]
    rw [hall]
    simp only [if_neg (mt contains_iff_mem.1 hboolean)]
    exact .pure hc
  | none =>
    by_cases hboolean : x = Ty.boolean
    · subst hboolean
      have : children.filter (!s.drops ctx Ty.boolean ·) =
          children.filter fun z => z != Ty.trueLiteral && z != Ty.falseLiteral :=
        filter_congr fun z hz => by simp [Session.drops, hne z hz, hother, bne]
      rw [this]
      exact .pure (filter_sublist.trans hc)
    · simp only [if_neg hboolean]
      have : children.filter (!s.drops ctx x ·) =
          children.filter fun z => !s.truth ctx (·.accepts x z { strictNil := true }) :=
        filter_congr fun z hz => by simp [Session.drops, hne z hz, hother, hboolean]
      rw [this]
      refine (Finds.filterM (I := fun _ => True) (by simp) fun z hz => .bind (I := fun _ => True) (g := (!·)) ?_ fun _ _ =>
        .pure trivial).gives ((Gives.filterM children).imp fun l hl => hl.trans hc)
      exact finds_truth (x := (x, z)) (regular_accepts _) hs
        (hs.stores_pair (hremoved x hx) (hpool z (hc.subset hz))) False.elim

theorem subtract_run {v u : Session} (hs : s.Sound ctx) {b c r : Ty} (hb : s.types.Has b) {n : Nat}
    (hv : v.Past ctx s) (hhas : ∀ z ∈ v.types.members c, s.types.Has z) (hnodup : (v.types.members c).Nodup)
    (hapart : s.Apart ctx (v.types.members c) (s.types.members b))
    (hr : (ofBudget n).subtract c b ctx v = some (r, u)) (hu : u.Clear ctx) : ∃ w : Session,
      w.Past ctx s ∧ v.types.Extends w.types ∧
        (r, u.types) = w.types.unionOf ((v.types.members c).filter fun z => (s.types.members b).all (!s.drops ctx · z)) ∧
        u = { w with types := u.types } := by
  have hrun : ((v.types.members b).foldlM (ofBudget n).removeMember (v.types.members c) >>= Solver.unionOf) ctx v =
      some (r, u) := hr
  rw [hv.grown.members hb] at hrun
  obtain ⟨children, w, hfold, hunion⟩ := bind_eq_some hrun
  obtain ⟨hw, hk, -, heq⟩ := (Finds.foldlM (.refl _) fun children hc x hx => finds_removeMember hs hhas
    (fun x hx => hs.types.member_has hb hx) hnodup hapart n hc hx).run v children w hv hfold
  rw [run_unionOf] at hunion
  cases hunion
  have hclear : w.Clear ctx := ⟨hu.exceeded, hu.canceled⟩
  rw [heq hclear, foldl_filter]
  exact ⟨w, hw, hk.types, rfl, rfl⟩

/-- To subtract again changes nothing, if no literal is taken from `boolean` and no removed member drops another. -/
theorem subtract_again (hs : s.Sound ctx) (hcanonical : s.types.Canonical) {a b : Ty} (ha : s.types.Has a)
    (hb : s.types.Has b) (hapart : s.Apart ctx (s.types.members a) (s.types.members b)) {n n' : Nat} {r r' : Ty}
    {u u' : Session} (h : (ofBudget n).subtract a b ctx s = some (r, u))
    (h' : (ofBudget n').subtract r b ctx u = some (r', u')) (hu' : u'.Clear ctx) : r' = r := by
  have hk : u.Kept u' := regular_subtract.keeps (r, b) ctx u r' u' h'
  have hdistinct := hcanonical.nodup_names a
  have hmember : ∀ z ∈ s.types.members a, s.types.Has z := fun z hz => hs.types.member_has ha hz
  obtain ⟨w, hw, -, hrun, hu⟩ := subtract_run hs hb (.refl hs) hmember hdistinct.of_map hapart h (hk.clear hu')
  generalize hkept : (s.types.members a).filter _ = kept at hrun
  obtain ⟨rfl, htypes⟩ := Prod.mk.inj hrun
  rw [htypes] at hu
  subst hu
  have hsub : ∀ z ∈ kept, z ∈ s.types.members a ∧ (s.types.members b).all (!s.drops ctx · z) = true := by
    rw [← hkept]
    exact fun z hz => List.mem_filter.1 hz
  have hhas : ∀ z ∈ kept, s.types.Has z := fun z hz => hmember z (hsub z hz).1
  have hhas' : ∀ z ∈ kept, w.types.Has z := fun z hz => hw.grown.has (hhas z hz)
  have hnodup : kept.Nodup := hkept ▸ hdistinct.of_map.filter _
  have hnames : w.types.NamesApart kept := by
    have : s.types.NamesApart kept := fun x hx y hy => List.inj_on_of_nodup_map hdistinct (hsub x hx).1 (hsub y hy).1
    exact this.extends hw.grown hs.types hw.types hhas
  by_cases hne : kept = []
  · -- nothing is left, and `void` without anything is `void`
    subst hne
    have hvoid : w.types.members Ty.void = [Ty.void] := hw.types.members_void
    have hone : s.types.Has Ty.void := (hs.types.lookup_builtin Ty.void rfl).1
    obtain ⟨w', -, -, hrun', -⟩ := subtract_run hs hb hw (c := Ty.void) (by simpa [hvoid] using hone) (by simp [hvoid])
      (fun x _ => ⟨fun _ => by rw [hvoid]; decide, by simp_all⟩) h' hu'
    obtain ⟨rfl, -⟩ := Prod.mk.inj hrun'
    rw [hvoid, List.filter_singleton]
    cases (s.types.members b).all (!s.drops ctx · Ty.void) with
    | true => rfl
    | false => rfl
  · have hperm := hw.types.members_unionOf hhas' hnames hnodup hne fun z hz => by
      rw [hw.grown.members (hhas z hz), hcanonical.members_member (hsub z hz).1]
    have hu := hw.storing (hw.types.unionOf_stored hhas').1 (TypeTable.unionOf_extends _ _)
    obtain ⟨w', hw', hx, hrun', -⟩ := subtract_run hs hb hu (fun z hz => hhas z (hperm.subset hz))
      (hperm.nodup_iff.2 hnodup) (hapart.subset fun z hz => (hsub z (hperm.subset hz)).1) h' hu'
    obtain ⟨rfl, -⟩ := Prod.mk.inj hrun'
    rw [List.filter_eq_self.2 fun z hz => (hsub z (hperm.subset hz)).2]
    exact hw.types.unionOf_perm hhas' hnames hnodup hperm.symm hw'.types hx

/-- The types of `namedTypes`, and the union of the string `x` and the class `A`, `⟨13⟩`. -/
def mixedTypes : TypeTable := (namedTypes.intern (.union [⟨12⟩, ⟨10⟩])).2

def mixedStart : Session := .start mixedTypes Limits.standard

theorem mixedTypes_wf : mixedTypes.WF := TypeTable.Orderly.wf (by decide)

/-- `"x" | A` without `A` is the string `x`, also if `A` is taken out once more. -/
theorem subtract_again_mixed : ∃ r u u',
    (ofBudget 5).subtract ⟨13⟩ ⟨10⟩ undeclared.uncancelled mixedStart = some (r, u) ∧
    (ofBudget 5).subtract r ⟨10⟩ undeclared.uncancelled u = some (r, u') := by
  have hapart : mixedStart.Apart undeclared.uncancelled (mixedStart.types.members ⟨13⟩) (mixedStart.types.members ⟨10⟩) := by
    have hruns : ∀ x ∈ mixedStart.types.members ⟨10⟩, otherBoolean? x = none ∧ x ≠ Ty.boolean ∧
        ∀ z ∈ mixedStart.types.members ⟨13⟩, z ≠ x → ((ofBudget 5).accepts x z { strictNil := true }
          undeclared.uncancelled (mixedStart.unlimited 0)).map Prod.fst = some false := by decide
    intro x hx
    obtain ⟨hother, hboolean, hrun⟩ := hruns x hx
    refine ⟨by simp [hother], fun _ z hz hdrops => by_contra fun hne => ?_⟩
    obtain ⟨⟨_, u⟩, hr, rfl⟩ := Option.map_eq_some_iff.1 (hrun z hz hne)
    have hfalse : mixedStart.truth undeclared.uncancelled (·.accepts x z { strictNil := true }) = false :=
      Session.truth_eq (x := (x, z)) (regular_accepts _) ⟨5, u, hr⟩
    simp [Session.drops, hne, hother, hboolean, hfalse] at hdrops
  have hends : ((do
      let r ← (ofBudget 5).subtract ⟨13⟩ ⟨10⟩
      (ofBudget 5).subtract r ⟨10⟩ : Solve Ty) undeclared.uncancelled mixedStart).map (·.2.guard.exceeded) =
        some false := by decide
  obtain ⟨⟨r', u'⟩, hrun, hexceeded⟩ := Option.map_eq_some_iff.1 hends
  obtain ⟨r, u, hr, hr'⟩ := bind_eq_some hrun
  have hsound : mixedStart.Sound undeclared.uncancelled := .start mixedTypes_wf _ nofun nofun nofun
  obtain rfl := subtract_again hsound (by decide) (by decide)
    (by decide) hapart hr hr' ⟨hexceeded, rfl⟩
  exact ⟨r', u, u', hr, hr'⟩

end AnnotatedLua
