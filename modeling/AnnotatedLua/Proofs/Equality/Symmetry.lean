/-
Whether equality is symmetric. The first type is followed through its names, and of two unions the members of the first
are looked for in the other, so the order matters in a few places (`Session.Lopsided`). Everywhere else it does not
(`equal_symm_or_lopsided`): the proof goes down both comparisons at once (`lopsided_of_differ`).
-/
import AnnotatedLua.Proofs.Equality.Pairs
import AnnotatedLua.Proofs.Shape.Plain

namespace AnnotatedLua

open Solve Solver TypePairs TypeTable List

variable {n : Nat} {v : Bool} {α : Type}

/-! ## What comparisons find -/

namespace Session

variable (ctx : Context) (s : Session) (t : TypeTable)

/-- Within the budget, the first type is found to be equal to the second one, or not to be. -/
abbrev EqualBy (n : Nat) (a b : Ty) (answer : Bool) : Prop := s.GivesBy ctx t (·.equal a b) n answer

def Kin (a b : Ty) : Prop :=
  ∃ name marks marks' all, t.lookup a = .classRef name marks ∧ t.lookup b = .classRef name marks' ∧
    s.Gives ctx t (fun _ => classMarks a) all ∧ s.Gives ctx t (fun _ => classMarks b) all

def Shaped (ty : Ty) : Prop := s.Gives ctx t (fun S => S.isShape ty) true

/-- The lists are as long as each other, and each type of the first is equal to one of the second. -/
structure Covered (n : Nat) (own other : List Ty) : Prop where
  length : own.length = other.length
  equal : ∀ x ∈ own, x ∈ other ∨ ∃ y ∈ other, s.EqualBy ctx t n x y true

/-- The reasons to find two types equal that stand for themselves. -/
inductive Agrees (n : Nat) (a b : Ty) : Prop
  | same (h : a = b)
  | parts {l : List (Ty × Ty)} (hl : (t.lookup a).pairs (t.lookup b) = some l)
      (h : ∀ p ∈ l, s.EqualBy ctx t n p.1 p.2 true)
  | kin (h : s.Kin ctx t a b)
  | shapes (h : s.Shaped ctx t a) (h' : s.Shaped ctx t b)
  | members (hkind : t.kind a = .union ∨ t.kind b = .union) (h : s.Covered ctx t n (t.members a) (t.members b))

/-- What the answer says of two types that stand for themselves. -/
structure Compared (n : Nat) (a b : Ty) (answer : Bool) : Prop where
  yes : answer = true → s.Agrees ctx t n a b
  unequal : answer = false → a ≠ b
  parts : answer = false → ∀ l, (t.lookup a).pairs (t.lookup b) = some l → ∃ p ∈ l, s.EqualBy ctx t n p.1 p.2 false
  strangers : answer = false → ¬ s.Kin ctx t a b
  members : answer = false → t.kind a = .union → t.kind b = .union → (t.members a).length = (t.members b).length →
    ∃ x ∈ t.members a, x ∉ t.members b ∧ ∀ y ∈ t.members b, s.EqualBy ctx t n x y false

variable {ctx s t} in
theorem Compared.of_agrees {a b : Ty} (h : s.Agrees ctx t n a b) : s.Compared ctx t n a b true :=
  ⟨fun _ => h, Bool.noConfusion, Bool.noConfusion, Bool.noConfusion, Bool.noConfusion⟩

def Unsettled (ty : Ty) : Prop :=
  t.kind ty = .aliasRef ∨ ∃ r, s.Resolves ctx t ty r ∧ (t.kind r = .aliasRef ∨ ∃ r', s.Resolves ctx t r r' ∧ r' ≠ r)

inductive Outcome (n : Nat) (a b : Ty) (answer : Bool) : Prop
  | unsettled (h : s.Unsettled ctx t a ∨ s.Unsettled ctx t b)
  | snippet {r} (h : s.Resolves ctx t a r) (hkind : t.kind r = .snippet) (hanswer : answer = false)
  | standsFor (h : s.Resolves ctx t a b) (hanswer : answer = true)
  | compared {r r' k} (hk : k < n) (h : s.Resolves ctx t a r) (h' : s.Resolves ctx t b r')
      (hanswer : s.Compared ctx t k r r' answer)

end Session

section
variable {ctx : Context} {s u w : Session} {t : TypeTable} (hs : s.Sound ctx) (ht : s.Stage t) {ty : Ty}

theorem keeps_lookup {f : Form → Solve α} (h : ∀ form, Keeps (f form)) : Keeps (lookup ty >>= f) :=
  keeps_closed.bind (keeps_closed.ofTypes _) h

include hs ht in
theorem resolve_first (hty : t.Has ty) (hu : u.Since ctx.uncancelled (s.holding t)) {f : Ty → Solve Bool}
    (hk : ∀ r, Keeps (f r)) (hr : ((ofBudget n).resolve ty >>= f) ctx.uncancelled u = some (v, w))
    (hw : w.Clear ctx.uncancelled) : ∃ r u1, s.Stage u1.types ∧ t.Extends u1.types ∧ s.Resolves ctx u1.types ty r ∧
      u1.Since ctx.uncancelled (s.holding u1.types) ∧ f r ctx.uncancelled u1 = some (v, w) := by
  obtain ⟨r, u1, hr1, hr⟩ := bind_eq_some hr
  have hu1 : u1.Clear ctx.uncancelled := (hk r _ _ _ _ hr).clear hw
  obtain ⟨hsince, hstage, hgrown, hresolves⟩ := hu.resolves hs ht hty hr1 hu1
  exact ⟨r, u1, hstage, hgrown, hresolves, hsince.rebase, hr⟩

/-! ## Types that stand for themselves -/

theorem resolves_self (hty : t.Has ty) (hc : s.guard.exceeded = false)
    (hkind : t.kind ty ∉ [Kind.classRef, .aliasRef, .generic, .union]) : s.Resolves ctx t ty ty := by
  have hform : t.kind ty = (t.lookup ty).kind := rfl
  have hwill : (ofBudget 1).willResolve ty ctx.uncancelled (s.holding t) = some (false, s.holding t) := by
    show Rule.willResolve (ofBudget 0) ty ctx.uncancelled (s.holding t) = _
    refine (run_bind (show Solve.lookup ty ctx.uncancelled (s.holding t) = some (t.lookup ty, s.holding t) from rfl)).trans ?_
    cases hl : t.lookup ty <;> simp [hl, hform] at hkind <;> rfl
  refine ⟨hty, 1, s.holding t, ?_, hc, rfl⟩
  show (do
    if !(← (t.members ty).anyM (ofBudget 1).willResolve) then return ty
    _ : Solve Ty) ctx.uncancelled (s.holding t) = _
  rw [members_eq_self (by simp at hkind; exact hkind.2.2.2)]
  show (((ofBudget 1).willResolve ty >>= _) >>= _ : Solve Ty) ctx.uncancelled (s.holding t) = _
  rw [run_bind ((run_bind hwill).trans rfl)]
  rfl

/-! ## Outcomes -/

section
variable {k : Nat} {a b : Ty}

theorem equalBy_self (h : s.EqualBy ctx t n a a v) : v = true := by
  obtain ⟨u, hr, -⟩ := h
  cases n with
  | zero => cases hr
  | succ =>
    have hr : (if a = a then pure true else _ : Solve Bool) ctx.uncancelled (s.holding t) = some (v, u) := hr
    rw [if_pos rfl] at hr
    exact (pure_eq_some hr).1

variable {r r' : Ty}

theorem Session.Unsettled.before (h : s.Resolves ctx t a r) (hu : s.Unsettled ctx t r) : s.Unsettled ctx t a := by
  rcases hu with hkind | ⟨r', hr', hlast⟩
  · exact .inr ⟨r, h, .inl hkind⟩
  · by_cases he : r' = r
    · subst he
      exact .inr ⟨r', h, hlast⟩
    · exact .inr ⟨r, h, .inr ⟨r', hr', he⟩⟩

theorem Session.Resolves.again (h : s.Resolves ctx t a r) (h' : s.Resolves ctx t r r') :
    s.Unsettled ctx t a ∨ r' = r := by
  by_cases he : r' = r
  · exact .inr he
  · exact .inl (.inr ⟨r, h, .inr ⟨r', h', he⟩⟩)

theorem Session.Outcome.follow (h : s.Resolves ctx t a r)
    (hb : ∀ r'', s.Resolves ctx t r' r'' → s.Unsettled ctx t b ∨ s.Resolves ctx t b r'')
    (hunsettled : s.Unsettled ctx t r' → s.Unsettled ctx t b) (hne : r ≠ r') (hk : k ≤ n)
    (ho : s.Outcome ctx t k r r' v) : s.Outcome ctx t n a b v := by
  cases ho with
  | unsettled hu => exact .unsettled (hu.imp (·.before h) hunsettled)
  | snippet hr hkind hv =>
    rcases h.again hr with hu | rfl
    · exact .unsettled (.inl hu)
    · exact .snippet h hkind hv
  | standsFor hr =>
    rcases h.again hr with hu | he
    · exact .unsettled (.inl hu)
    · exact absurd he.symm hne
  | compared hlt hr hr' hc =>
    rcases h.again hr with hu | rfl
    · exact .unsettled (.inl hu)
    · rcases hb _ hr' with hu | hr'
      · exact .unsettled (.inr hu)
      · exact .compared (by omega) h hr' hc

theorem compared_of_judges (hkind : t.kind a ∈ [Kind.array, .param, .function, .results])
    (hj : s.Judges ctx t k ((t.lookup a).pairs (t.lookup r)) v) : s.Compared ctx t k a r v where
  yes hv := by
    obtain ⟨l, hl, hall⟩ := hj.yes hv
    exact .parts hl hall
  unequal hv he := by
    subst he
    obtain ⟨l, hl, hsame⟩ := FormOf.diagonal_pairs (mem_append_left [Kind.generic] hkind)
    obtain ⟨p, hp, hfalse⟩ := hj.no hv l hl
    rw [hsame p hp] at hfalse
    cases equalBy_self hfalse
  parts hv := hj.no hv
  strangers _ := by
    rintro ⟨_, _, _, _, hl, -⟩
    simp [TypeTable.kind, hl] at hkind
  members _ hunion := by
    rw [hunion] at hkind
    simp at hkind

section
variable (ha : t.Has a) {r : Ty} (hr : t.Has r)

theorem regular_isShape : Regular fun (S : Solver) (x : Ty) => S.isShape x := fun _ _ _ hS _ _ _ _ => hS.isShape

theorem regular_classEqual : Regular fun (S : Solver) (x : Ty × Symbol × Ty) => S.classEqual x.1 x.2.1 x.2.2 :=
  fun L _ _ hS _ _ _ _ => L.classEqual hS

theorem regular_instanceEqual :
    Regular fun (S : Solver) (x : Ty × Ty × List Ty × Ty) => S.instanceEqual x.1 x.2.1 x.2.2.1 x.2.2.2 :=
  fun L _ _ hS _ _ _ _ => L.instanceEqual hS

theorem regular_shapesEqual : Regular fun (S : Solver) (x : Ty × Ty) => S.shapesEqual x.1 x.2 :=
  fun L _ _ hS _ _ _ _ => L.shapesEqual hS

include hs ht ha hr

theorem leads_shapesEqual : (s.holding t).Leads ctx.uncancelled ((ofBudget k).shapesEqual a r) fun v =>
    v = true → s.Shaped ctx t a ∧ s.Shaped ctx t r := by
  intro u v w hu hrun hw
  refine ⟨hu.goes_on regular_shapesEqual hs ht ((hs.holding ht).stores_pair ha hr) hrun hw, fun hv => ?_⟩
  have hguarded : Keeps (do
      let answer ← withGuard .shapeEquality (.pair a r)
        ((ofBudget k).accepts a r Mode.lenient <&&> (ofBudget k).accepts r a Mode.lenient)
      return answer.getD false) := by
    refine keeps_closed.bind (keeps_closed.withGuard _ _ (keeps_closed.bind ?_ fun b => ?_)) fun _ => keeps_closed.pure _
    · exact (regular_accepts Mode.lenient).keeps (a, r)
    · cases b with
      | true => exact (regular_accepts Mode.lenient).keeps (r, a)
      | false => exact keeps_closed.pure false
  obtain ⟨first, u1, hfirst, hrun⟩ := bind_eq_some hrun
  cases first with
  | false =>
    obtain ⟨rfl, -⟩ := pure_eq_some hrun
    cases hv
  | true =>
    obtain ⟨second, u2, hsecond, hrun⟩ := bind_eq_some hrun
    cases second with
    | false =>
      obtain ⟨rfl, -⟩ := pure_eq_some hrun
      cases hv
    | true =>
      have hu2 := (hguarded _ _ _ _ hrun).clear hw
      have hu1 := (regular_isShape.keeps r _ _ _ _ hsecond).clear hu2
      obtain ⟨hsince1, hgives⟩ := leads_givesBy regular_isShape hs ht ((hs.holding ht).stores_type ha) k u true u1 hu hfirst hu1
      obtain ⟨-, hgives'⟩ :=
        leads_givesBy regular_isShape hs ht ((hs.holding ht).stores_type hr) k u1 true u2 hsince1 hsecond hu2
      exact ⟨⟨k, hgives⟩, k, hgives'⟩

/-- What a comparison of shapes means for types that nothing else has decided. -/
theorem leads_shapes (hkind : t.kind a ≠ .union)
    (hparts : ∀ l, (t.lookup a).pairs (t.lookup r) = some l → ∃ p ∈ l, s.EqualBy ctx t k p.1 p.2 false)
    (hstrange : ¬ s.Kin ctx t a r) (hne : a ≠ r) :
    (s.holding t).Leads ctx.uncancelled ((ofBudget k).shapesEqual a r) (s.Compared ctx t k a r) := by
  intro u v w hu hrun hw
  obtain ⟨hsince, hshaped⟩ := leads_shapesEqual hs ht ha hr u v w hu hrun hw
  exact ⟨hsince, fun hv => .shapes (hshaped hv).1 (hshaped hv).2, fun _ => hne, fun _ => hparts, fun _ => hstrange,
    fun _ hunion => absurd hunion hkind⟩

theorem leads_classEqual {name : Symbol} {marks : Marks} (hl : t.lookup a = .classRef name marks) :
    (s.holding t).Leads ctx.uncancelled ((ofBudget k).classEqual a name r) (s.Compared ctx t k a r) := by
  have hkind : t.kind a = .classRef := kind_of hl
  have hparts (l : List (Ty × Ty)) (hp : (t.lookup a).pairs (t.lookup r) = some l) :
      ∃ p ∈ l, s.EqualBy ctx t k p.1 p.2 false := by
    rw [hl] at hp
    cases hp
  have hshapes (hne : r ≠ a) (hstrange : ¬ s.Kin ctx t a r) :=
    leads_shapes hs ht ha hr (by rw [hkind]; simp) hparts hstrange (Ne.symm hne)
  intro u v w hu hrun hw
  unfold classEqual at hrun
  split at hrun
  · rename_i he
    obtain ⟨rfl, rfl⟩ := pure_eq_some hrun
    exact ⟨hu, .of_agrees (.same he.symm)⟩
  · rename_i hne
    have hrun := of_read hrun rfl
    dsimp only at hrun
    have hlookup : u.types.lookup r = t.lookup r := hu.grown.lookup hr
    rw [hlookup] at hrun
    cases hform : t.lookup r with
    | classRef otherName marks' =>
      rw [hform] at hrun
      dsimp only at hrun
      by_cases hname : otherName = name
      · rw [if_pos hname] at hrun
        obtain ⟨all, u1, hall, hrun⟩ := bind_eq_some hrun
        obtain ⟨all', u2, hall', hrun⟩ := bind_eq_some hrun
        have hu2 : u2.Clear ctx.uncancelled := by
          split at hrun
          · obtain ⟨-, rfl⟩ := pure_eq_some hrun
            exact hw
          · exact (regular_shapesEqual.keeps (a, r) _ _ _ _ hrun).clear hw
        have hu1 := (regular_classMarks.keeps r (n := k) _ _ _ _ hall').clear hu2
        obtain ⟨hsince1, hgives⟩ := leads_givesBy regular_classMarks hs ht ((hs.holding ht).stores_type ha) k u all u1 hu hall hu1
        obtain ⟨hsince2, hgives'⟩ :=
          leads_givesBy regular_classMarks hs ht ((hs.holding ht).stores_type hr) k u1 all' u2 hsince1 hall' hu2
        split at hrun
        · rename_i he
          obtain ⟨rfl, rfl⟩ := pure_eq_some hrun
          refine ⟨hsince2, .of_agrees (.kin ?_)⟩
          exact ⟨name, marks, marks', all, hl, hname ▸ hform, ⟨k, hgives⟩, k, he ▸ hgives'⟩
        · rename_i hdiffer
          refine hshapes hne ?_ _ _ _ hsince2 hrun hw
          rintro ⟨_, _, _, _, -, -, h, h'⟩
          have h1 := h.unique regular_classMarks ⟨k, hgives⟩
          have h2 := h'.unique regular_classMarks ⟨k, hgives'⟩
          exact hdiffer (h1.symm.trans h2)
      · rw [if_neg hname] at hrun
        refine hshapes hne ?_ _ _ _ hu hrun hw
        rintro ⟨_, _, _, _, hl1, hl2, -⟩
        cases hl.symm.trans hl1
        cases hform.symm.trans hl2
        exact hname rfl
    | _ =>
      rw [hform] at hrun
      refine hshapes hne ?_ _ _ _ hu hrun hw
      rintro ⟨_, _, _, _, -, hl', -⟩
      cases hform.symm.trans hl'

theorem leads_instanceEqual {base : Ty} {args : List Ty} (hl : t.lookup a = .generic base args) :
    (s.holding t).Leads ctx.uncancelled ((ofBudget k).instanceEqual a base args r) (s.Compared ctx t k a r) := by
  have hkind : t.kind a = .generic := kind_of hl
  have hstrange : ¬ s.Kin ctx t a r := by
    rintro ⟨_, _, _, _, hl', -⟩
    cases hl.symm.trans hl'
  -- what follows when the parts did not decide
  have hshapes (hparts : ∀ l, (t.lookup a).pairs (t.lookup r) = some l → ∃ p ∈ l, s.EqualBy ctx t k p.1 p.2 false) :
      (s.holding t).Leads ctx.uncancelled ((ofBudget k).shapesEqual a r) (s.Compared ctx t k a r) := by
    refine leads_shapes hs ht ha hr (by rw [hkind]; simp) hparts hstrange fun he => ?_
    obtain ⟨l, hself, hsame⟩ := FormOf.diagonal_pairs (f := t.lookup a) (by rw [hl]; simp)
    obtain ⟨p, hp, hfalse⟩ := hparts l (he ▸ hself)
    rw [hsame p hp] at hfalse
    cases equalBy_self hfalse
  intro u v w hu hrun hw
  have hrun := of_read hrun rfl
  dsimp only at hrun
  have hlookup : u.types.lookup r = t.lookup r := hu.grown.lookup hr
  rw [hlookup] at hrun
  cases hform : t.lookup r with
  | generic otherBase otherArgs =>
    rw [hform] at hrun
    dsimp only at hrun
    have hpart {x : Ty} (hx : x ∈ (t.lookup a).parts) : t.Has x := (ht.wf.part_lt hx).2
    have hpart' {x : Ty} (hx : x ∈ (t.lookup r).parts) : t.Has x := (ht.wf.part_lt hx).2
    rw [hl] at hpart
    rw [hform] at hpart'
    by_cases hlen : args.length = otherArgs.length
    · rw [if_pos hlen] at hrun
      have htells : (s.holding t).Tells ctx.uncancelled ((ofBudget k).equal base otherBase <&&>
          allEqual (ofBudget k).equal args otherArgs) (s.Judges ctx t k ((t.lookup a).pairs (t.lookup r))) := by
        rw [hl, hform]
        refine tells_and (tells_equal hs ht (hpart (.head _)) (hpart' (.head _))) (tells_allEqual fun x hx y hy => ?_)
        exact tells_equal hs ht (hpart (.tail _ hx)) (hpart' (.tail _ hy))
      obtain ⟨b, u1, hb, hrun⟩ := bind_eq_some hrun
      cases b with
      | true =>
        obtain ⟨rfl, rfl⟩ := pure_eq_some hrun
        obtain ⟨hsince, hj⟩ := htells.leads u true w hu hb hw
        obtain ⟨l, hpairs, hall⟩ := hj.yes rfl
        exact ⟨hsince, .of_agrees (.parts hpairs hall)⟩
      | false =>
        have hu1 := (regular_shapesEqual.keeps (a, r) _ _ _ _ hrun).clear hw
        obtain ⟨hsince, hj⟩ := htells.leads u false u1 hu hb hu1
        exact hshapes (hj.no rfl) _ _ _ hsince hrun hw
    · rw [if_neg hlen] at hrun
      refine hshapes (fun l hpairs => ?_) _ _ _ hu hrun hw
      rw [hl, hform] at hpairs
      obtain ⟨_, _, -, heach, -⟩ := both_eq_some hpairs
      rw [each_eq_none hlen] at heach
      cases heach
  | _ =>
    rw [hform] at hrun
    refine hshapes (fun l hpairs => ?_) _ _ _ hu hrun hw
    rw [hl, hform] at hpairs
    cases hpairs

omit ha hr in
theorem leads_unionsEqual {own other : List Ty} (hown : ∀ x ∈ own, t.Has x) (hother : ∀ x ∈ other, t.Has x) :
    (s.holding t).Leads ctx.uncancelled ((ofBudget k).unionsEqual own other) fun v =>
      (v = true → s.Covered ctx t k own other) ∧ (v = false → own.length = other.length →
        ∃ x ∈ own, x ∉ other ∧ ∀ y ∈ other, s.EqualBy ctx t k x y false) := by
  unfold unionsEqual
  split
  · rename_i hlen
    have hfind (x : Ty) (hx : x ∈ own) : (s.holding t).Tells ctx.uncancelled
        (if other.contains x then pure true else other.anyM ((ofBudget k).equal x)) fun v =>
          (v = true → x ∈ other ∨ ∃ y ∈ other, s.EqualBy ctx t k x y true) ∧
            (v = false → x ∉ other ∧ ∀ y ∈ other, s.EqualBy ctx t k x y false) := by
      split
      · rename_i hc
        exact tells_pure ⟨fun _ => .inl (contains_iff_mem.1 hc), nofun⟩
      · rename_i hc
        have hkeeps (y : Ty) (_ : y ∈ other) : Keeps ((ofBudget k).equal x y) := regular_equal.keeps (x, y)
        have hequal (y : Ty) (hy : y ∈ other) :=
          leads_givesBy regular_equal hs ht ((hs.holding ht).stores_pair (hown x hx) (hother y hy)) k
        refine ⟨keeps_anyM hkeeps, fun u v w hu hrun hw => ?_⟩
        obtain ⟨hw', hyes, hno⟩ := leads_anyM hkeeps hequal u v w hu hrun hw
        exact ⟨hw', fun hv => .inr (hyes hv), fun hv => ⟨fun hx => hc (contains_iff_mem.2 hx), hno hv⟩⟩
    intro u v w hu hrun hw
    obtain ⟨hw', hyes, hno⟩ :=
      leads_allM (fun x hx => (hfind x hx).keeps) (fun x hx => (hfind x hx).leads) u v w hu hrun hw
    refine ⟨hw', fun hv => ⟨hlen, fun x hx => (hyes hv x hx).1 rfl⟩, fun hv _ => ?_⟩
    obtain ⟨x, hx, hfalse⟩ := hno hv
    exact ⟨x, hx, hfalse.2 rfl⟩
  · rename_i hlen
    exact leads_pure ⟨nofun, fun _ he => absurd he hlen⟩
end

section
variable (ha : t.Has a) (hb : t.Has b) (hsince : (s.holding t).Since ctx.uncancelled (s.holding t))
  (hw : w.Clear ctx.uncancelled)
include hs ht ha hb hsince hw

theorem outcome_leaf (hkind : t.kind a ∈ [Kind.any, .nil, .void, .primitive, .literal])
    (hr : ((ofBudget k).resolve b >>= fun r => pure (decide (r = a))) ctx.uncancelled (s.holding t) = some (v, w)) :
    ∃ t', s.Stage t' ∧ t.Extends t' ∧ s.Outcome ctx t' (k + 1) a b v := by
  obtain ⟨r, u1, hstage, hgrown, hresolves, -, hr⟩ :=
    resolve_first hs ht hb hsince (fun _ => keeps_closed.pure _) hr hw
  obtain ⟨rfl, -⟩ := pure_eq_some hr
  have hkind' : u1.types.kind a ∈ [Kind.any, .nil, .void, .primitive, .literal] := by
    rwa [TypeTable.kind, hgrown.lookup ha]
  have hself : s.Resolves ctx u1.types a a := by
    refine resolves_self (hgrown.has ha) hsince.clear.exceeded ?_
    revert hkind'
    cases u1.types.kind a <;> simp
  refine ⟨u1.types, hstage, hgrown, .compared (Nat.lt_succ_self k) hself hresolves ⟨fun hv => ?_, fun hv => ?_, ?_, ?_, ?_⟩⟩
  · exact .same (of_decide_eq_true hv).symm
  · exact Ne.symm (of_decide_eq_false hv)
  · intro _ l hl
    unfold TypeTable.kind at hkind'
    cases hform : u1.types.lookup a <;> rw [hform] at hl hkind' <;> simp at hkind' <;> cases hl
  · rintro _ ⟨_, _, _, _, hl, -⟩
    simp [TypeTable.kind, hl] at hkind'
  · intro _ hunion
    rw [hunion] at hkind'
    simp at hkind'

theorem outcome_parts (hkind : t.kind a ∈ [Kind.array, .param, .function, .results]) {g : Form → Solve Bool}
    (hg : ∀ form, g form = partsEqual (ofBudget k) (t.lookup a) form)
    (hr : ((ofBudget k).resolve b >>= fun r => lookup r >>= g) ctx.uncancelled (s.holding t) = some (v, w)) :
    ∃ t', s.Stage t' ∧ t.Extends t' ∧ s.Outcome ctx t' (k + 1) a b v := by
  obtain rfl : g = partsEqual (ofBudget k) (t.lookup a) := funext hg
  obtain ⟨r, u1, hstage, hgrown, hresolves, hsince1, hr⟩ :=
    resolve_first hs ht hb hsince (fun _ => keeps_lookup fun _ => regular_partsEqual.keeps (_, _)) hr hw
  have hgeneric : (t.lookup a).kind ≠ .generic := by
    intro he
    rw [TypeTable.kind, he] at hkind
    simp at hkind
  have htells := tells_partsEqual (n := k) hs hstage hgeneric (fun x hx => hgrown.has (ht.wf.part_lt hx).2)
    fun x (hx : x ∈ (u1.types.lookup r).parts) => (hstage.wf.part_lt hx).2
  obtain ⟨-, hj⟩ := htells.leads u1 v w hsince1 hr hw
  rw [← hgrown.lookup ha] at hj
  have hkind' : u1.types.kind a ∈ [Kind.array, .param, .function, .results] := by
    rwa [TypeTable.kind, hgrown.lookup ha]
  have hself : s.Resolves ctx u1.types a a := by
    refine resolves_self (hgrown.has ha) hsince.clear.exceeded ?_
    revert hkind'
    cases u1.types.kind a <;> simp
  exact ⟨u1.types, hstage, hgrown, .compared (Nat.lt_succ_self k) hself hresolves (compared_of_judges hkind' hj)⟩

variable (ih : ∀ {t : TypeTable} {a b : Ty}, s.Stage t → t.Has a → t.Has b → a ≠ b → s.EqualBy ctx t k a b v →
  ∃ t', s.Stage t' ∧ t.Extends t' ∧ s.Outcome ctx t' k a b v)
include ih

/-- A name or an instance is followed if it stands for another type, and compared by `rest` otherwise. -/
theorem outcome_followed {rest : Ty → Solve Bool} (hk : ∀ r, Keeps (rest r))
    (hrest : ∀ t', s.Stage t' → t.Extends t' → ∀ r, t'.Has r →
      (s.holding t').Leads ctx.uncancelled (rest r) (s.Compared ctx t' k a r))
    (hr : ((ofBudget k).resolve a >>= fun r => if r ≠ a then (ofBudget k).equal r b
      else (ofBudget k).resolve b >>= rest) ctx.uncancelled (s.holding t) = some (v, w)) :
    ∃ t', s.Stage t' ∧ t.Extends t' ∧ s.Outcome ctx t' (k + 1) a b v := by
  have hkeeps (r : Ty) : Keeps (if r ≠ a then (ofBudget k).equal r b else (ofBudget k).resolve b >>= rest) := by
    split
    · exact regular_equal.keeps (r, b)
    · exact keeps_closed.bind (keeps_resolve k b) hk
  obtain ⟨r, u1, hstage, hgrown, hresolves, hsince1, hrun⟩ := resolve_first hs ht ha hsince hkeeps hr hw
  split at hrun
  · rename_i hne
    have hstores := (hs.holding hstage).stores_pair hresolves.has (hgrown.has hb)
    obtain ⟨-, hequal⟩ := leads_givesBy regular_equal hs hstage hstores k u1 v w hsince1 hrun hw
    by_cases hrb : r = b
    · subst hrb
      exact ⟨u1.types, hstage, hgrown, .standsFor hresolves (equalBy_self hequal)⟩
    · obtain ⟨t', hstage', hgrown', ho⟩ := ih hstage hresolves.has (hgrown.has hb) hrb hequal
      refine ⟨t', hstage', hgrown.trans hgrown', ho.follow ?_ (fun _ => .inr) id hrb (Nat.le_succ k)⟩
      exact hresolves.grow hs hstage (hgrown.has ha) hstage' hgrown'
  · rename_i hself
    obtain rfl : r = a := not_not.1 hself
    obtain ⟨r', u2, hstage2, hgrown2, hresolves2, hsince2, hrun⟩ :=
      resolve_first hs hstage (hgrown.has hb) hsince1 hk hrun hw
    obtain ⟨-, hc⟩ := hrest u2.types hstage2 (hgrown.trans hgrown2) r' hresolves2.has u2 v w hsince2 hrun hw
    refine ⟨u2.types, hstage2, hgrown.trans hgrown2, .compared (Nat.lt_succ_self k) ?_ hresolves2 hc⟩
    exact hresolves.grow hs hstage (hgrown.has ha) hstage2 hgrown2

theorem outcome_union
    (hr : ((ofBudget k).resolve a >>= fun r => members r >>= fun own => (ofBudget k).resolve b >>= fun r' =>
      members r' >>= fun other => (ofBudget k).unionsEqual own other) ctx.uncancelled (s.holding t) = some (v, w)) :
    ∃ t', s.Stage t' ∧ t.Extends t' ∧ s.Outcome ctx t' (k + 1) a b v := by
  have regular_unionsEqual : Regular fun (S : Solver) (x : List Ty × List Ty) => S.unionsEqual x.1 x.2 :=
    fun L _ _ hS _ _ _ _ => L.unionsEqual hS
  have hkeeps (own : List Ty) (r' : Ty) : Keeps (members r' >>= fun other => (ofBudget k).unionsEqual own other) :=
    keeps_closed.bind (keeps_closed.ofTypes _) fun other => regular_unionsEqual.keeps (own, other)
  obtain ⟨r, u1, hstage1, hgrown1, hresolves1, hsince1, hrun⟩ := resolve_first hs ht ha hsince (fun r =>
    keeps_closed.bind (keeps_closed.ofTypes _) fun own => keeps_closed.bind (keeps_resolve k b) (hkeeps own)) hr hw
  obtain ⟨r', u2, hstage, hgrown2, hresolves', hsince2, hrun⟩ :=
    resolve_first hs hstage1 (hgrown1.has hb) hsince1 (hkeeps _) hrun hw
  have hgrown := hgrown1.trans hgrown2
  have hresolves := hresolves1.grow hs hstage1 (hgrown1.has ha) hstage hgrown2
  have hrun : (ofBudget k).unionsEqual (u1.types.members r) (u2.types.members r') ctx.uncancelled u2 = some (v, w) := hrun
  rw [← hgrown2.members hresolves1.has] at hrun
  have hmember {z x : Ty} (hz : u2.types.Has z) (hx : x ∈ u2.types.members z) : u2.types.Has x :=
    hstage.wf.member_has hz hx
  obtain ⟨-, hyes, hno⟩ := leads_unionsEqual hs hstage (fun x hx => hmember hresolves.has hx)
    (fun x hx => hmember hresolves'.has hx) u2 v w hsince2 hrun hw
  by_cases hunion : u2.types.kind r = .union ∨ u2.types.kind r' = .union
  · -- there are unions left
    refine ⟨u2.types, hstage, hgrown, .compared (Nat.lt_succ_self k) hresolves hresolves'
      ⟨fun hv => .members hunion (hyes hv), fun hv he => ?_, fun _ l hl => ?_, ?_, fun hv _ _ => hno hv⟩⟩
    · subst he
      obtain ⟨x, hx, hnot, -⟩ := hno hv rfl
      exact hnot hx
    · unfold TypeTable.kind at hunion
      cases hform : u2.types.lookup r <;> cases hform' : u2.types.lookup r' <;> rw [hform, hform'] at hl hunion <;>
        simp at hunion <;> cases hl
    · rintro - ⟨_, _, _, _, hl, hl', -⟩
      simp [TypeTable.kind, hl, hl'] at hunion
  · -- a single type is left on both sides
    obtain ⟨hkind, hkind'⟩ := not_or.1 hunion
    rw [members_eq_self hkind, members_eq_self hkind'] at hyes hno
    by_cases he : r = r'
    · subst he
      have hv : v = true := by
        cases v with
        | true => rfl
        | false =>
          obtain ⟨x, hx, hnot, -⟩ := hno rfl rfl
          exact absurd hx hnot
      subst hv
      exact ⟨u2.types, hstage, hgrown, .compared (Nat.lt_succ_self k) hresolves hresolves'
        (.of_agrees (.same rfl))⟩
    · have hequal : s.EqualBy ctx u2.types k r r' v := by
        cases v with
        | true => simpa [he] using (hyes rfl).equal r (.head _)
        | false =>
          obtain ⟨x, hx, -, hfalse⟩ := hno rfl rfl
          obtain rfl := mem_singleton.1 hx
          exact hfalse r' (.head _)
      obtain ⟨t', hstage', hgrown', ho⟩ := ih hstage hresolves.has hresolves'.has he hequal
      have hresolves := hresolves.grow hs hstage (hgrown.has ha) hstage' hgrown'
      have hresolves' := hresolves'.grow hs hstage (hgrown.has hb) hstage' hgrown'
      refine ⟨t', hstage', hgrown.trans hgrown', ho.follow hresolves (fun _ hr'' => ?_) (·.before hresolves') he (Nat.le_succ k)⟩
      rcases hresolves'.again hr'' with hu | rfl
      · exact .inl hu
      · exact .inr hresolves'
end

include hs in
theorem equalBy_outcome (ht : s.Stage t) (ha : t.Has a) (hb : t.Has b) (hne : a ≠ b) (h : s.EqualBy ctx t n a b v) :
    ∃ t', s.Stage t' ∧ t.Extends t' ∧ s.Outcome ctx t' n a b v := by
  induction n generalizing t a b with
  | zero =>
    obtain ⟨_, hr, -⟩ := h
    cases hr
  | succ k ih =>
    obtain ⟨w, hr, hw⟩ := h
    have hsince : (s.holding t).Since ctx.uncancelled (s.holding t) :=
      (hs.holding ht).since ((regular_equal.keeps (a, b) _ _ _ _ hr).clear hw)
    have hr : Rule.equal (ofBudget k) a b ctx.uncancelled (s.holding t) = some (v, w) := hr
    unfold Rule.equal at hr
    rw [if_neg hne, run_lookup, show (s.holding t).types.lookup a = t.lookup a from rfl] at hr
    generalize hform : t.lookup a = form at hr
    have hkind := kind_of hform
    cases form with
    | any | nil | void | primitive | literal =>
      exact outcome_leaf hs ht ha hb hsince hw (by simp [hkind]) hr
    | snippet =>
      obtain ⟨rfl, -⟩ := pure_eq_some hr
      refine ⟨t, ht, .refl _, .snippet (resolves_self ha hsince.clear.exceeded ?_) hkind rfl⟩
      simp [hkind]
    | aliasRef => exact ⟨t, ht, .refl _, .unsettled (.inl (.inl hkind))⟩
    | array | param | function | results =>
      refine outcome_parts hs ht ha hb hsince hw (by simp [hkind]) (fun form => ?_) hr
      rw [hform]
      cases form <;> rfl
    | union => exact outcome_union hs ht ha hb hsince hw (fun ht ha hb hne h => ih ht ha hb hne h) hr
    | classRef name =>
      refine outcome_followed hs ht ha hb hsince hw (fun ht ha hb hne h => ih ht ha hb hne h) (fun r => ?_)
        (fun t' ht' hgrown r hr => ?_) hr
      · exact regular_classEqual.keeps (a, name, r)
      · exact leads_classEqual hs ht' (hgrown.has ha) hr ((hgrown.lookup ha).trans hform)
    | generic base args =>
      refine outcome_followed hs ht ha hb hsince hw (fun ht ha hb hne h => ih ht ha hb hne h) (fun r => ?_)
        (fun _ ht' hgrown r hr => ?_) hr
      · exact regular_instanceEqual.keeps (a, base, args, r)
      · exact leads_instanceEqual hs ht' (hgrown.has ha) hr ((hgrown.lookup ha).trans hform)
end

/-! ## Later stages -/

section
variable {t' : TypeTable} (ht' : s.Stage t') (hgrown : t.Extends t') {a b : Ty} (ha : t.Has a) (hb : t.Has b)
include hs ht ht' hgrown ha hb

theorem Session.EqualBy.grow (h : s.EqualBy ctx t n a b v) : s.EqualBy ctx t' n a b v :=
  Session.GivesBy.grow regular_equal hs ht ((hs.holding ht).stores_pair ha hb) ht' hgrown h

theorem Session.Kin.grow (h : s.Kin ctx t a b) : s.Kin ctx t' a b := by
  obtain ⟨name, marks, marks', all, hl, hl', ⟨m, hm⟩, m', hm'⟩ := h
  exact ⟨name, marks, marks', all, (hgrown.lookup ha).trans hl, (hgrown.lookup hb).trans hl',
    ⟨m, hm.grow regular_classMarks hs ht ((hs.holding ht).stores_type ha) ht' hgrown⟩,
    m', hm'.grow regular_classMarks hs ht ((hs.holding ht).stores_type hb) ht' hgrown⟩

omit hb in
theorem Session.Shaped.grow (h : s.Shaped ctx t a) : s.Shaped ctx t' a := by
  obtain ⟨m, hm⟩ := h
  exact ⟨m, hm.grow regular_isShape hs ht ((hs.holding ht).stores_type ha) ht' hgrown⟩

theorem Session.Agrees.grow (h : s.Agrees ctx t n a b) : s.Agrees ctx t' n a b := by
  cases h with
  | same he => exact .same he
  | @parts l hl h =>
    have hany : t.Has Ty.any := (ht.wf.lookup_builtin Ty.any rfl).1
    have hstored := FormOf.pairs_parts hany hl (fun _ hx => (ht.wf.part_lt hx).2) fun _ hx => (ht.wf.part_lt hx).2
    refine .parts (l := l) (by rw [hgrown.lookup ha, hgrown.lookup hb, hl]) fun p hp => ?_
    exact (h p hp).grow hs ht ht' hgrown (hstored p hp).1 (hstored p hp).2
  | kin h => exact .kin (h.grow hs ht ht' hgrown ha hb)
  | shapes h h' => exact .shapes (h.grow hs ht ht' hgrown ha) (h'.grow hs ht ht' hgrown hb)
  | members hkind h =>
    refine .members (by rwa [TypeTable.kind, TypeTable.kind, hgrown.lookup ha, hgrown.lookup hb]) ?_
    rw [hgrown.members ha, hgrown.members hb]
    refine ⟨h.length, fun x hx => (h.equal x hx).imp_right ?_⟩
    rintro ⟨y, hy, hxy⟩
    exact ⟨y, hy, hxy.grow hs ht ht' hgrown (ht.wf.member_has ha hx) (ht.wf.member_has hb hy)⟩
end

theorem Session.Kin.symm {a b : Ty} (h : s.Kin ctx t a b) : s.Kin ctx t b a := by
  obtain ⟨name, marks, marks', all, hl, hl', hm, hm'⟩ := h
  exact ⟨name, marks', marks, all, hl', hl, hm', hm⟩
end

/-! ## Symmetry -/

/-- If each of `n` things is matched with one of `n` others, and one of those is left out, two have the same match. -/
theorem exists_same_match {β : Type} {R : α → β → Prop} {own : List α} {other : List β}
    (hlen : own.length = other.length) (h : ∀ x ∈ own, ∃ y ∈ other, R x y) {o : β} (ho : o ∈ other)
    (hno : ∀ x ∈ own, ¬ R x o) :
    ∃ (i j : Nat) (p q : α) (z : β), i ≠ j ∧ own[i]? = some p ∧ own[j]? = some q ∧ z ∈ other ∧ R p z ∧ R q z := by
  have hmatch (i : Fin own.length) : ∃ j : Fin other.length, R (own.get i) (other.get j) := by
    obtain ⟨y, hy, hR⟩ := h (own.get i) (get_mem own i)
    obtain ⟨j, rfl⟩ := get_of_mem hy
    exact ⟨j, hR⟩
  choose f hf using hmatch
  obtain ⟨k, rfl⟩ := get_of_mem ho
  by_contra hall
  have hinjective : Function.Injective f := by
    intro i j he
    by_contra hne
    refine hall ⟨i, j, own.get i, own.get j, other.get (f i), fun h => hne (Fin.ext h), by simp, by simp,
      get_mem other _, hf i, ?_⟩
    rw [he]
    exact hf j
  obtain ⟨i, hi⟩ := ((Fintype.bijective_iff_injective_and_card f).2 ⟨hinjective, by simpa using hlen⟩).2 k
  exact hno (own.get i) (get_mem own i) (hi ▸ hf i)

namespace Session

variable (ctx : Context) (s : Session)

/-- Comparing the first two types leads to comparing the last two: as what they stand for, as parts of theirs that
correspond, or as members of theirs. -/
inductive Meets : TypeTable → Ty → Ty → TypeTable → Ty → Ty → Prop
  | here (t : TypeTable) (a b : Ty) : Meets t a b t a b
  | later {t t1 t' : TypeTable} {a b x y} (ht : s.Stage t1) (hgrown : t.Extends t1) (h : Meets t1 a b t' x y) :
    Meets t a b t' x y
  | resolved {t t' : TypeTable} {a b r r' x y} (hr : s.Resolves ctx t a r) (hr' : s.Resolves ctx t b r')
      (h : Meets t r r' t' x y) : Meets t a b t' x y
  | part {t t' : TypeTable} {a b x y} {l : List (Ty × Ty)} {p : Ty × Ty}
      (hl : (t.lookup a).pairs (t.lookup b) = some l) (hp : p ∈ l) (h : Meets t p.1 p.2 t' x y) : Meets t a b t' x y
  | member {t t' : TypeTable} {a b p q x y} (hp : p ∈ t.members a) (hq : q ∈ t.members b) (h : Meets t p q t' x y) :
    Meets t a b t' x y

variable (t : TypeTable)

/-- Two members of the first union are equal to one of the second. -/
structure Doubled (r r' : Ty) : Prop where
  union : t.kind r = .union
  union' : t.kind r' = .union
  doubled : ∃ (i j : Nat) (p q z : Ty), i ≠ j ∧ (t.members r)[i]? = some p ∧ (t.members r)[j]? = some q ∧
    z ∈ t.members r' ∧ (p = z ∨ ∃ n, s.EqualBy ctx t n p z true) ∧ (q = z ∨ ∃ n, s.EqualBy ctx t n q z true)

/-- Why a type may be equal to another one, but not the other way round. -/
inductive Reason (x y : Ty) : Prop
  | snippet {r} (h : s.Resolves ctx t x r) (h' : s.Resolves ctx t y r) (hkind : t.kind r = .snippet)
  | shapes {r r'} (h : s.Resolves ctx t x r) (h' : s.Resolves ctx t y r') (hshape : s.Shaped ctx t r)
      (hshape' : s.Shaped ctx t r')
  | doubled {r r'} (h : s.Resolves ctx t x r) (h' : s.Resolves ctx t y r') (hdoubled : s.Doubled ctx t r r')
  | short {r l} (h : s.Resolves ctx t x r ∨ s.Resolves ctx t y r) (hl : t.lookup r = .union l)
      (hlen : l.length < 2)
  | unsettled (h : s.Unsettled ctx t x ∨ s.Unsettled ctx t y)

/-- The first type is equal to the second one, the second one is not equal to the first, and this is why. -/
structure Lopsided (x y : Ty) : Prop where
  equal : ∃ n, s.EqualBy ctx t n x y true
  unequal : ∃ n, s.EqualBy ctx t n y x false
  reason : s.Reason ctx t x y

end Session

section
variable {ctx : Context} {s : Session} (hs : s.Sound ctx)
include hs

theorem lopsided_of_differ {N n' : Nat} (hN : n + n' ≤ N) {t : TypeTable} (ht : s.Stage t) {a b : Ty} (ha : t.Has a)
    (hb : t.Has b) (h : s.EqualBy ctx t n a b true) (h' : s.EqualBy ctx t n' b a false) :
    ∃ t' x y, s.Meets ctx t a b t' x y ∧ s.Lopsided ctx t' x y := by
  -- on both budgets: each part is compared with less
  induction N generalizing n n' t a b with
  | zero =>
    obtain rfl : n = 0 := by omega
    obtain ⟨_, hr, -⟩ := h
    cases hr
  | succ N ih =>
    have hne : a ≠ b := by
      rintro rfl
      cases equalBy_self h'
    -- a reason that is found here
    have hhere {t' : TypeTable} (ht' : s.Stage t') (hgrown : t.Extends t') (hreason : s.Reason ctx t' a b) :
        ∃ t' x y, s.Meets ctx t a b t' x y ∧ s.Lopsided ctx t' x y :=
      ⟨t', a, b, .later ht' hgrown (.here t' a b), ⟨n, h.grow hs ht ht' hgrown ha hb⟩,
        ⟨n', h'.grow hs ht ht' hgrown hb ha⟩, hreason⟩
    obtain ⟨_, ht1, hgrown1, ho⟩ := equalBy_outcome hs ht ha hb hne h
    have ha1 := hgrown1.has ha
    have hb1 := hgrown1.has hb
    obtain ⟨t2, ht2, hgrown2, ho'⟩ :=
      equalBy_outcome hs ht1 hb1 ha1 hne.symm (h'.grow hs ht ht1 hgrown1 hb ha)
    have hgrown := hgrown1.trans hgrown2
    cases ho with
    | unsettled hu => exact hhere ht1 hgrown1 (.unsettled hu)
    | snippet _ _ hv => cases hv
    | standsFor hr =>
      have hr := hr.grow hs ht1 ha1 ht2 hgrown2
      cases ho' with
      | unsettled hu => exact hhere ht2 hgrown (.unsettled hu.symm)
      | snippet hr' hkind =>
        rcases hr.again hr' with hu | rfl
        · exact hhere ht2 hgrown (.unsettled (.inl hu))
        · exact hhere ht2 hgrown (.snippet hr hr' hkind)
      | standsFor _ hv => cases hv
      | compared _ hr' hr'' hc =>
        obtain rfl := hr''.unique hr
        rcases hr.again hr' with hu | rfl
        · exact hhere ht2 hgrown (.unsettled (.inl hu))
        · exact absurd rfl (hc.unequal rfl)
    | @compared r r' k hk hr hr' hc =>
      have hagrees := (hc.yes rfl).grow hs ht1 ht2 hgrown2 hr.has hr'.has
      have hr := hr.grow hs ht1 ha1 ht2 hgrown2
      have hr' := hr'.grow hs ht1 hb1 ht2 hgrown2
      -- a reason that is found in what the two types stand for
      have hdeeper {k' : Nat} (hk' : k' < n') {p q : Ty} (hp : t2.Has p) (hq : t2.Has q)
          (hpq : s.EqualBy ctx t2 k p q true) (hqp : s.EqualBy ctx t2 k' q p false)
          (hmeets : ∀ {t' x y}, s.Meets ctx t2 p q t' x y → s.Meets ctx t2 r r' t' x y) :
          ∃ t' x y, s.Meets ctx t a b t' x y ∧ s.Lopsided ctx t' x y := by
        have hlt : k + k' ≤ N := by omega
        obtain ⟨t', x, y, hm, hl⟩ := ih hlt ht2 hp hq hpq hqp
        exact ⟨t', x, y, .later ht2 hgrown (.resolved hr hr' (hmeets hm)), hl⟩
      -- a union that is found to be equal to a type that is none has a single member
      have hshort (hkind : t2.kind r = .union ∨ t2.kind r' = .union) (hone : t2.kind r ≠ .union ∨ t2.kind r' ≠ .union)
          (hcovered : s.Covered ctx t2 k (t2.members r) (t2.members r')) :
          ∃ t' x y, s.Meets ctx t a b t' x y ∧ s.Lopsided ctx t' x y := by
        have hlen := hcovered.length
        by_cases hunion : t2.kind r = .union
        · rw [members_eq_self (hone.resolve_left (not_not.2 hunion))] at hlen
          exact hhere ht2 hgrown (.short (.inl hr) (lookup_of_union hunion) (by simp [hlen]))
        · rw [members_eq_self hunion] at hlen
          exact hhere ht2 hgrown (.short (.inr hr') (lookup_of_union (hkind.resolve_left hunion)) (by simp [← hlen]))
      cases ho' with
      | unsettled hu => exact hhere ht2 hgrown (.unsettled hu.symm)
      | snippet hsnippet hkind =>
        obtain rfl := hsnippet.unique hr'
        have hkind' : (t2.lookup _).kind = .snippet := hkind
        cases hagrees with
        | same he => exact hhere ht2 hgrown (.snippet (he ▸ hr) hr' hkind)
        | parts hl =>
          cases hform : t2.lookup r <;> cases hform' : t2.lookup _ <;> rw [hform'] at hkind' <;> cases hkind' <;>
            rw [hform, hform'] at hl <;> cases hl
        | kin hkin =>
          obtain ⟨_, _, _, _, -, hl, -⟩ := hkin
          rw [hl] at hkind'
          cases hkind'
        | shapes hshape hshape' => exact hhere ht2 hgrown (.shapes hr hr' hshape hshape')
        | members hunion hcovered => exact hshort hunion (.inr (by rw [hkind]; nofun)) hcovered
      | standsFor _ hv => cases hv
      | @compared q' q k' hk' hq' hq hc' =>
        obtain rfl := hq'.unique hr'
        obtain rfl := hq.unique hr
        cases hagrees with
        | same he => exact absurd he.symm (hc'.unequal rfl)
        | parts hl hall =>
          have hflip := FormOf.flip_pairs (t2.lookup q) (t2.lookup q')
          rw [hl] at hflip
          obtain ⟨_, hswap, hfalse⟩ := hc'.parts rfl _ hflip.symm
          obtain ⟨p, hp, rfl⟩ := mem_map.1 hswap
          have hany : t2.Has Ty.any := (ht2.wf.lookup_builtin Ty.any rfl).1
          have hstored := FormOf.pairs_parts hany hl (fun _ hx => (ht2.wf.part_lt hx).2) fun _ hx => (ht2.wf.part_lt hx).2
          exact hdeeper hk' (hstored p hp).1 (hstored p hp).2 (hall p hp) hfalse (.part hl hp)
        | kin hkin => exact absurd hkin.symm (hc'.strangers rfl)
        | shapes hshape hshape' => exact hhere ht2 hgrown (.shapes hr hr' hshape hshape')
        | members hunion hcovered =>
          by_cases hboth : t2.kind q = .union ∧ t2.kind q' = .union
          · obtain ⟨o, ho, hnot, hfalse⟩ := hc'.members rfl hboth.2 hboth.1 hcovered.length.symm
            by_cases hfound : ∃ x ∈ t2.members q, s.EqualBy ctx t2 k x o true
            · obtain ⟨x, hx, hequal⟩ := hfound
              exact hdeeper hk' (ht2.wf.member_has hr.has hx) (ht2.wf.member_has hr'.has ho) hequal (hfalse x hx)
                (.member hx ho)
            · have hmatch (x : Ty) (hx : x ∈ t2.members q) :
                  ∃ y ∈ t2.members q', x = y ∨ s.EqualBy ctx t2 k x y true := by
                rcases hcovered.equal x hx with hx | ⟨y, hy, hxy⟩
                · exact ⟨x, hx, .inl rfl⟩
                · exact ⟨y, hy, .inr hxy⟩
              obtain ⟨i, j, p, z, y, hij, hp, hz, hy, hpy, hzy⟩ := exists_same_match hcovered.length hmatch ho (by
                rintro x hx (rfl | hxo)
                · exact hnot hx
                · exact hfound ⟨x, hx, hxo⟩)
              refine hhere ht2 hgrown (.doubled hr hr' ⟨hboth.1, hboth.2, i, j, p, z, y, hij, hp, hz, hy, ?_, ?_⟩)
              · exact hpy.imp_right fun h => ⟨k, h⟩
              · exact hzy.imp_right fun h => ⟨k, h⟩
          · exact hshort hunion (not_and_or.1 hboth) hcovered
end

/-- Whether two types are equal does not depend on their order, unless comparing them leads to two types that are
lopsided: both stand for the same snippet, or for shapes, or for unions of which one has two members that are equal to
the same member of the other, or one of them stands for a union of less than two types, or is an alias or a type whose
resolution can be resolved further. -/
theorem equal_symm_or_lopsided {ctx : Context} {s u u' : Session} (hs : s.Sound ctx) {a b : Ty} (ha : s.types.Has a)
    (hb : s.types.Has b) {n n' : Nat} {v v' : Bool} (h : (ofBudget n).equal a b ctx s = some (v, u)) (hu : u.Clear ctx)
    (h' : (ofBudget n').equal b a ctx s = some (v', u')) (hu' : u'.Clear ctx) :
    v = v' ∨ ∃ t x y, (s.Meets ctx s.types a b t x y ∨ s.Meets ctx s.types b a t x y) ∧ s.Lopsided ctx t x y := by
  have ht : s.Stage s.types := ⟨hs.types, .refl _⟩
  have hfree {a b : Ty} {n : Nat} {v : Bool} {u : Session} (h : (ofBudget n).equal a b ctx s = some (v, u))
      (hu : u.Clear ctx) : s.EqualBy ctx s.types n a b v := by
    obtain ⟨i, -, hi⟩ := ((regular_equal.uniform (ofBudget n)).unhindered (a, b)).run ctx s v u h hu
    exact ⟨_, hi 0, hu.exceeded, rfl⟩
  have h := hfree h hu
  have h' := hfree h' hu'
  cases v <;> cases v'
  · exact .inl rfl
  · obtain ⟨t, x, y, hm, hl⟩ := lopsided_of_differ hs (le_refl _) ht hb ha h' h
    exact .inr ⟨t, x, y, .inr hm, hl⟩
  · obtain ⟨t, x, y, hm, hl⟩ := lopsided_of_differ hs (le_refl _) ht ha hb h h'
    exact .inr ⟨t, x, y, .inl hm, hl⟩
  · exact .inl rfl

/-! ### Unions that are older than their aliases -/

example : ((ofBudget 9).equal Ty.string Ty.number Declarations.empty.context (.start .initial .standard)).map Prod.fst =
    some false := by
  decide +kernel

/-- The union `A[] | B[]`, `⟨14⟩`, where `A` and `B` are names, the union `number[] | string[]`, `⟨17⟩`, and `string`
as the target of two aliases. -/
def agedTypes : TypeTable :=
  .ofForms ["A", "B"] [.classRef ⟨3⟩ {}, .classRef ⟨4⟩ {}, .array ⟨10⟩, .array ⟨11⟩, .union [⟨12⟩, ⟨13⟩],
    .array Ty.string, .array Ty.number, .union [⟨16⟩, ⟨15⟩], .aliasRef ⟨3⟩ [] Ty.string, .aliasRef ⟨4⟩ [] Ty.string]

/-- `A` and `B` are aliases of `string`. -/
def aged : Declarations := (Declarations.empty.addAlias ⟨3⟩ ⟨18⟩).addAlias ⟨4⟩ ⟨19⟩

def agedStart : Session := .start agedTypes Limits.standard

theorem agedTypes_wf : agedTypes.WF := Orderly.wf (by decide)

theorem agedStart_sound : agedStart.Sound aged.context :=
  .declared (d := aged) rfl agedTypes_wf _ (forall_mem_nil _) (by decide) rfl rfl

/-- Both members of `A[] | B[]` are equal to `string[]`, which is a member of `number[] | string[]`; but nothing is
equal to `number[]`. -/
theorem equal_aged_lopsided : ∃ u u', (ofBudget 20).equal ⟨14⟩ ⟨17⟩ aged.context agedStart = some (true, u) ∧
    (ofBudget 20).equal ⟨17⟩ ⟨14⟩ aged.context agedStart = some (false, u') ∧
    ∃ t x y, (agedStart.Meets aged.context agedTypes ⟨14⟩ ⟨17⟩ t x y ∨ agedStart.Meets aged.context agedTypes ⟨17⟩ ⟨14⟩ t x y) ∧
      agedStart.Lopsided aged.context t x y := by
  have hruns : ((ofBudget 20).equal ⟨14⟩ ⟨17⟩ aged.context agedStart).map (fun r => (r.1, r.2.guard.exceeded, r.2.canceled)) =
        some (true, false, false) ∧
      ((ofBudget 20).equal ⟨17⟩ ⟨14⟩ aged.context agedStart).map (fun r => (r.1, r.2.guard.exceeded, r.2.canceled)) =
        some (false, false, false) := by decide +kernel
  obtain ⟨⟨v, u⟩, hr, he⟩ := Option.map_eq_some_iff.1 hruns.1
  obtain ⟨⟨v', u'⟩, hr', he'⟩ := Option.map_eq_some_iff.1 hruns.2
  obtain ⟨rfl, hexceeded, hcanceled⟩ : v = true ∧ u.guard.exceeded = false ∧ u.canceled = false := by simpa using he
  obtain ⟨rfl, hexceeded', hcanceled'⟩ : v' = false ∧ u'.guard.exceeded = false ∧ u'.canceled = false := by simpa using he'
  refine ⟨u, u', hr, hr', ?_⟩
  have hsymm := equal_symm_or_lopsided agedStart_sound (by decide) (by decide) hr
    ⟨hexceeded, by simp [hcanceled]⟩ hr' ⟨hexceeded', by simp [hcanceled']⟩
  exact hsymm.resolve_left nofun

/-- Equality is not symmetric. -/
theorem equal_aged_not_symm : (standard.equal ⟨14⟩ ⟨17⟩ aged.context agedStart).map Prod.fst = some true ∧
    (standard.equal ⟨17⟩ ⟨14⟩ aged.context agedStart).map Prod.fst = some false := by decide +kernel

end AnnotatedLua
