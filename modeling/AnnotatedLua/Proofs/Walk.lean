/-
What keeps walks finite. The guard counts what is active and what was asked (`Guard.Reaches.invariant`). The search for
a scoped name takes as many steps as there are nodes with a parent, which is enough (`Declarations.scopedType_innermost`).
-/
import AnnotatedLua.Proofs.Query.Frame
import Mathlib.Data.List.Nodup
import Mathlib.Data.List.Perm.Subperm

namespace AnnotatedLua

/-! ## The guard -/

namespace Guard

variable {κ : Type} [DecidableEq κ]

/-- A guard after calls that enter and leave keys, with the answers to those that enter, the last one first. Only active
keys are left. -/
inductive Reaches (limits : Limits) : List Admission → Guard κ → Prop
  | start : Reaches limits [] (ofLimits limits)
  | enter {answers g} (key) : Reaches limits answers g → Reaches limits ((g.enter key).1 :: answers) (g.enter key).2
  | leave {answers g key} : Reaches limits answers g → g.isActive key = true → Reaches limits answers (g.leave key)

variable {limits : Limits} {answers : List Admission} {g : Guard κ}

structure Tracks (limits : Limits) (answers : List Admission) (g : Guard κ) : Prop where
  same : g.limits = limits
  nodup : g.active.Nodup
  depth : g.depth = g.active.length
  bounded : g.depth ≤ limits.depth
  iterations : g.iterations = min answers.length counterMax
  looked : limits.iterations < counterMax → answers.countP (fun a => a.isEntered || a.isCycle) ≤ limits.iterations
  refused : .iterationsExceeded ∈ answers → limits.iterations < g.iterations
  exceeded : g.exceeded = true ↔ .depthExceeded ∈ answers ∨ .iterationsExceeded ∈ answers

theorem Tracks.enter (h : Tracks limits answers g) (key : κ) :
    Tracks limits ((g.enter key).1 :: answers) (g.enter key).2 := by
  obtain ⟨rfl, hnodup, hdepth, hbounded, hiter, hlooked, hrefused, hexceeded⟩ := h
  have hcount : g.count.iterations = min (answers.length + 1) counterMax := by
    simp only [count, hiter]
    omega
  replace hrefused (hm) := (hrefused hm).trans_le (show g.iterations ≤ g.count.iterations by omega)
  -- while the limit is not reached, every call is within it
  have hroom (hle : ¬ g.limits.iterations < g.count.iterations) (hlt : g.limits.iterations < counterMax) :
      answers.countP (fun a => a.isEntered || a.isCycle) + 1 ≤ g.limits.iterations := by
    have := answers.countP_le_length (p := fun a => a.isEntered || a.isCycle)
    omega
  unfold Guard.enter
  dsimp only
  split_ifs with h1 h2 h3
  · exact ⟨rfl, hnodup, hdepth, hbounded, hcount, hlooked, fun _ => h1, by simp⟩
  · exact ⟨rfl, hnodup, hdepth, hbounded, hcount, hlooked, fun hm => hrefused (by simpa using hm), by simp⟩
  · refine ⟨rfl, hnodup, hdepth, hbounded, hcount, fun hlt => ?_, fun hm => hrefused (by simpa using hm), ?_⟩
    · simpa [List.countP_cons, Admission.isCycle] using hroom h1 hlt
    · simpa [count] using hexceeded
  · have hnew : key ∉ g.active := by simpa [isActive, count] using h3
    refine ⟨rfl, List.nodup_cons.2 ⟨hnew, hnodup⟩, congrArg Nat.succ hdepth, not_le.1 h2, hcount, fun hlt => ?_,
      fun hm => hrefused (by simpa using hm), ?_⟩
    · simpa [List.countP_cons, Admission.isEntered] using hroom h1 hlt
    · simpa [count] using hexceeded

theorem Tracks.leave (h : Tracks limits answers g) {key : κ} (hkey : g.isActive key = true) :
    Tracks limits answers (g.leave key) := by
  have hmem : key ∈ g.active := by simpa [isActive] using hkey
  have hlength : (g.leave key).depth = (g.leave key).active.length := by
    simp only [Guard.leave, h.depth, List.length_erase_of_mem hmem]
  exact { h with nodup := h.nodup.erase key, depth := hlength, bounded := (Nat.sub_le _ _).trans h.bounded }

theorem Reaches.tracks (h : Reaches limits answers g) : Tracks limits answers g := by
  induction h with
  | start => exact ⟨rfl, .nil, rfl, Nat.zero_le _, by simp [ofLimits], by simp, by simp, by simp [ofLimits]⟩
  | enter key _ ih => exact ih.enter key
  | leave _ hkey ih => exact ih.leave hkey

/-- What holds of a guard whatever was entered and left. As many keys are active as its depth says, and not more than
its limit; a key is entered only if it is not active, and no other answer changes what is active; all calls are counted
as far as the counter goes; a limit below that bounds the calls that come to look at their key, and once it is exceeded
every call exceeds it; the guard remembers that it refused a call for one of its limits. -/
theorem Reaches.invariant (h : Reaches limits answers g) :
    (g.active.Nodup ∧ g.depth = g.active.length ∧ g.depth ≤ limits.depth) ∧
    (∀ key, (g.enter key).1 = .entered → key ∉ g.active ∧ (g.enter key).2.active = key :: g.active) ∧
    (∀ key, (g.enter key).1 ≠ .entered → (g.enter key).2.active = g.active ∧ (g.enter key).2.depth = g.depth) ∧
    g.iterations = min answers.length (2 ^ 32 - 1) ∧
    (limits.iterations < 2 ^ 32 - 1 → answers.countP (fun a => a.isEntered || a.isCycle) ≤ limits.iterations ∧
      (.iterationsExceeded ∈ answers → ∀ key, (g.enter key).1 = .iterationsExceeded)) ∧
    (g.exceeded = true ↔ .depthExceeded ∈ answers ∨ .iterationsExceeded ∈ answers) := by
  have ht := h.tracks
  refine ⟨⟨ht.nodup, ht.depth, ht.bounded⟩, fun key hkey => ?_, fun key hkey => ?_, ht.iterations,
    fun hlt => ⟨ht.looked hlt, fun hm key => ?_⟩, ht.exceeded⟩
  · rcases g.enter_cases key with ⟨-, hno, -, hg⟩ | ⟨hne, -⟩ | ⟨hne, -⟩
    · exact ⟨by simpa [isActive] using hno, by rw [hg]⟩
    · exact absurd hkey hne
    · exact absurd hkey hne
  · rcases g.enter_cases key with ⟨he, -⟩ | ⟨-, -, hg⟩ | ⟨-, -, hg⟩
    · exact absurd he hkey
    · exact hg ▸ ⟨rfl, rfl⟩
    · exact hg ▸ ⟨rfl, rfl⟩
  · have hover : limits.iterations < g.count.iterations := by
      have := ht.refused hm
      simp only [count, ht.iterations] at this ⊢
      omega
    rw [← ht.same] at hover
    exact congrArg Prod.fst (if_pos hover)

/-- One key was entered and left. Another was refused while it was active, and it was refused itself after that. -/
def spent : Guard Nat := ((((ofLimits ⟨1, 2⟩).enter 1).2.enter 2).2.leave 1 |>.enter 1).2

theorem Reaches.invariant_spent : Reaches ⟨1, 2⟩ [.iterationsExceeded, .depthExceeded, .entered] spent ∧
    spent.depth = spent.active.length ∧ spent.iterations = 3 ∧ spent.exceeded = true ∧
    ∀ key, (spent.enter key).1 = .iterationsExceeded := by
  have h : Reaches ⟨1, 2⟩ [.iterationsExceeded, .depthExceeded, .entered] spent :=
    .enter 1 (.leave (.enter 2 (.enter 1 .start)) rfl)
  obtain ⟨⟨-, hdepth, -⟩, -, -, hcalls, hlimit, hexceeded⟩ := h.invariant
  exact ⟨h, hdepth, hcalls, hexceeded.2 (by simp), (hlimit (by decide)).2 (by simp)⟩

end Guard

/-! ## The innermost binding -/

namespace Declarations

variable (d : Declarations) (node : Node) (name : Symbol)

/-- The node that is `k` steps further out. -/
def outer : Nat → Option Node
  | 0 => some node
  | k + 1 => (outer k).bind (d.parents[·]?)

/-- What the name is bound to `k` steps further out. -/
def bound (k : Nat) : Option Ty := (d.outer node k).bind fun around => d.localNames[(around, name)]?

variable {d node name}

theorem outer_add (i k : Nat) : d.outer node (i + k) = (d.outer node i).bind (d.outer · k) := by
  induction k with
  | zero => exact (Option.bind_fun_some _).symm
  | succ k ih =>
    rw [← Nat.add_assoc, outer, ih, Option.bind_assoc]
    rfl

theorem scopedWithin_cases (n : Nat) : d.scopedWithin name n node = none ∧ (∀ k ≤ n, d.bound node name k = none) ∨
    ∃ ty k, d.scopedWithin name n node = some ty ∧ d.bound node name k = some ty ∧
      ∀ j < k, d.bound node name j = none := by
  induction n generalizing node with
  | zero =>
    unfold scopedWithin
    cases h : d.localNames[(node, name)]? with
    | some ty => exact .inr ⟨ty, 0, rfl, h, by simp⟩
    | none => exact .inl ⟨rfl, fun k hk => by rwa [Nat.le_zero.1 hk]⟩
  | succ n ih =>
    have hsucc (k : Nat) : d.bound node name (k + 1) = (d.parents[node]?).bind fun parent => d.bound parent name k := by
      rw [bound, Nat.add_comm, outer_add, Option.bind_assoc]
      rfl
    unfold scopedWithin
    cases h : d.localNames[(node, name)]? with
    | some ty => exact .inr ⟨ty, 0, rfl, h, by simp⟩
    | none =>
      cases hp : d.parents[node]? with
      | none =>
        refine .inl ⟨rfl, fun k _ => ?_⟩
        cases k with
        | zero => exact h
        | succ => rw [hsucc, hp]; rfl
      | some parent =>
        rw [hp] at hsucc
        rcases @ih parent with ⟨hnone, hall⟩ | ⟨ty, k, hty, hk, hbefore⟩
        · refine .inl ⟨hnone, fun k hk => ?_⟩
          cases k with
          | zero => exact h
          | succ k => exact (hsucc k).trans (hall k (by omega))
        · refine .inr ⟨ty, k + 1, hty, (hsucc k).trans hk, fun j _ => ?_⟩
          cases j with
          | zero => exact h
          | succ j => exact (hsucc j).trans (hbefore j (by omega))

theorem first_bound_le {k : Nat} (hk : d.bound node name k ≠ none) (hbefore : ∀ j < k, d.bound node name j = none) :
    k ≤ d.parents.size := by
  have hnodup : ((List.range k).map (d.outer node)).Nodup := by
    refine .map_on (fun i hi j hj he => ?_) List.nodup_range
    rw [List.mem_range] at hi hj
    by_contra hne
    wlog hlt : i < j generalizing i j
    · exact this j hj i hi he.symm (Ne.symm hne) (by omega)
    -- one turn of the circle earlier the name is bound to the same
    have hturn : d.outer node (i + (k - j)) = d.outer node (j + (k - j)) := by rw [outer_add, outer_add, he]
    rw [Nat.add_sub_cancel' hj.le] at hturn
    exact hk (by rw [← hbefore (i + (k - j)) (by omega), bound, bound, hturn])
  have hsub : (List.range k).map (d.outer node) ⊆ d.parents.keys.map some := by
    intro x hx
    obtain ⟨j, hj, rfl⟩ := List.mem_map.1 hx
    have hout : d.outer node k = (d.outer node (j + 1)).bind (d.outer · (k - (j + 1))) := by
      rw [← outer_add, Nat.add_sub_cancel' (List.mem_range.1 hj)]
    rw [outer] at hout
    cases ho : d.outer node j with
    | none => simp [bound, hout, ho] at hk
    | some =>
      refine List.mem_map_of_mem (Std.TreeMap.mem_keys.2 (Std.TreeMap.mem_iff_isSome_getElem?.2 ?_))
      by_contra hno
      rw [Option.not_isSome_iff_eq_none] at hno
      simp [bound, hout, ho, hno] at hk
  simpa using (List.subperm_of_subset hnodup hsub).length_le

/-- A name has the type that the innermost scope around the node binds it to. -/
theorem scopedType_innermost (d : Declarations) (node : Node) (name : Symbol) :
    (∀ ty, d.scopedType node name = some ty ↔
      ∃ k, d.bound node name k = some ty ∧ ∀ j < k, d.bound node name j = none) ∧
    (d.scopedType node name = none ↔ ∀ k, d.bound node name k = none) := by
  have hall (hnone : ∀ k ≤ d.parents.size + 1, d.bound node name k = none) (k : Nat) : d.bound node name k = none := by
    induction k using Nat.strong_induction_on with
    | _ k ih =>
      by_contra hk
      exact hk (hnone k ((first_bound_le hk ih).trans (Nat.le_succ _)))
  unfold scopedType
  rcases @scopedWithin_cases d node name (d.parents.size + 1) with ⟨hnone, hfew⟩ | ⟨ty, k, hty, hk, hbefore⟩
  · have := hall hfew
    simp [hnone, this]
  · rw [hty]
    refine ⟨fun ty' => ⟨?_, ?_⟩, by simpa using ⟨k, by simp [hk]⟩⟩
    · rintro ⟨⟩
      exact ⟨k, hk, hbefore⟩
    · rintro ⟨k', hk', hbefore'⟩
      -- there is only one first binding
      obtain rfl : k = k' := by
        by_contra hne
        rcases Nat.lt_or_gt_of_ne hne with hlt | hlt
        · simp [hbefore' k hlt] at hk
        · simp [hbefore k' hlt] at hk'
      rw [← hk, hk']

end Declarations

end AnnotatedLua
