/-
The members of a target, none of which fits. The problems that are reported are those of the candidates that got
furthest (`checkCandidates_deepest`).
-/
import AnnotatedLua.Proofs.Shape.Plain
import AnnotatedLua.Proofs.Union.Canonical

namespace AnnotatedLua

open Solve Solver List Text

/-! ## Messages -/

theorem fill_append_comma {new l t : List Char} {skip : Nat} (hskip : skip ≤ l.length) :
    replaceFrom ['{', '1', '}'] new skip (l ++ ',' :: t) =
      replaceFrom ['{', '1', '}'] new skip l ++ replaceFrom ['{', '1', '}'] new 0 (',' :: t) := by
  induction l generalizing skip with
  | nil => grind [replaceFrom]
  | cons b l ih =>
    cases skip with
    | succ => exact ih (Nat.le_of_succ_le_succ hskip)
    | zero => rcases l with _ | ⟨x, _ | ⟨y, r⟩⟩ <;> grind [replaceFrom, List.isPrefixOf]

/-- A placeholder that stands in the message itself is filled as well. -/
theorem message_onCandidate (reason : Reason) (name : String) : (Reason.onCandidate reason name).message =
    .ofList (replaceFrom (placeholder 1) name.toList 0 reason.message.toList) ++ ", on union candidate " ++ name := by
  have hfill : (Reason.onCandidate reason name).message = .ofList (replaceFrom ['{', '1', '}'] name.toList 0
      (reason.message.toList ++ ',' :: " on union candidate \x7b1\x7d".toList)) := rfl
  have hlast : replaceFrom ['{', '1', '}'] name.toList 0 (',' :: " on union candidate \x7b1\x7d".toList) =
      ", on union candidate ".toList ++ (name.toList ++ []) := rfl
  rw [hfill, fill_append_comma (Nat.zero_le _), hlast]
  simp only [String.ofList_append, String.ofList_toList, append_nil, String.append_assoc]
  rfl

/-! ## Depths -/

/-- The steps from a node up to the root. -/
def Context.steps (ctx : Context) (root : Node) : Nat → Node → Nat
  | 0, _ => 0
  | n + 1, node => if node = root then 0 else ((ctx.provider.parent node).map (ctx.steps root n · + 1)).getD 0

/-- How far below the root the highest of the problems is. -/
def Solver.Candidate.depth (ctx : Context) (root : Node) (c : Candidate) : Option Nat :=
  (c.problems.map (ctx.steps root maxAncestors ·.source)).min?

variable {ctx : Context} {s u : Session} {S : Solver} {i : Inspection} {target source : Ty} {tried : List Candidate} {v : Verdict}

theorem run_depthBelow (root : Node) (n : Nat) (node : Node) :
    depthBelow root n node ctx s = some (ctx.steps root n node, s) := by
  induction n generalizing node with
  | zero => rfl
  | succ n ih =>
    unfold depthBelow Context.steps
    split
    · rfl
    · cases hup : ctx.provider.parent node with
      | none => exact run_bind (a := none) (by rw [← hup]; rfl)
      | some up => exact (run_bind (a := some up) (by rw [← hup]; rfl)).trans (run_bind (ih up))

theorem run_mapM {α β : Type} {f : α → Solve β} {g : α → β} (hf : ∀ a, f a ctx s = some (g a, s)) (l : List α) :
    l.mapM f ctx s = some (l.map g, s) := by
  induction l with
  | nil => rfl
  | cons a l ih =>
    rw [mapM_cons, run_bind (hf a), run_bind ih]
    rfl

theorem run_ranked (root : Node) (tried : List Candidate) :
    (tried.mapM fun c => do return (c, ← candidateDepth root c)) ctx s =
      some (tried.map fun c => (c, c.depth ctx root), s) :=
  run_mapM (fun c => run_bind (run_bind (run_mapM (run_depthBelow root maxAncestors ·.source) c.problems))) tried

/-! ## Candidates -/

/-- A member of the target, and what is wrong with the source for it. -/
def Solver.candidate (S : Solver) (i : Inspection) (source target : Ty) : Solve Candidate := do
  let verdict ← S.checkSingle { i with wanted := true } target source
  return ⟨← name target, verdict.problems⟩

theorem addCandidate_new {c : Candidate} (h : c.name ∉ tried.map (·.name)) : addCandidate c tried = tried ++ [c] := by
  induction tried with
  | nil => rfl
  | cons d tried ih =>
    obtain ⟨hd, h⟩ := not_or.1 (mt mem_cons.2 h)
    rw [addCandidate, if_neg (Ne.symm hd), ih h, cons_append]

theorem tryCandidates_eq_some {targets : List Ty} {before after : List Candidate}
    (h : S.tryCandidates i source targets before ctx s = some (some after, u)) :
    ∃ tried, targets.mapM (S.candidate i source) ctx s = some (tried, u) ∧
      (((before ++ tried).map (·.name)).Nodup → after = before ++ tried) := by
  induction targets generalizing before s with
  | nil =>
    cases h
    exact ⟨[], rfl, fun _ => (append_nil _).symm⟩
  | cons target rest ih =>
    obtain ⟨verdict, s1, hverdict, h⟩ := bind_eq_some h
    split at h
    · cases h
    · obtain ⟨name, s2, hname, h⟩ := bind_eq_some h
      obtain ⟨tried, htried, hafter⟩ := ih h
      have hc : S.candidate i source target ctx s = some (⟨name, verdict.problems⟩, s2) :=
        (run_bind hverdict).trans (run_bind hname)
      refine ⟨⟨name, verdict.problems⟩ :: tried, ?_, fun hnodup => ?_⟩
      · rw [mapM_cons, run_bind hc, run_bind htried]
        rfl
      · have hnew : name ∉ before.map (·.name) := by
          rw [map_append, nodup_append] at hnodup
          exact fun hmem => hnodup.2.2 name hmem name mem_cons_self rfl
        rw [append_cons] at hnodup ⊢
        rw [addCandidate_new hnew] at hafter
        exact hafter hnodup

theorem nodup_addCandidate {c : Candidate} (h : (tried.map (·.name)).Nodup) :
    ((addCandidate c tried).map (·.name)).Nodup := by
  by_cases hmem : c.name ∈ tried.map (·.name)
  · suffices hsame : (addCandidate c tried).map (·.name) = tried.map (·.name) by rwa [hsame]
    clear h
    induction tried with
    | nil => cases hmem
    | cons d tried ih =>
      unfold addCandidate
      split_ifs with hd
      · rw [map_cons, map_cons, hd]
      · rw [map_cons, map_cons, ih ((mem_cons.1 hmem).resolve_left (Ne.symm hd))]
  · rw [addCandidate_new hmem, map_append]
    exact h.append (nodup_singleton _) (by simpa using hmem)

/-! ## The ranking -/

/-- The candidates that got as far as any. -/
def Solver.furthest (depth : Candidate → Option Nat) (tried : List Candidate) : List Candidate :=
  tried.filter fun c => (depth c).isSome && depth c = (tried.filterMap depth).max?

/-- One pass over the candidates finds those that got furthest. -/
theorem ranking_eq (depth : Candidate → Option Nat) (tried : List Candidate) :
    (tried.map fun c => (c, depth c)).foldl Ranking.add {} =
      ⟨(furthest depth tried).map (·.name), (tried.filterMap depth).max?⟩ := by
  induction tried using List.reverseRecOn with
  | nil => rfl
  | append_singleton tried c ih =>
    rw [map_append, foldl_append, ih]
    unfold furthest
    cases hc : depth c with
    | none => simp [Ranking.add, hc]
    | some d =>
      have hmax : ((tried ++ [c]).filterMap depth).max? =
          some (((tried.filterMap depth).max?.map (max · d)).getD d) := by
        rw [filterMap_append, filterMap_cons_some hc]
        cases tried.filterMap depth <;> simp [max?]
      -- what got less far than the last one is dropped
      have hdrop (hlow : ∀ e ∈ tried.filterMap depth, e < d) :
          tried.filter (fun e => (depth e).isSome && decide (depth e = some d)) = [] := by
        refine filter_eq_nil_iff.2 fun e he h => ?_
        simp only [Bool.and_eq_true, decide_eq_true_eq] at h
        exact Nat.lt_irrefl d (hlow d (mem_filterMap.2 ⟨e, he, h.2⟩))
      rw [hmax, filter_append, filter_cons, hc]
      cases hbest : (tried.filterMap depth).max? with
      | none =>
        have hnil := max?_eq_none_iff.1 hbest
        have hfil := hdrop (by simp [hnil])
        simp [Ranking.add, hc, hfil]
      | some best =>
        rcases Nat.lt_trichotomy d best with hlt | rfl | hgt
        · simp [Ranking.add, hc, hlt, hlt.le, hlt.ne]
        · simp [Ranking.add, hc]
        · have hfil := hdrop fun e he => ((max?_eq_some_iff.1 hbest).2 e he).trans_lt hgt
          simp [Ranking.add, hc, hgt.le, hgt.not_gt, hgt.ne', hfil]

theorem swapRemove_eq (h : c ∈ tried) (hnodup : (tried.map (·.name)).Nodup) :
    ∃ rest, swapRemove c.name tried = some (c, rest) ∧ (c :: rest).Perm tried := by
  induction tried with
  | nil => cases h
  | cons d tried ih =>
    rw [map_cons, nodup_cons] at hnodup
    unfold swapRemove
    rcases mem_cons.1 h with rfl | h
    · refine ⟨_, if_pos rfl, .cons _ ?_⟩
      rcases eq_nil_or_concat tried with rfl | ⟨l, z, rfl⟩
      · exact .nil
      · have hcomm : ([z] ++ l).Perm (l ++ [z]) := perm_append_comm
        simpa using hcomm
    · obtain ⟨rest, hrest, hperm⟩ := ih h hnodup.2
      have hne : d.name ≠ c.name := fun he => hnodup.1 (he ▸ mem_map_of_mem h)
      exact ⟨d :: rest, by rw [if_neg hne, hrest]; rfl, (Perm.swap d c rest).trans (hperm.cons d)⟩

theorem takeProblems_eq (suffixed : Bool) {best : List Candidate} (hnodup : (tried.map (·.name)).Nodup)
    (hbest : best.Nodup) (hsub : best ⊆ tried) : takeProblems suffixed (best.map (·.name)) tried =
      best.flatMap fun c => c.problems.map fun p => if suffixed then p.widen (.onCandidate · c.name) else p := by
  induction best generalizing tried with
  | nil => rfl
  | cons c best ih =>
    obtain ⟨hc, hsub⟩ := cons_subset.1 hsub
    obtain ⟨hnew, hbest⟩ := nodup_cons.1 hbest
    obtain ⟨rest, hrest, hperm⟩ := swapRemove_eq hc hnodup
    have hnodup' : (rest.map (·.name)).Nodup := (nodup_cons.1 ((hperm.map _).nodup_iff.2 hnodup)).2
    have hsub' : best ⊆ rest := fun d hd =>
      (mem_cons.1 (hperm.mem_iff.2 (hsub hd))).resolve_left fun he => hnew (he ▸ hd)
    rw [map_cons, takeProblems, hrest, flatMap_cons, ← ih hnodup' hbest hsub']
    cases suffixed <;> simp

/-- What is wrong with the candidates. If there are several, each message says which one it is about. -/
def Solver.problemsOf (best : List Candidate) : List Problem :=
  best.flatMap fun c => c.problems.map fun p => if 1 < best.length then p.widen (.onCandidate · c.name) else p

theorem takeProblems_ranking (depth : Candidate → Option Nat) (hnodup : (tried.map (·.name)).Nodup) :
    let best := ((tried.map fun c => (c, depth c)).foldl Ranking.add {}).best
    takeProblems (1 < best.length) best tried = problemsOf (furthest depth tried) := by
  intro best
  have hbest : best = (furthest depth tried).map (·.name) := congrArg Ranking.best (ranking_eq depth tried)
  have hnodup' : (furthest depth tried).Nodup := hnodup.of_map.filter _
  rw [hbest, length_map, takeProblems_eq _ hnodup hnodup' fun _ hc => (mem_filter.1 hc).1]
  simp only [decide_eq_true_eq]
  rfl

/-- If no member of the target fits, the problems are those of the deepest candidates, in order. A message names its
candidate if there is another one, in the message itself too if that has a placeholder. -/
theorem checkCandidates_deepest (hr : S.checkCandidates i target source ctx s = some (v, u)) (hv : v.accepted = false)
    (hw : i.wanted = true) : ∃ members s1 tried, S.resolvedMembers target ctx s = some (members, s1) ∧
      members.mapM (S.candidate i source) ctx s1 = some (tried, u) ∧ ((tried.map (·.name)).Nodup →
        let depth := fun c : Candidate => c.depth ctx i.sourceNode
        let best := tried.filter fun c => (depth c).isSome && depth c = (tried.filterMap depth).max?
        v.problems = best.flatMap fun c => c.problems.map fun p =>
          if 1 < best.length then p.widen (.onCandidate · c.name) else p) ∧
      ∀ (reason : Reason) (name : String), (Reason.onCandidate reason name).message =
        .ofList (replaceFrom (placeholder 1) name.toList 0 reason.message.toList) ++ ", on union candidate " ++ name := by
  obtain ⟨members, s1, hmembers, hr⟩ := bind_eq_some hr
  obtain ⟨found, s2, hfound, hr⟩ := bind_eq_some hr
  cases found with
  | none =>
    cases hr
    cases hv
  | some found =>
    obtain ⟨tried, htried, heq⟩ := tryCandidates_eq_some hfound
    cases (run_bind (run_ranked i.sourceNode found)).symm.trans hr
    refine ⟨members, s1, tried, hmembers, htried, fun hnodup => ?_, message_onCandidate⟩
    rw [heq hnodup, nil_append, if_pos hw]
    exact takeProblems_ranking _ hnodup

example : ((ofBudget 5).checkCandidates ⟨true, .lenient, none, ⟨1⟩⟩ Ty.boolean Ty.number Declarations.empty.context
    (.start .initial .standard)).map (fun r => (r.1.accepted, r.1.problems.length)) = some (false, 1) := by
  decide +kernel

/-- The shapes `x`, `⟨10⟩`, and `y`, `⟨11⟩`, a table constructor, `⟨12⟩`, and `number | x | y`, `⟨13⟩`. -/
def rankedTypes : TypeTable :=
  .ofForms ["x", "y", "t", "f"] [.classRef ⟨3⟩ .shape, .classRef ⟨4⟩ .shape,
    .classRef ⟨5⟩ { literalTable := true, structural := true }, .union [Ty.number, ⟨10⟩, ⟨11⟩]]

/-- The field `f` is a number in `x`, a boolean in `y`, and a string in the table constructor. -/
def ranked : Declarations :=
  let decl (name : Symbol) (marks : Marks) (type : Ty) (node tableNode : Option Node) : ClassDecl :=
    { name, marks, tableNode, members := [⟨.field ⟨6⟩, some type, true, node⟩] }
  ((Declarations.empty.addClass (decl ⟨3⟩ .shape Ty.number none none)).addClass
    (decl ⟨4⟩ .shape Ty.boolean none none)).addClass
      (decl ⟨5⟩ { literalTable := true, structural := true } Ty.string (some ⟨2⟩) (some ⟨1⟩))
        |>.setParent ⟨2⟩ ⟨1⟩

/-- That the table is no number is found at the table itself. The shapes do better, as their fields are below it, and all
that is wrong with them is said. -/
theorem checkCandidates_deepest_tied : ∃ (v : Verdict) (u : Session) (tried : List Candidate),
    (ofBudget 8).checkCandidates ⟨true, .lenient, none, ⟨1⟩⟩ ⟨13⟩ ⟨12⟩ ranked.context (.start rankedTypes .standard) =
      some (v, u) ∧
    tried.map (fun c => (c.name, c.depth ranked.context ⟨1⟩)) = [("number", some 0), ("x", some 1), ("y", some 1)] ∧
    v.problems = (tried.drop 1).flatMap fun c => c.problems.map (·.widen (.onCandidate · c.name)) := by
  have h : ((ofBudget 8).checkCandidates ⟨true, .lenient, none, ⟨1⟩⟩ ⟨13⟩ ⟨12⟩ ranked.context
      (.start rankedTypes .standard)).map (·.1.accepted) = some false := by decide +kernel
  have htried : ((do ((← (ofBudget 8).resolvedMembers ⟨13⟩).mapM
      ((ofBudget 8).candidate ⟨true, .lenient, none, ⟨1⟩⟩ ⟨12⟩)) : Solve (List Candidate)) ranked.context
        (.start rankedTypes .standard)).map (fun r => r.1.map fun c => (c.name, c.depth ranked.context ⟨1⟩)) =
      some [("number", some 0), ("x", some 1), ("y", some 1)] := by decide +kernel
  obtain ⟨⟨v, u⟩, hr, hv⟩ := Option.map_eq_some_iff.1 h
  obtain ⟨members, s1, tried, hmembers, hmap, hproblems, -⟩ := checkCandidates_deepest hr hv rfl
  rw [run_bind hmembers, hmap, Option.map_some, Option.some.injEq] at htried
  refine ⟨v, u, tried, hr, htried, ?_⟩
  have hnames : tried.map (·.name) = ["number", "x", "y"] := by
    simpa [Function.comp_def] using congrArg (map Prod.fst) htried
  rw [hproblems (by rw [hnames]; decide)]
  obtain ⟨c, _, rfl, hc, htried⟩ := map_eq_cons_iff.1 htried
  obtain ⟨c', _, rfl, hc', htried⟩ := map_eq_cons_iff.1 htried
  obtain ⟨c'', _, rfl, hc'', htried⟩ := map_eq_cons_iff.1 htried
  obtain rfl := map_eq_nil_iff.1 htried
  simp only [Prod.mk.injEq] at hc hc' hc''
  simp [hc.2, hc'.2, hc''.2, max?]

end AnnotatedLua
