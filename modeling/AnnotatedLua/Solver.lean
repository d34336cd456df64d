/-
The solver. A question is answered by its rule over a solver of a smaller budget, so a budget bounds
how deep questions may lead to further questions. A query that no budget suffices for has no answer.
-/
import AnnotatedLua.Call

namespace AnnotatedLua.Solver

def rule (S : Solver) : {α : Type} → Query α → Solve α
  | _, .accepts target source mode => Rule.accepts S target source mode
  | _, .equal a b => Rule.equal S a b
  | _, .check wanted target source mode targetNode sourceNode =>
    Rule.check S wanted target source mode targetNode sourceNode
  | _, .willResolve ty => Rule.willResolve S ty
  | _, .isShape ty => Rule.isShape S ty
  | _, .paramsOf ty => Rule.paramsOf S ty
  | _, .superClass ty => Rule.superClass S ty
  | _, .resultAt ty position => Rule.resultAt S ty position
  | _, .substitute ty s => Rule.substitute S ty s
  | _, .memberSubstitution ty => Rule.memberSubstitution S ty
  | _, .fieldType ty name => Rule.fieldType S ty name
  | _, .indexedType ty index exact => Rule.indexedType S ty index exact
  | _, .signaturesOf ty => Rule.signaturesOf S ty
  | _, .infer node => Rule.infer S node
  | _, .bind search bindings declared => Rule.bind S search bindings declared

def ofBudget : Nat → Solver
  | 0 => { budget := 0, ask := fun _ => Solve.exhausted }
  | n + 1 => { budget := n + 1, ask := fun q => (ofBudget n).rule q }

def standardBudget : Nat := 100000

def standard : Solver := ofBudget standardBudget

end AnnotatedLua.Solver
