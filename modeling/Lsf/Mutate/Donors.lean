import Lsf.Mutate.Splice

/-!
# Donated subqueries

`SubQuery` (`splice.rs`) looks for a subquery in a donor whenever it has chosen a literal operand. The search ends at
the first expression of the donor, whatever that is. So the subqueries of a donor are found exactly if its first
expression is one, or there are none to be found (`SubQuery.finds_iff`).
-/

namespace Lsf.Mutate

open Lsf.Core Lsf.Lib Lsf.Feedback Lsf.Engine Sqlparser

/-- `Expr::Subquery(_)`. -/
def IsSubquery {Stmt : Type} [Sqlparser Stmt] (e : Expr Stmt) : Prop := (subquery e).isSome

/-- What holds of the variants of an expression: a subquery is one of its query, and no literal, and an operand is what
was assigned to it. -/
structure OperandLaws (Stmt : Type) [Sqlparser Stmt] : Prop where
  ofQuery_subquery : ∀ (e : Expr Stmt) q, subquery e = some q → ofQuery q = e
  not_isValue : ∀ (e : Expr Stmt) q, subquery e = some q → isValue e = false
  right_assign : ∀ (e : Expr Stmt) operand, right e = some operand → ∀ x, ∃ operand',
    right (operand.assign x) = some operand' ∧ operand'.value = x

namespace SubQuery

variable {Stmt : Type} [Sqlparser Stmt]

/-- In a run of the rule the visit shows `expr`, of which the right operand is a literal, and the draws select it and
the donor `other`. -/
structure Selection (rule : SubQuery) (parentGen : List (Entry Stmt)) (child : Child Stmt) (draws : List Draw) where
  expr : Expr Stmt
  operand : Place expr (Expr Stmt)
  next : Expr Stmt → Visit (Expr Stmt) (AST Stmt)
  isMutated : Bool
  other : Entry Stmt
  /-- The draws that are left when `expr` is shown, when it is selected, and when the donor is. -/
  shownAt : List Draw
  hitAt : List Draw
  rest : List Draw
  owned : child.sharers = 0
  reaches : ((expressions : AstNode (AST Stmt) (Expr Stmt)).visitMut child.entry.entry.ast).Reaches
    (rule.closure parentGen) false draws (.node expr next) isMutated shownAt
  right_expr : right expr = some operand
  isValue_operand : isValue operand.value = true
  hit : Rng.bool rule.mutationChance shownAt = some (true, hitAt)
  donor : Rng.choose parentGen hitAt = some (other, rest)

/-- The expressions of an entry. -/
def donated (entry : Entry Stmt) : List (Expr Stmt) :=
  (expressions : AstNode (AST Stmt) (Expr Stmt)).visit entry.entry.ast

/-- Among the expressions of an entry is a subquery. -/
def HasSubquery (entry : Entry Stmt) : Prop := ∃ e ∈ donated entry, IsSubquery e

/-- The first expression of an entry is a subquery. -/
def BeginsWithSubquery (entry : Entry Stmt) : Prop := ∃ e ∈ (donated entry).head?, IsSubquery e

namespace Selection

variable {rule : SubQuery} {parentGen : List (Entry Stmt)} {child : Child Stmt} {draws : List Draw}

/-- If there are subqueries in the donor, the visit goes on with an operand that is one of them, and the rule reports a
mutation; if there are none, it goes on with what it has shown, and a child is unchanged of which no donor has any. -/
def Finds (sel : Selection rule parentGen child draws) : Prop :=
  ∃ expr isMutated,
    rule.closure parentGen sel.expr sel.isMutated sel.shownAt = some ((expr, isMutated, .goOn), sel.rest) ∧
    (HasSubquery sel.other →
      (∃ operand, right expr = some operand ∧ operand.value ∈ donated sel.other ∧ IsSubquery operand.value) ∧
        ∀ r rest, rule.breedInner child parentGen draws = some (r, rest) → r.1 = .ok .mutated ∧
          ∃ ast, (sel.next expr).run (rule.closure parentGen) isMutated sel.rest = some ((ast, true), rest) ∧
            r.2 = child.setAst ast) ∧
    (¬HasSubquery sel.other → expr = sel.expr ∧ isMutated = sel.isMutated ∧
      ∀ r rest, rule.breedInner child parentGen draws = some (r, rest) →
        (∀ entry ∈ parentGen, ¬HasSubquery entry) → r = (.ok .unchanged, child))

/-- What the closure makes of the selected expression. -/
theorem closure_eq (sel : Selection rule parentGen child draws) :
    rule.closure parentGen sel.expr sel.isMutated sel.shownAt =
      some (((Visit.fold (search sel.operand) (donated sel.other) (sel.expr, sel.isMutated)).1,
        (Visit.fold (search sel.operand) (donated sel.other) (sel.expr, sel.isMutated)).2, .goOn), sel.rest) := by
  rw [closure, sel.right_expr]
  dsimp only
  rw [if_pos sel.isValue_operand, Prog.bind_apply, sel.hit, Option.bind_some]
  dsimp only
  rw [if_pos rfl, Prog.bind_apply, sel.donor, Option.bind_some]
  rfl

/-- The run of the rule is the run from what the closure leaves. -/
theorem breedInner_eq (sel : Selection rule parentGen child draws) {expr : Expr Stmt} {isMutated : Bool}
    (h : rule.closure parentGen sel.expr sel.isMutated sel.shownAt = some ((expr, isMutated, .goOn), sel.rest)) :
    rule.breedInner child parentGen draws = ((sel.next expr).run (rule.closure parentGen) isMutated sel.rest).bind
      fun r => some ((reportFlag r.1.2, child.setAst r.1.1), r.2) := by
  have hrun := (sel.reaches.trans (.goOn h (.here _ _ _))).run_eq
  rw [breedInner, visiting, withAst, Child.astMut, if_pos sel.owned]
  dsimp only
  rw [Prog.bind_apply, hrun]
  rfl

end Selection

/-! ## The search -/

section Search

variable {expr : Expr Stmt} {operand : Place expr (Expr Stmt)} {donors : List (Expr Stmt)}

/-- The search that begins with a subquery ends with it. -/
theorem fold_search_of_subquery {first : Expr Stmt} {q : Query Stmt} (hq : subquery first = some q)
    (r : Expr Stmt × Bool) :
    Visit.fold (search operand) (first :: donors) r = (operand.assign (ofQuery q), true) := by
  simp only [Visit.fold, search, hq]

/-- Every other search ends with nothing. -/
theorem fold_search_eq_self (h : ∀ e ∈ donors.head?, ¬IsSubquery e) (r : Expr Stmt × Bool) :
    Visit.fold (search operand) donors r = r := by
  cases donors with
  | nil => rfl
  | cons first donors =>
    have hq : subquery first = none := by
      rw [← Option.not_isSome_iff_eq_none]
      exact h first rfl
    simp only [Visit.fold, search, hq]

/-- Where no donor has a subquery, the closure changes nothing. -/
theorem ensures_closure_kept {rule : SubQuery} {parentGen : List (Entry Stmt)}
    (h : ∀ entry ∈ parentGen, ¬HasSubquery entry) (expr : Expr Stmt) (isMutated : Bool) (draws : List Draw) :
    Prog.Ensures (rule.closure parentGen expr isMutated) draws fun r _ => r.1 = expr ∧ r.2.1 = isMutated := by
  unfold closure
  split
  · exact Prog.ensures_pure ⟨rfl, rfl⟩
  · rename_i operand _
    split
    · refine Prog.ensures_then fun mutate draws => ?_
      dsimp only
      split
      · refine Prog.ensures_bind (mem_of_choose parentGen) fun other draws hmem => Prog.ensures_pure ?_
        have hfold : Visit.fold (search operand) (donated other) (expr, isMutated) = (expr, isMutated) :=
          fold_search_eq_self (fun e he hsub => h other hmem ⟨e, List.mem_of_mem_head? he, hsub⟩) _
        exact ⟨congrArg Prod.fst hfold, congrArg Prod.snd hfold⟩
      · exact Prog.ensures_pure ⟨rfl, rfl⟩
    · exact Prog.ensures_pure ⟨rfl, rfl⟩

/-- **Donors without subqueries leave a child as it is.** -/
theorem ensures_breedInner_unchanged {rule : SubQuery} {parentGen : List (Entry Stmt)} {child : Child Stmt}
    {draws : List Draw} (hown : child.sharers = 0) (h : ∀ entry ∈ parentGen, ¬HasSubquery entry) :
    Prog.Ensures (rule.breedInner child parentGen) draws fun r _ => r = (.ok .unchanged, child) := by
  unfold breedInner visiting withAst Child.astMut
  rw [if_pos hown]
  dsimp only
  refine Prog.ensures_bind (Visit.ensures_run_kept (ensures_closure_kept h) _ false draws) fun r draws hr => ?_
  obtain ⟨ast, isMutated⟩ := r
  obtain ⟨rfl, rfl⟩ := hr
  refine Prog.ensures_pure ?_
  rw [Visitor.rest_visitMut]
  rfl

end Search

namespace Selection

variable {rule : SubQuery} {parentGen : List (Entry Stmt)} {child : Child Stmt} {draws : List Draw}

/-- A search that begins with a subquery takes it. -/
theorem finds_of_begins (laws : OperandLaws Stmt) (sel : Selection rule parentGen child draws)
    (h : BeginsWithSubquery sel.other) : sel.Finds := by
  obtain ⟨first, hfirst, hsub⟩ := h
  obtain ⟨q, hq⟩ := Option.isSome_iff_exists.1 hsub
  obtain ⟨donors, hdonors⟩ : ∃ donors, donated sel.other = first :: donors :=
    ⟨_, (List.cons_head?_tail hfirst).symm⟩
  have hstep := sel.closure_eq
  rw [hdonors, fold_search_of_subquery hq] at hstep
  have hmem : first ∈ donated sel.other := List.mem_of_mem_head? hfirst
  refine ⟨_, _, hstep, fun _ => ⟨?_, fun r rest h => ?_⟩, fun hnone => (hnone ⟨first, hmem, hsub⟩).elim⟩
  · obtain ⟨operand, hright, hvalue⟩ := laws.right_assign sel.expr sel.operand sel.right_expr (ofQuery q)
    have hfound : operand.value = first := hvalue.trans (laws.ofQuery_subquery first q hq)
    exact ⟨operand, hright, hfound ▸ hmem, hfound ▸ hsub⟩
  · rw [sel.breedInner_eq hstep] at h
    obtain ⟨⟨⟨ast, isMutated⟩, rest'⟩, hrun, heq⟩ := Option.bind_eq_some_iff.1 h
    cases heq
    -- the flag that is up stays up
    have hflag : isMutated = true := by
      by_contra hdown
      have hkept := Visit.ensures_run (fun isMutated => isMutated = false) (rule.flagged parentGen) _ true sel.rest
        _ _ hrun
      exact nomatch (hkept (Bool.eq_false_iff.2 hdown)).1
    rw [hflag]
    exact ⟨rfl, ast, hflag ▸ hrun, rfl⟩

/-- Any other search changes nothing. -/
theorem closure_eq_self (sel : Selection rule parentGen child draws) (h : ¬BeginsWithSubquery sel.other) :
    rule.closure parentGen sel.expr sel.isMutated sel.shownAt = some ((sel.expr, sel.isMutated, .goOn), sel.rest) := by
  rw [sel.closure_eq, fold_search_eq_self fun e he hsub => h ⟨e, he, hsub⟩]

/-- A search that begins otherwise finds what there is only if there is nothing. -/
theorem finds_iff_of_not_begins (laws : OperandLaws Stmt) (sel : Selection rule parentGen child draws)
    (h : ¬BeginsWithSubquery sel.other) : sel.Finds ↔ ¬HasSubquery sel.other := by
  have hstep := sel.closure_eq_self h
  constructor
  · rintro ⟨expr, isMutated, hclosure, hfound, -⟩ hhas
    rw [hstep] at hclosure
    cases hclosure
    obtain ⟨⟨operand, hright, -, hsub⟩, -⟩ := hfound hhas
    rw [sel.right_expr] at hright
    cases hright
    obtain ⟨q, hq⟩ := Option.isSome_iff_exists.1 hsub
    exact nomatch sel.isValue_operand.symm.trans (laws.not_isValue _ q hq)
  · exact fun hnone => ⟨_, _, hstep, fun hhas => (hnone hhas).elim, fun _ => ⟨rfl, rfl, fun r rest h hdonors =>
      ensures_breedInner_unchanged sel.owned hdonors r rest h⟩⟩

/-- **The subqueries of a donor are found exactly if its first expression is one of them**, or there are none. -/
theorem finds_iff (laws : OperandLaws Stmt) (sel : Selection rule parentGen child draws) :
    sel.Finds ↔ BeginsWithSubquery sel.other ∨ ¬HasSubquery sel.other := by
  by_cases h : BeginsWithSubquery sel.other
  · exact iff_of_true (sel.finds_of_begins laws h) (.inl h)
  · rw [or_iff_right h]
    exact sel.finds_iff_of_not_begins laws h

end Selection

end SubQuery

/-! ## `SELECT a = NULL` -/

/-- The expressions `NULL`, `a`, `(SELECT * FROM t)` and their comparisons. -/
inductive Term where
  | null
  | column
  | subquery
  | equals (left right : Term)
deriving DecidableEq, Repr

namespace Term

/-- The expressions at and below one, the outermost first. -/
def visit : Term → List Term
  | .equals left right => .equals left right :: (visit left ++ visit right)
  | e => [e]

/-- The visit that may change them, the outermost last. -/
def visitThen {α : Type} : Term → (Term → Visit Term α) → Visit Term α
  | .equals left right, next =>
    visitThen left fun left => visitThen right fun right => .node (.equals left right) next
  | e, next => .node e next

/-- The same over statements that select an expression each. -/
def visitMut : List Term → Visit Term (List Term)
  | [] => .done []
  | e :: statements => visitThen e fun e => (visitMut statements).map (e :: ·)

theorem rest_visitThen {α : Type} (e : Term) (next : Term → Visit Term α) :
    (visitThen e next).rest = (next e).rest := by
  induction e generalizing next with
  | null | column | subquery => rfl
  | equals left right ihl ihr =>
    rw [visitThen, ihl, ihr]
    rfl

theorem rest_visitMut (statements : List Term) : (visitMut statements).rest = statements := by
  induction statements with
  | nil => rfl
  | cons e statements ih => rw [visitMut, rest_visitThen, Visit.rest_map, ih]

/-- The right side of a comparison. -/
def right : (e : Term) → Option (Place e Term)
  | .equals left right => some ⟨right, fun right => .equals left right, rfl⟩
  | _ => none

/-- Statements that select an expression each. -/
@[reducible] def sqlparser : Sqlparser Term where
  Expr := Term
  Query := Unit
  SetExpr := Unit
  Rest := Empty
  expressions := ⟨⟨fun statements => statements.flatMap visit, visitMut, rest_visitMut⟩, fun _ => 0, fun _ => none,
    fun _ => none, fun _ => none⟩
  statements := ⟨.elements, fun _ => 0, fun _ => none, fun _ => none, fun _ => none⟩
  relations := .noNodes
  relationsOf := .noNodes
  exprEq e e' := decide (e = e')
  relEq _ _ := false
  isValue e := decide (e = .null)
  isIdentifier e := decide (e = .column)
  isCast _ := false
  number _ := none
  operator _ := none
  right := right
  subquery e := if e = .subquery then some () else none
  ofQuery _ := .subquery
  null := .null
  castTo e _ := e
  query _ := none
  stmtOfQuery _ := .subquery
  body _ := ()
  setOperation _ _ _ _ := ()
  created _ := none
  ifNotExists _ := none

end Term

section Comparison

attribute [local instance] Term.sqlparser

theorem Term.operandLaws : OperandLaws Term := by
  refine ⟨fun e q h => ?_, fun e q h => ?_, fun e operand h x => ?_⟩
  · by_cases he : e = Term.subquery
    · exact he.symm
    · exact nomatch (if_neg he).symm.trans h
  · by_cases he : e = Term.subquery
    · rw [he]
      rfl
    · exact nomatch (if_neg he).symm.trans h
  · cases e with
    | null | column | subquery => cases h
    | equals left right =>
      cases h
      exact ⟨_, rfl, rfl⟩

/-- `SELECT a = NULL`. -/
def comparison : Child Term := ⟨⟨⟨⟨1⟩, [], [.equals .column .null]⟩, [], []⟩, 0⟩

/-- The parent that selects one expression. -/
def selecting (e : Term) : Entry Term := ⟨⟨⟨2⟩, [], [e]⟩, [], []⟩

/-- The operand of the comparison is selected, and the only donor. -/
def comparisonSelection (e : Term) :
    SubQuery.Selection (⟨1⟩ : SubQuery) [selecting e] comparison [.zero, .zero] where
  expr := Term.equals .column .null
  operand := ⟨Term.null, fun right => Term.equals .column right, rfl⟩
  next e := .done [e]
  isMutated := false
  other := selecting e
  shownAt := [.zero, .zero]
  hitAt := [.zero]
  rest := []
  owned := rfl
  reaches := .goOn rfl (.goOn rfl (.here _ _ _))
  right_expr := rfl
  isValue_operand := rfl
  hit := Rng.bool_one _ _
  donor := Rng.choose_singleton _ _ _

/-- The donor `SELECT (SELECT * FROM t)` gives its subquery. -/
theorem finds_iff_subquery : (comparisonSelection .subquery).Finds :=
  (SubQuery.Selection.finds_iff Term.operandLaws (comparisonSelection .subquery)).2 (.inl ⟨Term.subquery, rfl, rfl⟩)

/-- **The donor `SELECT a = (SELECT * FROM t)` gives nothing**, although its second expression is a subquery. -/
theorem not_finds_nested :
    SubQuery.HasSubquery (selecting (.equals .column .subquery)) ∧
      ¬(comparisonSelection (.equals .column .subquery)).Finds ∧
      ((⟨1⟩ : SubQuery).breedInner comparison [selecting (.equals .column .subquery)] [.zero, .zero]).map
        (fun r => (r.1.1, r.1.2.entry.entry.ast)) = some (.ok .unchanged, [.equals .column .null]) := by
  have hhas : SubQuery.HasSubquery (selecting (.equals .column .subquery)) :=
    ⟨Term.subquery, show Term.subquery ∈ [Term.equals .column .subquery, .column, .subquery] by simp, rfl⟩
  have hbegins : ¬SubQuery.BeginsWithSubquery (selecting (.equals .column .subquery)) := by
    rintro ⟨e, he, hsub⟩
    cases he
    cases hsub
  refine ⟨hhas, fun hfinds => ?_, by decide +kernel⟩
  exact (SubQuery.Selection.finds_iff_of_not_begins Term.operandLaws _ hbegins).1 hfinds hhas

end Comparison

end Lsf.Mutate
