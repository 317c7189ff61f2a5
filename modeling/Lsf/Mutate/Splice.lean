import Lsf.Mutate.Child

/-!
# Splicing and reducing

The rules that put statements and queries of other entries into a child (`splice.rs`), and those that take parts of it
away (`reduce.rs`). Every one of them reports honestly.
-/

namespace Lsf.Mutate

open Lsf.Core Lsf.Lib Lsf.Feedback Lsf.Engine

variable {Stmt : Type} {child : Child Stmt} {parentGen : List (Entry Stmt)} {draws : List Draw}

/-! ## Statements -/

structure SpliceIn where
  pExtend : ℚ

def SpliceIn.breedInner (rule : SpliceIn) (child : Child Stmt) (parentGen : List (Entry Stmt)) :
    Rng (Report × Child Stmt) :=
  withAst child fun childAst => do
    let other ← Rng.choose parentGen
    let donor := other.entry.ast
    if donor = [] then pure (.ok .unchanged, child)
    else do
      let randomStart ← Rng.range 0 donor.length
      let spliceLen ← Rng.extend rule.pExtend 1
      let randomEnd := min donor.length (randomStart + spliceLen)
      if randomEnd = randomStart then pure (.ok .unchanged, child)
      else do
        let randomInsert ← Rng.range 0 (childAst.length + 1)
        let block := (donor.take randomEnd).drop randomStart
        let ast := childAst.take randomInsert ++ block ++ childAst.drop randomInsert
        pure (.ok .mutated, (child.setAst ast).pushParent other.entry.id)

theorem SpliceIn.honest (rule : SpliceIn) :
    Prog.Ensures (rule.breedInner child parentGen) draws fun r _ => Honest child r := by
  refine ensures_withAst fun hown => ?_
  refine Prog.ensures_then fun other _ => ?_
  dsimp only
  split
  · exact Prog.ensures_pure (honest_unchanged child)
  · refine Prog.ensures_then fun randomStart _ => Prog.ensures_then fun spliceLen _ => ?_
    split
    · exact Prog.ensures_pure (honest_unchanged child)
    · exact Prog.ensures_then fun randomInsert _ =>
        Prog.ensures_pure (honest_mutated hown rfl ⟨rfl, rfl⟩)

structure SpliceOut where
  pExtend : ℚ

def SpliceOut.breedInner (rule : SpliceOut) (child : Child Stmt) : Rng (Report × Child Stmt) :=
  withAst child fun childAst =>
    -- short queries are kept, they have to create some state
    if childAst.length ≤ 4 then pure (.ok .unchanged, child)
    else do
      let randomStart ← Rng.range 0 childAst.length
      let spliceLen ← Rng.extend rule.pExtend 1
      let randomEnd := min childAst.length (randomStart + spliceLen)
      if randomEnd = randomStart then pure (.ok .unchanged, child)
      else pure (.ok .mutated, child.setAst (childAst.take randomStart ++ childAst.drop randomEnd))

theorem SpliceOut.honest (rule : SpliceOut) :
    Prog.Ensures (rule.breedInner child) draws fun r _ => Honest child r := by
  refine ensures_withAst fun hown => ?_
  split
  · exact Prog.ensures_pure (honest_unchanged child)
  · refine Prog.ensures_then fun randomStart _ => Prog.ensures_then fun spliceLen _ => ?_
    dsimp only
    split
    · exact Prog.ensures_pure (honest_unchanged child)
    · exact Prog.ensures_pure (honest_mutated hown rfl ⟨rfl, rfl⟩)

section Queries

variable [Sqlparser Stmt]

open Sqlparser

/-! ## Queries -/

structure SubQuery where
  mutationChance : ℚ

/-- The search in a donor: the operand, and the flag. It ends at the first expression that it sees. -/
def SubQuery.search {expr : Expr Stmt} (right : Place expr (Expr Stmt)) :
    Expr Stmt → Expr Stmt × Bool → (Expr Stmt × Bool) × ControlFlow
  | donor, r =>
    match subquery donor with
    | some query => ((right.assign (ofQuery query), true), .stop)
    | none => (r, .stop)

def SubQuery.closure (rule : SubQuery) (parentGen : List (Entry Stmt)) : Closure (Expr Stmt) := fun expr isMutated =>
  match right expr with
  | none => pure (expr, isMutated, .goOn)
  | some operand =>
    if isValue operand.value then do
      let mutate ← Rng.bool rule.mutationChance
      if mutate then do
        let other ← Rng.choose parentGen
        let (expr, isMutated) :=
          Visit.fold (SubQuery.search operand) (expressions.visit other.entry.ast) (expr, isMutated)
        pure (expr, isMutated, .goOn)
      else pure (expr, isMutated, .goOn)
    else pure (expr, isMutated, .goOn)

def SubQuery.breedInner (rule : SubQuery) (child : Child Stmt) (parentGen : List (Entry Stmt)) :
    Rng (Report × Child Stmt) :=
  visiting expressions.toVisitor (rule.closure parentGen) child

/-- The search assigns the operand and raises the flag together. -/
theorem SubQuery.fold_search {expr : Expr Stmt} (right : Place expr (Expr Stmt)) (donors : List (Expr Stmt))
    (r : Expr Stmt × Bool) (h : (Visit.fold (SubQuery.search right) donors r).2 = false) :
    Visit.fold (SubQuery.search right) donors r = r := by
  induction donors with
  | nil => rfl
  | cons donor donors ih =>
    simp only [Visit.fold, SubQuery.search] at h ⊢
    cases hq : subquery donor with
    | none => rfl
    | some query =>
      rw [hq] at h
      cases h

theorem SubQuery.flagged (rule : SubQuery) (parentGen : List (Entry Stmt)) : Flagged (rule.closure parentGen) := by
  intro expr isMutated draws
  unfold SubQuery.closure
  split
  · exact Flagged.kept
  · rename_i operand hright
    split
    · refine Prog.ensures_then fun mutate _ => ?_
      cases mutate with
      | false => exact Flagged.kept
      | true =>
        refine Prog.ensures_then fun other _ => Prog.ensures_pure fun h => ?_
        have hfold := SubQuery.fold_search operand (expressions.visit other.entry.ast) (expr, isMutated) h
        rw [hfold] at h
        exact ⟨h, congrArg Prod.fst hfold⟩
    · exact Flagged.kept

theorem SubQuery.honest (rule : SubQuery) :
    Prog.Ensures (rule.breedInner child parentGen) draws fun r _ => Honest child r :=
  honest_visiting _ (rule.flagged parentGen) child

structure SetOps where

def SetOps.breedInner (_ : SetOps) (child : Child Stmt) (parentGen : List (Entry Stmt)) : Rng (Report × Child Stmt) :=
  withAst child fun childAst => do
    let other ← Rng.choose parentGen
    let left := childAst.filterMap query
    if left.isEmpty then pure (.ok .unchanged, child)
    else do
      let right := other.entry.ast.filterMap query
      if right.isEmpty then pure (.ok .unchanged, child)
      else do
        let op ← Rng.choose [SetOperator.union, .intersect, .except]
        let all ← Rng.bool (1 / 2)
        let rq ← Rng.choose right
        let lq ← Rng.choose left
        let combined := stmtOfQuery (setOperation op all (body lq) (body rq))
        let rd ← Rng.range 0 childAst.length
        pure (.ok .mutated, (child.setAst (childAst.set rd combined)).pushParent other.entry.id)

theorem SetOps.honest (rule : SetOps) :
    Prog.Ensures (rule.breedInner child parentGen) draws fun r _ => Honest child r := by
  refine ensures_withAst fun hown => Prog.ensures_then fun other _ => ?_
  dsimp only
  split
  · exact Prog.ensures_pure (honest_unchanged child)
  · split
    · exact Prog.ensures_pure (honest_unchanged child)
    · refine Prog.ensures_then fun op _ => Prog.ensures_then fun all _ => Prog.ensures_then fun rq _ => ?_
      refine Prog.ensures_then fun lq _ => Prog.ensures_then fun rd _ => ?_
      exact Prog.ensures_pure (honest_mutated hown rfl ⟨rfl, rfl⟩)

/-! ## Hoisting -/

structure HoistExpr where
  chancePerNode : ℚ

def HoistExpr.closure (Stmt : Type) [Sqlparser Stmt] (rule : HoistExpr) : Closure (Expr Stmt) := fun expr isMutated => do
  let hit ← Rng.bool rule.chancePerNode
  if hit then
    match (expressions : AstNode (AST Stmt) (Expr Stmt)).toValue expr with
    | none => pure (expr, isMutated, .goOn)
    | some jsonNode =>
      let candidates := extractChildExprs (expressions : AstNode (AST Stmt) (Expr Stmt)).fromValue jsonNode
      if candidates.isEmpty then pure (expr, isMutated, .goOn)
      else do
        let chosenChild ← Rng.choose candidates
        pure (chosenChild, true, .goOn)
  else pure (expr, isMutated, .goOn)

def HoistExpr.breedInner (rule : HoistExpr) (child : Child Stmt) : Rng (Report × Child Stmt) :=
  visiting expressions.toVisitor (rule.closure Stmt) child

theorem HoistExpr.flagged (rule : HoistExpr) : Flagged (rule.closure Stmt) := by
  intro expr isMutated draws
  refine Prog.ensures_then fun hit _ => ?_
  cases hit with
  | false => exact Flagged.kept
  | true =>
    rw [if_pos rfl]
    split
    · exact Flagged.kept
    · dsimp only
      split
      · exact Flagged.kept
      · exact Prog.ensures_then fun chosenChild _ => Flagged.raised

theorem HoistExpr.honest (rule : HoistExpr) : Prog.Ensures (rule.breedInner child) draws fun r _ => Honest child r :=
  honest_visiting _ rule.flagged child

end Queries

end Lsf.Mutate
