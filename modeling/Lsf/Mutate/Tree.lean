import Lsf.Mutate.Child

/-!
# Rules on nodes of any type

The rules that take nodes apart as JSON (`json_tree.rs`, `recurse.rs`) or make them from bytes (`random_mutate.rs`).
Every one of them reports honestly.
-/

namespace Lsf.Mutate

open Lsf.Core Lsf.Lib Lsf.Feedback Lsf.Engine

variable {Stmt Node : Type} {child : Child Stmt} {parentGen : List (Entry Stmt)} {draws : List Draw}

/-! ## Trees of fields -/

inductive FieldOperation where
  | shuffleTwo
  | nullRandom
  | shuffleSelf
deriving DecidableEq, Repr

structure TreeMutator where
  chancePerNode : ℚ
  chancePerField : ℚ
  operation : FieldOperation

/-- The closure of `shuffle_across`, over the nodes of the donor. -/
def shuffleClosure (T : AstNode (AST Stmt) Node) (donorNodes : List Node) (chancePerNode chancePerField : ℚ) :
    Closure Node := fun node isMutated => do
  let hit ← Rng.bool chancePerNode
  if hit then
    let donors := donorNodes.filter fun n => T.discriminant n == T.discriminant node
    if donors.isEmpty then pure (node, isMutated, .goOn)
    else do
      let donor ← Rng.choose donors
      match T.toValue node, T.toValue donor with
      | some nodeJson, some donorJson => do
        let nodeJson ← swapRandomFields chancePerField nodeJson donorJson
        match T.fromValue nodeJson with
        | some mutatedNode => pure (mutatedNode, true, .goOn)
        | none => pure (node, isMutated, .goOn)
      | _, _ => pure (node, isMutated, .goOn)
  else pure (node, isMutated, .goOn)

/-- `shuffle_across`. -/
def shuffleAcross (T : AstNode (AST Stmt) Node) (parent : Child Stmt) (donor : RawEntry Stmt)
    (chancePerNode chancePerField : ℚ) : Rng (MutationState × Child Stmt) :=
  match parent.astMut with
  | none => pure (.unchanged, parent)
  | some childAst =>
    let donorNodes := T.visit donor.ast
    if donorNodes.isEmpty then pure (.unchanged, parent)
    else do
      let (ast, isMutated) ← (T.visitMut childAst).run
        (shuffleClosure T donorNodes chancePerNode chancePerField) false
      if isMutated then pure (.mutated, (parent.setAst ast).pushParent donor.id)
      else pure (.unchanged, parent.setAst ast)

/-- The closure of `FieldOperation::NullRandom`. -/
def nullClosure (T : AstNode (AST Stmt) Node) (chancePerNode chancePerField : ℚ) : Closure Node :=
  fun node isMutated => do
    let hit ← Rng.bool chancePerNode
    if hit then
      match T.toValue node with
      | none => pure (node, isMutated, .goOn)
      | some jsonNode => do
        let jsonNode ← nullRandomFields chancePerField jsonNode
        match T.fromValue jsonNode with
        | some mutatedNode => pure (mutatedNode, true, .goOn)
        | none => pure (node, isMutated, .goOn)
    else pure (node, isMutated, .goOn)

def TreeMutator.breedInner (T : AstNode (AST Stmt) Node) (rule : TreeMutator) (parent : Child Stmt)
    (parentGen : List (Entry Stmt)) : Rng (Report × Child Stmt) :=
  match rule.operation with
  | .shuffleTwo => do
    let rdDonor ← Rng.choose parentGen
    let (state, parent) ← shuffleAcross T parent rdDonor.entry rule.chancePerNode rule.chancePerField
    pure (.ok state, parent)
  | .shuffleSelf => do
    -- the clone shares the AST with `parent` until it is dropped
    let (state, shared) ← shuffleAcross T { parent with sharers := parent.sharers + 1 } parent.entry.entry
      rule.chancePerNode rule.chancePerField
    pure (.ok state, { shared with sharers := shared.sharers - 1 })
  | .nullRandom => visiting T.toVisitor (nullClosure T rule.chancePerNode rule.chancePerField) parent

theorem flagged_shuffleClosure (T : AstNode (AST Stmt) Node) (donorNodes : List Node)
    (chancePerNode chancePerField : ℚ) : Flagged (shuffleClosure T donorNodes chancePerNode chancePerField) := by
  intro node isMutated draws
  refine Prog.ensures_then fun hit _ => ?_
  split
  · dsimp only
    split
    · exact Flagged.kept
    · refine Prog.ensures_then fun donor _ => ?_
      split
      · refine Prog.ensures_then fun nodeJson _ => ?_
        split
        · exact Flagged.raised
        · exact Flagged.kept
      · exact Flagged.kept
  · exact Flagged.kept

theorem flagged_nullClosure (T : AstNode (AST Stmt) Node) (chancePerNode chancePerField : ℚ) :
    Flagged (nullClosure T chancePerNode chancePerField) := by
  intro node isMutated draws
  refine Prog.ensures_then fun hit _ => ?_
  split
  · split
    · exact Flagged.kept
    · refine Prog.ensures_then fun jsonNode _ => ?_
      split
      · exact Flagged.raised
      · exact Flagged.kept
  · exact Flagged.kept

theorem honest_shuffleAcross (T : AstNode (AST Stmt) Node) (donor : RawEntry Stmt) (chancePerNode chancePerField : ℚ) :
    Prog.Ensures (shuffleAcross T child donor chancePerNode chancePerField) draws fun r _ =>
      Honest child (.ok r.1, r.2) := by
  unfold shuffleAcross Child.astMut
  by_cases hown : child.sharers = 0
  · rw [if_pos hown]
    dsimp only
    split
    · exact Prog.ensures_pure (honest_unchanged child)
    · refine Prog.ensures_bind ((flagged_shuffleClosure T _ _ _).ensures_visit _ _ _) fun r _ hr => ?_
      obtain ⟨ast, isMutated⟩ := r
      dsimp only
      split
      · exact Prog.ensures_pure (honest_mutated hown rfl ⟨rfl, rfl⟩)
      · rename_i hdown
        obtain rfl := (hr (by simpa using hdown)).2
        exact Prog.ensures_pure (honest_unchanged child)
  · rw [if_neg hown]
    exact Prog.ensures_pure (honest_unchanged child)

/-- A shared child is not shuffled. -/
theorem shuffleAcross_shared (T : AstNode (AST Stmt) Node) (donor : RawEntry Stmt) (chancePerNode chancePerField : ℚ)
    (h : child.sharers ≠ 0) : shuffleAcross T child donor chancePerNode chancePerField = pure (.unchanged, child) := by
  unfold shuffleAcross Child.astMut
  rw [if_neg h]

theorem TreeMutator.honest (T : AstNode (AST Stmt) Node) (rule : TreeMutator) :
    Prog.Ensures (rule.breedInner T child parentGen) draws fun r _ => Honest child r := by
  unfold TreeMutator.breedInner
  split
  · refine Prog.ensures_then fun rdDonor _ => ?_
    exact Prog.ensures_bind (honest_shuffleAcross T _ _ _) fun r _ hr => Prog.ensures_pure hr
  · rw [shuffleAcross_shared T _ _ _ (Nat.succ_ne_zero child.sharers)]
    exact Prog.ensures_pure (honest_unchanged child)
  · exact honest_visiting _ (flagged_nullClosure T _ _) child

/-! ## Expansion -/

structure RecursiveExpandExpr where
  maxDepth : Nat
  chancePerNode : ℚ
  chancePerLevel : ℚ

section Expressions

variable [Sqlparser Stmt]

open Sqlparser

/-- The fields of an object that can hold the whole node. -/
def expandableFields (Stmt : Type) [Sqlparser Stmt] (jsonObject : JsonMap) (rootNode : Json) : List String :=
  (JsonMap.keys jsonObject).filter fun k =>
    ((expressions : AstNode (AST Stmt) (Expr Stmt)).fromValue (.object (JsonMap.insert k rootNode jsonObject))).isSome

def RecursiveExpandExpr.closure (Stmt : Type) [Sqlparser Stmt] (rule : RecursiveExpandExpr) : Closure (Expr Stmt) :=
  fun expr isMutated => do
    let hit ← Rng.bool rule.chancePerNode
    if hit then
      match (expressions : AstNode (AST Stmt) (Expr Stmt)).toValue expr with
      | none => pure (expr, isMutated, .goOn)
      | some jsonNode =>
        match pruneDepth rule.maxDepth jsonNode with
        | .object jsonObject =>
          let fields := expandableFields Stmt jsonObject (.object jsonObject)
          if fields.isEmpty then pure (expr, isMutated, .goOn)
          else do
            let jsonObject ← expandRecursive (.object jsonObject) fields rule.chancePerLevel rule.maxDepth jsonObject
            match (expressions : AstNode (AST Stmt) (Expr Stmt)).fromValue (.object jsonObject) with
            | some mutatedExpr => pure (mutatedExpr, true, .goOn)
            | none => pure (expr, isMutated, .goOn)
        | _ => pure (expr, isMutated, .goOn)
    else pure (expr, isMutated, .goOn)

def RecursiveExpandExpr.breedInner (rule : RecursiveExpandExpr) (child : Child Stmt) : Rng (Report × Child Stmt) :=
  visiting expressions.toVisitor (rule.closure Stmt) child

theorem RecursiveExpandExpr.flagged (rule : RecursiveExpandExpr) : Flagged (rule.closure Stmt) := by
  intro expr isMutated draws
  refine Prog.ensures_then fun hit _ => ?_
  split
  · split
    · exact Flagged.kept
    · split
      · dsimp only
        split
        · exact Flagged.kept
        · refine Prog.ensures_then fun jsonObject _ => ?_
          split
          · exact Flagged.raised
          · exact Flagged.kept
      · exact Flagged.kept
  · exact Flagged.kept

theorem RecursiveExpandExpr.honest (rule : RecursiveExpandExpr) :
    Prog.Ensures (rule.breedInner child) draws fun r _ => Honest child r :=
  honest_visiting _ rule.flagged child

end Expressions

/-! ## Arbitrary nodes -/

structure ArbitraryGenerator where

/-- The closure counts the nodes, and puts a new one in the place of the drawn one. -/
def ArbitraryGenerator.closure (T : AstNode (AST Stmt) Node) (targetIndex : Nat) (node : Node) (r : Nat × Bool) :
    Rng (Node × (Nat × Bool) × ControlFlow) :=
  if r.1 = targetIndex then do
    let data ← Rng.fillBytes 256
    match T.arbitrary data with
    | some newNode => pure (newNode, (r.1, true), .stop)
    | none => pure (node, r, .stop)
  else pure (node, (r.1 + 1, r.2), .goOn)

def ArbitraryGenerator.breedInner (T : AstNode (AST Stmt) Node) (_ : ArbitraryGenerator) (child : Child Stmt) :
    Rng (Report × Child Stmt) :=
  withAst child fun childAst => do
    let nodeCount := (T.visit childAst).length
    if nodeCount = 0 then pure (.ok .unchanged, child)
    else do
      let targetIndex ← Rng.range 0 nodeCount
      let (ast, _, isMutated) ← (T.visitMut childAst).run (ArbitraryGenerator.closure T targetIndex) (0, false)
      pure (reportFlag isMutated, child.setAst ast)

theorem ArbitraryGenerator.honest (T : AstNode (AST Stmt) Node) (rule : ArbitraryGenerator) :
    Prog.Ensures (rule.breedInner T child) draws fun r _ => Honest child r := by
  refine ensures_withAst fun hown => ?_
  dsimp only
  split
  · exact Prog.ensures_pure (honest_unchanged child)
  · refine Prog.ensures_then fun targetIndex _ => ?_
    have hquiet : ∀ n r draws, Prog.Ensures (ArbitraryGenerator.closure T targetIndex n r) draws fun r' _ =>
        r'.2.1.2 = false → r.2 = false ∧ r'.1 = n := by
      intro n r draws
      unfold ArbitraryGenerator.closure
      split
      · refine Prog.ensures_then fun data _ => ?_
        split
        · exact Prog.ensures_pure fun h => (nomatch h)
        · exact Prog.ensures_pure fun h => ⟨h, rfl⟩
      · exact Prog.ensures_pure fun h => ⟨h, rfl⟩
    have hrun := Visit.ensures_run (fun r : Nat × Bool => r.2 = false) hquiet
      (T.visitMut child.entry.entry.ast) (0, false) ‹List Draw›
    rw [T.rest_visitMut] at hrun
    refine Prog.ensures_bind hrun fun r _ hr => ?_
    refine Prog.ensures_pure (honest_reportFlag hown (fun h => ?_) rfl ⟨rfl, rfl⟩)
    rw [(hr h).2]
    exact child.setAst_self

end Lsf.Mutate
