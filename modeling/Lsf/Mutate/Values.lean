import Lsf.Mutate.Child

/-!
# Names, structures and values

The rules that rewrite single nodes of a child: expressions and relations are exchanged (`ident.rs`), tables renamed and
guarded (`structure.rs`), operands and operators replaced (`values.rs`). Every one of them reports honestly.
-/

namespace Lsf.Mutate

open Lsf.Core Lsf.Lib Lsf.Feedback Lsf.Engine

variable {Stmt : Type} [Sqlparser Stmt] {child : Child Stmt} {parentGen : List (Entry Stmt)} {draws : List Draw}

open Sqlparser

/-! ## Values -/

/-- `NUM_BOUNDS`. -/
def numBounds : List String :=
  ["0", "1", "-1", "2147483647", "-2147483648", "9223372036854775807", "-9223372036854775808"]

structure NumericBounds where
  mutateChance : ℚ

def NumericBounds.closure (Stmt : Type) [Sqlparser Stmt] (rule : NumericBounds) : Closure (Expr Stmt) :=
  fun expr isMutated =>
    match number expr with
    | none => pure (expr, isMutated, .goOn)
    | some n => do
      let hit ← Rng.bool rule.mutateChance
      if hit then do
        let bound ← Rng.choose numBounds
        pure (n.assign bound, true, .goOn)
      else pure (expr, isMutated, .goOn)

def NumericBounds.breedInner (rule : NumericBounds) (child : Child Stmt) : Rng (Report × Child Stmt) :=
  visiting expressions.toVisitor (rule.closure Stmt) child

theorem NumericBounds.flagged (rule : NumericBounds) : Flagged (rule.closure Stmt) := by
  intro expr isMutated draws
  unfold NumericBounds.closure
  split
  · exact Flagged.kept
  · refine Prog.ensures_then fun hit _ => ?_
    split
    · exact Prog.ensures_then fun bound _ => Flagged.raised
    · exact Flagged.kept

structure OperatorFlip where
  flipChance : ℚ

/-- The operator that takes the place of another. -/
def flipped : BinaryOperator → BinaryOperator
  | .eq => .notEq
  | .notEq => .eq
  | .lt => .ltEq
  | .ltEq => .lt
  | .gt => .gtEq
  | .gtEq => .gt
  | .and => .or
  | .or => .and
  | .plus => .minus
  | .minus => .plus
  | op => op

def OperatorFlip.closure (Stmt : Type) [Sqlparser Stmt] (rule : OperatorFlip) : Closure (Expr Stmt) :=
  fun expr isMutated =>
    match operator expr with
    | none => pure (expr, isMutated, .goOn)
    | some op => do
      let hit ← Rng.bool rule.flipChance
      if hit then
        if op.value ≠ flipped op.value then pure (op.assign (flipped op.value), true, .goOn)
        else pure (expr, isMutated, .goOn)
      else pure (expr, isMutated, .goOn)

def OperatorFlip.breedInner (rule : OperatorFlip) (child : Child Stmt) : Rng (Report × Child Stmt) :=
  visiting expressions.toVisitor (rule.closure Stmt) child

theorem OperatorFlip.flagged (rule : OperatorFlip) : Flagged (rule.closure Stmt) := by
  intro expr isMutated draws
  unfold OperatorFlip.closure
  split
  · exact Flagged.kept
  · refine Prog.ensures_then fun hit _ => ?_
    split
    · split
      · exact Flagged.raised
      · exact Flagged.kept
    · exact Flagged.kept

/-- A closure that puts an expression drawn for it in the place of some expressions. -/
def replacing {Node : Type} (eligible : Node → Bool) (chance : ℚ) (draw : Node → Rng Node) : Closure Node :=
  fun node isMutated =>
    if eligible node then do
      let hit ← Rng.bool chance
      if hit then do
        let node ← draw node
        pure (node, true, .goOn)
      else pure (node, isMutated, .goOn)
    else pure (node, isMutated, .goOn)

theorem flagged_replacing {Node : Type} (eligible : Node → Bool) (chance : ℚ) (draw : Node → Rng Node) :
    Flagged (replacing eligible chance draw) := by
  intro node isMutated draws
  unfold replacing
  split
  · refine Prog.ensures_then fun hit _ => ?_
    split
    · exact Prog.ensures_then fun node' _ => Flagged.raised
    · exact Flagged.kept
  · exact Flagged.kept

structure NullInject where
  mutationChance : ℚ

def NullInject.breedInner (rule : NullInject) (child : Child Stmt) : Rng (Report × Child Stmt) :=
  visiting expressions.toVisitor
    (replacing (fun expr : Expr Stmt => isValue expr || isIdentifier expr) rule.mutationChance fun _ => pure null) child

structure TypeCast where
  mutationChance : ℚ

/-- `TYPES`. -/
def castTypes : List String := ["INTEGER", "TEXT", "REAL", "BLOB", "NUMERIC", "BOOLEAN"]

def TypeCast.breedInner (rule : TypeCast) (child : Child Stmt) : Rng (Report × Child Stmt) :=
  visiting expressions.toVisitor
    (replacing (fun expr : Expr Stmt => !isCast expr) rule.mutationChance fun inner => do
      let ty ← Rng.choose castTypes
      pure (castTo inner ty)) child

theorem NumericBounds.honest (rule : NumericBounds) :
    Prog.Ensures (rule.breedInner child) draws fun r _ => Honest child r :=
  honest_visiting _ rule.flagged child

theorem OperatorFlip.honest (rule : OperatorFlip) :
    Prog.Ensures (rule.breedInner child) draws fun r _ => Honest child r :=
  honest_visiting _ rule.flagged child

theorem NullInject.honest (rule : NullInject) :
    Prog.Ensures (rule.breedInner child) draws fun r _ => Honest child r :=
  honest_visiting _ (flagged_replacing _ _ _) child

theorem TypeCast.honest (rule : TypeCast) :
    Prog.Ensures (rule.breedInner child) draws fun r _ => Honest child r :=
  honest_visiting _ (flagged_replacing _ _ _) child

structure ForceIdent where

/-- Every identifier of a name, those of its arguments included, gets the same text. -/
def forceName {R : Type} (value : String) (name : ObjectName R) : ObjectName R :=
  name.map fun
    | .identifier ident => .identifier { ident with value := value }
    | .function name args => .function { name with value := value } (args.map fun
      | .named name others => .named { name with value := value } others
      | arg => arg)

def ForceIdent.breedInner (_ : ForceIdent) (child : Child Stmt) : Rng (Report × Child Stmt) :=
  withAst child fun childAst => do
    let relation := (relations.visit childAst).filterMap fun rel =>
      (rel.getLast?.bind ObjectNamePart.asIdent).map Ident.value
    if relation.isEmpty then pure (.ok .unchanged, child)
    else do
      let rdIdent ← Rng.choose relation
      let (ast, _) ← (relations.visitMut childAst).run (fun rel b => pure (forceName rdIdent rel, b, .goOn)) ()
      pure (.ok .mutated, child.setAst ast)

theorem ForceIdent.honest (rule : ForceIdent) :
    Prog.Ensures (rule.breedInner child) draws fun r _ => Honest child r := by
  refine ensures_withAst fun hown => ?_
  dsimp only
  split
  · exact Prog.ensures_pure (honest_unchanged child)
  · refine Prog.ensures_then fun rdIdent _ => Prog.ensures_then fun r _ => ?_
    exact Prog.ensures_pure (honest_mutated hown rfl ⟨rfl, rfl⟩)

/-! ## Tables -/

structure TableNameScramble where

/-- The first part of the name of a table that a statement creates. -/
def createdTable (stmt : Stmt) : Option String :=
  (created stmt).bind fun name => (name.head?.bind ObjectNamePart.asIdent).map Ident.value

def TableNameScramble.closure {R : Type} (tables : List String) : Closure (ObjectName R) := fun relation isMutated =>
  match relation.getLast? with
  | some (.identifier ident) => do
    let table ← Rng.choose tables
    pure (relation.dropLast ++ [.identifier { ident with value := table }], true, .goOn)
  | _ => pure (relation, isMutated, .goOn)

/-- One statement of the loop `for stmt in child_ast`. -/
def TableNameScramble.scramble (tables : List String) (r : AST Stmt × Bool) (stmt : Stmt) : Rng (AST Stmt × Bool) :=
  if (created stmt).isSome then pure (r.1 ++ [stmt], r.2)
  else do
    let (stmt, isMutated) ← (relationsOf.visitMut stmt).run (TableNameScramble.closure tables) r.2
    pure (r.1 ++ [stmt], isMutated)

def TableNameScramble.breedInner (_ : TableNameScramble) (child : Child Stmt) : Rng (Report × Child Stmt) :=
  withAst child fun childAst => do
    let tables := (statements.visit childAst).filterMap createdTable
    if tables.isEmpty then pure (.ok .unchanged, child)
    else do
      let (ast, isMutated) ← childAst.foldlM (TableNameScramble.scramble tables) ([], false)
      pure (reportFlag isMutated, child.setAst ast)

structure TableGuard where

def TableGuard.closure (Stmt : Type) [Sqlparser Stmt] : Closure Stmt := fun stmt isMutated =>
  match ifNotExists stmt with
  | none => pure (stmt, isMutated, .goOn)
  | some guard => pure (guard.assign true, isMutated || !guard.value, .goOn)

def TableGuard.breedInner (_ : TableGuard) (child : Child Stmt) : Rng (Report × Child Stmt) :=
  visiting statements.toVisitor (TableGuard.closure Stmt) child

theorem TableNameScramble.flagged {R : Type} (tables : List String) :
    Flagged (TableNameScramble.closure (R := R) tables) := by
  intro relation isMutated draws
  unfold TableNameScramble.closure
  split
  · exact Prog.ensures_then fun table _ => Flagged.raised
  · exact Flagged.kept

/-- Statement by statement: with the flag down, what has been written so far is what was read. -/
theorem TableNameScramble.ensures_scramble (tables : List String) (ast : AST Stmt) (r : AST Stmt × Bool) :
    Prog.Ensures (ast.foldlM (TableNameScramble.scramble tables) r) draws fun r' _ =>
      r'.2 = false → r.2 = false ∧ r'.1 = r.1 ++ ast := by
  induction ast generalizing r draws with
  | nil => exact Prog.ensures_pure fun h => ⟨h, (List.append_nil _).symm⟩
  | cons stmt ast ih =>
    rw [List.foldlM_cons]
    have hstep : Prog.Ensures (TableNameScramble.scramble tables r stmt) draws fun r' _ =>
        r'.2 = false → r.2 = false ∧ r'.1 = r.1 ++ [stmt] := by
      unfold TableNameScramble.scramble
      split
      · exact Prog.ensures_pure fun h => ⟨h, rfl⟩
      · refine Prog.ensures_bind ((TableNameScramble.flagged tables).ensures_visit _ stmt r.2) fun r' _ hr => ?_
        refine Prog.ensures_pure fun h => ?_
        obtain ⟨hdown, heq⟩ := hr h
        exact ⟨hdown, by rw [heq]⟩
    refine Prog.ensures_bind hstep fun r₁ _ h₁ => (ih r₁).mono fun r₂ _ h₂ hdown => ?_
    obtain ⟨hdown₁, heq⟩ := h₂ hdown
    obtain ⟨hdown₀, heq₀⟩ := h₁ hdown₁
    exact ⟨hdown₀, by rw [heq, heq₀, List.append_assoc]; rfl⟩

theorem TableNameScramble.honest (rule : TableNameScramble) :
    Prog.Ensures (rule.breedInner child) draws fun r _ => Honest child r := by
  refine ensures_withAst fun hown => ?_
  dsimp only
  split
  · exact Prog.ensures_pure (honest_unchanged child)
  · refine Prog.ensures_bind (TableNameScramble.ensures_scramble _ child.entry.entry.ast ([], false)) fun r _ hr => ?_
    refine Prog.ensures_pure (honest_reportFlag hown (fun h => ?_) rfl ⟨rfl, rfl⟩)
    rw [(hr h).2]
    exact child.setAst_self

theorem TableGuard.flagged : Flagged (TableGuard.closure Stmt) := by
  intro stmt isMutated draws
  unfold TableGuard.closure
  split
  · exact Flagged.kept
  · rename_i guard hguard
    refine Prog.ensures_pure fun h => ?_
    simp only [Bool.or_eq_false_iff, Bool.not_eq_false'] at h
    exact ⟨h.1, by rw [← h.2]; exact guard.assign_value⟩

theorem TableGuard.honest (rule : TableGuard) : Prog.Ensures (rule.breedInner child) draws fun r _ => Honest child r :=
  honest_visiting _ TableGuard.flagged child

/-! ## Expressions and relations -/

structure ExprShuffle where
  chancePerNode : ℚ

/-- The expressions of the donor and of the child that are of the same variant. -/
def ExprShuffle.closure (Stmt : Type) [Sqlparser Stmt] (rule : ExprShuffle) (parentExprs : List (Expr Stmt)) :
    Closure (Expr Stmt) := fun expr isMutated =>
  let discriminant := (expressions : AstNode (AST Stmt) (Expr Stmt)).discriminant
  let targets := parentExprs.filter fun e => discriminant e == discriminant expr
  if targets.isEmpty then pure (expr, isMutated, .goOn)
  else do
    let hit ← Rng.bool rule.chancePerNode
    if hit then do
      let randomTarget ← Rng.choose targets
      if !exprEq expr randomTarget then pure (randomTarget, true, .goOn) else pure (expr, isMutated, .goOn)
    else pure (expr, isMutated, .goOn)

def ExprShuffle.breedInner (rule : ExprShuffle) (child : Child Stmt) (parentGen : List (Entry Stmt)) :
    Rng (Report × Child Stmt) :=
  withAst child fun childAst => do
    let rdDonor ← Rng.choose parentGen
    let parentExprs := expressions.visit rdDonor.entry.ast ++ expressions.visit childAst
    if parentExprs.isEmpty then pure (.ok .unchanged, child)
    else do
      let (ast, isMutated) ← (expressions.visitMut childAst).run (rule.closure Stmt parentExprs) false
      if isMutated then pure (.ok .mutated, (child.setAst ast).pushParent rdDonor.entry.id)
      else pure (.ok .unchanged, child.setAst ast)

theorem ExprShuffle.flagged (rule : ExprShuffle) (parentExprs : List (Expr Stmt)) :
    Flagged (rule.closure Stmt parentExprs) := by
  intro expr isMutated draws
  unfold ExprShuffle.closure
  dsimp only
  split
  · exact Flagged.kept
  · refine Prog.ensures_then fun hit _ => ?_
    split
    · refine Prog.ensures_then fun randomTarget _ => ?_
      split
      · exact Flagged.raised
      · exact Flagged.kept
    · exact Flagged.kept

theorem ExprShuffle.honest (rule : ExprShuffle) :
    Prog.Ensures (rule.breedInner child parentGen) draws fun r _ => Honest child r := by
  refine ensures_withAst fun hown => Prog.ensures_then fun rdDonor _ => ?_
  dsimp only
  split
  · exact Prog.ensures_pure (honest_unchanged child)
  · refine Prog.ensures_bind ((rule.flagged _).ensures_visit _ _ _) fun r _ hr => ?_
    obtain ⟨ast, isMutated⟩ := r
    dsimp only
    split
    · exact Prog.ensures_pure (honest_mutated hown rfl ⟨rfl, rfl⟩)
    · rename_i hdown
      obtain rfl := (hr (by simpa using hdown)).2
      exact Prog.ensures_pure (honest_unchanged child)

structure RelShuffle where
  chancePerNode : ℚ

/-- The names without repetitions, as `HashSet<ObjectName>`; as one of them is drawn by its position, any order of the
set will do. -/
def distinctRels (rels : List (ObjectName (Rest Stmt))) : List (ObjectName (Rest Stmt)) :=
  rels.foldl (fun set rel => if set.any (relEq rel) then set else set ++ [rel]) []

def RelShuffle.closure (rule : RelShuffle) (parentRels : List (ObjectName (Rest Stmt))) :
    Closure (ObjectName (Rest Stmt)) := fun rel isMutated => do
  let hit ← Rng.bool rule.chancePerNode
  if hit then do
    let randomTarget ← Rng.choose parentRels
    if !relEq rel randomTarget then pure (randomTarget, true, .goOn) else pure (rel, isMutated, .goOn)
  else pure (rel, isMutated, .goOn)

def RelShuffle.breedInner (rule : RelShuffle) (child : Child Stmt) : Rng (Report × Child Stmt) :=
  withAst child fun childAst => do
    let parentRels := distinctRels (relations.visit childAst)
    if parentRels.isEmpty then pure (.ok .unchanged, child)
    else do
      let (ast, isMutated) ← (relations.visitMut childAst).run (rule.closure parentRels) false
      pure (reportFlag isMutated, child.setAst ast)

theorem RelShuffle.flagged (rule : RelShuffle) (parentRels : List (ObjectName (Rest Stmt))) :
    Flagged (rule.closure parentRels) := by
  intro rel isMutated draws
  refine Prog.ensures_then fun hit _ => ?_
  split
  · refine Prog.ensures_then fun randomTarget _ => ?_
    split
    · exact Flagged.raised
    · exact Flagged.kept
  · exact Flagged.kept

theorem RelShuffle.honest (rule : RelShuffle) :
    Prog.Ensures (rule.breedInner child) draws fun r _ => Honest child r := by
  refine ensures_withAst fun hown => ?_
  dsimp only
  split
  · exact Prog.ensures_pure (honest_unchanged child)
  · refine Prog.ensures_bind ((rule.flagged _).ensures_visit _ _ _) fun r _ hr => ?_
    refine Prog.ensures_pure (honest_reportFlag hown (fun h => ?_) rfl ⟨rfl, rfl⟩)
    rw [(hr h).2]
    exact child.setAst_self

end Lsf.Mutate
