import Lsf.Engine.Engine
import Lsf.Mutate.Sqlparser

/-!
# The child of a mutation

A rule works on a child, whose AST is behind an `Arc`, and reports whether it changed it. A report is honest when a child
that is not reported as mutated is what it was, and an error is reported for a shared AST only (`Honest`). Most rules are
one visit with a flag that the closure raises where it assigns a node (`honest_visiting`).
-/

namespace Lsf.Mutate

open Lsf.Core Lsf.Lib Lsf.Feedback Lsf.Engine

variable {Stmt : Type}

/-- A child, and how many other `Arc`s share its AST. -/
structure Child (Stmt : Type) where
  entry : Entry Stmt
  sharers : Nat

namespace Child

/-- `ast_mut`. -/
def astMut (child : Child Stmt) : Option (AST Stmt) := if child.sharers = 0 then some child.entry.entry.ast else none

/-- The child after its AST was written to. -/
def setAst (child : Child Stmt) (ast : AST Stmt) : Child Stmt :=
  { child with entry := { child.entry with entry := { child.entry.entry with ast := ast } } }

/-- `parents.push(id)`. -/
def pushParent (child : Child Stmt) (id : ID) : Child Stmt :=
  { child with entry := { child.entry with
      entry := { child.entry.entry with parents := child.entry.entry.parents ++ [id] } } }

theorem setAst_self (child : Child Stmt) : child.setAst child.entry.entry.ast = child := rfl

end Child

/-- What `breed` and `breed_inner` return. -/
abbrev Report := Except MutationError MutationState

/-- The end of most rules: `Mutated` if the flag is up. -/
def reportFlag (isMutated : Bool) : Report := if isMutated then .ok .mutated else .ok .unchanged

/-- A rule that leaves with `ASTSHARED` when the AST cannot be written to. -/
def withAst (child : Child Stmt) (rule : AST Stmt → Rng (Report × Child Stmt)) : Rng (Report × Child Stmt) :=
  match child.astMut with
  | none => pure (.error .astShared, child)
  | some ast => rule ast

/-- A closure with a flag. -/
abbrev Closure (Node : Type) := Node → Bool → Rng (Node × Bool × ControlFlow)

/-- A rule that is one visit with a flag. -/
def visiting {Node : Type} (v : Visitor (AST Stmt) Node) (f : Closure Node) (child : Child Stmt) :
    Rng (Report × Child Stmt) :=
  withAst child fun childAst => do
    let (ast, isMutated) ← (v.visitMut childAst).run f false
    pure (reportFlag isMutated, child.setAst ast)

/-! ## Honest reports -/

/-- What a report says about a child, and what is left of the child in any case. -/
structure Honest (child : Child Stmt) (r : Report × Child Stmt) : Prop where
  unchanged : r.1 ≠ .ok .mutated → r.2 = child
  mutated : r.1 = .ok .mutated → child.sharers = 0
  shared : ∀ e, r.1 = .error e → child.sharers ≠ 0
  sharers : r.2.sharers = child.sharers
  hooks : r.2.entry.appliedRuleStats = child.entry.appliedRuleStats ∧ r.2.entry.parentStats = child.entry.parentStats

section Rules

variable {child : Child Stmt} {draws : List Draw}

theorem honest_unchanged (child : Child Stmt) : Honest child (.ok .unchanged, child) :=
  ⟨fun _ => rfl, fun h => (nomatch h), fun _ h => (nomatch h), rfl, rfl, rfl⟩

theorem honest_error {e : MutationError} (h : child.sharers ≠ 0) : Honest child (.error e, child) :=
  ⟨fun _ => rfl, fun h => (nomatch h), fun _ _ => h, rfl, rfl, rfl⟩

theorem honest_mutated {child' : Child Stmt} (h : child.sharers = 0) (hown : child'.sharers = child.sharers)
    (hhooks : child'.entry.appliedRuleStats = child.entry.appliedRuleStats ∧
      child'.entry.parentStats = child.entry.parentStats) : Honest child (.ok .mutated, child') :=
  ⟨fun hne => absurd rfl hne, fun _ => h, fun _ he => (nomatch he), hown, hhooks⟩

/-- A flag that is down says that the child is what it was. -/
theorem honest_reportFlag {isMutated : Bool} {child' : Child Stmt} (h : child.sharers = 0)
    (hquiet : isMutated = false → child' = child) (hown : child'.sharers = child.sharers)
    (hhooks : child'.entry.appliedRuleStats = child.entry.appliedRuleStats ∧
      child'.entry.parentStats = child.entry.parentStats) : Honest child (reportFlag isMutated, child') := by
  cases isMutated with
  | false =>
    obtain rfl := hquiet rfl
    exact honest_unchanged _
  | true => exact honest_mutated h hown hhooks

theorem ensures_withAst {rule : AST Stmt → Rng (Report × Child Stmt)}
    (h : child.sharers = 0 → Prog.Ensures (rule child.entry.entry.ast) draws fun r _ => Honest child r) :
    Prog.Ensures (withAst child rule) draws fun r _ => Honest child r := by
  unfold withAst Child.astMut
  by_cases hown : child.sharers = 0
  · rw [if_pos hown]
    exact h hown
  · rw [if_neg hown]
    exact Prog.ensures_pure (honest_error hown)

/-- A closure that raises the flag where it changes a node, and never takes it down. -/
def Flagged {Node : Type} (f : Closure Node) : Prop :=
  ∀ n isMutated draws, Prog.Ensures (f n isMutated) draws fun r _ => r.2.1 = false → isMutated = false ∧ r.1 = n

theorem Flagged.kept {Node : Type} {n : Node} {isMutated : Bool} {flow : ControlFlow} :
    Prog.Ensures (pure (n, isMutated, flow) : Rng (Node × Bool × ControlFlow)) draws fun r _ =>
      r.2.1 = false → isMutated = false ∧ r.1 = n :=
  Prog.ensures_pure fun h => ⟨h, rfl⟩

theorem Flagged.raised {Node : Type} {n n' : Node} {isMutated : Bool} {flow : ControlFlow} :
    Prog.Ensures (pure (n', true, flow) : Rng (Node × Bool × ControlFlow)) draws fun r _ =>
      r.2.1 = false → isMutated = false ∧ r.1 = n :=
  Prog.ensures_pure fun h => (nomatch h)

/-- A visit that ends with the flag down has left the AST as it was. -/
theorem Flagged.ensures_visit {Root Node : Type} (v : Visitor Root Node) {f : Closure Node} (hf : Flagged f)
    (root : Root) (isMutated : Bool) : Prog.Ensures ((v.visitMut root).run f isMutated) draws fun r _ =>
      r.2 = false → isMutated = false ∧ r.1 = root := by
  have h := Visit.ensures_run (fun isMutated => isMutated = false) hf (v.visitMut root) isMutated draws
  rwa [v.rest_visitMut] at h

/-- **One visit.** -/
theorem honest_visiting {Node : Type} (v : Visitor (AST Stmt) Node) {f : Closure Node} (hf : Flagged f)
    (child : Child Stmt) : Prog.Ensures (visiting v f child) draws fun r _ => Honest child r := by
  refine ensures_withAst fun hown => ?_
  refine Prog.ensures_bind (hf.ensures_visit v _ _) fun r _ hr => ?_
  obtain ⟨ast, isMutated⟩ := r
  refine Prog.ensures_pure (honest_reportFlag hown (fun h => ?_) rfl ⟨rfl, rfl⟩)
  obtain rfl := (hr h).2
  exact child.setAst_self

end Rules

end Lsf.Mutate
