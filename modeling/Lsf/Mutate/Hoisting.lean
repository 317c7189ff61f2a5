import Lsf.Mutate.Parts
import Lsf.Mutate.Splice

/-!
# Hoisting

`HoistExpr` puts one of the expressions that it finds in an expression into its place. The search starts with the value
of the expression, which decodes: next to all that decodes properly below, an expression is a candidate for its own
place (`mem_extractChildExprs`). So hoisting can report a mutation and leave the expression, and even the child, as it
is (`smaller_iff`, `mutated_unchanged`).
-/

namespace Lsf.Mutate

open Lsf.Core Lsf.Lib Lsf.Engine Json Sqlparser

/-! ## Candidates -/

section Candidates

variable {Node : Type} {fromValue : Json → Option Node} {root : Json} {e c : Node}

/-- Every candidate is decoded from a proper sub-value. -/
def OnlyBelow (fromValue : Json → Option Node) (root : Json) : Prop :=
  ∀ c ∈ extractChildExprs fromValue root, ∃ v, ProperSub v root ∧ fromValue v = some c

/-- Every proper sub-value that decodes gives a candidate. -/
def AllBelow (fromValue : Json → Option Node) (root : Json) : Prop :=
  ∀ v c, ProperSub v root → fromValue v = some c → c ∈ extractChildExprs fromValue root

/-- The candidates for the place of an expression are itself and what decodes properly below. -/
theorem mem_extractChildExprs (hroot : fromValue root = some e) :
    c ∈ extractChildExprs fromValue root ↔ c = e ∨ ∃ v, ProperSub v root ∧ fromValue v = some c := by
  rw [extractChildExprs, mem_dig]
  constructor
  · rintro ⟨v, hv, hc⟩
    obtain rfl | hproper := Relation.reflTransGen_iff_eq_or_transGen.1 hv
    · exact .inl (Option.some_injective _ (hc.symm.trans hroot))
    · exact .inr ⟨v, hproper, hc⟩
  · rintro (rfl | ⟨v, hv, hc⟩)
    · exact ⟨root, .refl, hroot⟩
    · exact ⟨v, hv.to_reflTransGen, hc⟩

theorem allBelow (hroot : fromValue root = some e) : AllBelow fromValue root :=
  fun v _ hv hc => (mem_extractChildExprs hroot).2 (.inr ⟨v, hv, hc⟩)

variable {size : Node → Nat}

/-- What decodes properly below is smaller. -/
theorem size_lt_of_properSub (hsize : ∀ v c, fromValue v = some c → size c = v.size) (hroot : fromValue root = some e)
    {v : Json} (hv : ProperSub v root) (hc : fromValue v = some c) : size c < size e := by
  rw [hsize v c hc, hsize root e hroot]
  exact hv.size_lt

/-- **The expression itself is a candidate** that no proper sub-value gives. -/
theorem not_onlyBelow (hsize : ∀ v c, fromValue v = some c → size c = v.size) (hroot : fromValue root = some e) :
    ¬OnlyBelow fromValue root := by
  intro h
  obtain ⟨v, hv, he⟩ := h e ((mem_extractChildExprs hroot).2 (.inl rfl))
  exact (size_lt_of_properSub hsize hroot hv he).false

end Candidates

/-! ## One expression -/

namespace HoistExpr

section Closure

variable {Stmt : Type} [Sqlparser Stmt] {rule : HoistExpr} {e : Expr Stmt} {root : Json}

/-- Whenever the expression is what the rule reports a mutation for, its replacement is smaller. -/
def Smaller (rule : HoistExpr) (size : Expr Stmt → Nat) (e : Expr Stmt) : Prop :=
  ∀ draws replacement flow rest, rule.closure Stmt e false draws = some ((replacement, true, flow), rest) →
    size replacement < size e

/-- An expression can be put into its own place. -/
theorem possible_closure (h0 : 0 < rule.chancePerNode) (h1 : rule.chancePerNode ≤ 1)
    (hroot : (expressions : AstNode (AST Stmt) (Expr Stmt)).toValue e = some root)
    (hdecode : (expressions : AstNode (AST Stmt) (Expr Stmt)).fromValue root = some e) (isMutated : Bool) :
    (rule.closure Stmt e isMutated).Possible (e, true, .goOn) := by
  have hself := (mem_extractChildExprs hdecode).2 (.inl rfl)
  unfold closure
  refine (Rng.possible_hit h0 h1).bind ?_
  rw [if_pos rfl, hroot]
  dsimp only
  rw [if_neg (by simpa using List.ne_nil_of_mem hself)]
  exact (Rng.possible_choose hself).bind (Rng.possible_pure _)

/-- A replacement is smaller, or it is the expression itself; and only a chance replaces. -/
theorem ensures_closure {size : Expr Stmt → Nat}
    (hsize : ∀ v c, (expressions : AstNode (AST Stmt) (Expr Stmt)).fromValue v = some c → size c = v.size)
    (hroot : (expressions : AstNode (AST Stmt) (Expr Stmt)).toValue e = some root)
    (hdecode : (expressions : AstNode (AST Stmt) (Expr Stmt)).fromValue root = some e) (draws : List Draw) :
    Prog.Ensures (rule.closure Stmt e false) draws fun r _ => r.2.1 = true →
      (0 < rule.chancePerNode ∧ rule.chancePerNode ≤ 1) ∧ (r.1 = e ∨ size r.1 < size e) := by
  unfold closure
  refine Prog.ensures_bind Rng.ensures_bool fun hit draws hchance => ?_
  cases hit with
  | false => exact Prog.ensures_pure fun h => nomatch h
  | true =>
    rw [if_pos rfl, hroot]
    dsimp only
    split
    · exact Prog.ensures_pure fun h => nomatch h
    · refine Prog.ensures_bind (mem_of_choose _) fun c _ hc => Prog.ensures_pure fun _ => ⟨hchance rfl, ?_⟩
      obtain rfl | ⟨v, hv, hc⟩ := (mem_extractChildExprs hdecode).1 hc
      · exact .inl rfl
      · exact .inr (size_lt_of_properSub hsize hdecode hv hc)

/-- **Hoisting does not always shrink.** Among the candidates for the place of an expression there always is one that is
not decoded from a proper sub-value; all that are can be found; and a replacement is always smaller only if there is
never a hit. -/
theorem smaller_iff {size : Expr Stmt → Nat}
    (hsize : ∀ v c, (expressions : AstNode (AST Stmt) (Expr Stmt)).fromValue v = some c → size c = v.size)
    (hdecode : ∀ e root, (expressions : AstNode (AST Stmt) (Expr Stmt)).toValue e = some root →
      (expressions : AstNode (AST Stmt) (Expr Stmt)).fromValue root = some e)
    (rule : HoistExpr) (hroot : (expressions : AstNode (AST Stmt) (Expr Stmt)).toValue e = some root) :
    ¬OnlyBelow (expressions : AstNode (AST Stmt) (Expr Stmt)).fromValue root ∧
      AllBelow (expressions : AstNode (AST Stmt) (Expr Stmt)).fromValue root ∧
      (rule.Smaller size e ↔ ¬(0 < rule.chancePerNode ∧ rule.chancePerNode ≤ 1)) := by
  have hself := hdecode e root hroot
  refine ⟨not_onlyBelow hsize hself, allBelow hself, fun h => ?_, fun h draws replacement flow rest hr => ?_⟩
  · rintro ⟨h0, h1⟩
    obtain ⟨draws, hdraws⟩ := possible_closure h0 h1 hroot hself false
    exact (h draws e .goOn [] (by simpa using hdraws [])).false
  · exact absurd (ensures_closure hsize hroot hself draws _ _ hr rfl).1 h

end Closure

/-! ## A child -/

/-- A visit whose closure can put every node into its own place can raise the flag and leave all as it is. -/
theorem possible_run {Node Root : Type} {f : Closure Node}
    (hf : ∀ node isMutated, (f node isMutated).Possible (node, true, .goOn)) (v : Visit Node Root) (isMutated : Bool) :
    Rng.Possible (v.run f isMutated) (v.rest, isMutated || !v.shown.isEmpty) := by
  induction v generalizing isMutated with
  | done root =>
    rw [Visit.run]
    simpa [Visit.shown, Visit.rest] using Rng.possible_pure (root, isMutated)
  | node node next ih =>
    rw [Visit.run]
    refine (hf node isMutated).bind ?_
    simpa [Visit.shown, Visit.rest] using ih node true

/-- **A mutation of nothing**: on a child of one owner with an expression, the rule can report a mutation and leave the
child as it is. -/
theorem mutated_unchanged {Stmt : Type} [Sqlparser Stmt] {rule : HoistExpr} (h0 : 0 < rule.chancePerNode)
    (h1 : rule.chancePerNode ≤ 1) (hT : (expressions : AstNode (AST Stmt) (Expr Stmt)).Lawful) {child : Child Stmt}
    (hown : child.sharers = 0)
    (hne : (expressions : AstNode (AST Stmt) (Expr Stmt)).visit child.entry.entry.ast ≠ []) :
    (rule.breedInner child).Possible (.ok .mutated, child) := by
  have hclosure : ∀ (e : Expr Stmt) (isMutated : Bool), (rule.closure Stmt e isMutated).Possible (e, true, .goOn) := by
    intro e isMutated
    obtain ⟨root, hroot, -⟩ := hT.serializes e
    exact possible_closure h0 h1 hroot (hT.deserializes e root hroot) isMutated
  have hrun := possible_run hclosure
    ((expressions : AstNode (AST Stmt) (Expr Stmt)).visitMut child.entry.entry.ast) false
  have hshown : ((expressions : AstNode (AST Stmt) (Expr Stmt)).visitMut child.entry.entry.ast).shown ≠ [] := by
    intro hnil
    have hperm := hT.shown child.entry.entry.ast
    rw [hnil] at hperm
    exact hne (List.nil_perm.1 hperm)
  rw [Visitor.rest_visitMut, List.isEmpty_eq_false_iff.2 hshown] at hrun
  unfold breedInner visiting withAst Child.astMut
  rw [if_pos hown]
  exact hrun.bind (Rng.possible_pure _)

end HoistExpr

/-! ## `(NULL)` -/

/-- The expressions `NULL` and `(NULL)`. -/
inductive Operand where
  | null
  | nested
deriving DecidableEq, Repr

namespace Operand

/-- The value of an expression. -/
def toValue : Operand → Json
  | .null => .object [("Value", .string "Null")]
  | .nested => .object [("Nested", .object [("Value", .string "Null")])]

/-- The expression with this value. -/
def fromValue : Json → Option Operand
  | .object [("Value", .string "Null")] => some .null
  | .object [("Nested", .object [("Value", .string "Null")])] => some .nested
  | _ => none

def size (e : Operand) : Nat := e.toValue.size

theorem fromValue_toValue (e : Operand) : fromValue e.toValue = some e := by
  cases e <;> rfl

theorem size_fromValue (v : Json) (e : Operand) (h : fromValue v = some e) : e.size = v.size := by
  unfold fromValue at h
  split at h
  · cases h
    rfl
  · cases h
    rfl
  · cases h

/-- Statements that are an expression each. -/
@[reducible] def sqlparser : Sqlparser Operand where
  Expr := Operand
  Query := Empty
  SetExpr := Empty
  Rest := Empty
  expressions := ⟨.elements, fun e => if e = .null then 0 else 1, fun e => some e.toValue, fromValue, fun _ => none⟩
  statements := ⟨.elements, fun _ => 0, fun _ => none, fun _ => none, fun _ => none⟩
  relations := .noNodes
  relationsOf := .noNodes
  exprEq e e' := decide (e = e')
  relEq _ _ := false
  isValue e := decide (e = .null)
  isIdentifier _ := false
  isCast _ := false
  number _ := none
  operator _ := none
  right _ := none
  subquery _ := none
  ofQuery q := nomatch q
  null := .null
  castTo e _ := e
  query _ := none
  stmtOfQuery q := nomatch q
  body q := nomatch q
  setOperation _ _ e _ := nomatch e
  created _ := none
  ifNotExists _ := none

end Operand

section Nested

attribute [local instance] Operand.sqlparser

/-- `(NULL)` is a candidate for its own place, next to `NULL`. -/
theorem smaller_iff_nested :
    ¬OnlyBelow Operand.fromValue Operand.nested.toValue ∧ AllBelow Operand.fromValue Operand.nested.toValue ∧
      ¬@HoistExpr.Smaller Operand _ ⟨1⟩ Operand.size Operand.nested := by
  have hdecode : ∀ (e : Operand) root, some e.toValue = some root → Operand.fromValue root = some e := by
    intro e root h
    cases h
    exact e.fromValue_toValue
  obtain ⟨hbelow, hall, hsmaller⟩ :=
    @HoistExpr.smaller_iff Operand _ Operand.nested _ _ Operand.size_fromValue hdecode ⟨1⟩ rfl
  exact ⟨hbelow, hall, fun h => hsmaller.1 h ⟨one_pos, le_rfl⟩⟩

/-- **`(NULL)` is hoisted into its own place**: it is a candidate that no proper sub-value gives, and the rule can
report a mutation for it, and leave the child as it is. -/
theorem hoisted_into_itself :
    Operand.nested ∈ extractChildExprs Operand.fromValue Operand.nested.toValue ∧
      (¬∃ v, ProperSub v Operand.nested.toValue ∧ Operand.fromValue v = some .nested) ∧
      ((⟨1⟩ : HoistExpr).closure Operand Operand.nested false [.zero, .zero]).map
        (fun r => ((r.1.1 : Operand), r.1.2)) = some (.nested, true, .goOn) ∧
      ((⟨1⟩ : HoistExpr).breedInner ⟨⟨⟨⟨1⟩, [], [Operand.nested]⟩, [], []⟩, 0⟩ [.zero, .zero]).map
        (fun r => (r.1.1, r.1.2.entry.entry.ast)) = some (.ok .mutated, [Operand.nested]) := by
  refine ⟨(mem_extractChildExprs (Operand.fromValue_toValue _)).2 (.inl rfl), ?_, by decide +kernel, by decide +kernel⟩
  rintro ⟨v, hv, h⟩
  exact (size_lt_of_properSub Operand.size_fromValue (Operand.fromValue_toValue .nested) hv h).false

end Nested

end Lsf.Mutate
