import Lsf.Core.Entry
import Lsf.Lib.Visit
import Lsf.Mutate.Json

/-!
# What the rules use of the parser

The statements and expressions are those of `sqlparser`, and stay a parameter: `Sqlparser Stmt` lists the visitors,
variants and traits that the mutation rules use of them. Visitors change only the nodes that their closure changes, and
a variable that a pattern binds can be assigned.
-/

namespace Lsf.Mutate

open Lsf.Core Lsf.Lib

/-! ## Names -/

/-- `Ident`; `others` is all that the rules do not look at. -/
structure Ident (R : Type) where
  value : String
  others : R

inductive FunctionArg (R : Type) where
  | named (name : Ident R) (others : R)
  | other (others : R)

inductive ObjectNamePart (R : Type) where
  | identifier (ident : Ident R)
  | function (name : Ident R) (args : List (FunctionArg R))

/-- `as_ident`. -/
def ObjectNamePart.asIdent {R : Type} : ObjectNamePart R → Option (Ident R)
  | .identifier ident => some ident
  | .function _ _ => none

abbrev ObjectName (R : Type) := List (ObjectNamePart R)

/-! ## Operators -/

/-- `BinaryOperator`, with the operators that are flipped. -/
inductive BinaryOperator where
  | eq
  | notEq
  | lt
  | ltEq
  | gt
  | gtEq
  | and
  | or
  | plus
  | minus
  | other (name : String)
deriving DecidableEq

inductive SetOperator where
  | union
  | intersect
  | except
deriving DecidableEq

/-! ## The interface -/

/-- The visitors of the nodes of a `Root`. -/
structure Visitor (Root Node : Type) where
  /-- The nodes in the order in which a visitor shows them. -/
  visit : Root → List Node
  /-- The visit that may change them. -/
  visitMut : Root → Visit Node Root
  /-- Only the nodes that the closure changes are changed. -/
  rest_visitMut : ∀ root, (visitMut root).rest = root

/-- The visitor that finds nothing. -/
def Visitor.noNodes {Root Node : Type} : Visitor Root Node := ⟨fun _ => [], .done, fun _ => rfl⟩

/-- The visitor of the elements of a list. -/
def Visitor.elements {Node : Type} : Visitor (List Node) Node := ⟨id, Visit.elements, Visit.rest_elements⟩

/-- The trait `AstNode`, with `Serialize`, `DeserializeOwned` and `Arbitrary`. -/
structure AstNode (Root Node : Type) extends Visitor Root Node where
  discriminant : Node → Nat
  /-- `serde_json::to_value`. -/
  toValue : Node → Option Json
  /-- `serde_json::from_value`. -/
  fromValue : Json → Option Node
  /-- `Unstructured::new(data).arbitrary()`. -/
  arbitrary : List UInt8 → Option Node

/-- A variable that a pattern binds in `node`: its value, and the node after an assignment to it. -/
structure Place {Node : Type} (node : Node) (A : Type) where
  value : A
  assign : A → Node
  assign_value : assign value = node

/-- What the rules use of `sqlparser`. -/
class Sqlparser (Stmt : Type) where
  Expr : Type
  Query : Type
  SetExpr : Type
  /-- The parts of names that the rules do not look at. -/
  Rest : Type
  /-- `visit_expressions`, `visit_expressions_mut`. -/
  expressions : AstNode (AST Stmt) Expr
  /-- `visit_statements`, `visit_statements_mut`. -/
  statements : AstNode (AST Stmt) Stmt
  /-- `visit_relations`, `visit_relations_mut`. -/
  relations : Visitor (AST Stmt) (ObjectName Rest)
  /-- The same within one statement. -/
  relationsOf : Visitor Stmt (ObjectName Rest)
  /-- `==` on expressions, which does not look at positions. -/
  exprEq : Expr → Expr → Bool
  /-- `==` on names. -/
  relEq : ObjectName Rest → ObjectName Rest → Bool
  /-- `Expr::Value(_)`. -/
  isValue : Expr → Bool
  /-- `Expr::Identifier(_)`. -/
  isIdentifier : Expr → Bool
  /-- `Expr::Cast { .. }`. -/
  isCast : Expr → Bool
  /-- `Expr::Value` of a `Value::Number(n, _)`: the text `n`. -/
  number : (e : Expr) → Option (Place e String)
  /-- `Expr::BinaryOp { op, .. }`. -/
  operator : (e : Expr) → Option (Place e BinaryOperator)
  /-- `Expr::BinaryOp { right, .. }`. -/
  right : (e : Expr) → Option (Place e Expr)
  /-- `Expr::Subquery(query)`. -/
  subquery : Expr → Option Query
  /-- The expression `Expr::Subquery(query)`. -/
  ofQuery : Query → Expr
  /-- `Expr::Value` of `Value::Null`, at no position. -/
  null : Expr
  /-- `Expr::Cast` of an expression to a type of the given name. -/
  castTo : Expr → String → Expr
  /-- `Statement::Query(query)`. -/
  query : Stmt → Option Query
  /-- The statement `Statement::Query(query)`. -/
  stmtOfQuery : Query → Stmt
  body : Query → SetExpr
  /-- The query that is a set operation, with every other clause empty. -/
  setOperation : SetOperator → Bool → SetExpr → SetExpr → Query
  /-- The `name` of a `Statement::CreateTable` or `Statement::CreateVirtualTable`. -/
  created : Stmt → Option (ObjectName Rest)
  /-- The `if_not_exists` of such a statement. -/
  ifNotExists : (s : Stmt) → Option (Place s Bool)

/-! ## Statements without parts -/

/-- A statement that has no expressions and no names. -/
inductive Plain where
  | commit
deriving DecidableEq, Repr

/-- The visitors of statements without parts. The only expression is `NULL`, and it occurs nowhere. -/
@[reducible] def Sqlparser.plain : Sqlparser Plain where
  Expr := Unit
  Query := Empty
  SetExpr := Empty
  Rest := Empty
  expressions := ⟨.noNodes, fun _ => 0, fun _ => some .null, fun _ => none, fun _ => none⟩
  statements := ⟨.elements, fun _ => 0, fun _ => none, fun _ => none, fun _ => none⟩
  relations := .noNodes
  relationsOf := .noNodes
  exprEq _ _ := true
  relEq _ _ := false
  isValue _ := true
  isIdentifier _ := false
  isCast _ := false
  number _ := none
  operator _ := none
  right _ := none
  subquery _ := none
  ofQuery q := nomatch q
  null := ()
  castTo _ _ := ()
  query _ := none
  stmtOfQuery q := nomatch q
  body q := nomatch q
  setOperation _ _ e _ := nomatch e
  created _ := none
  ifNotExists _ := none

end Lsf.Mutate
