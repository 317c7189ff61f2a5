import Mathlib.Data.List.Forall2
import Lsf.Mutate.Values

/-!
# Scrambled table names

`TableNameScramble` (`ident.rs`) writes the last part of a name, where the name of a table is, but collects the first
part of the names of the tables that are created. The two are the same only in a name without a schema, so that
schemas come in as names of tables (`TableNameScramble.onlyTables_iff`).
-/

namespace Lsf.Mutate

open Lsf.Core Lsf.Lib Sqlparser

/-! ## Relations -/

section Renamed

variable {R : Type} {names names' : List String} {relation relation' : ObjectName R} {ident : Ident R}

/-- The last part of `relation`, if it is an identifier, is one of the names in `relation'`, and the rest is the same.
-/
def Renamed (names : List String) (relation relation' : ObjectName R) : Prop :=
  match relation.getLast? with
  | some (.identifier ident) =>
    ∃ table ∈ names, relation' = relation.dropLast ++ [.identifier { ident with value := table }]
  | _ => relation' = relation

theorem renamed_iff (h : relation.getLast? = some (.identifier ident)) : Renamed names relation relation' ↔
    ∃ table ∈ names, relation' = relation.dropLast ++ [.identifier { ident with value := table }] := by
  rw [Renamed, h]

theorem renamed_iff_eq (h : ∀ ident, relation.getLast? ≠ some (.identifier ident)) :
    Renamed names relation relation' ↔ relation' = relation := by
  unfold Renamed
  split
  · rename_i ident hident
    exact (h ident hident).elim
  · rfl

theorem Renamed.mono (h : Renamed names relation relation')
    (hsub : ∀ ident, relation.getLast? = some (.identifier ident) → names ⊆ names') :
    Renamed names' relation relation' := by
  by_cases hlast : ∃ ident, relation.getLast? = some (.identifier ident)
  · obtain ⟨ident, hident⟩ := hlast
    obtain ⟨table, htable, heq⟩ := (renamed_iff hident).1 h
    exact (renamed_iff hident).2 ⟨table, hsub ident hident htable, heq⟩
  · rwa [renamed_iff_eq (not_exists.1 hlast)] at h ⊢

/-- The name that is written is one of the names. -/
theorem Renamed.mem (h : Renamed names relation relation') (hident : relation.getLast? = some (.identifier ident))
    {table : String} (heq : relation' = relation.dropLast ++ [.identifier { ident with value := table }]) :
    table ∈ names := by
  obtain ⟨table', htable', heq'⟩ := (renamed_iff hident).1 h
  have hlast := List.append_cancel_left (heq.symm.trans heq')
  simp only [List.cons.injEq, ObjectNamePart.identifier.injEq, Ident.mk.injEq, and_true] at hlast
  rwa [hlast]

/-- A relation may stay exactly if it has one of the names. -/
theorem renamed_self (hident : relation.getLast? = some (.identifier ident)) :
    Renamed names relation relation ↔ ident.value ∈ names := by
  have hsplit : relation = relation.dropLast ++ [.identifier ident] :=
    (List.dropLast_append_getLast? _ hident).symm
  exact ⟨fun h => h.mem hident hsplit, fun hmem => (renamed_iff hident).2 ⟨ident.value, hmem, hsplit⟩⟩

end Renamed

theorem exists_of_forall₂ {α β : Type} {P Q : α → β → Prop} {l : List α} {l' : List β} (hP : List.Forall₂ P l l')
    (hQ : List.Forall₂ Q l l') {a : α} (ha : a ∈ l) : ∃ b, P a b ∧ Q a b := by
  induction hP with
  | nil => cases ha
  | cons hab _ ih =>
    obtain ⟨hab', hQ⟩ := List.forall₂_cons.1 hQ
    cases ha with
    | head => exact ⟨_, hab, hab'⟩
    | tail _ ha => exact ih hQ ha

namespace TableNameScramble

variable {Stmt : Type} [Sqlparser Stmt]

/-! ## Statements -/

/-- The relations that `visit_relations_mut` shows in a statement. -/
def relationsIn (stmt : Stmt) : List (ObjectName (Rest Stmt)) := (relationsOf.visitMut stmt).shown

/-- A statement shows its relations one after the other, none inside of another: a new last part of one changes no
other. -/
structure RelationLaws (Stmt : Type) [Sqlparser Stmt] : Prop where
  leaves : ∀ (names : List String) (stmt : Stmt) l stmt', (relationsOf.visitMut stmt).Leaves l stmt' →
    (∀ p ∈ l, Renamed names p.1 p.2) → l.map Prod.fst = relationsIn stmt ∧ l.map Prod.snd = relationsIn stmt'

/-- A statement that creates a table is the same, and the relations of every other one are renamed. -/
def ScrambledStmt (names : List String) (stmt stmt' : Stmt) : Prop :=
  if (created stmt).isSome then stmt' = stmt else List.Forall₂ (Renamed names) (relationsIn stmt) (relationsIn stmt')

/-- Statement by statement. -/
def Scrambled (names : List String) : AST Stmt → AST Stmt → Prop := List.Forall₂ (ScrambledStmt names)

/-- The relations of the statements that create no table. -/
def scrambledRelations (ast : AST Stmt) : List (ObjectName (Rest Stmt)) :=
  (ast.filter fun stmt => (created stmt).isNone).flatMap relationsIn

/-- Some relation that is renamed ends with the identifier. -/
def Named (ast : AST Stmt) (ident : Ident (Rest Stmt)) : Prop :=
  ∃ relation ∈ scrambledRelations ast, relation.getLast? = some (.identifier ident)

/-- The table that a statement creates: the last part of the name. -/
def tableName (stmt : Stmt) : Option String :=
  (created stmt).bind fun name => (name.getLast?.bind ObjectNamePart.asIdent).map Ident.value

/-- The names of the tables that are created. -/
def tableNames (ast : AST Stmt) : List String := (statements.visit ast).filterMap tableName

/-- The first parts of their names. -/
def firstParts (ast : AST Stmt) : List String := (statements.visit ast).filterMap createdTable

/-- Some table is created. -/
def CreatesTable (ast : AST Stmt) : Prop := ∃ stmt ∈ statements.visit ast, (created stmt).isSome

variable {names : List String} {ast ast' : AST Stmt} {child : Child Stmt} {draws : List Draw}

theorem mem_scrambledRelations {relation : ObjectName (Rest Stmt)} :
    relation ∈ scrambledRelations ast ↔ ∃ stmt ∈ ast, ¬(created stmt).isSome ∧ relation ∈ relationsIn stmt := by
  simp [scrambledRelations, and_assoc]

/-- More names rename as well, and any names where there is nothing to rename. -/
theorem Scrambled.mono {names' : List String} (h : Scrambled names ast ast')
    (hsub : ∀ ident, Named ast ident → names ⊆ names') : Scrambled names' ast ast' := by
  refine ((List.forall₂_and_left _ _).2 ⟨fun stmt hstmt => hstmt, h⟩).imp fun stmt stmt' ⟨hmem, hstmt⟩ => ?_
  unfold ScrambledStmt at hstmt ⊢
  split
  · rename_i hcreated
    rwa [if_pos hcreated] at hstmt
  · rename_i hcreated
    rw [if_neg hcreated] at hstmt
    refine ((List.forall₂_and_left _ _).2 ⟨fun relation hrel => hrel, hstmt⟩).imp
      fun relation relation' ⟨hrel, hrenamed⟩ => ?_
    exact hrenamed.mono fun ident hident =>
      hsub ident ⟨relation, mem_scrambledRelations.2 ⟨stmt, hmem, hcreated, hrel⟩, hident⟩

/-- Every relation has its counterpart. -/
theorem Scrambled.exists_renamed {names' : List String} (h : Scrambled names ast ast') (h' : Scrambled names' ast ast')
    {relation : ObjectName (Rest Stmt)} (hrel : relation ∈ scrambledRelations ast) :
    ∃ relation', Renamed names relation relation' ∧ Renamed names' relation relation' := by
  obtain ⟨stmt, hmem, hcreated, hrel⟩ := mem_scrambledRelations.1 hrel
  obtain ⟨stmt', hstmt, hstmt'⟩ := exists_of_forall₂ h h' hmem
  rw [ScrambledStmt, if_neg hcreated] at hstmt hstmt'
  exact exists_of_forall₂ hstmt hstmt' hrel

/-- **An AST may stay exactly if its relations have names of tables.** -/
theorem scrambled_self : Scrambled names ast ast ↔ ∀ ident, Named ast ident → ident.value ∈ names := by
  constructor
  · rintro h ident ⟨relation, hrel, hident⟩
    obtain ⟨stmt, hmem, hcreated, hrel⟩ := mem_scrambledRelations.1 hrel
    have hstmt := List.forall₂_same.1 h stmt hmem
    rw [ScrambledStmt, if_neg hcreated] at hstmt
    exact (renamed_self hident).1 (List.forall₂_same.1 hstmt relation hrel)
  · refine fun h => List.forall₂_same.2 fun stmt hmem => ?_
    unfold ScrambledStmt
    split
    · rfl
    · rename_i hcreated
      refine List.forall₂_same.2 fun relation hrel => ?_
      by_cases hlast : ∃ ident, relation.getLast? = some (.identifier ident)
      · obtain ⟨ident, hident⟩ := hlast
        exact (renamed_self hident).2
          (h ident ⟨relation, mem_scrambledRelations.2 ⟨stmt, hmem, hcreated, hrel⟩, hident⟩)
      · exact (renamed_iff_eq (not_exists.1 hlast)).2 rfl

/-! ## What the rule writes -/

variable {tables : List String}

theorem ensures_closure_renamed {R : Type} (relation : ObjectName R) (isMutated : Bool) (draws : List Draw) :
    Prog.Ensures (closure tables relation isMutated) draws fun r _ => Renamed tables relation r.1 ∧ r.2.2 = .goOn := by
  unfold closure
  split
  · rename_i ident hident
    refine Prog.ensures_bind (mem_of_choose tables) fun table _ htable => Prog.ensures_pure ⟨?_, rfl⟩
    exact (renamed_iff hident).2 ⟨table, htable, rfl⟩
  · rename_i hlast
    exact Prog.ensures_pure ⟨(renamed_iff_eq fun ident hident => hlast ident hident).2 rfl, rfl⟩

/-- What is left of the relations makes the statement. -/
theorem scrambledStmt_of_leaves (laws : RelationLaws Stmt) {stmt stmt' : Stmt}
    {l : List (ObjectName (Rest Stmt) × ObjectName (Rest Stmt))} (hcreated : ¬(created stmt).isSome)
    (hleaves : (relationsOf.visitMut stmt).Leaves l stmt') (hl : ∀ p ∈ l, Renamed names p.1 p.2) :
    ScrambledStmt names stmt stmt' := by
  obtain ⟨hfst, hsnd⟩ := laws.leaves names stmt l stmt' hleaves hl
  rw [ScrambledStmt, if_neg hcreated, ← hfst, ← hsnd, List.forall₂_map_left_iff, List.forall₂_map_right_iff]
  exact List.forall₂_same.2 hl

theorem ensures_scramble_renamed (laws : RelationLaws Stmt) (r : AST Stmt × Bool) (stmt : Stmt) (draws : List Draw) :
    Prog.Ensures (scramble tables r stmt) draws fun r' _ =>
      ∃ stmt', r'.1 = r.1 ++ [stmt'] ∧ ScrambledStmt tables stmt stmt' := by
  unfold scramble
  split
  · rename_i hcreated
    exact Prog.ensures_pure ⟨stmt, rfl, by rw [ScrambledStmt, if_pos hcreated]⟩
  · rename_i hcreated
    refine Prog.ensures_bind (Visit.ensures_run_leaves ensures_closure_renamed _ _ _) fun r' _ ⟨l, hleaves, hl⟩ => ?_
    exact Prog.ensures_pure ⟨r'.1, rfl, scrambledStmt_of_leaves laws hcreated hleaves hl⟩

/-- **Every relation takes one of the names that were collected**, and nothing else changes. -/
theorem ensures_foldlM_scrambled (laws : RelationLaws Stmt) (ast : AST Stmt) (r : AST Stmt × Bool) (draws : List Draw) :
    Prog.Ensures (ast.foldlM (scramble tables) r) draws fun r' _ =>
      ∃ ast', r'.1 = r.1 ++ ast' ∧ Scrambled tables ast ast' := by
  induction ast generalizing r draws with
  | nil => exact Prog.ensures_pure ⟨[], (List.append_nil _).symm, .nil⟩
  | cons stmt ast ih =>
    rw [List.foldlM_cons]
    refine Prog.ensures_bind (ensures_scramble_renamed laws r stmt draws) fun r₁ _ ⟨stmt', heq₁, hstmt⟩ => ?_
    refine (ih r₁ _).mono fun r₂ _ ⟨ast', heq₂, hast⟩ => ⟨stmt' :: ast', ?_, .cons hstmt hast⟩
    rw [heq₂, heq₁, List.append_assoc, List.singleton_append]

/-! ## What the rule can write -/

variable {table : String}

theorem possible_closure {R : Type} (htable : table ∈ tables) (relation : ObjectName R) (isMutated : Bool) :
    ∃ relation' isMutated', Renamed [table] relation relation' ∧
      (closure tables relation isMutated).Possible (relation', isMutated', .goOn) := by
  unfold closure
  split
  · rename_i ident hident
    exact ⟨_, true, (renamed_iff hident).2 ⟨table, List.mem_singleton_self _, rfl⟩,
      (Rng.possible_choose htable).bind (Rng.possible_pure _)⟩
  · rename_i hlast
    exact ⟨relation, isMutated, (renamed_iff_eq fun ident hident => hlast ident hident).2 rfl, Rng.possible_pure _⟩

/-- What a closure can make of every node, a run can make of all. -/
theorem possible_run_leaves {Node Root : Type} {P : Node → Node → Prop} {f : Closure Node}
    (hf : ∀ node isMutated, ∃ node' isMutated', P node node' ∧ (f node isMutated).Possible (node', isMutated', .goOn))
    (v : Visit Node Root) (isMutated : Bool) : ∃ l root isMutated', v.Leaves l root ∧ (∀ p ∈ l, P p.1 p.2) ∧
      Rng.Possible (v.run f isMutated) (root, isMutated') := by
  induction v generalizing isMutated with
  | done root => exact ⟨[], root, isMutated, .done root, List.forall_mem_nil _, Rng.possible_pure _⟩
  | node node next ih =>
    obtain ⟨node', isMutated', hP, hpossible⟩ := hf node isMutated
    obtain ⟨l, root, isMutated'', hleaves, hl, hrun⟩ := ih node' isMutated'
    exact ⟨(node, node') :: l, root, isMutated'', .node hleaves, List.forall_mem_cons.2 ⟨hP, hl⟩, hpossible.bind hrun⟩

theorem possible_scramble (laws : RelationLaws Stmt) (htable : table ∈ tables) (r : AST Stmt × Bool) (stmt : Stmt) :
    ∃ stmt' isMutated, ScrambledStmt [table] stmt stmt' ∧
      (scramble tables r stmt).Possible (r.1 ++ [stmt'], isMutated) := by
  unfold scramble
  split
  · rename_i hcreated
    exact ⟨stmt, r.2, by rw [ScrambledStmt, if_pos hcreated], Rng.possible_pure _⟩
  · rename_i hcreated
    obtain ⟨l, stmt', isMutated, hleaves, hl, hrun⟩ :=
      possible_run_leaves (possible_closure htable) (relationsOf.visitMut stmt) r.2
    exact ⟨stmt', isMutated, scrambledStmt_of_leaves laws hcreated hleaves hl, hrun.bind (Rng.possible_pure _)⟩

/-- **Any name that was collected can be the name of every relation.** -/
theorem possible_foldlM (laws : RelationLaws Stmt) (htable : table ∈ tables) (ast : AST Stmt) (r : AST Stmt × Bool) :
    ∃ ast' isMutated, Scrambled [table] ast ast' ∧
      Rng.Possible (ast.foldlM (scramble tables) r) (r.1 ++ ast', isMutated) := by
  induction ast generalizing r with
  | nil => exact ⟨[], r.2, .nil, by simpa using Rng.possible_pure r⟩
  | cons stmt ast ih =>
    obtain ⟨stmt', isMutated, hstmt, hscramble⟩ := possible_scramble laws htable r stmt
    obtain ⟨ast', isMutated', hast, hfold⟩ := ih (r.1 ++ [stmt'], isMutated)
    refine ⟨stmt' :: ast', isMutated', .cons hstmt hast, ?_⟩
    rw [List.foldlM_cons]
    rw [List.append_assoc, List.singleton_append] at hfold
    exact hscramble.bind hfold

/-! ## The rule -/

/-- If some table is created, every relation takes the name of a table, on any draws. -/
def OnlyTables (rule : TableNameScramble) (child : Child Stmt) : Prop :=
  CreatesTable child.entry.entry.ast → ∀ draws, Prog.Ensures (rule.breedInner child) draws fun r _ =>
    Scrambled (tableNames child.entry.entry.ast) child.entry.entry.ast r.2.entry.entry.ast

/-- Either nothing is renamed, and the relations have names of tables; or there are no relations, or the first parts are
names of tables. -/
def FirstPartsKnown (child : Child Stmt) : Prop :=
  if child.sharers ≠ 0 ∨ firstParts child.entry.entry.ast = [] then
    ∀ ident, Named child.entry.entry.ast ident → ident.value ∈ tableNames child.entry.entry.ast
  else ∀ ident, Named child.entry.entry.ast ident →
    firstParts child.entry.entry.ast ⊆ tableNames child.entry.entry.ast

variable {rule : TableNameScramble}

/-- Without a writable AST and without a name nothing is done. -/
theorem breedInner_idle (rule : TableNameScramble) (h : child.sharers ≠ 0 ∨ firstParts child.entry.entry.ast = [])
    (draws : List Draw) : ∃ report, rule.breedInner child draws = some ((report, child), draws) := by
  unfold breedInner withAst Child.astMut
  by_cases hown : child.sharers = 0
  · have hnil : (statements.visit child.entry.entry.ast).filterMap createdTable = [] :=
      h.resolve_left fun hne => hne hown
    rw [if_pos hown]
    dsimp only
    rw [hnil]
    exact ⟨_, rfl⟩
  · rw [if_neg hown]
    exact ⟨_, rfl⟩

theorem breedInner_eq (h : ¬(child.sharers ≠ 0 ∨ firstParts child.entry.entry.ast = [])) :
    rule.breedInner child = (do
      let (ast, isMutated) ← child.entry.entry.ast.foldlM (scramble (firstParts child.entry.entry.ast)) ([], false)
      pure (reportFlag isMutated, child.setAst ast)) := by
  obtain ⟨hown, hne⟩ := not_or.1 h
  unfold breedInner withAst Child.astMut
  rw [if_pos (not_not.1 hown)]
  dsimp only
  rw [if_neg]
  · rfl
  · rw [List.isEmpty_iff]
    exact hne

/-- An AST that stays has names of tables; and a first part that can be written everywhere is one. -/
theorem OnlyTables.firstPartsKnown (laws : RelationLaws Stmt) (h : rule.OnlyTables child)
    (hcreates : CreatesTable child.entry.entry.ast) : FirstPartsKnown child := by
  unfold FirstPartsKnown
  split
  · rename_i hidle
    obtain ⟨report, hreport⟩ := breedInner_idle rule hidle []
    exact scrambled_self.1 (h hcreates [] _ _ hreport)
  · rename_i hwrites
    rintro ident ⟨relation, hrel, hident⟩ table htable
    obtain ⟨ast', isMutated, hast, draws, hdraws⟩ := possible_foldlM laws htable child.entry.entry.ast ([], false)
    have hrun : rule.breedInner child (draws ++ []) = some ((reportFlag isMutated, child.setAst ast'), []) := by
      rw [breedInner_eq hwrites, Prog.bind_apply, hdraws]
      rfl
    obtain ⟨relation', hrenamed, htable'⟩ := Scrambled.exists_renamed (h hcreates _ _ _ hrun) hast hrel
    obtain ⟨table', hmem, heq⟩ := (renamed_iff hident).1 htable'
    exact hrenamed.mem hident (List.mem_singleton.1 hmem ▸ heq)

/-- Names of tables stay, and first parts that are names of tables are written. -/
theorem onlyTables_of_firstPartsKnown (laws : RelationLaws Stmt)
    (h : CreatesTable child.entry.entry.ast → FirstPartsKnown child) : rule.OnlyTables child := by
  intro hcreates draws
  have hknown := h hcreates
  unfold FirstPartsKnown at hknown
  split at hknown
  · rename_i hidle
    intro r rest hr
    obtain ⟨report, hreport⟩ := breedInner_idle rule hidle draws
    rw [hreport] at hr
    cases hr
    exact scrambled_self.2 hknown
  · rename_i hwrites
    rw [breedInner_eq hwrites]
    refine Prog.ensures_bind (ensures_foldlM_scrambled laws _ ([], false) draws) fun r _ ⟨ast', heq, hast⟩ => ?_
    refine Prog.ensures_pure (Scrambled.mono ?_ hknown)
    rwa [show r.1 = ast' from heq]

/-- **The rule writes names of tables exactly if the first parts of their names are**, as far as it writes any. -/
theorem onlyTables_iff (laws : RelationLaws Stmt) (rule : TableNameScramble) (child : Child Stmt) :
    rule.OnlyTables child ↔ (CreatesTable child.entry.entry.ast → FirstPartsKnown child) :=
  ⟨fun h => h.firstPartsKnown laws, onlyTables_of_firstPartsKnown laws⟩

end TableNameScramble

/-! ## `CREATE TABLE main.t` -/

/-- Statements of one relation. -/
inductive OneRelation where
  | create (name : ObjectName Unit)
  | select (name : ObjectName Unit)

namespace OneRelation

def name : OneRelation → ObjectName Unit
  | .create name => name
  | .select name => name

/-- The parts of the relation that are identifiers. -/
def parts (stmt : OneRelation) : List String := stmt.name.filterMap fun part => part.asIdent.map Ident.value

/-- The visit of the relation. -/
def visitMut : OneRelation → Visit (ObjectName Unit) OneRelation
  | .create name => .node name fun name => .done (.create name)
  | .select name => .node name fun name => .done (.select name)

theorem rest_visitMut (stmt : OneRelation) : stmt.visitMut.rest = stmt := by
  cases stmt <;> rfl

@[reducible] def sqlparser : Sqlparser OneRelation where
  Expr := Unit
  Query := Empty
  SetExpr := Empty
  Rest := Unit
  expressions := ⟨.noNodes, fun _ => 0, fun _ => none, fun _ => none, fun _ => none⟩
  statements := ⟨.elements, fun _ => 0, fun _ => none, fun _ => none, fun _ => none⟩
  relations := .noNodes
  relationsOf := ⟨fun stmt => [stmt.name], visitMut, rest_visitMut⟩
  exprEq _ _ := true
  relEq _ _ := false
  isValue _ := true
  isIdentifier _ := false
  isCast _ := false
  number _ := none
  operator _ := none
  right _ := none
  subquery _ := none
  ofQuery q := nomatch q
  null := ()
  castTo _ _ := ()
  query _ := none
  stmtOfQuery q := nomatch q
  body q := nomatch q
  setOperation _ _ e _ := nomatch e
  created
    | .create name => some name
    | .select _ => none
  ifNotExists _ := none

end OneRelation

section Schema

attribute [local instance] OneRelation.sqlparser

theorem OneRelation.relationLaws : TableNameScramble.RelationLaws OneRelation := by
  refine ⟨fun names stmt l stmt' h _ => ?_⟩
  cases stmt with
  | create name | select name =>
    cases h with
    | node h =>
      cases h
      exact ⟨rfl, rfl⟩

/-- A name of identifiers. -/
def nameOf (parts : List String) : ObjectName Unit := parts.map fun part => .identifier ⟨part, ()⟩

/-- `CREATE TABLE t; SELECT * FROM u`. -/
def plainTable : Child OneRelation :=
  ⟨⟨⟨⟨1⟩, [], [.create (nameOf ["t"]), .select (nameOf ["u"])]⟩, [], []⟩, 0⟩

/-- `CREATE TABLE main.t; SELECT * FROM t`. -/
def schemaTable : Child OneRelation :=
  ⟨⟨⟨⟨1⟩, [], [.create (nameOf ["main", "t"]), .select (nameOf ["t"])]⟩, [], []⟩, 0⟩

theorem onlyTables_plainTable : (⟨⟩ : TableNameScramble).OnlyTables plainTable := by
  refine (TableNameScramble.onlyTables_iff OneRelation.relationLaws ⟨⟩ plainTable).2 fun _ => ?_
  rw [TableNameScramble.FirstPartsKnown, if_neg]
  · exact fun ident _ => List.Subset.refl _
  · rintro (hshared | hnil)
    · exact hshared rfl
    · cases hnil

/-- **A schema becomes the name of a table**: of `CREATE TABLE main.t`, the other statement is `SELECT * FROM main`. -/
theorem not_onlyTables_schemaTable : ¬(⟨⟩ : TableNameScramble).OnlyTables schemaTable ∧
    ((⟨⟩ : TableNameScramble).breedInner schemaTable [.zero]).map
      (fun r => (r.1.1, r.1.2.entry.entry.ast.map OneRelation.parts)) =
        some (.ok .mutated, [["main", "t"], ["main"]]) := by
  refine ⟨fun h => ?_, by decide +kernel⟩
  have hknown := h.firstPartsKnown OneRelation.relationLaws ⟨.create (nameOf ["main", "t"]), List.mem_cons_self, rfl⟩
  rw [TableNameScramble.FirstPartsKnown, if_neg] at hknown
  · have hnamed : TableNameScramble.Named schemaTable.entry.entry.ast (⟨"t", ()⟩ : Ident Unit) :=
      ⟨nameOf ["t"], TableNameScramble.mem_scrambledRelations.2
        ⟨.select (nameOf ["t"]), List.mem_cons_of_mem _ List.mem_cons_self, Bool.false_ne_true,
          List.mem_cons_self⟩, rfl⟩
    have hmem : "main" ∈ ["t"] := hknown _ hnamed List.mem_cons_self
    simp at hmem
  · rintro (hshared | hnil)
    · exact hshared rfl
    · cases hnil

end Schema

end Lsf.Mutate
