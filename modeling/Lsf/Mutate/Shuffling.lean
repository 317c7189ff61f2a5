import Lsf.Mutate.Parts
import Lsf.Mutate.Tree

/-!
# Shuffling a tree with itself

`FieldOperation::ShuffleSelf` clones the child to have a donor. The clone shares the AST, `ast_mut` gives a shared AST
to nobody, and so the rule leaves every child as it is. With a donor that holds a copy of the AST the same rule mutates,
unless it has no node to work on or never hits one (`agreesWithCopy_iff`).
-/

namespace Lsf.Mutate

open Lsf.Core Lsf.Lib Lsf.Feedback Lsf.Engine

variable {Stmt Node : Type}

/-! ## Owners -/

namespace Child

/-- `Arc::strong_count` of the AST. -/
def strongCount (child : Child Stmt) : Nat := child.sharers + 1

/-- `clone`: the child and its clone, which share the AST. -/
def clone (child : Child Stmt) : Child Stmt × Child Stmt :=
  ({ child with sharers := child.sharers + 1 }, { child with sharers := child.sharers + 1 })

/-- The child after another owner of its AST was dropped. -/
def dropOwner (child : Child Stmt) : Child Stmt := { child with sharers := child.sharers - 1 }

theorem strongCount_clone (child : Child Stmt) : child.clone.1.strongCount = child.strongCount + 1 := rfl

theorem dropOwner_clone (child : Child Stmt) : child.clone.1.dropOwner = child := rfl

/-- `ast_mut` returns nothing exactly if the AST has more than one owner. -/
theorem astMut_eq_none_iff (child : Child Stmt) : child.astMut = none ↔ 1 < child.strongCount := by
  unfold astMut strongCount
  split <;> simp <;> omega

end Child

/-! ## With itself -/

namespace TreeMutator

theorem breedInner_shuffleSelf (T : AstNode (AST Stmt) Node) (chancePerNode chancePerField : ℚ) (child : Child Stmt)
    (parentGen : List (Entry Stmt)) :
    (⟨chancePerNode, chancePerField, .shuffleSelf⟩ : TreeMutator).breedInner T child parentGen = (do
      let (state, parent) ← shuffleAcross T child.clone.1 child.clone.2.entry.entry chancePerNode chancePerField
      pure (.ok state, parent.dropOwner)) := rfl

/-- **Shuffling a tree with itself does nothing.** -/
theorem shuffleSelf_unchanged (T : AstNode (AST Stmt) Node) (chancePerNode chancePerField : ℚ) (child : Child Stmt)
    (parentGen : List (Entry Stmt)) :
    (⟨chancePerNode, chancePerField, .shuffleSelf⟩ : TreeMutator).breedInner T child parentGen =
      pure (.ok .unchanged, child) := by
  rw [breedInner_shuffleSelf, shuffleAcross_shared _ _ _ _ (Nat.succ_ne_zero child.sharers)]
  rfl

/-- Shuffling with itself agrees with shuffling with a donor: whatever was drawn, the latter can still return, and where
it returns, both return the same state and the same AST. -/
structure AgreesWith (T : AstNode (AST Stmt) Node) (rule : TreeMutator) (child : Child Stmt)
    (parentGen : List (Entry Stmt)) (donor : RawEntry Stmt) : Prop where
  returns : ∀ draws, ∃ more,
    (shuffleAcross T child donor rule.chancePerNode rule.chancePerField (draws ++ more)).isSome
  agrees : ∀ draws state shuffled rest,
    shuffleAcross T child donor rule.chancePerNode rule.chancePerField draws = some ((state, shuffled), rest) →
      ∃ child' rest', rule.breedInner T child parentGen draws = some ((.ok state, child'), rest') ∧
        child'.entry.entry.ast = shuffled.entry.entry.ast

end TreeMutator

/-! ## With a copy -/

section Copy

variable {T : AstNode (AST Stmt) Node} {child : Child Stmt} {donor : RawEntry Stmt} {chancePerNode chancePerField : ℚ}

/-- A node among the nodes of the donor can be hit and mixed with itself, unless that panics. -/
theorem shuffleClosure_self (hT : T.Lawful) {donorNodes : List Node} {node : Node} (hnode : node ∈ donorNodes)
    (h0 : 0 < chancePerNode) (h1 : chancePerNode ≤ 1) (isMutated : Bool) :
    (shuffleClosure T donorNodes chancePerNode chancePerField node isMutated).Possible (node, true, .goOn) ∨
      (shuffleClosure T donorNodes chancePerNode chancePerField node isMutated).MayPanic := by
  have hdonor : node ∈ donorNodes.filter fun n => T.discriminant n == T.discriminant node :=
    List.mem_filter.2 ⟨hnode, beq_self_eq_true _⟩
  obtain ⟨json, hjson, hkeyed⟩ := hT.serializes node
  unfold shuffleClosure
  refine (Rng.possible_hit h0 h1).bind_or ?_
  rw [if_pos rfl]
  dsimp only
  rw [if_neg (by simpa using List.ne_nil_of_mem hdonor)]
  refine (Rng.possible_choose hdonor).bind_or ?_
  rw [hjson]
  refine (swapRandomFields_self chancePerField hkeyed).imp (fun hswap => hswap.bind ?_) Rng.MayPanic.bind
  rw [hT.deserializes node json hjson]
  exact Rng.possible_pure _

/-- At chance zero the closure reads one draw for each node, and leaves all as it is. -/
theorem shuffleClosure_zero (T : AstNode (AST Stmt) Node) (donorNodes : List Node) (chancePerField : ℚ) (node : Node)
    (isMutated : Bool) (u : Draw) (draws : List Draw) :
    shuffleClosure T donorNodes 0 chancePerField node isMutated (u :: draws) =
      some ((node, isMutated, .goOn), draws) := by
  unfold shuffleClosure
  rw [Prog.bind_apply, Rng.bool_zero]
  rfl

/-- The visit of an AST that can be written to. -/
theorem shuffleAcross_owned (hown : child.sharers = 0) (hne : T.visit donor.ast ≠ []) :
    shuffleAcross T child donor chancePerNode chancePerField = (do
      let (ast, isMutated) ← (T.visitMut child.entry.entry.ast).run
        (shuffleClosure T (T.visit donor.ast) chancePerNode chancePerField) false
      if isMutated then pure (.mutated, (child.setAst ast).pushParent donor.id)
      else pure (.unchanged, child.setAst ast)) := by
  unfold shuffleAcross Child.astMut
  rw [if_pos hown]
  dsimp only
  rw [if_neg (by simpa using hne)]

/-- A visit whose first node is hit and mixed with itself ends as mutated. -/
theorem ensures_mutated (hown : child.sharers = 0) {node : Node} {next : Node → Visit Node (AST Stmt)}
    (hvisit : T.visitMut child.entry.entry.ast = .node node next) (hne : T.visit donor.ast ≠ [])
    {draws more : List Draw}
    (hfirst : shuffleClosure T (T.visit donor.ast) chancePerNode chancePerField node false draws =
      some ((node, true, .goOn), more)) :
    Prog.Ensures (shuffleAcross T child donor chancePerNode chancePerField) draws fun r _ => r.1 = .mutated := by
  rw [shuffleAcross_owned hown hne, hvisit]
  refine Prog.ensures_bind (R := fun r _ => r.2 = true) ?_ fun r _ hr => ?_
  · intro r rest hrun
    rw [Visit.run, Prog.bind_apply, hfirst, Option.bind_some] at hrun
    by_contra hdown
    have hquiet := Visit.ensures_run (fun isMutated => isMutated = false)
      (flagged_shuffleClosure T (T.visit donor.ast) chancePerNode chancePerField) (next node) true more r rest hrun
    exact Bool.false_ne_true (hquiet (by simpa using hdown)).1.symm
  · dsimp only
    rw [if_pos hr]
    exact Prog.ensures_pure rfl

/-- **With a node and a chance the two disagree**: the copy is shuffled, or that panics. -/
theorem not_agreesWith (hT : T.Lawful) (hown : child.sharers = 0) (hcopy : donor.ast = child.entry.entry.ast)
    (parentGen : List (Entry Stmt)) (hne : T.visit child.entry.entry.ast ≠ []) (hchance : chancePerNode ≠ 0) :
    ¬(⟨chancePerNode, chancePerField, .shuffleSelf⟩ : TreeMutator).AgreesWith T child parentGen donor := by
  intro h
  have hshown := hT.shown child.entry.entry.ast
  cases hvisit : T.visitMut child.entry.entry.ast with
  | done ast =>
    rw [hvisit] at hshown
    exact hne (List.nil_perm.1 hshown)
  | node node next =>
    have hnode : node ∈ T.visit donor.ast := by
      rw [hcopy, ← hshown.mem_iff, hvisit]
      exact List.mem_cons_self
    have hdonor : T.visit donor.ast ≠ [] := List.ne_nil_of_mem hnode
    have hfirst : (shuffleClosure T (T.visit donor.ast) chancePerNode chancePerField node false).Possible
        (node, true, .goOn) ∨
        (shuffleClosure T (T.visit donor.ast) chancePerNode chancePerField node false).MayPanic := by
      by_cases hunit : 0 ≤ chancePerNode ∧ chancePerNode ≤ 1
      · exact shuffleClosure_self hT hnode (lt_of_le_of_ne hunit.1 hchance.symm) hunit.2 false
      · exact .inr (Rng.mayPanic_bool hunit).bind
    obtain ⟨draws, hdraws⟩ | hpanic := hfirst
    · obtain ⟨more, hreturn⟩ := h.returns draws
      obtain ⟨⟨⟨state, shuffled⟩, rest⟩, hr⟩ := Option.isSome_iff_exists.1 hreturn
      have hmutated : state = .mutated := ensures_mutated hown hvisit hdonor (hdraws more) _ _ hr
      obtain ⟨child', rest', hself, -⟩ := h.agrees _ _ _ _ hr
      rw [TreeMutator.shuffleSelf_unchanged] at hself
      cases hself
      cases hmutated
    · have hacross : (shuffleAcross T child donor chancePerNode chancePerField).MayPanic := by
        rw [shuffleAcross_owned hown hdonor, hvisit]
        exact hpanic.bind.bind
      obtain ⟨draws, hnone⟩ := hacross
      obtain ⟨more, hreturn⟩ := h.returns draws
      rw [hnone] at hreturn
      cases hreturn

/-- Without a node, or without a chance, the copy stays as it is, at one draw for each node. -/
theorem shuffleAcross_idle (hT : T.Lawful) (hown : child.sharers = 0) (hcopy : donor.ast = child.entry.entry.ast)
    (h : T.visit child.entry.entry.ast = [] ∨ chancePerNode = 0) (draws : List Draw) :
    shuffleAcross T child donor chancePerNode chancePerField draws =
      if (T.visit child.entry.entry.ast).length ≤ draws.length then
        some ((.unchanged, child), draws.drop (T.visit child.entry.entry.ast).length)
      else none := by
  by_cases hne : T.visit child.entry.entry.ast = []
  · unfold shuffleAcross Child.astMut
    rw [if_pos hown, hcopy, hne]
    rfl
  · obtain rfl := h.resolve_left hne
    rw [shuffleAcross_owned hown (by rwa [hcopy]), Prog.bind_apply,
      Visit.run_idle (fun _ _ => rfl) (shuffleClosure_zero T (T.visit donor.ast) chancePerField),
      (hT.shown _).length_eq, T.rest_visitMut]
    split
    · rfl
    · rfl

/-- **Without a node, or without a chance, the two agree.** -/
theorem agreesWith_of_idle (hT : T.Lawful) (hown : child.sharers = 0) (hcopy : donor.ast = child.entry.entry.ast)
    (parentGen : List (Entry Stmt)) (h : T.visit child.entry.entry.ast = [] ∨ chancePerNode = 0) :
    (⟨chancePerNode, chancePerField, .shuffleSelf⟩ : TreeMutator).AgreesWith T child parentGen donor where
  returns draws := by
    refine ⟨List.replicate (T.visit child.entry.entry.ast).length Draw.zero, ?_⟩
    rw [shuffleAcross_idle hT hown hcopy h, if_pos]
    · rfl
    · rw [List.length_append, List.length_replicate]
      exact Nat.le_add_left _ _
  agrees draws state shuffled rest hr := by
    rw [shuffleAcross_idle hT hown hcopy h] at hr
    split at hr
    · cases hr
      refine ⟨child, draws, ?_, rfl⟩
      rw [TreeMutator.shuffleSelf_unchanged]
      rfl
    · cases hr

/-- **Shuffling a tree with itself agrees with shuffling it with a copy** exactly if there is no node to shuffle, or no
node is ever hit. -/
theorem agreesWithCopy_iff (hT : T.Lawful) (hown : child.sharers = 0) (hcopy : donor.ast = child.entry.entry.ast)
    (parentGen : List (Entry Stmt)) (chancePerNode chancePerField : ℚ) :
    (⟨chancePerNode, chancePerField, .shuffleSelf⟩ : TreeMutator).AgreesWith T child parentGen donor ↔
      T.visit child.entry.entry.ast = [] ∨ chancePerNode = 0 := by
  constructor
  · intro h
    by_contra hbusy
    obtain ⟨hne, hchance⟩ := not_or.1 hbusy
    exact not_agreesWith hT hown hcopy parentGen hne hchance h
  · exact agreesWith_of_idle hT hown hcopy parentGen

end Copy

/-! ## Two statements -/

/-- The statement `COMMIT`, with or without `AND CHAIN`, and its value. -/
def commits : AstNode (AST Bool) Bool where
  toVisitor := .elements
  discriminant _ := 0
  toValue chain := some (.object [("Commit", .object [("chain", .bool chain)])])
  fromValue
    | .object [("Commit", .object [("chain", .bool chain)])] => some chain
    | _ => none
  arbitrary _ := none

theorem commits_lawful : commits.Lawful where
  shown ast := .of_eq (Visit.shown_elements ast)
  serializes chain := by
    refine ⟨_, rfl, Json.keyed_of_parts (fun m hm => ?_) fun v hv => ?_⟩
    · cases hm
      exact List.nodup_singleton _
    · cases hv with
      | field hv =>
        cases List.mem_singleton.1 hv
        refine Json.keyed_of_parts (fun m hm => ?_) fun v hv => ?_
        · cases hm
          exact List.nodup_singleton _
        · cases hv with
          | field hv =>
            cases List.mem_singleton.1 hv
            exact Json.keyed_of_parts (fun m hm => nomatch hm) fun v hv => nomatch hv
  deserializes chain json h := by
    cases h
    rfl

/-- `COMMIT AND CHAIN; COMMIT`, with one owner. -/
def commitTwice : Child Bool := ⟨⟨⟨⟨1⟩, [], [true, false]⟩, [], []⟩, 0⟩

/-- An entry of its own with the same AST. -/
def commitCopy : RawEntry Bool := ⟨⟨2⟩, [], [true, false]⟩

theorem agreesWithCopy_iff_commits :
    (⟨0, 1, .shuffleSelf⟩ : TreeMutator).AgreesWith commits commitTwice [] commitCopy ∧
      ¬(⟨1, 0, .shuffleSelf⟩ : TreeMutator).AgreesWith commits commitTwice [] commitCopy := by
  have hown : commitTwice.sharers = 0 := rfl
  have hcopy : commitCopy.ast = commitTwice.entry.entry.ast := rfl
  constructor
  · exact (agreesWithCopy_iff commits_lawful hown hcopy [] 0 1).2 (.inr rfl)
  · intro h
    obtain hnone | hzero := (agreesWithCopy_iff commits_lawful hown hcopy [] 1 0).1 h
    · cases hnone
    · exact one_ne_zero hzero

/-- **The copy is shuffled and the child is not**, on the same draws. -/
theorem copy_shuffled_self_unchanged :
    let draws : List Draw := [.zero, ⟨1 / 2, by norm_num, by norm_num⟩, .zero, .zero, .zero, .zero]
    commitTwice.sharers = 0 ∧ commitCopy.ast = commitTwice.entry.entry.ast ∧
      (shuffleAcross commits commitTwice commitCopy 1 1 draws).map (fun r => (r.1.1, r.1.2.entry.entry.ast)) =
        some (.mutated, [false, true]) ∧
      ((⟨1, 1, .shuffleSelf⟩ : TreeMutator).breedInner commits commitTwice [] draws).map
        (fun r => (r.1.1, r.1.2.entry.entry.ast)) = some (.ok .unchanged, [true, false]) := by
  decide +kernel

end Lsf.Mutate
