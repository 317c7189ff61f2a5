import Lsf.Mutate.Credit

/-!
# The lineage of a child

A child of `mutate_batch` gets a new id and the id of its entry as its first parent. A strategy leaves the id alone; where
a rule takes something from another entry of the generation it adds the id of that entry to the parents, and no other
(`descends_breed`, by induction over the tree). So the children of a batch have the next ids, in order, and only parents
among the entries of the batch (`mutateEntries_born`).
-/

namespace Lsf.Mutate

open Lsf.Core Lsf.Lib Lsf.Feedback Lsf.Engine

variable {Stmt : Type}

/-- The id is the same, and the new parents are entries of the generation. -/
structure Descends (parentGen : List (Entry Stmt)) (entry entry' : Entry Stmt) : Prop where
  id : entry'.entry.id = entry.entry.id
  parents : ∃ more, (∀ i ∈ more, ∃ other ∈ parentGen, other.entry.id = i) ∧
    entry'.entry.parents = entry.entry.parents ++ more

section Rules

variable {parentGen : List (Entry Stmt)} {child : Child Stmt} {draws : List Draw}

theorem Descends.refl (entry : Entry Stmt) : Descends parentGen entry entry :=
  ⟨rfl, [], List.forall_mem_nil _, (List.append_nil _).symm⟩

theorem Descends.trans {entry entry' entry'' : Entry Stmt} (h : Descends parentGen entry entry')
    (h' : Descends parentGen entry' entry'') : Descends parentGen entry entry'' := by
  obtain ⟨more, hmore, hparents⟩ := h.parents
  obtain ⟨more', hmore', hparents'⟩ := h'.parents
  refine ⟨h'.id.trans h.id, more ++ more', fun i hi => ?_, ?_⟩
  · exact (List.mem_append.1 hi).elim (hmore i) (hmore' i)
  · rw [hparents', hparents, List.append_assoc]

/-- Writing to the AST does not matter. -/
theorem descends_setAst (child : Child Stmt) (ast : AST Stmt) : Descends parentGen child.entry (child.setAst ast).entry :=
  ⟨rfl, [], List.forall_mem_nil _, (List.append_nil _).symm⟩

theorem descends_pushParent {other : Entry Stmt} (hother : other ∈ parentGen) (child : Child Stmt) (ast : AST Stmt) :
    Descends parentGen child.entry ((child.setAst ast).pushParent other.entry.id).entry := by
  refine ⟨rfl, [other.entry.id], fun i hi => ?_, rfl⟩
  exact ⟨other, hother, (List.mem_singleton.1 hi).symm⟩

/-- A rule that makes a descendant of the child. -/
def Breeds (parentGen : List (Entry Stmt)) (child : Child Stmt) (rule : Rng (Report × Child Stmt)) : Prop :=
  ∀ draws, Prog.Ensures rule draws fun r _ => Descends parentGen child.entry r.2.entry

theorem breeds_pure (r : Report) : Breeds parentGen child (pure (r, child)) :=
  fun _ => Prog.ensures_pure (.refl _)

theorem breeds_setAst (r : Report) (ast : AST Stmt) : Breeds parentGen child (pure (r, child.setAst ast)) :=
  fun _ => Prog.ensures_pure (descends_setAst child ast)

theorem breeds_pushParent {other : Entry Stmt} (hother : other ∈ parentGen) (r : Report) (ast : AST Stmt) :
    Breeds parentGen child (pure (r, (child.setAst ast).pushParent other.entry.id)) :=
  fun _ => Prog.ensures_pure (descends_pushParent hother child ast)

theorem breeds_then {α : Type} {x : Rng α} {f : α → Rng (Report × Child Stmt)}
    (h : ∀ a, Breeds parentGen child (f a)) : Breeds parentGen child (x >>= f) :=
  fun _ => Prog.ensures_then fun a draws => h a draws

/-- An entry of the generation is drawn. -/
theorem breeds_choose {f : Entry Stmt → Rng (Report × Child Stmt)}
    (h : ∀ other ∈ parentGen, Breeds parentGen child (f other)) :
    Breeds parentGen child (Rng.choose parentGen >>= f) :=
  fun _ => Prog.ensures_bind (mem_of_choose parentGen) fun other draws hother => h other hother draws

theorem breeds_withAst {rule : AST Stmt → Rng (Report × Child Stmt)} (h : ∀ ast, Breeds parentGen child (rule ast)) :
    Breeds parentGen child (withAst child rule) := by
  unfold withAst
  split
  · exact breeds_pure _
  · exact h _

theorem breeds_visiting {Node : Type} (v : Visitor (AST Stmt) Node) (f : Closure Node) :
    Breeds parentGen child (visiting v f child) :=
  breeds_withAst fun _ => breeds_then fun _ => breeds_setAst _ _

/-! ## The rules -/

theorem SpliceIn.breeds (rule : SpliceIn) : Breeds parentGen child (rule.breedInner child parentGen) := by
  refine breeds_withAst fun childAst => breeds_choose fun other hother => ?_
  dsimp only
  split
  · exact breeds_pure _
  · refine breeds_then fun randomStart => breeds_then fun spliceLen => ?_
    split
    · exact breeds_pure _
    · exact breeds_then fun randomInsert => breeds_pushParent hother _ _

theorem SpliceOut.breeds (rule : SpliceOut) : Breeds parentGen child (rule.breedInner child) := by
  refine breeds_withAst fun childAst => ?_
  split
  · exact breeds_pure _
  · refine breeds_then fun randomStart => breeds_then fun spliceLen => ?_
    dsimp only
    split
    · exact breeds_pure _
    · exact breeds_setAst _ _

variable [Sqlparser Stmt]

open Sqlparser

theorem SetOps.breeds (rule : SetOps) : Breeds parentGen child (rule.breedInner child parentGen) := by
  refine breeds_withAst fun childAst => breeds_choose fun other hother => ?_
  dsimp only
  split
  · exact breeds_pure _
  · split
    · exact breeds_pure _
    · refine breeds_then fun op => breeds_then fun all => breeds_then fun rq => breeds_then fun lq => ?_
      exact breeds_then fun rd => breeds_pushParent hother _ _

theorem ExprShuffle.breeds (rule : ExprShuffle) : Breeds parentGen child (rule.breedInner child parentGen) := by
  refine breeds_withAst fun childAst => breeds_choose fun rdDonor hdonor => ?_
  dsimp only
  split
  · exact breeds_pure _
  · refine breeds_then fun r => ?_
    split
    · exact breeds_pushParent hdonor _ _
    · exact breeds_setAst _ _

theorem RelShuffle.breeds (rule : RelShuffle) : Breeds parentGen child (rule.breedInner child) := by
  refine breeds_withAst fun childAst => ?_
  dsimp only
  split
  · exact breeds_pure _
  · exact breeds_then fun r => breeds_setAst _ _

theorem ForceIdent.breeds (rule : ForceIdent) : Breeds parentGen child (rule.breedInner child) := by
  refine breeds_withAst fun childAst => ?_
  dsimp only
  split
  · exact breeds_pure _
  · exact breeds_then fun rdIdent => breeds_then fun r => breeds_setAst _ _

theorem TableNameScramble.breeds (rule : TableNameScramble) : Breeds parentGen child (rule.breedInner child) := by
  refine breeds_withAst fun childAst => ?_
  dsimp only
  split
  · exact breeds_pure _
  · exact breeds_then fun r => breeds_setAst _ _

omit [Sqlparser Stmt] in
theorem ArbitraryGenerator.breeds {Node : Type} (T : AstNode (AST Stmt) Node) (rule : ArbitraryGenerator) :
    Breeds parentGen child (rule.breedInner T child) := by
  refine breeds_withAst fun childAst => ?_
  dsimp only
  split
  · exact breeds_pure _
  · exact breeds_then fun targetIndex => breeds_then fun r => breeds_setAst _ _

omit [Sqlparser Stmt] in
theorem ensures_shuffleAcross {Node : Type} (T : AstNode (AST Stmt) Node) {donor : Entry Stmt}
    (hdonor : donor ∈ parentGen) (chancePerNode chancePerField : ℚ) :
    Prog.Ensures (shuffleAcross T child donor.entry chancePerNode chancePerField) draws fun r _ =>
      Descends parentGen child.entry r.2.entry := by
  unfold shuffleAcross
  split
  · exact Prog.ensures_pure (.refl _)
  · dsimp only
    split
    · exact Prog.ensures_pure (.refl _)
    · refine Prog.ensures_then fun r _ => ?_
      split
      · exact Prog.ensures_pure (descends_pushParent hdonor child _)
      · exact Prog.ensures_pure (descends_setAst child _)

omit [Sqlparser Stmt] in
/-- The donor is the child itself only where nothing is shuffled. -/
theorem TreeMutator.breeds {Node : Type} (T : AstNode (AST Stmt) Node) (rule : TreeMutator) :
    Breeds parentGen child (rule.breedInner T child parentGen) := by
  unfold TreeMutator.breedInner
  split
  · refine breeds_choose fun rdDonor hdonor draws => ?_
    exact Prog.ensures_bind (ensures_shuffleAcross T hdonor _ _) fun r _ hr => Prog.ensures_pure hr
  · rw [shuffleAcross_shared T _ _ _ (Nat.succ_ne_zero child.sharers)]
    exact breeds_pure _
  · exact breeds_visiting _ _

/-- **Every rule makes a descendant of the child.** -/
theorem Leaf.breeds (leaf : Leaf) : Breeds parentGen child (leaf.breedInner child parentGen) := by
  cases leaf with
  | noop => exact breeds_pure _
  | spliceIn rule => exact rule.breeds
  | subQuery rule => exact breeds_visiting _ _
  | setOps rule => exact rule.breeds
  | spliceOut rule => exact rule.breeds
  | hoistExpr rule => exact breeds_visiting _ _
  | exprShuffle rule => exact rule.breeds
  | relShuffle rule => exact rule.breeds
  | numericBounds rule => exact breeds_visiting _ _
  | operatorFlip rule => exact breeds_visiting _ _
  | nullInject rule => exact breeds_visiting _ _
  | typeCast rule => exact breeds_visiting _ _
  | forceIdent rule => exact rule.breeds
  | tableNameScramble rule => exact rule.breeds
  | tableGuard rule => exact breeds_visiting _ _
  | recursiveExpandExpr rule => exact breeds_visiting _ _
  | treeMutator T rule =>
    cases T with
    | statement => exact rule.breeds statements
    | expr => exact rule.breeds expressions
  | arbitraryGenerator T rule =>
    cases T with
    | statement => exact rule.breeds statements
    | expr => exact rule.breeds expressions

end Rules

/-! ## Strategies -/

section Strategies

variable {H : Type} [BinaryHeap H RuleItem] [BinaryHeap.LawfulBinaryHeap H (SchedueldItem.score (T := Nat))]
  [FloatFns ℚ] [FloatExp ℚ] [Sqlparser Stmt] {parentGen : List (Entry Stmt)}

/-- The child of one scene and that of a later one. -/
structure Lineal (parentGen : List (Entry Stmt)) (σ σ' : Scene H Stmt) : Prop where
  child : Descends parentGen σ.child.entry σ'.child.entry

instance : IsPreorder (Scene H Stmt) (Lineal parentGen) where
  refl _ := ⟨.refl _⟩
  trans _ _ _ h h' := ⟨h.child.trans h'.child⟩

omit [BinaryHeap.LawfulBinaryHeap H SchedueldItem.score] [FloatExp ℚ] [Sqlparser Stmt] in
/-- Between the rules only hooks are attached to the child. -/
theorem interludes_lineal :
    Interludes (fun _ : Scene H Stmt => True) (Lineal parentGen) (fun _ => True) (fun _ => True) where
  draw _ _ _ := ⟨trivial, ⟨.refl _⟩⟩
  calculateScore _ _ _ := ⟨trivial, ⟨.refl _⟩⟩
  onMutate _ _ _ _ _ := ⟨trivial, ⟨.refl _⟩⟩
  attachHook _ _ _ _ := ⟨trivial, ⟨rfl, [], List.forall_mem_nil _, (List.append_nil _).symm⟩⟩
  items _ _ _ _ _ _ := trivial
  setQueue _ _ _ _ _ _ := ⟨trivial, ⟨.refl _⟩⟩

omit [BinaryHeap H RuleItem] [BinaryHeap.LawfulBinaryHeap H SchedueldItem.score] [FloatFns ℚ] [FloatExp ℚ] in
theorem moves_breedLeaf_lineal (leaf : Leaf) :
    Primitives.Moving (fun _ : Scene H Stmt => True) (Lineal parentGen) (breedLeaf parentGen leaf) := by
  intro σ _
  refine Prog.ensures_bind (R := fun _ σ' => Lineal parentGen σ σ') (fun r σ' hx => ?_) fun r σ₁ h₁ => ?_
  · obtain ⟨⟨⟨r', child⟩, draws⟩, hbreed, heq⟩ := Option.map_eq_some_iff.1 hx
    cases heq
    exact ⟨leaf.breeds σ.draws _ _ hbreed⟩
  · refine Prog.ensures_bind (fireParentHooks_spec (hookOutcome r) σ₁) fun _ σ₂ h₂ => ?_
    refine Prog.ensures_pure ⟨trivial, ⟨?_⟩, trivial⟩
    rw [h₂.1]
    exact h₁.child

/-- **A strategy makes a descendant of the child**, by induction over the tree. -/
theorem descends_breed {p : Planted H} {child : Entry Stmt} {h : Bandits} {draws : List Draw} {b : Bred (Planted H) Stmt}
    (hb : MutationStrategy.breed p child parentGen h draws = some b) : Descends parentGen child b.child := by
  obtain ⟨⟨r, σ⟩, hbreed, rfl⟩ := Option.map_eq_some_iff.1 hb
  have hmoves : Primitives.Moving (fun _ : Scene H Stmt => True) (Lineal parentGen) (p.strategy.breed parentGen) :=
    interludes_lineal.moves_breed moves_breedLeaf_lineal p.strategy (fun _ _ => trivial) fun _ _ => trivial
  exact (hmoves (p.scene child h draws) trivial r σ hbreed).2.1.child

theorem descends_breedAll {strategies strategies' : List (Planted H)} {state state' : MutationState}
    {child child' : Entry Stmt} {h h' : Bandits} {draws draws' : List Draw}
    (hbreed : breedAll parentGen strategies state child h draws = some (state', child', strategies', h', draws')) :
    Descends parentGen child child' := by
  induction strategies generalizing strategies' state child h draws with
  | nil =>
    cases hbreed
    exact .refl _
  | cons p strategies ih =>
    obtain ⟨b, hb, hbreed⟩ := Option.bind_eq_some_iff.1 hbreed
    obtain ⟨⟨state₁, child₁, strategies₁, h₁, draws₁⟩, hrest, hbreed⟩ := Option.bind_eq_some_iff.1 hbreed
    cases hbreed
    exact (descends_breed hb).trans (ih hrest)

/-! ## The children of a batch -/

/-- A child of an entry: the id is the given one, the entry is the first parent and the others are of the generation. -/
structure Born (parentGen : List (Entry Stmt)) (entry : Entry Stmt) (id : ID) (child : Entry Stmt) : Prop where
  id : child.entry.id = id
  parents : ∃ more, (∀ i ∈ more, ∃ other ∈ parentGen, other.entry.id = i) ∧
    child.entry.parents = entry.entry.id :: more

theorem mutateEntry_born {entry : Entry Stmt} {σ σ' : Breeding (Planted H)} {child : Option (Entry Stmt)}
    (h : mutateEntry parentGen entry σ = some (child, σ')) :
    σ'.currentId = σ.currentId + 1 ∧ ∀ c ∈ child, Born parentGen entry ⟨σ.currentId⟩ c := by
  obtain ⟨⟨state, c, strategies, bandits, draws⟩, hbreed, h⟩ := Option.bind_eq_some_iff.1 h
  cases h
  refine ⟨rfl, fun c' hc => ?_⟩
  have hdescends := descends_breedAll hbreed
  split at hc
  · cases hc
    obtain ⟨more, hmore, hparents⟩ := hdescends.parents
    exact ⟨hdescends.id, more, hmore, hparents⟩
  · cases hc

/-- The ids that are allotted after the first `n`. -/
def nextIds (n count : Nat) : List ID := (List.range' n count).map fun k => ⟨UInt32.ofNat k⟩

/-- **The children have the next ids, in order**: one is taken for each entry, whether it has a child or not. -/
theorem mutateEntries_born {entries children : List (Entry Stmt)} {σ σ' : Breeding (Planted H)} {n : Nat}
    (hn : σ.currentId = UInt32.ofNat n) (h : mutateEntries parentGen entries σ = some (children, σ')) :
    σ'.currentId = UInt32.ofNat (n + entries.length) ∧
      (children.map fun c => c.entry.id).Sublist (nextIds n entries.length) ∧
      ∀ c ∈ children, ∃ k entry, n ≤ k ∧ k < n + entries.length ∧ entry ∈ entries ∧
        Born parentGen entry ⟨UInt32.ofNat k⟩ c := by
  induction entries generalizing children σ n with
  | nil =>
    cases h
    exact ⟨hn, List.Sublist.refl _, List.forall_mem_nil _⟩
  | cons entry entries ih =>
    obtain ⟨⟨child, σ₁⟩, hfirst, h⟩ := Option.bind_eq_some_iff.1 h
    obtain ⟨⟨rest, σ₂⟩, hrest, h⟩ := Option.bind_eq_some_iff.1 h
    cases h
    obtain ⟨hnext, hborn⟩ := mutateEntry_born hfirst
    have hn₁ : σ₁.currentId = UInt32.ofNat (n + 1) := by rw [hnext, hn, UInt32.ofNat_add]; rfl
    obtain ⟨hend, hids, hall⟩ := ih hn₁ hrest
    rw [hn] at hborn
    refine ⟨?_, ?_, fun c hc => ?_⟩
    · rw [hend, List.length_cons]
      congr 1
      omega
    · rw [List.map_append, nextIds, List.length_cons, List.range'_succ, List.map_cons]
      cases child with
      | none => exact hids.cons _
      | some c => exact ((hborn c rfl).id ▸ hids.cons_cons _)
    · rcases List.mem_append.1 hc with hc | hc
      · refine ⟨n, entry, le_rfl, ?_, List.mem_cons_self, hborn c (Option.mem_toList.1 hc)⟩
        rw [List.length_cons]
        omega
      · obtain ⟨k, e, hle, hlt, he, hc⟩ := hall c hc
        refine ⟨k, e, by omega, ?_, List.mem_cons_of_mem _ he, hc⟩
        rw [List.length_cons]
        omega

end Strategies

end Lsf.Mutate
