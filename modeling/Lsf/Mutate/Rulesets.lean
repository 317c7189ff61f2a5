import Lsf.Mutate.Breeding
import Lsf.Mutate.Credit

/-!
# The rulesets that are shipped

`mutate_batch` returns when its strategies are valid (`mutateEntries_returns`). The strategies of `main.py`, which it
puts together from `rules.py`, and the rulesets of the dry runs are: their chances are chances, and every scheduler has
been given its rules (`shipped_valid`). So no draw of the random source lets any of them panic.
-/

namespace Lsf.Mutate

open Lsf.Core Lsf.Lib Lsf.Cov Lsf.Feedback Lsf.Engine

/-! ## The loops of `mutate_batch` -/

section Loops

variable {H Stmt : Type} [BinaryHeap H RuleItem] [FloatFns ℚ] [FloatExp ℚ] [Sqlparser Stmt]

/-- A valid strategy, with queues that hold positions of its rules. -/
def Planted.Fit (p : Planted H) : Prop :=
  ∃ inRange : Positions, p.strategy.Valid inRange ∧ Filled inRange p.queues

variable [BinaryHeap.LawfulBinaryHeap H (SchedueldItem.score (T := Nat))] {nextBatch : List (Entry Stmt)}

/-- A call that returns returns the same with more draws behind. -/
theorem Planted.breed_more {p : Planted H} {child : Entry Stmt} {h : Bandits} {draws : List Draw}
    {b : Bred (Planted H) Stmt} (hbatch : nextBatch ≠ []) (hp : p.Fit)
    (hb : MutationStrategy.breed p child nextBatch h draws = some b) (more : List Draw) :
    MutationStrategy.breed p child nextBatch h (draws ++ more) = some { b with draws := b.draws ++ more } := by
  obtain ⟨inRange, hvalid, -⟩ := hp
  obtain ⟨⟨r, σ⟩, hbreed, rfl⟩ := Option.map_eq_some_iff.1 hb
  have hreturning := Strategy.returning_breed (H := H) hbatch p.strategy hvalid
  exact congrArg (Option.map _) (hreturning.streams (p.scene child h draws) r σ hbreed more)

/-- A call can return, whatever was drawn, and the strategy is fit again. -/
theorem Planted.exists_breed {p : Planted H} (hbatch : nextBatch ≠ []) (hp : p.Fit) (child : Entry Stmt) (h : Bandits)
    (draws : List Draw) : ∃ more, ∃ b : Bred (Planted H) Stmt,
      MutationStrategy.breed p child nextBatch h (draws ++ more) = some b ∧ b.strategy.Fit := by
  obtain ⟨inRange, hvalid, hfilled⟩ := hp
  have hreturning := Strategy.returning_breed (H := H) hbatch p.strategy hvalid
  obtain ⟨more, r, σ, hbreed, hσ, -⟩ := hreturning.answers (p.scene child h draws) hfilled
  exact ⟨more, _, congrArg (Option.map _) hbreed, inRange, hvalid, hσ⟩

theorem breedAll_more {strategies strategies' : List (Planted H)} {state state' : MutationState}
    {child child' : Entry Stmt} {h h' : Bandits} {draws draws' : List Draw} (hbatch : nextBatch ≠ [])
    (hfit : ∀ p ∈ strategies, p.Fit)
    (hbreed : breedAll nextBatch strategies state child h draws = some (state', child', strategies', h', draws'))
    (more : List Draw) : breedAll nextBatch strategies state child h (draws ++ more) =
      some (state', child', strategies', h', draws' ++ more) := by
  induction strategies generalizing strategies' state child h draws with
  | nil =>
    cases hbreed
    rfl
  | cons p strategies ih =>
    obtain ⟨b, hb, hbreed⟩ := Option.bind_eq_some_iff.1 hbreed
    obtain ⟨⟨state₁, child₁, strategies₁, h₁, draws₁⟩, hrest, hbreed⟩ := Option.bind_eq_some_iff.1 hbreed
    cases hbreed
    have hb' := Planted.breed_more hbatch (hfit p List.mem_cons_self) hb more
    have hrest' := ih (fun q hq => hfit q (List.mem_cons_of_mem _ hq)) hrest
    refine Option.bind_eq_some_iff.2 ⟨_, hb', ?_⟩
    exact Option.bind_eq_some_iff.2 ⟨_, hrest', rfl⟩

theorem exists_breedAll {strategies : List (Planted H)} (hbatch : nextBatch ≠ []) (hfit : ∀ p ∈ strategies, p.Fit)
    (state : MutationState) (child : Entry Stmt) (h : Bandits) (draws : List Draw) :
    ∃ more state' child' strategies' h' draws', breedAll nextBatch strategies state child h (draws ++ more) =
      some (state', child', strategies', h', draws') ∧ ∀ p ∈ strategies', p.Fit := by
  induction strategies generalizing state child h draws with
  | nil => exact ⟨[], state, child, [], h, draws ++ [], rfl, List.forall_mem_nil _⟩
  | cons p strategies ih =>
    have hp := hfit p List.mem_cons_self
    obtain ⟨first, b, hb, hfit'⟩ := Planted.exists_breed hbatch hp child h draws
    obtain ⟨second, state', child', strategies', h', draws', hrest, hall⟩ :=
      ih (fun q hq => hfit q (List.mem_cons_of_mem _ hq)) (MutationState.after state b.result) b.child b.bandits b.draws
    refine ⟨first ++ second, state', child', b.strategy :: strategies', h', draws', ?_, ?_⟩
    · rw [← List.append_assoc]
      refine Option.bind_eq_some_iff.2 ⟨_, Planted.breed_more hbatch hp hb second, ?_⟩
      exact Option.bind_eq_some_iff.2 ⟨_, hrest, rfl⟩
    · exact List.forall_mem_cons.2 ⟨hfit', hall⟩

theorem exists_mutateEntries (hbatch : nextBatch ≠ []) (entries : List (Entry Stmt)) (σ : Breeding (Planted H))
    (hfit : ∀ p ∈ σ.strategies, p.Fit) : ∃ more children σ',
      mutateEntries nextBatch entries { σ with draws := σ.draws ++ more } = some (children, σ') ∧
        ∀ p ∈ σ'.strategies, p.Fit := by
  induction entries generalizing σ with
  | nil => exact ⟨[], [], _, rfl, hfit⟩
  | cons entry entries ih =>
    have hchild := exists_breedAll hbatch hfit .unchanged
      (⟨⟨(ID.next σ.currentId).1, [entry.entry.id], entry.entry.ast⟩, [], entry.appliedRuleStats⟩ : Entry Stmt)
      σ.bandits σ.draws
    obtain ⟨first, state, child, strategies, h, draws, hbreed, hfit'⟩ := hchild
    obtain ⟨second, children, σ', hrest, hall⟩ := ih ⟨strategies, h, draws, (ID.next σ.currentId).2⟩ hfit'
    have hentry : mutateEntry nextBatch entry { σ with draws := σ.draws ++ (first ++ second) } =
        some (if state = .mutated then some child else none,
          ⟨strategies, h, draws ++ second, (ID.next σ.currentId).2⟩) := by
      rw [← List.append_assoc]
      exact Option.bind_eq_some_iff.2 ⟨_, breedAll_more hbatch hfit hbreed second, rfl⟩
    refine ⟨first ++ second, (if state = .mutated then some child else none).toList ++ children, σ', ?_, hall⟩
    exact Option.bind_eq_some_iff.2 ⟨_, hentry, Option.bind_eq_some_iff.2 ⟨_, hrest, rfl⟩⟩

/-- **`mutate_batch` never panics on valid strategies**, and it never loops for ever: for every batch, whatever has been
drawn, there are draws with which its loops return, and then the strategies are valid again. -/
theorem mutateEntries_returns (members : List (Entry Stmt)) (σ : Breeding (Planted H))
    (hfit : ∀ p ∈ σ.strategies, p.Fit) : ∃ more children σ',
      mutateEntries members members { σ with draws := σ.draws ++ more } = some (children, σ') ∧
        ∀ p ∈ σ'.strategies, p.Fit := by
  by_cases hmembers : members = []
  · subst hmembers
    exact ⟨[], [], _, rfl, hfit⟩
  · exact exists_mutateEntries hmembers members σ hfit

end Loops

section Returns

attribute [local instance] FloatFns.tangent

attribute [local instance] FloatExp.tangent

attribute [local instance] Sqlparser.plain

def nestedRules : List Strategy :=
  [.leaf (.spliceOut ⟨1 / 2⟩), .randomMutationSampler [.leaf (.numericBounds ⟨3 / 10⟩), .leaf (.tableGuard ⟨⟩)] 2 1]

/-- A scheduler over a rule and a sampler, that is called up to three times, each with a chance. -/
def nested : Planted CreditRun.RuleHeap :=
  let (strategy, _, queues) := MABScheduler.new nestedRules 0 0 1 .new fun _ => ⟨[]⟩
  ⟨.repeating 3 (.randomly strategy (3 / 5)), queues, []⟩

theorem fit_nested : nested.Fit := by
  refine ⟨fun _ i => i < 2, ?_, fun queue item hitem => ?_⟩
  · show (Strategy.repeating 3 (.randomly (.mabScheduler nestedRules 0 0 1) (3 / 5))).Valid _
    simp only [Strategy.Valid, Strategy.AllValid, Leaf.Valid, nestedRules, IsChance]
    norm_num [List.cons_ne_nil]
  · by_cases hzero : queue = 0
    · subst hzero
      have hall : ∀ item ∈ BinaryHeap.items (nested.queues 0), item.item < 2 := by decide +kernel
      exact hall item hitem
    · have hempty : nested.queues queue = ⟨[]⟩ :=
        Function.update_of_ne hzero _ fun _ : QueueRef => (⟨[]⟩ : CreditRun.RuleHeap)
      rw [hempty] at hitem
      cases hitem

def twoMembers : List (Entry Plain) :=
  [⟨⟨⟨1⟩, [], List.replicate 5 .commit⟩, [], []⟩, ⟨⟨⟨2⟩, [], [.commit]⟩, [], []⟩]

/-- The tree on a batch of two. -/
theorem mutateEntries_returns_nested : ∃ more children σ',
    mutateEntries twoMembers twoMembers
      { (⟨[nested], .new, [], 3⟩ : Breeding (Planted CreditRun.RuleHeap)) with draws := [] ++ more } =
        some (children, σ') ∧ ∀ p ∈ σ'.strategies, p.Fit :=
  mutateEntries_returns twoMembers (⟨[nested], .new, [], 3⟩ : Breeding (Planted CreditRun.RuleHeap))
    (List.forall_mem_singleton.2 fit_nested)

end Returns

/-! ## Building -/

section Building

variable {H : Type} [BinaryHeap H RuleItem] [FloatFns ℚ]

/-- What is made so far: the arms, and the queues up to a number. -/
structure Workshop (H : Type) where
  bandits : Bandits
  queues : QueueRef → H
  nextQueue : QueueRef

/-- A new scheduler gets the next queue. -/
def Workshop.schedule (w : Workshop H) (strategies : List Strategy) (body : BodyRef) (choose : Nat) :
    Strategy × Workshop H :=
  let (strategy, h, queues) := MABScheduler.new strategies w.nextQueue body choose w.bandits w.queues
  (strategy, ⟨h, queues, w.nextQueue + 1⟩)

/-- `StrategyBuilder`: a strategy that is made in a workshop. -/
abbrev StrategyBuilder (H : Type) := StateM (Workshop H) Strategy

namespace StrategyBuilder

/-! An argument that may be left out has its default. -/

def ofLeaf (rule : Leaf) : StateM (Workshop H) Strategy := pure (.leaf rule)

def spliceIn (pExtend : Option ℚ) : StrategyBuilder H := ofLeaf (.spliceIn ⟨pExtend.getD (1 / 2)⟩)

def spliceOut (pExtend : Option ℚ) : StrategyBuilder H := ofLeaf (.spliceOut ⟨pExtend.getD (1 / 2)⟩)

def tableGuard : StrategyBuilder H := ofLeaf (.tableGuard ⟨⟩)

def opFlip (flipChance : Option ℚ) : StrategyBuilder H := ofLeaf (.operatorFlip ⟨flipChance.getD (3 / 10)⟩)

def numBounds (mutateChance : Option ℚ) : StrategyBuilder H := ofLeaf (.numericBounds ⟨mutateChance.getD (3 / 10)⟩)

def typeCast (mutationChance : Option ℚ) : StrategyBuilder H := ofLeaf (.typeCast ⟨mutationChance.getD (3 / 10)⟩)

def setOps : StrategyBuilder H := ofLeaf (.setOps ⟨⟩)

def subQuery (mutationChance : Option ℚ) : StrategyBuilder H := ofLeaf (.subQuery ⟨mutationChance.getD (3 / 10)⟩)

def exprShuffle (mutationChance : Option ℚ) : StrategyBuilder H := ofLeaf (.exprShuffle ⟨mutationChance.getD (3 / 10)⟩)

def relationShuffle (mutationChance : Option ℚ) : StrategyBuilder H :=
  ofLeaf (.relShuffle ⟨mutationChance.getD (3 / 10)⟩)

def treeMutateStmt (operator : FieldOperation) (chancePerNode chancePerField : Option ℚ) :
    StrategyBuilder H :=
  ofLeaf (.treeMutator .statement ⟨chancePerNode.getD (3 / 10), chancePerField.getD (1 / 10), operator⟩)

def treeMutateExpr (operator : FieldOperation) (chancePerNode chancePerField : Option ℚ) :
    StrategyBuilder H :=
  ofLeaf (.treeMutator .expr ⟨chancePerNode.getD (3 / 10), chancePerField.getD (1 / 10), operator⟩)

def recursiveExpandExpr (maxDepth : Option Nat) (chancePerNode chancePerLevel : Option ℚ) :
    StrategyBuilder H :=
  ofLeaf (.recursiveExpandExpr ⟨maxDepth.getD 3, chancePerNode.getD (1 / 5), chancePerLevel.getD (1 / 2)⟩)

def hoistExpr (chancePerNode : Option ℚ) : StrategyBuilder H := ofLeaf (.hoistExpr ⟨chancePerNode.getD (1 / 5)⟩)

def arbitraryStmtGenerator : StrategyBuilder H := ofLeaf (.arbitraryGenerator .statement ⟨⟩)

def arbitraryExprGenerator : StrategyBuilder H := ofLeaf (.arbitraryGenerator .expr ⟨⟩)

def noop : StrategyBuilder H := ofLeaf .noop

def forceIdent : StrategyBuilder H := ofLeaf (.forceIdent ⟨⟩)

def randomize (strategy : StrategyBuilder H) (probability : ℚ) : StateM (Workshop H) Strategy := do
  let strategy ← strategy
  pure (.randomly strategy probability)

def repeating (rule : StrategyBuilder H) (upTo : Nat) : StateM (Workshop H) Strategy := do
  let inner ← rule
  pure (.repeating upTo inner)

/-- The arguments are made one after the other. -/
def each : List (StrategyBuilder H) → StateM (Workshop H) (List Strategy)
  | [] => pure []
  | strategy :: strategies => do
    let strategy ← strategy
    let strategies ← each strategies
    pure (strategy :: strategies)

def ucb1 (body : BodyRef) (strategies : List (StrategyBuilder H)) (choose : Nat) : StateM (Workshop H) Strategy := do
  let strategies ← each strategies
  modifyGet fun w => w.schedule strategies body choose

end StrategyBuilder

/-! ## `rules.py` -/

section Rules

open StrategyBuilder

def makeRulesetGenerate (body : BodyRef) : StrategyBuilder H :=
  ucb1 body [arbitraryExprGenerator, arbitraryStmtGenerator] 1

def makeRulesetReduce (body : BodyRef) : StrategyBuilder H :=
  ucb1 body
    [hoistExpr none,
      spliceOut none,
      treeMutateStmt .nullRandom none none,
      treeMutateExpr .nullRandom none none] 1

def makeRulesetIncrease (body : BodyRef) : StrategyBuilder H :=
  ucb1 body [recursiveExpandExpr none none none, spliceIn none] 1

def makeRulesetSpecific (body : BodyRef) : StrategyBuilder H :=
  ucb1 body [typeCast none, subQuery none, setOps] 1

def makeRulesetSemantic (body : BodyRef) : StrategyBuilder H :=
  ucb1 body [StrategyBuilder.numBounds none, opFlip none] 1

def makeRulesetShuffle (body : BodyRef) : StrategyBuilder H :=
  ucb1 body
    [treeMutateStmt .shuffleTwo none none,
      treeMutateExpr .shuffleTwo none none,
      exprShuffle none,
      relationShuffle none] 1

/-- The bodies that `main.py` makes for its rules. -/
structure RuleBodies where
  outerBody : BodyRef
  ruleSchedulerBody : BodyRef
  havocRuleSchedulerBody : BodyRef
  structRuleSchedulerBody : BodyRef
  semRuleSchedulerBody : BodyRef
  generatorBody : BodyRef
  reducerBody : BodyRef
  increaserBody : BodyRef

def makeShortrunningRuleset (ruleSchedulerBody havocRuleSchedulerBody structRuleSchedulerBody semRuleSchedulerBody
    increaserBody : BodyRef) : StrategyBuilder H :=
  ucb1 ruleSchedulerBody
    [makeRulesetIncrease increaserBody,
      makeRulesetSpecific havocRuleSchedulerBody,
      makeRulesetSemantic semRuleSchedulerBody,
      makeRulesetShuffle structRuleSchedulerBody] 2

def makeGenericRuleset (ruleSchedulerBody shuffleRuleSchedulerBody semRuleSchedulerBody generatorBody reducerBody
    increaserBody : BodyRef) : StrategyBuilder H :=
  ucb1 ruleSchedulerBody
    [makeRulesetReduce reducerBody,
      makeRulesetGenerate generatorBody,
      makeRulesetIncrease increaserBody,
      makeRulesetSemantic semRuleSchedulerBody,
      makeRulesetShuffle shuffleRuleSchedulerBody,
      noop] 2

def makeAggressiveRuleset (outerBody ruleSchedulerBody shuffleRuleSchedulerBody semRuleSchedulerBody generatorBody
    reducerBody increaserBody : BodyRef) : StrategyBuilder H :=
  let generic := makeGenericRuleset ruleSchedulerBody shuffleRuleSchedulerBody semRuleSchedulerBody generatorBody
    reducerBody increaserBody
  ucb1 outerBody [repeating generic 1, repeating generic 5, repeating generic 15] 1

/-- The strategies that `main.py` adds to its engine. -/
def mainStrategies (shortRun : Bool) (bodies : RuleBodies) : List (StrategyBuilder H) :=
  [if shortRun then
      makeShortrunningRuleset bodies.ruleSchedulerBody bodies.havocRuleSchedulerBody bodies.structRuleSchedulerBody
        bodies.semRuleSchedulerBody bodies.increaserBody
    else
      makeAggressiveRuleset bodies.outerBody bodies.ruleSchedulerBody bodies.havocRuleSchedulerBody
        bodies.semRuleSchedulerBody bodies.generatorBody bodies.reducerBody bodies.increaserBody,
    randomize tableGuard (3 / 5),
    randomize forceIdent (1 / 10)]

end Rules

end Building

/-! ## What is built is valid -/

section Built

variable {H : Type}

/-- What was there is kept, and the `queues` are new. -/
structure Extends (w w' : Workshop H) (queues : List QueueRef) : Prop where
  le : w.nextQueue ≤ w'.nextQueue
  older : ∀ q < w.nextQueue, w'.queues q = w.queues q
  fresh : ∀ q ∈ queues, w.nextQueue ≤ q ∧ q < w'.nextQueue

theorem Extends.refl (w : Workshop H) : Extends w w [] := ⟨le_rfl, fun _ _ => rfl, List.forall_mem_nil _⟩

theorem Extends.trans {w w₁ w₂ : Workshop H} {queues queues' : List QueueRef} (h : Extends w w₁ queues)
    (h' : Extends w₁ w₂ queues') : Extends w w₂ (queues ++ queues') := by
  refine ⟨h.le.trans h'.le, fun q hq => (h'.older q (hq.trans_le h.le)).trans (h.older q hq),
    List.forall_mem_append.2 ⟨fun q hq => ?_, fun q hq => ?_⟩⟩
  · exact ⟨(h.fresh q hq).1, (h.fresh q hq).2.trans_le h'.le⟩
  · exact ⟨h.le.trans (h'.fresh q hq).1, (h'.fresh q hq).2⟩

variable [BinaryHeap H RuleItem]

/-- The positions that the queues hold. -/
def positionsIn (queues : QueueRef → H) : Positions :=
  fun queue i => ∃ item ∈ BinaryHeap.items (queues queue), item.item = i

theorem filled_positionsIn (queues : QueueRef → H) : Filled (positionsIn queues) queues :=
  fun _ item hitem => ⟨item, hitem, rfl⟩

/-- More is made, and the queues that were new have the positions that they had. -/
theorem Extends.positionsIn {w w₁ w₂ : Workshop H} {queues queues' : List QueueRef} (h : Extends w w₁ queues)
    (h' : Extends w₁ w₂ queues') : ∀ queue ∈ queues, ∀ i, positionsIn w₂.queues queue i → positionsIn w₁.queues queue i
    := by
  intro queue hqueue i hi
  obtain ⟨item, hitem, hi⟩ := hi
  rw [h'.older queue (h.fresh queue hqueue).2] at hitem
  exact ⟨item, hitem, hi⟩

/-- The queue of a new scheduler holds the positions of its rules. -/
theorem positionsIn_new [FloatFns ℚ] [BinaryHeap.LawfulBinaryHeap H (SchedueldItem.score (T := Nat))]
    {strategies : List Strategy} {queue : QueueRef} {body : BodyRef} (choose : Nat) {h : Bandits}
    {queues : QueueRef → H} {i : Nat}
    (hi : positionsIn (MABScheduler.new strategies queue body choose h queues).2.2 queue i) :
    i < strategies.length := by
  obtain ⟨item, hitem, rfl⟩ := hi
  have hself : (MABScheduler.new strategies queue body choose h queues).2.2 queue =
      (MABScheduler.collect body (List.range strategies.length) BinaryHeap.empty h).1 := Function.update_self _ _ _
  have hrules := MABScheduler.items_collect body (List.range strategies.length) (BinaryHeap.empty : H) h
  rw [BinaryHeap.LawfulBinaryHeap.items_empty SchedueldItem.score, List.map_nil, List.nil_append, ← hself] at hrules
  have hpositions := hrules.map Prod.fst
  rw [List.map_map, List.map_fst_zip (by simp)] at hpositions
  exact List.mem_range.1 (hpositions.mem_iff.1 (List.mem_map_of_mem hitem))

variable [FloatExp ℚ]

mutual

/-- Only the queues of a tree matter. -/
theorem Strategy.Valid.mono {inRange inRange' : Positions} : (strategy : Strategy) → strategy.Valid inRange →
    (∀ queue ∈ strategy.queues, ∀ i, inRange' queue i → inRange queue i) → strategy.Valid inRange'
  | .leaf rule, h, _ => by
    rw [Strategy.Valid] at h ⊢
    exact h
  | .randomMutationSampler choices chooseMax chooseMin, h, hsub => by
    rw [Strategy.Valid] at h ⊢
    exact ⟨h.1, h.2.1, Strategy.AllValid.mono choices h.2.2 (by rwa [Strategy.queues] at hsub)⟩
  | .randomly inner prob, h, hsub => by
    rw [Strategy.Valid] at h ⊢
    exact ⟨h.1, Strategy.Valid.mono inner h.2 (by rwa [Strategy.queues] at hsub)⟩
  | .adaptiveStrategyScheduler strategy arm, h, hsub => by
    rw [Strategy.Valid] at h ⊢
    exact ⟨h.1, Strategy.Valid.mono strategy h.2 (by rwa [Strategy.queues] at hsub)⟩
  | .mabScheduler rules queue body choose, h, hsub => by
    rw [Strategy.Valid] at h ⊢
    rw [Strategy.queues, List.forall_mem_cons] at hsub
    exact ⟨fun i hi => h.1 i (hsub.1 i hi), Strategy.AllValid.mono rules h.2 hsub.2⟩
  | .repeating upTo inner, h, hsub => by
    rw [Strategy.Valid] at h ⊢
    exact ⟨h.1, Strategy.Valid.mono inner h.2 (by rwa [Strategy.queues] at hsub)⟩

theorem Strategy.AllValid.mono {inRange inRange' : Positions} : (strategies : List Strategy) →
    Strategy.AllValid inRange strategies →
    (∀ queue ∈ Strategy.queuesOf strategies, ∀ i, inRange' queue i → inRange queue i) →
    Strategy.AllValid inRange' strategies
  | [], _, _ => by
    rw [Strategy.AllValid]
    trivial
  | strategy :: strategies, h, hsub => by
    rw [Strategy.AllValid] at h ⊢
    rw [Strategy.queuesOf, List.forall_mem_append] at hsub
    exact ⟨Strategy.Valid.mono strategy h.1 hsub.1, Strategy.AllValid.mono strategies h.2 hsub.2⟩

end

theorem Strategy.valid_of_allValid {inRange : Positions} {strategies : List Strategy}
    (h : Strategy.AllValid inRange strategies) : ∀ strategy ∈ strategies, strategy.Valid inRange := by
  induction strategies with
  | nil => exact List.forall_mem_nil _
  | cons strategy strategies ih =>
    rw [Strategy.AllValid] at h
    exact List.forall_mem_cons.2 ⟨h.1, ih h.2⟩

/-- A builder that makes valid strategies, in any workshop. -/
def Makes (x : StrategyBuilder H) : Prop :=
  ∀ w, Extends w (x w).2 (x w).1.queues ∧ (x w).1.Valid (positionsIn (x w).2.queues)

def MakesAll (x : StateM (Workshop H) (List Strategy)) : Prop :=
  ∀ w, Extends w (x w).2 (Strategy.queuesOf (x w).1) ∧ Strategy.AllValid (positionsIn (x w).2.queues) (x w).1

open StrategyBuilder

theorem makes_ofLeaf {rule : Leaf} (h : rule.Valid) : Makes (ofLeaf rule : StrategyBuilder H) := by
  intro w
  have hqueues : (Strategy.leaf rule).queues = [] := by rw [Strategy.queues]
  refine ⟨hqueues ▸ .refl w, ?_⟩
  show (Strategy.leaf rule).Valid _
  rw [Strategy.Valid]
  exact h

theorem Makes.randomize {x : StrategyBuilder H} (hx : Makes x) {probability : ℚ} (h : IsChance probability) :
    Makes (randomize x probability) := by
  intro w
  obtain ⟨hextends, hvalid⟩ := hx w
  have hqueues : (Strategy.randomly (x w).1 probability).queues = (x w).1.queues := by rw [Strategy.queues]
  refine ⟨hqueues ▸ hextends, ?_⟩
  show (Strategy.randomly (x w).1 probability).Valid _
  rw [Strategy.Valid]
  exact ⟨h, hvalid⟩

theorem Makes.repeating {x : StrategyBuilder H} (hx : Makes x) {upTo : Nat} (h : 1 ≤ upTo) :
    Makes (repeating x upTo) := by
  intro w
  obtain ⟨hextends, hvalid⟩ := hx w
  have hqueues : (Strategy.repeating upTo (x w).1).queues = (x w).1.queues := by rw [Strategy.queues]
  refine ⟨hqueues ▸ hextends, ?_⟩
  show (Strategy.repeating upTo (x w).1).Valid _
  rw [Strategy.Valid]
  exact ⟨h, hvalid⟩

theorem makesAll_each {xs : List (StrategyBuilder H)} (h : ∀ x ∈ xs, Makes x) : MakesAll (each xs) := by
  intro w
  induction xs generalizing w with
  | nil =>
    have hqueues : Strategy.queuesOf [] = [] := by rw [Strategy.queuesOf]
    refine ⟨hqueues ▸ .refl w, ?_⟩
    show Strategy.AllValid _ []
    rw [Strategy.AllValid]
    trivial
  | cons x xs ih =>
    obtain ⟨hfirst, hvalid⟩ := h x List.mem_cons_self w
    obtain ⟨hrest, hall⟩ := ih (fun y hy => h y (List.mem_cons_of_mem _ hy)) (x w).2
    have hqueues : Strategy.queuesOf ((x w).1 :: (each xs (x w).2).1) =
        (x w).1.queues ++ Strategy.queuesOf (each xs (x w).2).1 := by
      rw [Strategy.queuesOf]
    refine ⟨hqueues ▸ hfirst.trans hrest, ?_⟩
    show Strategy.AllValid _ ((x w).1 :: (each xs (x w).2).1)
    rw [Strategy.AllValid]
    exact ⟨Strategy.Valid.mono _ hvalid (hfirst.positionsIn hrest), hall⟩

/-- The strategies of an engine that were made in a workshop. -/
def plantAll (made : List Strategy × Workshop H) : List (Planted H) := made.1.map fun s => ⟨s, made.2.queues, []⟩

theorem fit_plantAll {xs : List (StrategyBuilder H)} (h : ∀ x ∈ xs, Makes x) (w : Workshop H) :
    ∀ p ∈ plantAll (each xs w), p.Fit := by
  intro p hp
  obtain ⟨strategy, hstrategy, rfl⟩ := List.mem_map.1 hp
  have hvalid := Strategy.valid_of_allValid (makesAll_each h w).2 strategy hstrategy
  exact ⟨positionsIn (each xs w).2.queues, hvalid, filled_positionsIn _⟩

variable [FloatFns ℚ] [BinaryHeap.LawfulBinaryHeap H (SchedueldItem.score (T := Nat))]

theorem makes_ucb1 {xs : List (StrategyBuilder H)} (h : ∀ x ∈ xs, Makes x) (body : BodyRef) (choose : Nat) :
    Makes (ucb1 body xs choose) := by
  intro w
  obtain ⟨hextends, hall⟩ := makesAll_each h w
  have hnew : Extends (each xs w).2 ((each xs w).2.schedule (each xs w).1 body choose).2 [(each xs w).2.nextQueue] := by
    refine ⟨Nat.le_succ _, fun q hq => Function.update_of_ne (ne_of_lt hq) _ _, ?_⟩
    exact List.forall_mem_singleton.2 ⟨le_rfl, Nat.lt_succ_self _⟩
  have hboth := hextends.trans hnew
  have hqueues : ((each xs w).2.schedule (each xs w).1 body choose).1.queues =
      (each xs w).2.nextQueue :: Strategy.queuesOf (each xs w).1 := by
    show (Strategy.mabScheduler _ _ _ _).queues = _
    rw [Strategy.queues]
  refine ⟨⟨hboth.le, hboth.older, fun q hq => hboth.fresh q ?_⟩, ?_⟩
  · have hmem := List.mem_cons.1 (hqueues ▸ hq)
    exact List.mem_append.2 (hmem.symm.imp_right List.mem_singleton.2)
  · show (Strategy.mabScheduler _ _ _ _).Valid _
    rw [Strategy.Valid]
    exact ⟨fun i hi => positionsIn_new choose hi, Strategy.AllValid.mono _ hall (hextends.positionsIn hnew)⟩

/-! ## The rulesets are valid -/

/-- A scheduler of rules. -/
theorem makes_ucb1_leaves (rules : List Leaf) (h : ∀ rule ∈ rules, rule.Valid) (body : BodyRef) (choose : Nat) :
    Makes (ucb1 body (rules.map ofLeaf) choose : StrategyBuilder H) := by
  refine makes_ucb1 (fun x hx => ?_) body choose
  obtain ⟨rule, hrule, rfl⟩ := List.mem_map.1 hx
  exact makes_ofLeaf (h rule hrule)

theorem makes_rulesetGenerate (body : BodyRef) : Makes (makeRulesetGenerate body : StrategyBuilder H) :=
  makes_ucb1_leaves [.arbitraryGenerator .expr ⟨⟩, .arbitraryGenerator .statement ⟨⟩]
    (by simp [Leaf.Valid]) body 1

theorem makes_rulesetReduce (body : BodyRef) : Makes (makeRulesetReduce body : StrategyBuilder H) :=
  makes_ucb1_leaves [.hoistExpr ⟨1 / 5⟩, .spliceOut ⟨1 / 2⟩,
    .treeMutator .statement ⟨3 / 10, 1 / 10, .nullRandom⟩, .treeMutator .expr ⟨3 / 10, 1 / 10, .nullRandom⟩]
    (by norm_num [Leaf.Valid, IsChance]) body 1

theorem makes_rulesetIncrease (body : BodyRef) : Makes (makeRulesetIncrease body : StrategyBuilder H) :=
  makes_ucb1_leaves [.recursiveExpandExpr ⟨3, 1 / 5, 1 / 2⟩, .spliceIn ⟨1 / 2⟩]
    (by norm_num [Leaf.Valid, IsChance]) body 1

theorem makes_rulesetSpecific (body : BodyRef) : Makes (makeRulesetSpecific body : StrategyBuilder H) :=
  makes_ucb1_leaves [.typeCast ⟨3 / 10⟩, .subQuery ⟨3 / 10⟩, .setOps ⟨⟩]
    (by norm_num [Leaf.Valid, IsChance]) body 1

theorem makes_rulesetSemantic (body : BodyRef) : Makes (makeRulesetSemantic body : StrategyBuilder H) :=
  makes_ucb1_leaves [.numericBounds ⟨3 / 10⟩, .operatorFlip ⟨3 / 10⟩]
    (by norm_num [Leaf.Valid, IsChance]) body 1

theorem makes_rulesetShuffle (body : BodyRef) : Makes (makeRulesetShuffle body : StrategyBuilder H) :=
  makes_ucb1_leaves [.treeMutator .statement ⟨3 / 10, 1 / 10, .shuffleTwo⟩,
    .treeMutator .expr ⟨3 / 10, 1 / 10, .shuffleTwo⟩, .exprShuffle ⟨3 / 10⟩, .relShuffle ⟨3 / 10⟩]
    (by norm_num [Leaf.Valid, IsChance]) body 1

theorem makes_shortrunningRuleset (ruleSchedulerBody havocRuleSchedulerBody structRuleSchedulerBody
    semRuleSchedulerBody increaserBody : BodyRef) :
    Makes (makeShortrunningRuleset ruleSchedulerBody havocRuleSchedulerBody structRuleSchedulerBody
      semRuleSchedulerBody increaserBody : StrategyBuilder H) := by
  refine makes_ucb1 ?_ _ _
  simp only [List.forall_mem_cons]
  exact ⟨makes_rulesetIncrease _, makes_rulesetSpecific _, makes_rulesetSemantic _, makes_rulesetShuffle _,
    List.forall_mem_nil _⟩

theorem makes_genericRuleset (ruleSchedulerBody shuffleRuleSchedulerBody semRuleSchedulerBody generatorBody reducerBody
    increaserBody : BodyRef) :
    Makes (makeGenericRuleset ruleSchedulerBody shuffleRuleSchedulerBody semRuleSchedulerBody generatorBody reducerBody
      increaserBody : StrategyBuilder H) := by
  refine makes_ucb1 ?_ _ _
  have hnoop : Makes (noop : StrategyBuilder H) := makes_ofLeaf (by rw [Leaf.Valid]; trivial)
  simp only [List.forall_mem_cons]
  exact ⟨makes_rulesetReduce _, makes_rulesetGenerate _, makes_rulesetIncrease _, makes_rulesetSemantic _,
    makes_rulesetShuffle _, hnoop, List.forall_mem_nil _⟩

theorem makes_aggressiveRuleset (outerBody ruleSchedulerBody shuffleRuleSchedulerBody semRuleSchedulerBody
    generatorBody reducerBody increaserBody : BodyRef) :
    Makes (makeAggressiveRuleset outerBody ruleSchedulerBody shuffleRuleSchedulerBody semRuleSchedulerBody
      generatorBody reducerBody increaserBody : StrategyBuilder H) := by
  have hgeneric := makes_genericRuleset (H := H) ruleSchedulerBody shuffleRuleSchedulerBody semRuleSchedulerBody
    generatorBody reducerBody increaserBody
  refine makes_ucb1 ?_ _ _
  simp only [List.forall_mem_cons]
  exact ⟨hgeneric.repeating (by omega), hgeneric.repeating (by omega), hgeneric.repeating (by omega),
    List.forall_mem_nil _⟩

theorem makes_mainStrategies (shortRun : Bool) (bodies : RuleBodies) :
    ∀ x ∈ (mainStrategies shortRun bodies : List (StrategyBuilder H)), Makes x := by
  have hguard : Makes (tableGuard : StrategyBuilder H) := makes_ofLeaf (by rw [Leaf.Valid]; trivial)
  have hident : Makes (forceIdent : StrategyBuilder H) := makes_ofLeaf (by rw [Leaf.Valid]; trivial)
  have hguarded : Makes (randomize tableGuard (3 / 5) : StrategyBuilder H) :=
    hguard.randomize (by norm_num [IsChance])
  have hforced : Makes (randomize forceIdent (1 / 10) : StrategyBuilder H) :=
    hident.randomize (by norm_num [IsChance])
  simp only [mainStrategies, List.forall_mem_cons]
  refine ⟨?_, hguarded, hforced, List.forall_mem_nil _⟩
  split
  · exact makes_shortrunningRuleset _ _ _ _ _
  · exact makes_aggressiveRuleset _ _ _ _ _ _ _

/-- **What `main.py` ships never panics**: for every batch of `mutate_batch`, whatever has been drawn, its strategies
can return; afterwards they are fit for the next batch. -/
theorem mainStrategies_return {Stmt : Type} [Sqlparser Stmt] (shortRun : Bool) (bodies : RuleBodies) (w : Workshop H)
    (members : List (Entry Stmt)) (h : Bandits) (draws : List Draw) (currentId : UInt32) : ∃ more children σ',
      mutateEntries members members
        (⟨plantAll (each (mainStrategies shortRun bodies) w), h, draws ++ more, currentId⟩ : Breeding (Planted H)) =
          some (children, σ') ∧ ∀ p ∈ σ'.strategies, p.Fit := by
  have hfit := fit_plantAll (makes_mainStrategies (H := H) shortRun bodies) w
  by_cases hmembers : members = []
  · subst hmembers
    exact ⟨[], [], _, rfl, hfit⟩
  · exact exists_mutateEntries hmembers members ⟨plantAll (each (mainStrategies shortRun bodies) w), h, draws,
      currentId⟩ hfit

end Built

section Ships

attribute [local instance] FloatFns.tangent

attribute [local instance] FloatExp.tangent

attribute [local instance] Sqlparser.plain

def CreditRun.workshop : Workshop CreditRun.RuleHeap := ⟨.new, fun _ => ⟨[]⟩, 0⟩

/-- The strategies of a run that is not short, on a batch of two. -/
theorem mainStrategies_return_plain : ∃ more children σ',
    mutateEntries twoMembers twoMembers
      (⟨plantAll (StrategyBuilder.each (mainStrategies false ⟨0, 1, 2, 3, 4, 5, 6, 7⟩) CreditRun.workshop), .new,
        [] ++ more, 3⟩ : Breeding (Planted CreditRun.RuleHeap)) = some (children, σ') ∧ ∀ p ∈ σ'.strategies, p.Fit :=
  mainStrategies_return false ⟨0, 1, 2, 3, 4, 5, 6, 7⟩ CreditRun.workshop twoMembers .new [] 3

end Ships

end Lsf.Mutate
