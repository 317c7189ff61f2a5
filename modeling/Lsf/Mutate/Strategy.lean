import Lsf.Engine.MabScheduler
import Lsf.Mutate.Splice
import Lsf.Mutate.Tree
import Lsf.Mutate.Values

/-!
# Strategies

The rules of `lsf-mutate` and the strategies that choose among others (`sample.rs`, `schedule.rs`), nested in any way. A
strategy works on a scene: the child, the bandits, the queues of the schedulers and the random source. The scene also
keeps, for the statements, what happened: which rules ran, and which arms were told of a mutation.
-/

namespace Lsf.Mutate

open Lsf.Core Lsf.Lib Lsf.Feedback Lsf.Engine

/-! ## Rules -/

/-- The node types that rules are made for. -/
inductive NodeType where
  | statement
  | expr
deriving DecidableEq, Repr

/-- The strategies that have the default `breed`. -/
inductive Leaf where
  | noop
  | spliceIn (rule : SpliceIn)
  | subQuery (rule : SubQuery)
  | setOps (rule : SetOps)
  | spliceOut (rule : SpliceOut)
  | hoistExpr (rule : HoistExpr)
  | exprShuffle (rule : ExprShuffle)
  | relShuffle (rule : RelShuffle)
  | numericBounds (rule : NumericBounds)
  | operatorFlip (rule : OperatorFlip)
  | nullInject (rule : NullInject)
  | typeCast (rule : TypeCast)
  | forceIdent (rule : ForceIdent)
  | tableNameScramble (rule : TableNameScramble)
  | tableGuard (rule : TableGuard)
  | recursiveExpandExpr (rule : RecursiveExpandExpr)
  | treeMutator (T : NodeType) (rule : TreeMutator)
  | arbitraryGenerator (T : NodeType) (rule : ArbitraryGenerator)

section Leaves

variable {Stmt : Type} [Sqlparser Stmt]

open Sqlparser

/-- `breed_inner` of a rule. -/
def Leaf.breedInner (leaf : Leaf) (child : Child Stmt) (parentGen : List (Entry Stmt)) : Rng (Report × Child Stmt) :=
  match leaf with
  | .noop => pure (.ok .unchanged, child)
  | .spliceIn rule => rule.breedInner child parentGen
  | .subQuery rule => rule.breedInner child parentGen
  | .setOps rule => rule.breedInner child parentGen
  | .spliceOut rule => rule.breedInner child
  | .hoistExpr rule => rule.breedInner child
  | .exprShuffle rule => rule.breedInner child parentGen
  | .relShuffle rule => rule.breedInner child
  | .numericBounds rule => rule.breedInner child
  | .operatorFlip rule => rule.breedInner child
  | .nullInject rule => rule.breedInner child
  | .typeCast rule => rule.breedInner child
  | .forceIdent rule => rule.breedInner child
  | .tableNameScramble rule => rule.breedInner child
  | .tableGuard rule => rule.breedInner child
  | .recursiveExpandExpr rule => rule.breedInner child
  | .treeMutator .statement rule => rule.breedInner statements child parentGen
  | .treeMutator .expr rule => rule.breedInner expressions child parentGen
  | .arbitraryGenerator .statement rule => rule.breedInner statements child
  | .arbitraryGenerator .expr rule => rule.breedInner expressions child

/-- **Every rule reports honestly.** -/
theorem Leaf.honest (leaf : Leaf) {child : Child Stmt} {parentGen : List (Entry Stmt)} {draws : List Draw} :
    Prog.Ensures (leaf.breedInner child parentGen) draws fun r _ => Honest child r := by
  cases leaf with
  | noop => exact Prog.ensures_pure (honest_unchanged child)
  | spliceIn rule => exact rule.honest
  | subQuery rule => exact rule.honest
  | setOps rule => exact rule.honest
  | spliceOut rule => exact rule.honest
  | hoistExpr rule => exact rule.honest
  | exprShuffle rule => exact rule.honest
  | relShuffle rule => exact rule.honest
  | numericBounds rule => exact rule.honest
  | operatorFlip rule => exact rule.honest
  | nullInject rule => exact rule.honest
  | typeCast rule => exact rule.honest
  | forceIdent rule => exact rule.honest
  | tableNameScramble rule => exact rule.honest
  | tableGuard rule => exact rule.honest
  | recursiveExpandExpr rule => exact rule.honest
  | treeMutator T rule =>
    cases T with
    | statement => exact rule.honest statements
    | expr => exact rule.honest expressions
  | arbitraryGenerator T rule =>
    cases T with
    | statement => exact rule.honest statements
    | expr => exact rule.honest expressions

end Leaves

/-! ## Scenes -/

/-- The queue of a `MABScheduler`, behind its `Mutex`, by its number. -/
abbrev QueueRef := Nat

/-- A rule in a queue, by its position among the rules of the scheduler. -/
abbrev RuleItem := SchedueldItem Nat

/-- What happens while strategies run. -/
inductive Event where
  /-- The default `breed` of a rule, and what it reported. -/
  | ran (leaf : Leaf) (r : Report)
  /-- `on_mutate` of an arm. -/
  | onMutate (arm : ArmRef) (outcome : TestOutcome)

/-- What strategies work on; `events` is what has happened so far. -/
structure Scene (H Stmt : Type) where
  child : Child Stmt
  bandits : Bandits
  queues : QueueRef → H
  draws : List Draw
  events : List Event

/-- `exp`, of which nothing is said. -/
class FloatExp (K : Type) where
  exp : K → K

/-- `exp` near zero. -/
@[reducible] def FloatExp.tangent : FloatExp ℚ := ⟨fun x => 1 + x⟩

/-- `sigmoid`. -/
def sigmoid {K : Type} [Field K] [FloatExp K] (val : K) : K := 1 / (1 + FloatExp.exp (-0.5 * val))

/-- What `breed` of a strategy does to a scene. -/
abbrev Breeder (H Stmt : Type) := Prog (Scene H Stmt) Report

namespace Scene

variable {H Stmt : Type}

/-- A draw from the random source. -/
def draw {α : Type} (x : Rng α) : Prog (Scene H Stmt) α :=
  Prog.zoom Scene.draws (fun σ draws => { σ with draws := draws }) x

/-- `arm.on_mutate(outcome)`. -/
def onMutate (arm : ArmRef) (outcome : TestOutcome) : Prog (Scene H Stmt) Unit :=
  modify fun σ =>
    { σ with bandits := σ.bandits.onMutate arm outcome, events := σ.events ++ [.onMutate arm outcome] }

/-- `child.fire_parent_hooks(outcome)`. -/
def fireParentHooks (outcome : TestOutcome) : Prog (Scene H Stmt) Unit := do
  let σ ← get
  σ.child.entry.parentStats.foldlM (fun _ arm => onMutate arm outcome) ()

/-- `child.attach_hook(arm)`. -/
def attachHook (arm : ArmRef) : Prog (Scene H Stmt) Unit :=
  modify fun σ => { σ with child := { σ.child with entry := σ.child.entry.attachHook arm } }

/-- `arm.calculate_score()`. -/
def calculateScore [FloatFns ℚ] (arm : ArmRef) : Prog (Scene H Stmt) ℚ :=
  Prog.zoom Scene.bandits (fun σ h => { σ with bandits := h }) fun h => some (h.calculateScore arm)

end Scene

/-! ## The strategies -/

section Breeders

variable {H Stmt : Type}

open Scene

/-- What the hooks of the parent are told of a report. -/
def hookOutcome : Report → TestOutcome
  | .ok .mutated => .mutated
  | _ => .noop

/-- The default `breed` of a rule. -/
def breedLeaf [Sqlparser Stmt] (parentGen : List (Entry Stmt)) (leaf : Leaf) : Prog (Scene H Stmt) Report := do
  let r ← fun σ => (leaf.breedInner σ.child parentGen σ.draws).map fun x =>
    (x.1.1, { σ with child := x.1.2, draws := x.2, events := σ.events ++ [.ran leaf x.1.1] })
  fireParentHooks (hookOutcome r)
  pure r

/-- The state of a loop after one more report. -/
def MutationState.after (state : MutationState) : Report → MutationState
  | .ok .mutated => .mutated
  | _ => state

/-- `RandomMutationSampler::breed`. -/
def RandomMutationSampler.breed (choices : List (Breeder H Stmt)) (chooseMax chooseMin : Nat) :
    Prog (Scene H Stmt) Report := do
  let nChosen ← draw (Rng.range chooseMin (chooseMax + 1))
  if nChosen = 0 then pure (.ok .unchanged)
  else do
    let status ← Prog.repeated (fun status => do
      let chosenStrategy ← draw (Rng.choose choices)
      let r ← chosenStrategy
      pure (MutationState.after status r)) nChosen MutationState.unchanged
    pure (.ok status)

/-- `Randomly::breed`. -/
def Randomly.breed (inner : Breeder H Stmt) (prob : ℚ) : Prog (Scene H Stmt) Report := do
  let hit ← draw (Rng.bool prob)
  if hit then inner else pure (.ok .unchanged)

/-- The end of a strategy that keeps an arm: the child gets a hook, and the arm is told. -/
def credit (arm : ArmRef) : Report → Prog (Scene H Stmt) Unit
  | .ok .mutated => do
    attachHook arm
    onMutate arm .mutated
  | _ => onMutate arm .noop

/-- `AdaptiveStrategyScheduler::breed`. -/
def AdaptiveStrategyScheduler.breed [FloatFns ℚ] [FloatExp ℚ] (strategy : Breeder H Stmt) (arm : ArmRef) :
    Prog (Scene H Stmt) Report := do
  let score ← calculateScore arm
  let hit ← draw (Rng.bool (sigmoid score))
  if !hit then pure (.ok .unchanged)
  else do
    let r ← strategy
    credit arm r
    pure r

/-- The loop of `Repeat::breed`, which an error leaves. -/
def Repeat.loop (inner : Breeder H Stmt) : Nat → MutationState → Prog (Scene H Stmt) Report
  | 0, state => pure (.ok state)
  | n + 1, state => do
    let r ← inner
    match r with
    | .error e => pure (.error e)
    | .ok s => Repeat.loop inner n (MutationState.after state (.ok s))

/-- `Repeat::breed`. -/
def Repeat.breed (inner : Breeder H Stmt) (upTo : Nat) : Prog (Scene H Stmt) Report := do
  let n ← draw (Rng.range 1 (upTo + 1))
  Repeat.loop inner n .unchanged

/-! ### The scheduler of strategies -/

namespace MABScheduler

variable [BinaryHeap H RuleItem] [FloatFns ℚ]

def setQueue (queue : QueueRef) (q : H) (σ : Scene H Stmt) : Scene H Stmt :=
  { σ with queues := Function.update σ.queues queue q }

/-- `lock.pop()`. -/
def pop (queue : QueueRef) : Prog (Scene H Stmt) (Option RuleItem) := fun σ =>
  match BinaryHeap.pop (σ.queues queue) with
  | none => some (none, σ)
  | some (top, q) => some (some top, setQueue queue q σ)

/-- `lock.push(item)`. -/
def push (queue : QueueRef) (item : RuleItem) : Prog (Scene H Stmt) Unit :=
  modify fun σ => setQueue queue (BinaryHeap.push (σ.queues queue) item) σ

/-- `ACCEPT_UNDER` of `MABScheduler::breed`. -/
def acceptRuleUnder : UInt32 := 10

/-- The first loop: rules are taken out, those with an old score are rescored and put back. An item is rescored once and
taken once, so that twice as many rounds as items are enough. -/
def take (queue : QueueRef) (currentEpoch : UInt32) (choose : Nat) :
    Nat → List RuleItem → Prog (Scene H Stmt) (List RuleItem)
  | 0, _ => fun _ => none
  | n + 1, acc =>
    if choose ≤ acc.length then pure acc
    else do
      let top ← pop queue
      match top with
      | none => pure acc
      | some top =>
        if absDiff top.epoch currentEpoch > acceptRuleUnder then do
          let score ← calculateScore top.stats
          push queue { top with score := score, epoch := currentEpoch }
          take queue currentEpoch choose n acc
        else take queue currentEpoch choose n (acc ++ [top])

/-- The flag after one more report. -/
def flagAfter (isMutated : Bool) : Report → Bool
  | .ok .mutated => true
  | _ => isMutated

/-- The second loop, on one rule. -/
def apply (rules : List (Breeder H Stmt)) (isMutated : Bool) (rule : RuleItem) : Prog (Scene H Stmt) Bool := do
  let strategy ← Prog.expect rules[rule.item]?
  let r ← strategy
  credit rule.stats r
  pure (flagAfter isMutated r)

/-- `MABScheduler::breed`. -/
def breed (rules : List (Breeder H Stmt)) (queue : QueueRef) (body : BodyRef) (choose : Nat) :
    Prog (Scene H Stmt) Report := do
  let σ ← get
  let rounds := 2 * (BinaryHeap.items (σ.queues queue)).length + 1
  let acc ← take queue (σ.bandits.epoch body) choose rounds []
  let isMutated ← acc.foldlM (apply rules) false
  acc.foldlM (fun _ item => push queue item) ()
  pure (reportFlag isMutated)

end MABScheduler

end Breeders

/-! ## Trees of strategies -/

/-- A strategy; the arms and queues of the schedulers are referred to by their numbers. -/
inductive Strategy where
  | leaf (rule : Leaf)
  | randomMutationSampler (choices : List Strategy) (chooseMax chooseMin : Nat)
  | randomly (inner : Strategy) (prob : ℚ)
  | adaptiveStrategyScheduler (strategy : Strategy) (arm : ArmRef)
  | mabScheduler (rules : List Strategy) (queue : QueueRef) (body : BodyRef) (choose : Nat)
  | repeating (upTo : Nat) (inner : Strategy)

section Trees

variable {H Stmt : Type} [BinaryHeap H RuleItem] [FloatFns ℚ] [FloatExp ℚ] [Sqlparser Stmt]

mutual

/-- `breed`. -/
def Strategy.breed (parentGen : List (Entry Stmt)) : Strategy → Breeder H Stmt
  | .leaf rule => breedLeaf parentGen rule
  | .randomMutationSampler choices chooseMax chooseMin =>
    RandomMutationSampler.breed (Strategy.breedEach parentGen choices) chooseMax chooseMin
  | .randomly inner prob => Randomly.breed (inner.breed parentGen) prob
  | .adaptiveStrategyScheduler strategy arm => AdaptiveStrategyScheduler.breed (strategy.breed parentGen) arm
  | .mabScheduler rules queue body choose =>
    MABScheduler.breed (Strategy.breedEach parentGen rules) queue body choose
  | .repeating upTo inner => Repeat.breed (inner.breed parentGen) upTo

def Strategy.breedEach (parentGen : List (Entry Stmt)) : List Strategy → List (Breeder H Stmt)
  | [] => []
  | strategy :: strategies => strategy.breed parentGen :: Strategy.breedEach parentGen strategies

end

end Trees

mutual

/-- The rules in a tree. -/
def Strategy.leaves : Strategy → List Leaf
  | .leaf rule => [rule]
  | .randomMutationSampler choices _ _ => Strategy.leavesOf choices
  | .randomly inner _ => inner.leaves
  | .adaptiveStrategyScheduler strategy _ => strategy.leaves
  | .mabScheduler rules _ _ _ => Strategy.leavesOf rules
  | .repeating _ inner => inner.leaves

def Strategy.leavesOf : List Strategy → List Leaf
  | [] => []
  | strategy :: strategies => strategy.leaves ++ Strategy.leavesOf strategies

end

mutual

/-- The arms in a tree. -/
def Strategy.arms : Strategy → List ArmRef
  | .leaf _ => []
  | .randomMutationSampler choices _ _ => Strategy.armsOf choices
  | .randomly inner _ => inner.arms
  | .adaptiveStrategyScheduler strategy arm => arm :: strategy.arms
  | .mabScheduler rules _ _ _ => Strategy.armsOf rules
  | .repeating _ inner => inner.arms

def Strategy.armsOf : List Strategy → List ArmRef
  | [] => []
  | strategy :: strategies => strategy.arms ++ Strategy.armsOf strategies

end

end Lsf.Mutate
