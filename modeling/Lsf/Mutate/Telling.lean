import Lsf.Engine.Owned
import Lsf.Mutate.Steps

/-!
# Who is told of a mutation

Every rule that runs tells the build hooks of the child once, and nothing else in a tree of strategies tells an arm that
was made for an entry: the arms of the schedulers of strategies are their own. So in what a strategy does, an entry is
told as often as rules have run, for each of its arms among the hooks (`Tally`). All steps of a strategy go along one
preorder (`Told`), and so does the strategy (`answering_breed`).
-/

namespace Lsf.Mutate

open Lsf.Core Lsf.Lib Lsf.Feedback Lsf.Engine

/-! ## Counting -/

/-- The default `breed` of a rule. -/
def Event.isRan : Event → Bool
  | .ran _ _ => true
  | .onMutate _ _ => false

/-- `on_mutate` of an arm that was made for the entry `id`. -/
def Event.reaches (owner : Owner) (id : ID) : Event → Bool
  | .ran _ _ => false
  | .onMutate arm _ => owner arm = some id

/-- How many rules have run. -/
def ranCount (events : List Event) : Nat := events.countP Event.isRan

/-- How often the arms of `id` were told. -/
def toldCount (owner : Owner) (id : ID) (events : List Event) : Nat := events.countP (Event.reaches owner id)

/-- How many arms of `id` are among the hooks. -/
def hookCount (owner : Owner) (id : ID) (hooks : List ArmRef) : Nat := hooks.countP fun arm => owner arm = some id

/-- **Every rule that ran told each hook once**, and nothing else was told. -/
def Tally (owner : Owner) (hooks : List ArmRef) (events : List Event) : Prop :=
  ∀ id, toldCount owner id events = ranCount events * hookCount owner id hooks

section Counting

variable {owner : Owner} {hooks : List ArmRef} {new new' : List Event}

@[simp] theorem ranCount_append (new new' : List Event) : ranCount (new ++ new') = ranCount new + ranCount new' :=
  List.countP_append

@[simp] theorem toldCount_append (id : ID) (new new' : List Event) :
    toldCount owner id (new ++ new') = toldCount owner id new + toldCount owner id new' := List.countP_append

theorem Tally.nil : Tally owner hooks [] := fun _ => (Nat.zero_mul _).symm

theorem Tally.append (h : Tally owner hooks new) (h' : Tally owner hooks new') : Tally owner hooks (new ++ new') := by
  intro id
  rw [toldCount_append, ranCount_append, h id, h' id, Nat.add_mul]

/-- An arm that was made for no entry. -/
theorem Tally.onMutate {arm : ArmRef} (harm : owner arm = none) (outcome : TestOutcome) :
    Tally owner hooks [.onMutate arm outcome] := by
  intro id
  simp [toldCount, ranCount, Event.reaches, Event.isRan, harm]

/-- A rule that has run, and then all hooks. -/
theorem Tally.breed (leaf : Leaf) (r : Report) (outcome : TestOutcome) :
    Tally owner hooks (.ran leaf r :: hooks.map fun arm => .onMutate arm outcome) := by
  intro id
  have hnone : (hooks.map fun arm => Event.onMutate arm outcome).countP Event.isRan = 0 := by
    rw [List.countP_eq_zero]
    intro event hevent
    obtain ⟨arm, -, rfl⟩ := List.mem_map.1 hevent
    simp [Event.isRan]
  have hran : ranCount (.ran leaf r :: hooks.map fun arm => .onMutate arm outcome) = 1 := by
    unfold ranCount
    rw [List.countP_cons, hnone]
    rfl
  have htold : toldCount owner id (.ran leaf r :: hooks.map fun arm => .onMutate arm outcome) =
      hookCount owner id hooks := by
    unfold toldCount hookCount
    rw [List.countP_cons_of_neg (by simp [Event.reaches]), List.countP_map]
    rfl
  rw [htold, hran, Nat.one_mul]

end Counting

/-! ## The preorder -/

variable {H Stmt : Type} {owner : Owner}

/-- The second scene comes from the first by strategies that told the hooks of the child. -/
structure Told (owner : Owner) (σ σ' : Scene H Stmt) : Prop where
  parentStats : σ'.child.entry.parentStats = σ.child.entry.parentStats
  nextArm : σ'.bandits.nextArm = σ.bandits.nextArm
  events : ∃ new, σ'.events = σ.events ++ new ∧ Tally owner σ.child.entry.parentStats new

instance : IsPreorder (Scene H Stmt) (Told owner) where
  refl σ := ⟨rfl, rfl, [], (List.append_nil _).symm, .nil⟩
  trans σ₁ σ₂ σ₃ h h' := by
    obtain ⟨new, hnew, htally⟩ := h.events
    obtain ⟨new', hnew', htally'⟩ := h'.events
    refine ⟨h'.parentStats.trans h.parentStats, h'.nextArm.trans h.nextArm, new ++ new', ?_, ?_⟩
    · rw [hnew', hnew, List.append_assoc]
    · rw [h.parentStats] at htally'
      exact htally.append htally'

/-- A step that tells nobody. -/
theorem Told.quiet {σ σ' : Scene H Stmt} (hstats : σ'.child.entry.parentStats = σ.child.entry.parentStats)
    (harm : σ'.bandits.nextArm = σ.bandits.nextArm) (hevents : σ'.events = σ.events) : Told owner σ σ' :=
  ⟨hstats, harm, [], by rw [hevents, List.append_nil], .nil⟩

section Steps

variable [BinaryHeap H RuleItem]

/-- No item in a queue has an arm that was made for an entry. -/
def Neutral (owner : Owner) (queues : QueueRef → H) : Prop :=
  ∀ queue, ∀ item ∈ BinaryHeap.items (queues queue), owner item.stats = none

/-- A program whose steps go along the preorder. -/
abbrev Answers {α : Type} (owner : Owner) (x : Prog (Scene H Stmt) α) (P : α → Prop) : Prop :=
  Prog.Moves (fun σ => Neutral owner σ.queues) (Told owner) x P

/-- A strategy, of whose reports nothing is said. -/
abbrev Answering (owner : Owner) (x : Breeder H Stmt) : Prop := Answers owner x fun _ => True

/-- The arms of the items were made for no entry. -/
def NeutralItems (owner : Owner) (items : List RuleItem) : Prop := ∀ item ∈ items, owner item.stats = none

theorem Neutral.setQueue {σ : Scene H Stmt} {queue : QueueRef} {q : H} (hσ : Neutral owner σ.queues)
    (hq : NeutralItems owner (BinaryHeap.items q)) : Neutral owner (MABScheduler.setQueue queue q σ).queues := by
  intro queue' item hitem
  change item ∈ BinaryHeap.items (Function.update σ.queues queue q queue') at hitem
  rw [Function.update_apply] at hitem
  split at hitem
  · exact hq item hitem
  · exact hσ queue' item hitem

/-- What each step of a strategy does. -/
theorem primitives_told [FloatFns ℚ] [Sqlparser Stmt] :
    Primitives (fun σ : Scene H Stmt => Neutral owner σ.queues) (Told owner) (fun arm => owner arm = none)
      (fun _ => True) where
  draw _ _ hσ := ⟨hσ, .quiet rfl rfl rfl⟩
  calculateScore _ _ hσ := ⟨hσ, .quiet rfl rfl rfl⟩
  onMutate _ arm outcome harm hσ := ⟨hσ, rfl, rfl, [.onMutate arm outcome], rfl, .onMutate harm outcome⟩
  attachHook _ _ _ hσ := ⟨hσ, .quiet rfl rfl rfl⟩
  items _ queue _ hσ := hσ queue
  setQueue _ _ _ _ hσ hq := ⟨hσ.setQueue hq, .quiet rfl rfl rfl⟩
  ran leaf σ r σ' hσ hran := by
    refine ⟨?_, hran.parentStats, hran.nextArm, _, hran.events, Tally.breed leaf r (hookOutcome r)⟩
    rw [hran.queues]
    exact hσ

end Steps

/-! ## Trees -/

section Trees

variable [BinaryHeap H RuleItem] [BinaryHeap.LawfulBinaryHeap H (SchedueldItem.score (T := Nat))] [FloatFns ℚ]
  [FloatExp ℚ] [Sqlparser Stmt]

/-- **Every strategy tells the hooks of the child once for each rule that runs.** -/
theorem answering_breed (parentGen : List (Entry Stmt)) (strategy : Strategy)
    (harms : ∀ arm ∈ strategy.arms, owner arm = none) : Answering owner (strategy.breed parentGen : Breeder H Stmt) :=
  primitives_told.moves_breed parentGen strategy harms fun _ _ => trivial

end Trees

end Lsf.Mutate
