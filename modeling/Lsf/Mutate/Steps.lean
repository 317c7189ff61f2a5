import Lsf.Mutate.Strategy

/-!
# The steps that strategies are made of

A strategy draws, scores and tells arms, attaches hooks, works on the queues of its schedulers and runs rules, and does
nothing else. So what every one of these steps does to a scene, and every rule (`Interludes`, `Primitives`), the strategy
does, by induction over the tree (`Interludes.moves_breed`); the arms and queues that it gets its hands on are its own.
-/

namespace Lsf.Mutate

open Lsf.Core Lsf.Lib Lsf.Feedback Lsf.Engine

mutual

/-- The queues in a tree. -/
def Strategy.queues : Strategy → List QueueRef
  | .leaf _ => []
  | .randomMutationSampler choices _ _ => Strategy.queuesOf choices
  | .randomly inner _ => inner.queues
  | .adaptiveStrategyScheduler strategy _ => strategy.queues
  | .mabScheduler rules queue _ _ => queue :: Strategy.queuesOf rules
  | .repeating _ inner => inner.queues

def Strategy.queuesOf : List Strategy → List QueueRef
  | [] => []
  | strategy :: strategies => strategy.queues ++ Strategy.queuesOf strategies

end

variable {H Stmt : Type}

open Scene

/-! ## A rule -/

/-- Every hook is told, one after the other. -/
theorem fireParentHooks_spec (outcome : TestOutcome) (σ : Scene H Stmt) :
    Prog.Ensures (fireParentHooks outcome) σ fun _ σ' =>
      σ'.child = σ.child ∧ σ'.queues = σ.queues ∧ σ'.bandits.nextArm = σ.bandits.nextArm ∧
        σ'.events = σ.events ++ σ.child.entry.parentStats.map fun arm => .onMutate arm outcome := by
  refine Prog.ensures_bind (R := fun τ σ' => τ = σ ∧ σ' = σ) (Prog.ensures_get ⟨rfl, rfl⟩) ?_
  rintro τ σ' ⟨hτ, hσ'⟩
  rw [hτ, hσ']
  -- the hooks are those that the child had before the first of them was told
  generalize σ.child.entry.parentStats = hooks
  clear hτ hσ'
  induction hooks generalizing σ with
  | nil => exact Prog.ensures_pure ⟨rfl, rfl, rfl, (List.append_nil _).symm⟩
  | cons arm hooks ih =>
    rw [List.foldlM_cons]
    refine Prog.ensures_bind (R := fun _ σ' => σ' = { σ with
      bandits := σ.bandits.onMutate arm outcome, events := σ.events ++ [.onMutate arm outcome] })
      (Prog.ensures_modify rfl) ?_
    rintro _ σ₁ rfl
    refine (ih _).mono fun _ σ' ⟨hchild, hqueues, harm, hevents⟩ => ⟨hchild, hqueues, harm, ?_⟩
    rw [hevents, List.append_assoc]
    rfl

/-- What a scene is like after a rule has run. -/
structure Ran (leaf : Leaf) (σ : Scene H Stmt) (r : Report) (σ' : Scene H Stmt) : Prop where
  appliedRuleStats : σ'.child.entry.appliedRuleStats = σ.child.entry.appliedRuleStats
  parentStats : σ'.child.entry.parentStats = σ.child.entry.parentStats
  queues : σ'.queues = σ.queues
  nextArm : σ'.bandits.nextArm = σ.bandits.nextArm
  events : σ'.events = σ.events ++
    (.ran leaf r :: σ.child.entry.parentStats.map fun arm => .onMutate arm (hookOutcome r))

/-- **A rule tells every parent hook once.** -/
theorem breedLeaf_spec [Sqlparser Stmt] (parentGen : List (Entry Stmt)) (leaf : Leaf) (σ : Scene H Stmt) :
    Prog.Ensures (breedLeaf parentGen leaf) σ (Ran leaf σ) := by
  refine Prog.ensures_bind (R := fun r σ' => σ'.child.entry.appliedRuleStats = σ.child.entry.appliedRuleStats ∧
    σ'.child.entry.parentStats = σ.child.entry.parentStats ∧ σ'.queues = σ.queues ∧ σ'.bandits = σ.bandits ∧
      σ'.events = σ.events ++ [.ran leaf r]) (fun r σ' hx => ?_) ?_
  · obtain ⟨⟨⟨r', child⟩, draws⟩, hbreed, heq⟩ := Option.map_eq_some_iff.1 hx
    cases heq
    obtain ⟨happlied, hparent⟩ := (leaf.honest _ _ hbreed).hooks
    exact ⟨happlied, hparent, rfl, rfl, rfl⟩
  · rintro r σ₁ ⟨happlied, hparent, hqueues, hbandits, hevents⟩
    refine Prog.ensures_bind (fireParentHooks_spec (hookOutcome r) σ₁) ?_
    rintro _ σ₂ ⟨hchild₂, hqueues₂, harm₂, hevents₂⟩
    refine Prog.ensures_pure ⟨?_, ?_, hqueues₂.trans hqueues, ?_, ?_⟩
    · rw [hchild₂, happlied]
    · rw [hchild₂, hparent]
    · rw [harm₂, hbandits]
    · rw [hevents₂, hevents, hparent, List.append_assoc]
      rfl

/-! ## The other steps -/

/-- Each step that strategies with the arms `allowed` and the queues `ours` make between the rules goes along `S` and
keeps `I`. -/
structure Interludes [BinaryHeap H RuleItem] [FloatFns ℚ] (I : Scene H Stmt → Prop)
    (S : Scene H Stmt → Scene H Stmt → Prop) (allowed : ArmRef → Prop) (ours : QueueRef → Prop) : Prop where
  draw : ∀ σ draws, I σ → I { σ with draws := draws } ∧ S σ { σ with draws := draws }
  calculateScore : ∀ σ arm, I σ → I { σ with bandits := (σ.bandits.calculateScore arm).2 } ∧
    S σ { σ with bandits := (σ.bandits.calculateScore arm).2 }
  onMutate : ∀ σ arm outcome, allowed arm → I σ →
    I { σ with bandits := σ.bandits.onMutate arm outcome, events := σ.events ++ [.onMutate arm outcome] } ∧
      S σ { σ with bandits := σ.bandits.onMutate arm outcome, events := σ.events ++ [.onMutate arm outcome] }
  attachHook : ∀ σ arm, allowed arm → I σ →
    I { σ with child := { σ.child with entry := σ.child.entry.attachHook arm } } ∧
      S σ { σ with child := { σ.child with entry := σ.child.entry.attachHook arm } }
  items : ∀ σ queue, ours queue → I σ → ∀ item ∈ BinaryHeap.items (σ.queues queue), allowed item.stats
  setQueue : ∀ σ queue q, ours queue → I σ → (∀ item ∈ BinaryHeap.items q, allowed item.stats) →
    I (MABScheduler.setQueue queue q σ) ∧ S σ (MABScheduler.setQueue queue q σ)

/-- And so does each rule. -/
structure Primitives [BinaryHeap H RuleItem] [FloatFns ℚ] [Sqlparser Stmt] (I : Scene H Stmt → Prop)
    (S : Scene H Stmt → Scene H Stmt → Prop) (allowed : ArmRef → Prop) (ours : QueueRef → Prop) : Prop
    extends Interludes I S allowed ours where
  ran : ∀ leaf σ r σ', I σ → Ran leaf σ r σ' → I σ' ∧ S σ σ'

/-- A strategy whose steps go along the preorder; of its reports nothing is said. -/
abbrev Primitives.Moving (I : Scene H Stmt → Prop) (S : Scene H Stmt → Scene H Stmt → Prop) (x : Breeder H Stmt) :
    Prop :=
  Prog.Moves I S x fun _ => True

namespace Interludes

open Primitives (Moving)

variable [BinaryHeap H RuleItem] [FloatFns ℚ] {I : Scene H Stmt → Prop}
  {S : Scene H Stmt → Scene H Stmt → Prop} {allowed : ArmRef → Prop} {ours : QueueRef → Prop}

theorem moves_draw {α : Type} {P : α → Prop} (h : Interludes I S allowed ours) {x : Rng α}
    (hx : ∀ draws, Prog.Ensures x draws fun a _ => P a) : Prog.Moves I S (Scene.draw x) P :=
  Prog.moves_zoom (Q := fun a _ => P a) (fun σ => hx σ.draws) fun σ _ draws hσ ha =>
    ⟨(h.draw σ draws hσ).1, (h.draw σ draws hσ).2, ha⟩

theorem moves_draw_any {α : Type} (h : Interludes I S allowed ours) (x : Rng α) :
    Prog.Moves I S (Scene.draw x) fun _ => True :=
  h.moves_draw fun _ => Prog.Ensures.trivial fun _ _ => trivial

theorem moves_onMutate (h : Interludes I S allowed ours) {arm : ArmRef} (harm : allowed arm) (outcome : TestOutcome) :
    Prog.Moves I S (Scene.onMutate arm outcome) fun _ => True :=
  Prog.moves_modify fun σ hσ => h.onMutate σ arm outcome harm hσ

theorem moves_attachHook (h : Interludes I S allowed ours) {arm : ArmRef} (harm : allowed arm) :
    Prog.Moves I S (Scene.attachHook arm) fun _ => True :=
  Prog.moves_modify fun σ hσ => h.attachHook σ arm harm hσ

theorem moves_calculateScore (h : Interludes I S allowed ours) (arm : ArmRef) :
    Prog.Moves I S (Scene.calculateScore arm) fun _ => True := by
  intro σ hσ score σ' hscore
  cases hscore
  exact ⟨(h.calculateScore σ arm hσ).1, (h.calculateScore σ arm hσ).2, trivial⟩

section Transitive

variable [IsPreorder (Scene H Stmt) S]

theorem moves_credit (h : Interludes I S allowed ours) {arm : ArmRef} (harm : allowed arm) (r : Report) :
    Prog.Moves I S (credit arm r) fun _ => True := by
  unfold credit
  split
  · exact Prog.moves_bind (h.moves_attachHook harm) fun _ _ => h.moves_onMutate harm .mutated
  · exact h.moves_onMutate harm .noop

/-! ### The strategies -/

omit [BinaryHeap H RuleItem] [FloatFns ℚ] in
theorem moves_unchanged : Moving I S (pure (.ok .unchanged) : Prog (Scene H Stmt) Report) := Prog.moves_pure trivial

theorem moves_randomMutationSampler (h : Interludes I S allowed ours) {choices : List (Breeder H Stmt)}
    (hchoices : ∀ breeder ∈ choices, Moving I S breeder) (chooseMax chooseMin : Nat) :
    Moving I S (RandomMutationSampler.breed choices chooseMax chooseMin) := by
  refine Prog.moves_bind (h.moves_draw_any _) fun nChosen _ => ?_
  split
  · exact moves_unchanged
  · refine Prog.moves_bind (P := fun _ => True) ?_ fun status _ => Prog.moves_pure trivial
    refine Prog.moves_repeated (fun status _ => ?_) trivial nChosen
    refine Prog.moves_bind (h.moves_draw fun _ => mem_of_choose choices) fun breeder hmem => ?_
    exact Prog.moves_bind (hchoices breeder hmem) fun r _ => Prog.moves_pure trivial

theorem moves_randomly (h : Interludes I S allowed ours) {inner : Breeder H Stmt} (hinner : Moving I S inner)
    (prob : ℚ) : Moving I S (Randomly.breed inner prob) := by
  refine Prog.moves_bind (h.moves_draw_any _) fun hit _ => ?_
  split
  · exact hinner
  · exact moves_unchanged

theorem moves_adaptiveStrategyScheduler [FloatExp ℚ] (h : Interludes I S allowed ours) {strategy : Breeder H Stmt}
    (hstrategy : Moving I S strategy) {arm : ArmRef} (harm : allowed arm) :
    Moving I S (AdaptiveStrategyScheduler.breed strategy arm) := by
  refine Prog.moves_bind (h.moves_calculateScore arm) fun score _ => ?_
  refine Prog.moves_bind (h.moves_draw_any _) fun hit _ => ?_
  split
  · exact moves_unchanged
  · refine Prog.moves_bind hstrategy fun r _ => ?_
    exact Prog.moves_bind (h.moves_credit harm r) fun _ _ => Prog.moves_pure trivial

theorem moves_repeat (h : Interludes I S allowed ours) {inner : Breeder H Stmt} (hinner : Moving I S inner)
    (upTo : Nat) : Moving I S (Repeat.breed inner upTo) := by
  refine Prog.moves_bind (h.moves_draw_any _) fun n _ => ?_
  generalize MutationState.unchanged = state
  induction n generalizing state with
  | zero => exact Prog.moves_pure trivial
  | succ n ih =>
    refine Prog.moves_bind hinner fun r _ => ?_
    cases r with
    | error e => exact Prog.moves_pure trivial
    | ok s => exact ih _

/-! ### The scheduler of strategies -/

section Scheduler

variable [BinaryHeap.LawfulBinaryHeap H (SchedueldItem.score (T := Nat))]

/-- The arms of the items are allowed. -/
def AllAllowed (allowed : ArmRef → Prop) (items : List RuleItem) : Prop := ∀ item ∈ items, allowed item.stats

theorem moves_pop (h : Interludes I S allowed ours) {queue : QueueRef} (hqueue : ours queue) :
    Prog.Moves I S (MABScheduler.pop queue) fun top => AllAllowed allowed top.toList := by
  intro σ hσ top σ' hpop
  have hitems := h.items σ queue hqueue hσ
  unfold MABScheduler.pop at hpop
  split at hpop
  · cases hpop
    exact ⟨hσ, refl_of S σ, fun item hitem => by cases hitem⟩
  · rename_i x q hq
    cases hpop
    have hperm := BinaryHeap.LawfulBinaryHeap.pop_some SchedueldItem.score (σ.queues queue) x q hq
    obtain ⟨hσ', hmove⟩ := h.setQueue σ queue q hqueue hσ fun item hitem =>
      hitems item (hperm.mem_iff.2 (List.mem_cons_of_mem _ hitem))
    refine ⟨hσ', hmove, fun item hitem => ?_⟩
    obtain rfl : item = x := List.mem_singleton.1 hitem
    exact hitems item (hperm.mem_iff.2 List.mem_cons_self)

omit [IsPreorder (Scene H Stmt) S] in
theorem moves_push (h : Interludes I S allowed ours) {queue : QueueRef} (hqueue : ours queue) {item : RuleItem}
    (hitem : allowed item.stats) : Prog.Moves I S (MABScheduler.push queue item) fun _ => True := by
  refine Prog.moves_modify fun σ hσ => h.setQueue σ queue _ hqueue hσ fun x hx => ?_
  have hperm := BinaryHeap.LawfulBinaryHeap.items_push SchedueldItem.score (σ.queues queue) item
  rcases List.mem_cons.1 (hperm.mem_iff.1 hx) with rfl | hx
  · exact hitem
  · exact h.items σ queue hqueue hσ x hx

theorem moves_take (h : Interludes I S allowed ours) {queue : QueueRef} (hqueue : ours queue) (currentEpoch : UInt32)
    (choose n : Nat) {acc : List RuleItem} (hacc : AllAllowed allowed acc) :
    Prog.Moves I S (MABScheduler.take queue currentEpoch choose n acc) (AllAllowed allowed) := by
  induction n generalizing acc with
  | zero => exact fun _ _ _ _ h => (nomatch h)
  | succ n ih =>
    unfold MABScheduler.take
    split
    · exact Prog.moves_pure hacc
    · refine Prog.moves_bind (h.moves_pop hqueue) fun top htop => ?_
      cases top with
      | none => exact Prog.moves_pure hacc
      | some top =>
        have hallowed : allowed top.stats := htop top (List.mem_singleton_self top)
        dsimp only
        split
        · refine Prog.moves_bind (h.moves_calculateScore top.stats) fun score _ => ?_
          exact Prog.moves_bind (h.moves_push hqueue (by exact hallowed)) fun _ _ => ih hacc
        · refine ih fun item hitem => ?_
          rcases List.mem_append.1 hitem with hitem | hitem
          · exact hacc item hitem
          · exact htop item hitem

theorem moves_mabScheduler (h : Interludes I S allowed ours) {rules : List (Breeder H Stmt)}
    (hrules : ∀ breeder ∈ rules, Moving I S breeder) {queue : QueueRef} (hqueue : ours queue) (body : BodyRef)
    (choose : Nat) : Moving I S (MABScheduler.breed rules queue body choose) := by
  refine Prog.moves_bind Prog.moves_get fun σ _ => ?_
  refine Prog.moves_bind (h.moves_take hqueue _ choose _ fun _ hitem => by cases hitem) fun acc hacc => ?_
  refine Prog.moves_bind (P := fun _ => True) ?_ fun isMutated _ => ?_
  · refine Prog.moves_foldlM (fun isMutated rule hrule _ => ?_) trivial
    refine Prog.moves_bind (P := fun breeder => breeder ∈ rules)
      (Prog.moves_expect fun breeder hb => List.mem_of_getElem? hb) fun breeder hmem => ?_
    refine Prog.moves_bind (hrules breeder hmem) fun r _ => ?_
    exact Prog.moves_bind (h.moves_credit (hacc rule hrule) r) fun _ _ => Prog.moves_pure trivial
  · refine Prog.moves_bind (P := fun _ => True) ?_ fun _ _ => Prog.moves_pure trivial
    exact Prog.moves_foldlM (fun _ item hitem _ => h.moves_push hqueue (hacc item hitem)) trivial

end Scheduler

end Transitive

/-! ### Trees -/

variable [FloatExp ℚ] [Sqlparser Stmt]

mutual

/-- **A strategy does what its steps do**, by induction over the tree. -/
theorem moves_breed [IsPreorder (Scene H Stmt) S] [BinaryHeap.LawfulBinaryHeap H (SchedueldItem.score (T := Nat))]
    (h : Interludes I S allowed ours) {parentGen : List (Entry Stmt)}
    (hleaf : ∀ rule, Moving I S (breedLeaf parentGen rule)) : (strategy : Strategy) →
    (∀ arm ∈ strategy.arms, allowed arm) → (∀ queue ∈ strategy.queues, ours queue) →
    Moving I S (strategy.breed parentGen)
  | .leaf rule, _, _ => by
    rw [Strategy.breed]
    exact hleaf rule
  | .randomMutationSampler choices chooseMax chooseMin, harms, hqueues => by
    rw [Strategy.arms] at harms
    rw [Strategy.queues] at hqueues
    rw [Strategy.breed]
    exact h.moves_randomMutationSampler (moves_breedEach h hleaf choices harms hqueues) chooseMax chooseMin
  | .randomly inner prob, harms, hqueues => by
    rw [Strategy.arms] at harms
    rw [Strategy.queues] at hqueues
    rw [Strategy.breed]
    exact h.moves_randomly (moves_breed h hleaf inner harms hqueues) prob
  | .adaptiveStrategyScheduler strategy arm, harms, hqueues => by
    rw [Strategy.arms] at harms
    rw [Strategy.queues] at hqueues
    rw [Strategy.breed]
    exact h.moves_adaptiveStrategyScheduler
      (moves_breed h hleaf strategy (fun a ha => harms a (List.mem_cons_of_mem _ ha)) hqueues)
      (harms arm List.mem_cons_self)
  | .mabScheduler rules queue body choose, harms, hqueues => by
    rw [Strategy.arms] at harms
    rw [Strategy.queues] at hqueues
    rw [Strategy.breed]
    exact h.moves_mabScheduler
      (moves_breedEach h hleaf rules harms fun q hq => hqueues q (List.mem_cons_of_mem _ hq))
      (hqueues queue List.mem_cons_self) body choose
  | .repeating upTo inner, harms, hqueues => by
    rw [Strategy.arms] at harms
    rw [Strategy.queues] at hqueues
    rw [Strategy.breed]
    exact h.moves_repeat (moves_breed h hleaf inner harms hqueues) upTo

theorem moves_breedEach [IsPreorder (Scene H Stmt) S] [BinaryHeap.LawfulBinaryHeap H (SchedueldItem.score (T := Nat))]
    (h : Interludes I S allowed ours) {parentGen : List (Entry Stmt)}
    (hleaf : ∀ rule, Moving I S (breedLeaf parentGen rule)) :
    (strategies : List Strategy) → (∀ arm ∈ Strategy.armsOf strategies, allowed arm) →
    (∀ queue ∈ Strategy.queuesOf strategies, ours queue) →
    ∀ breeder ∈ (Strategy.breedEach parentGen strategies : List (Breeder H Stmt)), Moving I S breeder
  | [], _, _ => by
    intro breeder hmem
    rw [Strategy.breedEach] at hmem
    cases hmem
  | strategy :: strategies, harms, hqueues => by
    intro breeder hmem
    rw [Strategy.armsOf] at harms
    rw [Strategy.queuesOf] at hqueues
    rw [Strategy.breedEach] at hmem
    rcases List.mem_cons.1 hmem with rfl | hmem
    · exact moves_breed h hleaf strategy (fun a ha => harms a (List.mem_append_left _ ha))
        fun q hq => hqueues q (List.mem_append_left _ hq)
    · exact moves_breedEach h hleaf strategies (fun a ha => harms a (List.mem_append_right _ ha))
        (fun q hq => hqueues q (List.mem_append_right _ hq)) breeder hmem

end

end Interludes

namespace Primitives

variable [BinaryHeap H RuleItem] [FloatFns ℚ] [Sqlparser Stmt] {I : Scene H Stmt → Prop}
  {S : Scene H Stmt → Scene H Stmt → Prop} {allowed : ArmRef → Prop} {ours : QueueRef → Prop}

theorem moves_breedLeaf (h : Primitives I S allowed ours) (parentGen : List (Entry Stmt)) (leaf : Leaf) :
    Prog.Moves I S (breedLeaf parentGen leaf) fun _ => True := by
  intro σ hσ
  refine (breedLeaf_spec parentGen leaf σ).mono fun r σ' hran => ?_
  obtain ⟨hσ', hmove⟩ := h.ran leaf σ r σ' hσ hran
  exact ⟨hσ', hmove, trivial⟩

variable [IsPreorder (Scene H Stmt) S] [BinaryHeap.LawfulBinaryHeap H (SchedueldItem.score (T := Nat))] [FloatExp ℚ]

theorem moves_breed (h : Primitives I S allowed ours) (parentGen : List (Entry Stmt)) (strategy : Strategy)
    (harms : ∀ arm ∈ strategy.arms, allowed arm) (hqueues : ∀ queue ∈ strategy.queues, ours queue) :
    Moving I S (strategy.breed parentGen) :=
  h.toInterludes.moves_breed (h.moves_breedLeaf parentGen) strategy harms hqueues

theorem moves_breedEach (h : Primitives I S allowed ours) (parentGen : List (Entry Stmt)) (strategies : List Strategy)
    (harms : ∀ arm ∈ Strategy.armsOf strategies, allowed arm)
    (hqueues : ∀ queue ∈ Strategy.queuesOf strategies, ours queue) :
    ∀ breeder ∈ (Strategy.breedEach parentGen strategies : List (Breeder H Stmt)), Moving I S breeder :=
  h.toInterludes.moves_breedEach (h.moves_breedLeaf parentGen) strategies harms hqueues

end Primitives

end Lsf.Mutate
