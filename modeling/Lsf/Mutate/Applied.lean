import Lsf.Mutate.Steps

/-!
# One application of the scheduler of strategies

What a call of `MABScheduler::breed` does. The scheduler owns its queue and the arms in it: no strategy in its rules
has them, and nobody else tells such an arm or attaches it (`Spares`). Rules are popped, rescored where their score is
old, and held aside; each of them is applied once, its arm is told once and attached once if it reported a mutation, and
the rules come back into the queue. The call returns if the rules do (`applied_exactly`).
-/

namespace Lsf.Mutate

open Lsf.Core Lsf.Lib Lsf.Feedback Lsf.Engine

variable {H Stmt : Type}

/-! ## What becomes of the arms of a scheduler -/

/-- `on_mutate` of the arm. -/
def Event.tells (arm : ArmRef) : Event → Bool
  | .ran _ _ => false
  | .onMutate a _ => a = arm

/-- How often the arm was told. -/
def timesTold (arm : ArmRef) (events : List Event) : Nat := events.countP (Event.tells arm)

/-- The queue is untouched, and each of the arms `own` was told and attached that many times. -/
structure Noted (own : List ArmRef) (queue : QueueRef) (told attached : ArmRef → Nat) (σ σ' : Scene H Stmt) :
    Prop where
  queue : σ'.queues queue = σ.queues queue
  events : ∃ new, σ'.events = σ.events ++ new ∧ ∀ arm ∈ own, timesTold arm new = told arm
  hooks : ∃ new, σ'.child.entry.appliedRuleStats = σ.child.entry.appliedRuleStats ++ new ∧
    ∀ arm ∈ own, new.count arm = attached arm

/-- None of the arms was told or attached. -/
abbrev Spares (own : List ArmRef) (queue : QueueRef) (σ σ' : Scene H Stmt) : Prop :=
  Noted own queue (fun _ => 0) (fun _ => 0) σ σ'

section Noted

variable {own : List ArmRef} {queue : QueueRef} {told told' attached attached' : ArmRef → Nat}
  {σ σ₁ σ₂ : Scene H Stmt}

@[simp] theorem timesTold_append (arm : ArmRef) (new new' : List Event) :
    timesTold arm (new ++ new') = timesTold arm new + timesTold arm new' := List.countP_append

theorem Noted.trans (h : Noted own queue told attached σ σ₁) (h' : Noted own queue told' attached' σ₁ σ₂) :
    Noted own queue (fun arm => told arm + told' arm) (fun arm => attached arm + attached' arm) σ σ₂ where
  queue := h'.queue.trans h.queue
  events := by
    obtain ⟨new, hnew, htold⟩ := h.events
    obtain ⟨new', hnew', htold'⟩ := h'.events
    refine ⟨new ++ new', by rw [hnew', hnew, List.append_assoc], fun arm harm => ?_⟩
    rw [timesTold_append, htold arm harm, htold' arm harm]
  hooks := by
    obtain ⟨new, hnew, hattached⟩ := h.hooks
    obtain ⟨new', hnew', hattached'⟩ := h'.hooks
    refine ⟨new ++ new', by rw [hnew', hnew, List.append_assoc], fun arm harm => ?_⟩
    rw [List.count_append, hattached arm harm, hattached' arm harm]

/-- A step that neither tells nor attaches an arm. -/
theorem Noted.quiet (hqueue : σ₁.queues queue = σ.queues queue) (hevents : σ₁.events = σ.events)
    (hhooks : σ₁.child.entry.appliedRuleStats = σ.child.entry.appliedRuleStats) : Spares own queue σ σ₁ :=
  ⟨hqueue, ⟨[], by rw [hevents, List.append_nil], fun _ _ => rfl⟩, [], by rw [hhooks, List.append_nil], fun _ _ => rfl⟩

instance : IsPreorder (Scene H Stmt) (Spares own queue) where
  refl _ := .quiet rfl rfl rfl
  trans _ _ _ h h' := h.trans h'

theorem timesTold_onMutate (arm a : ArmRef) (outcome : TestOutcome) :
    timesTold arm [.onMutate a outcome] = if a = arm then 1 else 0 := by
  simp [timesTold, Event.tells, List.countP_cons]

theorem Noted.onMutate (σ : Scene H Stmt) (a : ArmRef) (outcome : TestOutcome) :
    Noted own queue (fun arm => if a = arm then 1 else 0) (fun _ => 0) σ
      { σ with bandits := σ.bandits.onMutate a outcome, events := σ.events ++ [.onMutate a outcome] } :=
  ⟨rfl, ⟨_, rfl, fun arm _ => timesTold_onMutate arm a outcome⟩, [], (List.append_nil _).symm, fun _ _ => rfl⟩

theorem Noted.attachHook (σ : Scene H Stmt) (a : ArmRef) :
    Noted own queue (fun _ => 0) (fun arm => if a = arm then 1 else 0) σ
      { σ with child := { σ.child with entry := σ.child.entry.attachHook a } } :=
  ⟨rfl, ⟨[], (List.append_nil _).symm, fun _ _ => rfl⟩, [a], rfl, fun arm _ => by
    simp [List.count_cons]⟩

/-- Counts that agree on the arms. -/
theorem Noted.congr (h : Noted own queue told attached σ σ₁) (htold : ∀ arm ∈ own, told arm = told' arm)
    (hattached : ∀ arm ∈ own, attached arm = attached' arm) : Noted own queue told' attached' σ σ₁ where
  queue := h.queue
  events := h.events.imp fun _ hnew => ⟨hnew.1, fun arm harm => (hnew.2 arm harm).trans (htold arm harm)⟩
  hooks := h.hooks.imp fun _ hnew => ⟨hnew.1, fun arm harm => (hnew.2 arm harm).trans (hattached arm harm)⟩

/-- Somebody else's arm. -/
theorem Noted.of_notMem {a : ArmRef} (ha : a ∉ own) (h : Noted own queue told attached σ σ₁)
    (htold : ∀ arm, a ≠ arm → told arm = 0) (hattached : ∀ arm, a ≠ arm → attached arm = 0) : Spares own queue σ σ₁ :=
  h.congr (fun arm harm => htold arm fun heq => ha (heq ▸ harm))
    fun arm harm => hattached arm fun heq => ha (heq ▸ harm)

end Noted

/-! ## The rules are applied -/

namespace MABScheduler

section Apply

variable {rules : List (Breeder H Stmt)}

@[simp] theorem queues_setQueue_self (queue : QueueRef) (q : H) (σ : Scene H Stmt) :
    (setQueue queue q σ).queues queue = q := by
  simp [setQueue]

/-- The scene after `credit`. -/
def credited (arm : ArmRef) (r : Report) (σ : Scene H Stmt) : Scene H Stmt :=
  match r with
  | .ok .mutated =>
    let σ := { σ with child := { σ.child with entry := σ.child.entry.attachHook arm } }
    { σ with bandits := σ.bandits.onMutate arm .mutated, events := σ.events ++ [.onMutate arm .mutated] }
  | _ => { σ with bandits := σ.bandits.onMutate arm .noop, events := σ.events ++ [.onMutate arm .noop] }

theorem credit_apply (arm : ArmRef) (r : Report) (σ : Scene H Stmt) :
    credit arm r σ = some ((), credited arm r σ) := by
  cases r with
  | error e => rfl
  | ok s => cases s <;> rfl

/-- The rule reported a mutation. -/
def isMutated : Report → Bool
  | .ok .mutated => true
  | _ => false

theorem flagAfter_eq (flag : Bool) (r : Report) : flagAfter flag r = (flag || isMutated r) := by
  cases r with
  | error e => exact (Bool.or_false flag).symm
  | ok s => cases s <;> simp [flagAfter, isMutated]

/-- The arm is told once, and attached once if the rule reported a mutation. -/
theorem noted_credited (own : List ArmRef) (queue : QueueRef) (a : ArmRef) (r : Report) (σ : Scene H Stmt) :
    Noted own queue (fun arm => if a = arm then 1 else 0) (fun arm => if isMutated r ∧ a = arm then 1 else 0) σ
      (credited a r σ) := by
  cases r with
  | error e => exact (Noted.onMutate σ a .noop).congr (fun _ _ => rfl) fun _ _ => by simp [isMutated]
  | ok s =>
    cases s with
    | unchanged => exact (Noted.onMutate σ a .noop).congr (fun _ _ => rfl) fun _ _ => by simp [isMutated]
    | mutated =>
      refine ((Noted.attachHook σ a).trans (Noted.onMutate _ a .mutated)).congr (fun _ _ => Nat.zero_add _) ?_
      intro arm _
      simp [isMutated]

/-- The rules of the items are called one after the other, each has reported, and each arm was credited. -/
inductive Applications (rules : List (Breeder H Stmt)) :
    Scene H Stmt → List (RuleItem × Report) → Scene H Stmt → Prop where
  | nil (σ : Scene H Stmt) : Applications rules σ [] σ
  | cons {item : RuleItem} {x : Breeder H Stmt} {r : Report} {applied : List (RuleItem × Report)}
      {σ σ₁ σ₂ : Scene H Stmt} (hx : rules[item.item]? = some x) (hr : x σ = some (r, σ₁))
      (h : Applications rules (credited item.stats r σ₁) applied σ₂) : Applications rules σ ((item, r) :: applied) σ₂

/-- A rule of the items was called and has not returned. -/
inductive Unanswered (rules : List (Breeder H Stmt)) : Scene H Stmt → List RuleItem → Prop where
  | here {item : RuleItem} {items : List RuleItem} {x : Breeder H Stmt} {σ : Scene H Stmt}
      (hx : rules[item.item]? = some x) (hr : x σ = none) : Unanswered rules σ (item :: items)
  | later {item : RuleItem} {items : List RuleItem} {x : Breeder H Stmt} {r : Report} {σ σ₁ : Scene H Stmt}
      (hx : rules[item.item]? = some x) (hr : x σ = some (r, σ₁))
      (h : Unanswered rules (credited item.stats r σ₁) items) : Unanswered rules σ (item :: items)

/-- The arms that were told. -/
def toldArms (applied : List (RuleItem × Report)) : List ArmRef := applied.map fun p => p.1.stats

/-- The arms that became hooks. -/
def mutatingArms (applied : List (RuleItem × Report)) : List ArmRef := toldArms (applied.filter fun p => isMutated p.2)

/-- The second loop on one rule. -/
theorem apply_eq {item : RuleItem} {x : Breeder H Stmt} (hx : rules[item.item]? = some x) (flag : Bool)
    (σ : Scene H Stmt) : apply rules flag item σ =
      (x σ).map fun p => (flagAfter flag p.1, credited item.stats p.1 p.2) := by
  unfold apply
  rw [hx, Prog.bind_apply]
  show (x σ).bind (fun p => ((credit item.stats p.1 >>= fun _ => pure (flagAfter flag p.1)) :
    Prog (Scene H Stmt) Bool) p.2) = _
  rw [Option.map_eq_bind]
  congr 1
  funext p
  rw [Prog.bind_apply, credit_apply]
  rfl

/-- **The second loop calls the rules one after the other**, as far as they return. -/
theorem foldlM_apply {items : List RuleItem} (hitems : ∀ item ∈ items, item.item < rules.length) (flag : Bool)
    (σ : Scene H Stmt) :
    (Unanswered rules σ items ∧ items.foldlM (apply rules) flag σ = none) ∨
      ∃ applied σ', applied.map Prod.fst = items ∧ Applications rules σ applied σ' ∧
        items.foldlM (apply rules) flag σ = some (flag || applied.any fun p => isMutated p.2, σ') := by
  induction items generalizing flag σ with
  | nil => exact .inr ⟨[], σ, rfl, .nil σ, by simp⟩
  | cons item items ih =>
    have hlt := hitems item List.mem_cons_self
    have hx := List.getElem?_eq_getElem hlt
    rw [List.foldlM_cons, Prog.bind_apply, apply_eq hx]
    cases hr : rules[item.item] σ with
    | none => exact .inl ⟨.here hx hr, rfl⟩
    | some p =>
      obtain ⟨r, σ₁⟩ := p
      rcases ih (fun item hitem => hitems item (List.mem_cons_of_mem _ hitem)) (flagAfter flag r)
        (credited item.stats r σ₁) with ⟨hun, hnone⟩ | ⟨applied, σ', rfl, happ, hsome⟩
      · exact .inl ⟨.later hx hr hun, hnone⟩
      · refine .inr ⟨(item, r) :: applied, σ', rfl, .cons hx hr happ, ?_⟩
        rw [List.any_cons, ← Bool.or_assoc, ← flagAfter_eq]
        exact hsome

end Apply

end MABScheduler

/-! ## What others do -/

variable [BinaryHeap H RuleItem]

/-- Nobody else has the arms: neither a hook of the child nor an item in another queue. -/
structure Apart (own : List ArmRef) (queue : QueueRef) (σ : Scene H Stmt) : Prop where
  parentStats : ∀ arm ∈ σ.child.entry.parentStats, arm ∉ own
  queues : ∀ q, q ≠ queue → ∀ item ∈ BinaryHeap.items (σ.queues q), item.stats ∉ own

section Others

variable [FloatFns ℚ] [Sqlparser Stmt] {own : List ArmRef} {queue : QueueRef}

/-- **Strategies that have not got the arms and the queue leave them alone.** -/
theorem primitives_spares : Primitives (Apart own queue : Scene H Stmt → Prop) (Spares own queue) (· ∉ own)
    (· ≠ queue) where
  draw _ _ hσ := ⟨⟨hσ.parentStats, hσ.queues⟩, .quiet rfl rfl rfl⟩
  calculateScore _ _ hσ := ⟨⟨hσ.parentStats, hσ.queues⟩, .quiet rfl rfl rfl⟩
  onMutate σ arm outcome harm hσ := ⟨⟨hσ.parentStats, hσ.queues⟩,
    (Noted.onMutate σ arm outcome).of_notMem harm (fun _ hne => if_neg hne) fun _ _ => rfl⟩
  attachHook σ arm harm hσ := ⟨⟨hσ.parentStats, hσ.queues⟩,
    (Noted.attachHook σ arm).of_notMem harm (fun _ _ => rfl) fun _ hne => if_neg hne⟩
  items _ q hq hσ := hσ.queues q hq
  setQueue σ q heap hq hσ hheap := by
    refine ⟨⟨hσ.parentStats, fun q' hq' item hitem => ?_⟩, .quiet (Function.update_of_ne hq.symm _ _) rfl rfl⟩
    change item ∈ BinaryHeap.items (Function.update σ.queues q heap q') at hitem
    rw [Function.update_apply] at hitem
    split at hitem
    · exact hheap item hitem
    · exact hσ.queues q' hq' item hitem
  ran leaf σ r σ' hσ hran := by
    refine ⟨⟨hran.parentStats ▸ hσ.parentStats, hran.queues ▸ hσ.queues⟩, by rw [hran.queues], ⟨_, hran.events, ?_⟩, [],
      by rw [hran.appliedRuleStats, List.append_nil], fun _ _ => rfl⟩
    intro arm harm
    unfold timesTold
    rw [List.countP_eq_zero]
    intro event hevent
    rcases List.mem_cons.1 hevent with rfl | hevent
    · simp [Event.tells]
    · obtain ⟨a, ha, rfl⟩ := List.mem_map.1 hevent
      have hne : a ≠ arm := fun heq => hσ.parentStats a ha (heq ▸ harm)
      simp [Event.tells, hne]

end Others

namespace MABScheduler

section Queue

variable {rules : List (Breeder H Stmt)} {own : List ArmRef} {queue : QueueRef} {applied : List (RuleItem × Report)}
  {strategies : List Strategy} {top : RuleItem} {q : H} {σ σ' : Scene H Stmt}

theorem apart_credited (a : ArmRef) (r : Report) (h : Apart own queue σ) : Apart own queue (credited a r σ) := by
  cases r with
  | error e => exact ⟨h.parentStats, h.queues⟩
  | ok s => cases s <;> exact ⟨h.parentStats, h.queues⟩

/-- **What the applications do to the arms of the scheduler.** -/
theorem Applications.noted (hrules : ∀ x ∈ rules, Primitives.Moving (Apart own queue) (Spares own queue) x)
    (h : Applications rules σ applied σ') (hσ : Apart own queue σ) :
    Apart own queue σ' ∧ Noted own queue (toldArms applied).count (mutatingArms applied).count σ σ' := by
  induction h with
  | nil σ => exact ⟨hσ, .quiet rfl rfl rfl⟩
  | @cons item x r applied σ σ₁ σ₂ hx hr _ ih =>
    obtain ⟨hapart, hspares, -⟩ := hrules x (List.mem_of_getElem? hx) σ hσ r σ₁ hr
    obtain ⟨hσ₂, hrest⟩ := ih (apart_credited item.stats r hapart)
    refine ⟨hσ₂, ((hspares.trans (noted_credited own queue item.stats r σ₁)).trans hrest).congr ?_ ?_⟩
    · intro arm _
      simp [toldArms, List.count_cons, Nat.add_comm]
    · intro arm _
      cases hmutated : isMutated r <;> simp [mutatingArms, toldArms, hmutated, List.count_cons, Nat.add_comm]

/-- `lock.extend(acc.drain(..))`. -/
theorem foldlM_push (items : List RuleItem) (σ : Scene H Stmt) :
    items.foldlM (fun _ item => push queue item) () σ =
      some ((), setQueue queue (items.foldl BinaryHeap.push (σ.queues queue)) σ) := by
  induction items generalizing σ with
  | nil => simp [setQueue]
  | cons item items ih =>
    rw [List.foldlM_cons, Prog.bind_apply]
    have hpush : push queue item σ = some ((), setQueue queue (BinaryHeap.push (σ.queues queue) item) σ) := rfl
    rw [hpush, Option.bind_some, ih]
    simp [setQueue]

theorem pop_eq_none (hpop : BinaryHeap.pop (σ.queues queue) = none) : pop queue σ = some (none, σ) := by
  unfold pop
  rw [hpop]

theorem pop_eq_some (hpop : BinaryHeap.pop (σ.queues queue) = some (top, q)) :
    pop queue σ = some (some top, setQueue queue q σ) := by
  unfold pop
  rw [hpop]

/-- A rule and its arm. -/
def ruleOf (item : RuleItem) : Nat × ArmRef := (item.item, item.stats)

/-- The arms of the scheduler. -/
def ownArms (queue : QueueRef) (queues : QueueRef → H) : List ArmRef :=
  (BinaryHeap.items (queues queue)).map SchedueldItem.stats

/-- The queue has each rule once; the arms in it are of the scheduler alone. -/
structure Owned (strategies : List Strategy) (queue : QueueRef) (queues : QueueRef → H) : Prop where
  positions : ((BinaryHeap.items (queues queue)).map SchedueldItem.item).Perm (List.range strategies.length)
  nodup : (ownArms queue queues).Nodup
  arms : ∀ arm ∈ Strategy.armsOf strategies, arm ∉ ownArms queue queues
  others : ∀ q, q ≠ queue → ∀ item ∈ BinaryHeap.items (queues q), item.stats ∉ ownArms queue queues
  notMem : queue ∉ Strategy.queuesOf strategies

/-- The queue has the same rules again. -/
theorem Owned.of_perm {queues : QueueRef → H} (h : Owned strategies queue σ.queues)
    (hperm : ((BinaryHeap.items (queues queue)).map ruleOf).Perm ((BinaryHeap.items (σ.queues queue)).map ruleOf))
    (hothers : ∀ q, q ≠ queue → ∀ item ∈ BinaryHeap.items (queues q), item.stats ∉ ownArms queue σ.queues) :
    Owned strategies queue queues := by
  have hpositions := hperm.map Prod.fst
  have harms := hperm.map Prod.snd
  rw [List.map_map, List.map_map] at hpositions harms
  exact ⟨hpositions.trans h.positions, harms.nodup_iff.2 h.nodup, fun arm harm => mt harms.mem_iff.1 (h.arms arm harm),
    fun q hq item hitem => mt harms.mem_iff.1 (hothers q hq item hitem), h.notMem⟩

end Queue

variable [FloatFns ℚ] {queue : QueueRef} {currentEpoch : UInt32} {choose : Nat}

/-! ## Popping -/

/-- The score of the rule is too old. -/
def isStale (currentEpoch : UInt32) (item : RuleItem) : Bool := absDiff item.epoch currentEpoch > acceptRuleUnder

/-- What the loop makes of a rule whose score is old. -/
def rescore (h : Bandits) (currentEpoch : UInt32) (item : RuleItem) : RuleItem :=
  { item with score := (h.calculateScore item.stats).1, epoch := currentEpoch }

theorem not_stale_rescore (h : Bandits) (currentEpoch : UInt32) (item : RuleItem) :
    ¬isStale currentEpoch (rescore h currentEpoch item) := by
  unfold isStale absDiff acceptRuleUnder rescore
  simp

/-- Only the queue and the arms have changed, and each rule is in the queue or was popped. -/
structure Holding (queue : QueueRef) (currentEpoch : UInt32) (choose : Nat) (σ : Scene H Stmt) (acc : List RuleItem)
    (σ' : Scene H Stmt) : Prop where
  child : σ'.child = σ.child
  draws : σ'.draws = σ.draws
  events : σ'.events = σ.events
  queues : ∀ q, q ≠ queue → σ'.queues q = σ.queues q
  score : ∀ a, (σ'.bandits.calculateScore a).1 = (σ.bandits.calculateScore a).1
  length_le : acc.length ≤ choose
  conserved : Conserved (isStale currentEpoch) (rescore σ.bandits currentEpoch) (BinaryHeap.items (σ.queues queue))
    (BinaryHeap.items (σ'.queues queue) + acc) 0

theorem Holding.refl (queue : QueueRef) (currentEpoch : UInt32) (choose : Nat) (σ : Scene H Stmt) :
    Holding queue currentEpoch choose σ [] σ :=
  ⟨rfl, rfl, rfl, fun _ _ => rfl, fun _ => rfl, Nat.zero_le _, by simpa using Conserved.refl _⟩

variable {σ σ₁ : Scene H Stmt} {acc : List RuleItem} {top : RuleItem} {q : H}

/-- Popping and rescoring lose no rule. -/
theorem Holding.perm_map {α : Type} {f : RuleItem → α} (h : Holding queue currentEpoch choose σ acc σ₁)
    (hf : ∀ x, f (rescore σ.bandits currentEpoch x) = f x) :
    ((BinaryHeap.items (σ₁.queues queue) ++ acc).map f).Perm ((BinaryHeap.items (σ.queues queue)).map f) := by
  have hmap := h.conserved.map_eq hf
  rw [Multiset.map_zero, add_zero, Multiset.coe_add, Multiset.map_coe, Multiset.map_coe] at hmap
  exact Multiset.coe_eq_coe.1 hmap.symm

/-- A round that renews a rule. -/
theorem take_renew {n : Nat} (hlt : acc.length < choose) (hpop : BinaryHeap.pop (σ₁.queues queue) = some (top, q))
    (hstale : isStale currentEpoch top) : take queue currentEpoch choose (n + 1) acc σ₁ =
      take queue currentEpoch choose n acc (setQueue queue (BinaryHeap.push q (rescore σ₁.bandits currentEpoch top))
        { σ₁ with bandits := (σ₁.bandits.calculateScore top.stats).2 }) := by
  have hscene : setQueue queue (BinaryHeap.push ((setQueue queue q σ₁).queues queue)
      (rescore σ₁.bandits currentEpoch top))
      { setQueue queue q σ₁ with bandits := (σ₁.bandits.calculateScore top.stats).2 } =
      setQueue queue (BinaryHeap.push q (rescore σ₁.bandits currentEpoch top))
        { σ₁ with bandits := (σ₁.bandits.calculateScore top.stats).2 } := by
    simp [setQueue]
  rw [take, if_neg (not_le.2 hlt), Prog.bind_apply, pop_eq_some hpop, Option.bind_some]
  dsimp only
  rw [if_pos (of_decide_eq_true hstale), ← hscene]
  rfl

/-- A round that takes a rule. -/
theorem take_hold {n : Nat} (hlt : acc.length < choose) (hpop : BinaryHeap.pop (σ₁.queues queue) = some (top, q))
    (hfresh : ¬isStale currentEpoch top) : take queue currentEpoch choose (n + 1) acc σ₁ =
      take queue currentEpoch choose n (acc ++ [top]) (setQueue queue q σ₁) := by
  rw [take, if_neg (not_le.2 hlt), Prog.bind_apply, pop_eq_some hpop, Option.bind_some]
  dsimp only
  rw [if_neg (mt decide_eq_true hfresh)]

theorem take_empty {n : Nat} (hlt : acc.length < choose) (hpop : BinaryHeap.pop (σ₁.queues queue) = none) :
    take queue currentEpoch choose (n + 1) acc σ₁ = some (acc, σ₁) := by
  rw [take, if_neg (not_le.2 hlt), Prog.bind_apply, pop_eq_none hpop]
  rfl

/-- The first loop. -/
def takeRules (queue : QueueRef) (body : BodyRef) (choose : Nat) : Prog (Scene H Stmt) (List RuleItem) := do
  let σ ← get
  take queue (σ.bandits.epoch body) choose (2 * (BinaryHeap.items (σ.queues queue)).length + 1) []

/-- The three loops. -/
theorem breed_apply (rules : List (Breeder H Stmt)) (queue : QueueRef) (body : BodyRef) (choose : Nat)
    (σ : Scene H Stmt) : breed rules queue body choose σ = (takeRules queue body choose σ).bind fun p =>
      (p.1.foldlM (apply rules) false p.2).map fun p' =>
        (reportFlag p'.1, setQueue queue (p.1.foldl BinaryHeap.push (p'.2.queues queue)) p'.2) := by
  unfold breed takeRules
  simp only [Prog.bind_apply, Option.bind_assoc]
  congr 1
  funext p
  congr 1
  funext p'
  rw [Option.map_eq_bind]
  congr 1
  funext p''
  rw [foldlM_push]
  rfl

/-- Between these scenes no rule ran and nobody was told. -/
structure Alike (σ σ' : Scene H Stmt) : Prop where
  child : σ'.child = σ.child
  draws : σ'.draws = σ.draws
  events : σ'.events = σ.events

theorem length_breedEach [Sqlparser Stmt] [FloatExp ℚ] (parentGen : List (Entry Stmt)) (strategies : List Strategy) :
    (Strategy.breedEach parentGen strategies : List (Breeder H Stmt)).length = strategies.length := by
  induction strategies with
  | nil => rw [Strategy.breedEach]; rfl
  | cons strategy strategies ih => rw [Strategy.breedEach, List.length_cons, List.length_cons, ih]

theorem Owned.apart {strategies : List Strategy} (h : Owned strategies queue σ.queues)
    (hchild : ∀ arm ∈ σ.child.entry.parentStats, arm ∉ ownArms queue σ.queues)
    (hholding : Holding queue currentEpoch choose σ acc σ₁) : Apart (ownArms queue σ.queues) queue σ₁ := by
  refine ⟨hholding.child ▸ hchild, fun q hq => ?_⟩
  rw [hholding.queues q hq]
  exact h.others q hq

/-- No rule is taken twice, and no arm. -/
theorem Owned.nodup_taken {strategies : List Strategy} (h : Owned strategies queue σ.queues)
    (hholding : Holding queue currentEpoch choose σ acc σ₁) :
    (acc.map SchedueldItem.item).Nodup ∧ (acc.map SchedueldItem.stats).Nodup := by
  have hpositions := (hholding.perm_map (f := SchedueldItem.item) fun _ => rfl).trans h.positions
  have harms := hholding.perm_map (f := SchedueldItem.stats) fun _ => rfl
  rw [List.map_append] at hpositions harms
  exact ⟨(List.nodup_append.1 (hpositions.nodup_iff.2 List.nodup_range)).2.1,
    (List.nodup_append.1 (harms.nodup_iff.2 h.nodup)).2.1⟩

variable [BinaryHeap.LawfulBinaryHeap H (SchedueldItem.score (T := Nat))]

/-- A popped rule is held. -/
theorem Holding.hold (h : Holding queue currentEpoch choose σ acc σ₁)
    (hpop : BinaryHeap.pop (σ₁.queues queue) = some (top, q)) (hlt : acc.length < choose) :
    Holding queue currentEpoch choose σ (acc ++ [top]) (setQueue queue q σ₁) where
  child := h.child
  draws := h.draws
  events := h.events
  queues q' hq' := (Function.update_of_ne hq' _ _).trans (h.queues q' hq')
  score := h.score
  length_le := by
    rw [List.length_append]
    exact hlt
  conserved := by
    have hconserved := h.conserved
    rw [coe_items_pop SchedueldItem.score hpop, Multiset.cons_add] at hconserved
    rw [queues_setQueue_self, add_coe_concat]
    exact hconserved

/-- A popped rule is rescored and put back. -/
theorem Holding.renew (h : Holding queue currentEpoch choose σ acc σ₁)
    (hpop : BinaryHeap.pop (σ₁.queues queue) = some (top, q)) (hstale : isStale currentEpoch top) :
    Holding queue currentEpoch choose σ acc (setQueue queue (BinaryHeap.push q (rescore σ₁.bandits currentEpoch top))
      { σ₁ with bandits := (σ₁.bandits.calculateScore top.stats).2 }) where
  child := h.child
  draws := h.draws
  events := h.events
  queues q' hq' := (Function.update_of_ne hq' _ _).trans (h.queues q' hq')
  score a := (Bandits.calculateScore_calculateScore _ _ _).trans (h.score a)
  length_le := h.length_le
  conserved := by
    have hconserved := h.conserved
    rw [coe_items_pop SchedueldItem.score hpop, Multiset.cons_add] at hconserved
    have hrescored := hconserved.cons_renew hstale fun y => not_stale_rescore σ.bandits currentEpoch y
    have hsame : rescore σ₁.bandits currentEpoch top = rescore σ.bandits currentEpoch top := by
      unfold rescore
      rw [h.score]
    rw [queues_setQueue_self, coe_items_push SchedueldItem.score, Multiset.cons_add, hsame]
    exact hrescored

/-- **The first loop comes to its end**, with as many rules as were asked for or with all of them. -/
theorem exists_take {n : Nat} (h : Holding queue currentEpoch choose σ acc σ₁)
    (hn : left (isStale currentEpoch) (σ₁.queues queue) < n) :
    ∃ taken σ₂, take queue currentEpoch choose n acc σ₁ = some (taken, σ₂) ∧
      Holding queue currentEpoch choose σ taken σ₂ ∧
        (choose ≤ taken.length ∨ BinaryHeap.items (σ₂.queues queue) = []) := by
  induction n generalizing acc σ₁ with
  | zero => omega
  | succ n ih =>
    rcases le_or_gt choose acc.length with hle | hlt
    · refine ⟨acc, σ₁, ?_, h, .inl hle⟩
      rw [take, if_pos hle]
      rfl
    · cases hpop : BinaryHeap.pop (σ₁.queues queue) with
      | none =>
        exact ⟨acc, σ₁, take_empty hlt hpop, h, .inr (BinaryHeap.LawfulBinaryHeap.pop_none SchedueldItem.score _ hpop)⟩
      | some p =>
        obtain ⟨top, q⟩ := p
        -- a rule that comes back is no longer stale, so that fewer rounds are left in either case
        by_cases hstale : isStale currentEpoch top
        · rw [take_renew hlt hpop hstale]
          have hless := left_renew_lt SchedueldItem.score hpop hstale (not_stale_rescore σ₁.bandits currentEpoch top)
          refine ih (h.renew hpop hstale) ?_
          rw [queues_setQueue_self]
          omega
        · rw [take_hold hlt hpop hstale]
          have hpopped := left_pop SchedueldItem.score (isStale currentEpoch) hpop
          refine ih (h.hold hpop hlt) ?_
          rw [queues_setQueue_self]
          omega

/-! ## A call -/

/-- What a call has made of the scene; each rule in `applied` was called once, and reported that. -/
structure Application (rules : List (Breeder H Stmt)) (queue : QueueRef) (choose : Nat) (σ σ₁ : Scene H Stmt)
    (applied : List (RuleItem × Report)) (σ' : Scene H Stmt) : Prop where
  length : applied.length = min choose rules.length
  distinct : (applied.map fun p => p.1.item).Nodup
  ours : ∀ p ∈ applied, ruleOf p.1 ∈ (BinaryHeap.items (σ.queues queue)).map ruleOf
  begins : Alike σ σ₁
  calls : ∃ σ₂, Applications rules σ₁ applied σ₂ ∧ Alike σ₂ σ'
  told : ∃ new, σ'.events = σ.events ++ new ∧ ∀ arm ∈ ownArms queue σ.queues,
    timesTold arm new = if arm ∈ toldArms applied then 1 else 0
  attached : ∃ new, σ'.child.entry.appliedRuleStats = σ.child.entry.appliedRuleStats ++ new ∧
    ∀ arm ∈ ownArms queue σ.queues, new.count arm = if arm ∈ mutatingArms applied then 1 else 0
  returned : ((BinaryHeap.items (σ'.queues queue)).map ruleOf).Perm ((BinaryHeap.items (σ.queues queue)).map ruleOf)

/-! ## A new scheduler -/

/-- The items are made and pushed, one after the other. -/
def collect (body : BodyRef) (positions : List Nat) (q : H) (h : Bandits) : H × Bandits :=
  positions.foldl (fun (q, h) i =>
    let (item, h) := SchedueldItem.new h body i
    (BinaryHeap.push q item, h)) (q, h)

/-- `MABScheduler::new`, with the queues; a debug build also asserts that there are at least `choose` strategies. -/
def new (strategies : List Strategy) (queue : QueueRef) (body : BodyRef) (choose : Nat) (h : Bandits)
    (queues : QueueRef → H) : Strategy × Bandits × (QueueRef → H) :=
  let (q, h) := collect body (List.range strategies.length) BinaryHeap.empty h
  (.mabScheduler strategies queue body choose, h, Function.update queues queue q)

/-- Every position gets an arm of its own. -/
theorem items_collect (body : BodyRef) (positions : List Nat) (q : H) (h : Bandits) :
    ((BinaryHeap.items (collect body positions q h).1).map ruleOf).Perm
      ((BinaryHeap.items q).map ruleOf ++ positions.zip (List.range' h.nextArm positions.length)) := by
  induction positions generalizing q h with
  | nil => simp [collect]
  | cons i positions ih =>
    have hpush := BinaryHeap.LawfulBinaryHeap.items_push SchedueldItem.score q (SchedueldItem.new h body i).1
    refine (ih (BinaryHeap.push q (SchedueldItem.new h body i).1) (SchedueldItem.new h body i).2).trans ?_
    refine ((hpush.map ruleOf).append_right _).trans ?_
    exact List.perm_middle.symm

/-- **A new scheduler has its queue and its arms for itself.** -/
theorem owned_new {strategies : List Strategy} {queue : QueueRef} {h : Bandits} {queues : QueueRef → H}
    (body : BodyRef) (choose : Nat) (hqueue : queue ∉ Strategy.queuesOf strategies)
    (harms : ∀ arm ∈ Strategy.armsOf strategies, arm < h.nextArm)
    (hqueues : ∀ q, q ≠ queue → ∀ item ∈ BinaryHeap.items (queues q), item.stats < h.nextArm) :
    Owned strategies queue (new strategies queue body choose h queues).2.2 := by
  have hself : (new strategies queue body choose h queues).2.2 queue =
      (collect body (List.range strategies.length) BinaryHeap.empty h).1 := Function.update_self _ _ _
  have hrules := items_collect body (List.range strategies.length) (BinaryHeap.empty : H) h
  rw [BinaryHeap.LawfulBinaryHeap.items_empty SchedueldItem.score, List.map_nil, List.nil_append, ← hself] at hrules
  have hpositions := hrules.map Prod.fst
  have hown := hrules.map Prod.snd
  rw [List.map_map, List.map_fst_zip (by simp)] at hpositions
  rw [List.map_map, List.map_snd_zip (by simp)] at hown
  have hfresh : ∀ arm ∈ ownArms queue (new strategies queue body choose h queues).2.2, h.nextArm ≤ arm :=
    fun arm harm => (List.mem_range'_1.1 (hown.mem_iff.1 harm)).1
  refine ⟨hpositions, hown.nodup_iff.2 List.nodup_range', fun arm harm hmem => ?_, fun q hq item hitem hmem => ?_,
    hqueue⟩
  · exact absurd (hfresh arm hmem) (not_le.2 (harms arm harm))
  · have hsame : (new strategies queue body choose h queues).2.2 q = queues q := Function.update_of_ne hq _ _
    rw [hsame] at hitem
    exact absurd (hfresh _ hmem) (not_le.2 (hqueues q hq item hitem))

section Call

variable {strategies : List Strategy} {body : BodyRef} {taken : List RuleItem} {σ σ₁ σ₂ : Scene H Stmt}

/-- The first loop returns. -/
theorem exists_takeRules (queue : QueueRef) (body : BodyRef) (choose : Nat) (σ : Scene H Stmt) :
    ∃ taken σ₁, takeRules queue body choose σ = some (taken, σ₁) ∧
      Holding queue (σ.bandits.epoch body) choose σ taken σ₁ ∧
        taken.length = min choose (BinaryHeap.items (σ.queues queue)).length := by
  have hleft := left_le (isStale (σ.bandits.epoch body)) (σ.queues queue)
  obtain ⟨taken, σ₁, htake, hholding, hend⟩ := exists_take (.refl queue (σ.bandits.epoch body) choose σ)
    (Nat.lt_succ_of_le hleft)
  refine ⟨taken, σ₁, htake, hholding, ?_⟩
  have hle := hholding.length_le
  have hlength := (hholding.perm_map (f := SchedueldItem.item) fun _ => rfl).length_eq
  rw [List.length_map, List.length_map, List.length_append] at hlength
  rcases hend with hend | hempty
  · omega
  · rw [hempty] at hlength
    simp only [List.length_nil] at hlength
    omega

/-- The rules that were taken come back. -/
theorem Holding.returned (h : Holding queue currentEpoch choose σ taken σ₁) :
    ((BinaryHeap.items (taken.foldl BinaryHeap.push (σ₁.queues queue))).map ruleOf).Perm
      ((BinaryHeap.items (σ.queues queue)).map ruleOf) := by
  refine List.Perm.trans (List.Perm.map _ ?_) (h.perm_map fun _ => rfl)
  exact Multiset.coe_eq_coe.1 (coe_items_foldl_push SchedueldItem.score _ _)

/-- The rules that were taken have been called, and come back. -/
theorem Owned.application {rules : List (Breeder H Stmt)} {applied : List (RuleItem × Report)} {q : H}
    (h : Owned strategies queue σ.queues)
    (hchild : ∀ arm ∈ σ.child.entry.parentStats, arm ∉ ownArms queue σ.queues)
    (hrules : ∀ x ∈ rules, Primitives.Moving (Apart (ownArms queue σ.queues) queue)
      (Spares (ownArms queue σ.queues) queue) x) (hn : rules.length = strategies.length)
    (hholding : Holding queue currentEpoch choose σ (applied.map Prod.fst) σ₁)
    (hlength : (applied.map Prod.fst).length = min choose (BinaryHeap.items (σ.queues queue)).length)
    (happ : Applications rules σ₁ applied σ₂)
    (hq : (applied.map Prod.fst).foldl BinaryHeap.push (σ₂.queues queue) = q) :
    Application rules queue choose σ σ₁ applied (setQueue queue q σ₂) ∧
      Owned strategies queue (setQueue queue q σ₂).queues := by
  obtain ⟨hapart, hnoted⟩ := happ.noted hrules (h.apart hchild hholding)
  obtain ⟨hdistinct, harms⟩ := h.nodup_taken hholding
  rw [List.map_map] at hdistinct harms
  have hreturned := hholding.returned
  rw [← hnoted.queue, hq] at hreturned
  refine ⟨⟨?_, hdistinct, fun p hp => ?_, ⟨hholding.child, hholding.draws, hholding.events⟩,
    ⟨σ₂, happ, rfl, rfl, rfl⟩, ?_, ?_, ?_⟩, ?_⟩
  · have hpositions := h.positions.length_eq
    rw [List.length_map, List.length_range] at hpositions
    rw [List.length_map] at hlength
    rw [hlength, hpositions, hn]
  · have hperm := hholding.perm_map (f := ruleOf) fun _ => rfl
    exact hperm.mem_iff.1 (List.mem_map_of_mem (List.mem_append_right _ (List.mem_map_of_mem hp)))
  · obtain ⟨new, hnew, htold⟩ := hnoted.events
    refine ⟨new, hnew.trans (by rw [hholding.events]), fun arm harm => ?_⟩
    rw [htold arm harm]
    exact harms.count
  · obtain ⟨new, hnew, hattached⟩ := hnoted.hooks
    refine ⟨new, hnew.trans (by rw [hholding.child]), fun arm harm => ?_⟩
    rw [hattached arm harm]
    exact (harms.sublist (List.filter_sublist.map _)).count
  · rw [queues_setQueue_self]
    exact hreturned
  · refine h.of_perm (by rwa [queues_setQueue_self]) fun q' hq' item hitem => ?_
    have hsame : (setQueue queue q σ₂).queues q' = σ₂.queues q' := Function.update_of_ne hq' _ _
    rw [hsame] at hitem
    exact hapart.queues q' hq' item hitem

variable [Sqlparser Stmt] [FloatExp ℚ] {parentGen : List (Entry Stmt)}

/-- Strategies below the scheduler leave its arms and its queue alone. -/
theorem Owned.moving (h : Owned strategies queue σ.queues) :
    ∀ x ∈ (Strategy.breedEach parentGen strategies : List (Breeder H Stmt)), Primitives.Moving
      (Apart (ownArms queue σ.queues) queue) (Spares (ownArms queue σ.queues) queue) x :=
  primitives_spares.moves_breedEach parentGen strategies h.arms fun _ hq heq => h.notMem (heq ▸ hq)

/-- **One call.** The first loop returns; then the rules that it took are called one after the other, and unless one of
them does not return the call returns, and has done to the scene what it should. -/
theorem applied_exactly (parentGen : List (Entry Stmt)) (body : BodyRef) (choose : Nat)
    (h : Owned strategies queue σ.queues)
    (hchild : ∀ arm ∈ σ.child.entry.parentStats, arm ∉ ownArms queue σ.queues) :
    ∃ taken σ₁, takeRules queue body choose σ = some (taken, σ₁) ∧
      ((Unanswered (Strategy.breedEach parentGen strategies) σ₁ taken ∧
          (Strategy.mabScheduler strategies queue body choose).breed parentGen σ = none) ∨
        ∃ applied σ', applied.map Prod.fst = taken ∧
          (Strategy.mabScheduler strategies queue body choose).breed parentGen σ =
              some (reportFlag (applied.any fun p => isMutated p.2), σ') ∧
            Application (Strategy.breedEach parentGen strategies) queue choose σ σ₁ applied σ' ∧
              Owned strategies queue σ'.queues) := by
  obtain ⟨taken, σ₁, htake, hholding, hlength⟩ := exists_takeRules queue body choose σ
  refine ⟨taken, σ₁, htake, ?_⟩
  have hpositions := (hholding.perm_map (f := SchedueldItem.item) fun _ => rfl).trans h.positions
  have hlt : ∀ item ∈ taken, item.item < (Strategy.breedEach parentGen strategies : List (Breeder H Stmt)).length := by
    intro item hitem
    rw [length_breedEach, ← List.mem_range]
    exact hpositions.mem_iff.1 (List.mem_map_of_mem (List.mem_append_right _ hitem))
  rw [Strategy.breed, breed_apply, htake, Option.bind_some]
  rcases foldlM_apply hlt false σ₁ with ⟨hun, hnone⟩ | ⟨applied, σ₂, rfl, happ, hsome⟩
  · refine .inl ⟨hun, ?_⟩
    rw [hnone]
    rfl
  · rw [hsome]
    exact .inr ⟨applied, _, rfl, rfl,
      h.application hchild h.moving (length_breedEach parentGen strategies) hholding hlength happ rfl⟩

end Call

end MABScheduler

/-! ## Two rules that were not asked for a long time -/

namespace MABScheduler

attribute [local instance] FloatFns.tangent

attribute [local instance] FloatExp.tangent

attribute [local instance] Sqlparser.plain

def twoRules : List Strategy := [.leaf .noop, .leaf (.spliceOut ⟨1 / 2⟩)]

/-- A child of an entry without hooks, and a scheduler that was made eleven epochs ago. -/
def twoScene : Scene (ListHeap (SchedueldItem.score (T := Nat))) Plain :=
  let (_, h, queues) := new twoRules 0 0 2 .new fun _ => ⟨[]⟩
  ⟨⟨⟨⟨⟨1⟩, [], List.replicate 5 .commit⟩, [], []⟩, 0⟩, h.setBody 0 ((h.body 0).tickBy 11), queues,
    [.zero, ⟨1 / 2, by decide +kernel, by decide +kernel⟩], []⟩

/-- Both rules are scored anew, and one of them takes a statement out. -/
theorem applied_exactly_two : (∀ item ∈ BinaryHeap.items (twoScene.queues 0), isStale (twoScene.bandits.epoch 0) item) ∧
    ∃ σ₁ applied σ', (Strategy.mabScheduler twoRules 0 0 2).breed [] twoScene =
        some (reportFlag (applied.any fun p => isMutated p.2), σ') ∧
      Application (Strategy.breedEach [] twoRules) 0 2 twoScene σ₁ applied σ' ∧ applied.length = 2 ∧
        applied.any (fun p => isMutated p.2) ∧ σ'.child.entry.entry.ast.length = 4 := by
  have howned : Owned twoRules 0 twoScene.queues := by
    exact owned_new 0 2 (fun h => by cases h) (fun _ h => by cases h) fun _ _ _ h => by cases h
  have hreturns : ((Strategy.mabScheduler twoRules 0 0 2).breed [] twoScene).map
      (fun r => (r.1, r.2.child.entry.entry.ast.length)) = some (reportFlag true, 4) := by
    decide +kernel
  refine ⟨by decide +kernel, ?_⟩
  obtain ⟨_, σ₁, -, ⟨-, hnone⟩ | ⟨applied, σ', -, hbreed, happ, -⟩⟩ :=
    applied_exactly [] 0 2 howned fun _ h => by cases h
  · rw [hnone] at hreturns
    cases hreturns
  · rw [hbreed, Option.map_some] at hreturns
    obtain ⟨hflag, hlength⟩ := Prod.mk.inj (Option.some.inj hreturns)
    refine ⟨σ₁, applied, σ', hbreed, happ, happ.length, ?_, hlength⟩
    by_contra hno
    rw [Bool.not_eq_true] at hno
    rw [hno] at hflag
    cases hflag

end MABScheduler

end Lsf.Mutate
