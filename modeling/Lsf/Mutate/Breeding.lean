import Lsf.Mutate.Applied
import Lsf.Mutate.Returning

/-!
# Strategies that return

A strategy of valid rules, with schedulers whose queues hold positions of their rules (`Strategy.Valid`), can always
return: whatever has been drawn so far, there are draws with which it does, by induction over the tree
(`Strategy.returning_breed`). So no draw lets it panic, and it never stays in a loop for ever.
-/

namespace Lsf.Mutate

open Lsf.Core Lsf.Lib Lsf.Feedback Lsf.Engine

variable {H Stmt : Type}

instance Scene.supply : Supply (Scene H Stmt) Draw where
  feed σ more := { σ with draws := σ.draws ++ more }
  feed_nil σ := by rw [List.append_nil]
  feed_append σ more more' := by rw [List.append_assoc]

open Scene

/-! ## Steps -/

theorem streams_draw {α : Type} {x : Rng α} (hx : Prog.Streams x) : Prog.Streams (draw x : Prog (Scene H Stmt) α) := by
  intro σ a σ' h more
  obtain ⟨⟨b, draws⟩, hb, heq⟩ := Option.map_eq_some_iff.1 h
  cases heq
  exact congrArg (Option.map _) (hx σ.draws b draws hb more)

theorem streams_onMutate (arm : ArmRef) (outcome : TestOutcome) :
    Prog.Streams (onMutate arm outcome : Prog (Scene H Stmt) Unit) :=
  Prog.streams_modify fun _ _ => rfl

theorem streams_attachHook (arm : ArmRef) : Prog.Streams (attachHook arm : Prog (Scene H Stmt) Unit) :=
  Prog.streams_modify fun _ _ => rfl

theorem streams_fireParentHooks (outcome : TestOutcome) :
    Prog.Streams (fireParentHooks outcome : Prog (Scene H Stmt) Unit) :=
  Prog.streams_get_bind (fun _ => Prog.streams_foldlM (fun _ arm _ => streams_onMutate arm outcome) ()) fun _ _ => rfl

theorem streams_calculateScore [FloatFns ℚ] (arm : ArmRef) :
    Prog.Streams (calculateScore arm : Prog (Scene H Stmt) ℚ) := by
  intro σ a σ' h more
  cases h
  rfl

theorem streams_credit (arm : ArmRef) (r : Report) : Prog.Streams (credit arm r : Prog (Scene H Stmt) Unit) := by
  unfold credit
  split
  · exact (streams_attachHook arm).bind fun _ => streams_onMutate arm .mutated
  · exact streams_onMutate arm .noop

section Queues

variable [BinaryHeap H RuleItem]

/-- Which positions may be in which queue. -/
abbrev Positions := QueueRef → Nat → Prop

/-- The queues hold only such positions. -/
def Filled (inRange : Positions) (queues : QueueRef → H) : Prop :=
  ∀ queue, ∀ item ∈ BinaryHeap.items (queues queue), inRange queue item.item

/-- The queues of a scene do. -/
def Scene.Filled (inRange : Positions) (σ : Scene H Stmt) : Prop := Mutate.Filled inRange σ.queues

/-- A strategy that can always return, and that keeps the positions in the queues. -/
structure Returning (inRange : Positions) (x : Prog (Scene H Stmt) Report) : Prop where
  streams : Prog.Streams x
  answers : Prog.Answers (Scene.Filled inRange) x fun _ => True

variable {inRange : Positions}

theorem answers_draw {α : Type} {P : α → Prop} {x : Rng α} (hx : Prog.Sure x)
    (hP : ∀ draws, Prog.Ensures x draws fun a _ => P a) :
    Prog.Answers (Scene.Filled inRange) (draw x : Prog (Scene H Stmt) α) P := by
  intro σ hσ
  obtain ⟨more, a, draws, hx, -, ha⟩ := hx.answers_of hP σ.draws trivial
  exact ⟨more, a, { σ with draws := draws }, congrArg (Option.map _) hx, hσ, ha⟩

theorem answers_onMutate (arm : ArmRef) (outcome : TestOutcome) :
    Prog.Answers (Scene.Filled inRange) (onMutate arm outcome : Prog (Scene H Stmt) Unit) fun _ => True :=
  Prog.answers_modify (fun _ hσ => hσ) trivial

theorem answers_fireParentHooks (outcome : TestOutcome) :
    Prog.Answers (Scene.Filled inRange) (fireParentHooks outcome : Prog (Scene H Stmt) Unit) fun _ => True :=
  Prog.answers_get_bind (fun _ _ => Prog.answers_foldlM (fun _ arm _ _ => answers_onMutate arm outcome)
    (fun _ arm _ => streams_onMutate arm outcome) trivial) fun _ _ => rfl

theorem answers_calculateScore [FloatFns ℚ] (arm : ArmRef) :
    Prog.Answers (Scene.Filled inRange) (calculateScore arm : Prog (Scene H Stmt) ℚ) fun _ => True :=
  fun σ hσ => ⟨[], _, { σ with bandits := (σ.bandits.calculateScore arm).2 }, by rw [feed_nil]; rfl, hσ, trivial⟩

theorem answers_credit (arm : ArmRef) (r : Report) :
    Prog.Answers (Scene.Filled inRange) (credit arm r : Prog (Scene H Stmt) Unit) fun _ => True := by
  unfold credit
  split
  · exact Prog.Answers.bind (P := fun _ => True) (Prog.answers_modify (fun _ hσ => hσ) trivial)
      (streams_attachHook arm) fun _ _ => answers_onMutate arm .mutated
  · exact answers_onMutate arm .noop

/-! ## Strategies -/

theorem returning_pure (r : Report) : Returning inRange (pure r : Prog (Scene H Stmt) Report) :=
  ⟨Prog.streams_pure r, Prog.answers_pure trivial⟩

theorem Returning.bind {x : Prog (Scene H Stmt) Report} {f : Report → Prog (Scene H Stmt) Report}
    (hx : Returning inRange x)
    (hf : ∀ r, Returning inRange (f r)) : Returning inRange (x >>= f) :=
  ⟨hx.streams.bind fun r => (hf r).streams, hx.answers.bind hx.streams fun r _ => (hf r).answers⟩

/-- A draw and what follows. -/
theorem returning_draw {α : Type} {P : α → Prop} {x : Rng α} (hx : Prog.Sure x)
    (hP : ∀ draws, Prog.Ensures x draws fun a _ => P a) {f : α → Prog (Scene H Stmt) Report}
    (hf : ∀ a, P a → Returning inRange (f a)) : Returning inRange (draw x >>= f) := by
  refine ⟨(streams_draw hx.streams).bind_of (P := P) (fun σ => ?_) fun a ha => (hf a ha).streams,
    (answers_draw hx hP).bind (streams_draw hx.streams) fun a ha => (hf a ha).answers⟩
  exact Prog.ensures_zoom (hP σ.draws) fun a _ ha => ha

theorem returning_breedLeaf [Sqlparser Stmt] {parentGen : List (Entry Stmt)} (hgen : parentGen ≠ []) {leaf : Leaf}
    (h : leaf.Valid) : Returning inRange (breedLeaf parentGen leaf : Breeder H Stmt) := by
  have hsure := fun child : Child Stmt => Leaf.sure h child hgen
  have hstreams : Prog.Streams (fun σ : Scene H Stmt => (leaf.breedInner σ.child parentGen σ.draws).map fun x =>
      (x.1.1, { σ with child := x.1.2, draws := x.2, events := σ.events ++ [.ran leaf x.1.1] }) :
        Breeder H Stmt) := by
    intro σ r σ' hr more
    obtain ⟨⟨p, draws⟩, hp, heq⟩ := Option.map_eq_some_iff.1 hr
    cases heq
    exact congrArg (Option.map _) ((hsure σ.child).streams σ.draws p draws hp more)
  refine ⟨hstreams.bind fun r => (streams_fireParentHooks _).bind fun _ => Prog.streams_pure r,
    Prog.Answers.bind (P := fun _ => True) (fun σ hσ => ?_) hstreams fun r _ =>
      (answers_fireParentHooks _).bind (streams_fireParentHooks _) fun _ _ => Prog.answers_pure trivial⟩
  obtain ⟨more, p, hp⟩ := (hsure σ.child).answers σ.draws
  exact ⟨more, _, _, congrArg (Option.map _) hp, hσ, trivial⟩

theorem ensures_range {lo hi : Nat} (draws : List Draw) :
    Prog.Ensures (Rng.range lo hi) draws fun i _ => i < hi := by
  intro i rest h
  cases draws with
  | nil => cases h
  | cons u draws =>
    obtain ⟨j, hj, heq⟩ := Option.map_eq_some_iff.1 h
    cases heq
    have hlt : lo < hi := by
      by_contra hle
      rw [Draw.randomRange_eq_none (not_lt.1 hle)] at hj
      cases hj
    obtain ⟨k, hk, -, hbound⟩ := u.exists_randomRange hlt
    rw [hk] at hj
    cases hj
    exact hbound

theorem returning_randomMutationSampler {choices : List (Breeder H Stmt)}
    (hchoices : ∀ x ∈ choices, Returning inRange x) {chooseMax chooseMin : Nat} (hle : chooseMin ≤ chooseMax)
    (hsome : chooseMax = 0 ∨ choices ≠ []) :
    Returning inRange (RandomMutationSampler.breed choices chooseMax chooseMin) := by
  refine returning_draw (sure_range (Nat.lt_succ_of_le hle)) ensures_range fun nChosen hlt => ?_
  split
  · exact returning_pure _
  · rename_i hpos
    have hne : choices ≠ [] := hsome.resolve_left (by omega)
    have hmem : ∀ σ : Scene H Stmt, Prog.Ensures (draw (Rng.choose choices)) σ fun x _ => x ∈ choices :=
      fun σ => Prog.ensures_zoom (mem_of_choose choices) fun x _ hx => hx
    have hstreams : ∀ status : MutationState, Prog.Streams (do
        let chosenStrategy ← (draw (Rng.choose choices) : Prog (Scene H Stmt) (Breeder H Stmt))
        let r ← chosenStrategy
        pure (MutationState.after status r)) :=
      fun status => (streams_draw (streams_choose choices)).bind_of hmem fun x hx =>
        (hchoices x hx).streams.bind fun r => Prog.streams_pure _
    refine ⟨(Prog.streams_repeated hstreams nChosen _).bind fun status => Prog.streams_pure _,
      Prog.Answers.bind (P := fun _ => True) ?_ (Prog.streams_repeated hstreams nChosen _) fun status _ =>
        Prog.answers_pure trivial⟩
    refine Prog.answers_repeated (fun status _ => ?_) hstreams nChosen trivial
    refine (answers_draw (sure_choose hne) fun _ => mem_of_choose choices).bind (streams_draw (streams_choose choices))
      fun x hx => ?_
    exact (hchoices x hx).answers.bind (hchoices x hx).streams fun r _ => Prog.answers_pure trivial

theorem returning_randomly {inner : Breeder H Stmt} (hinner : Returning inRange inner) {prob : ℚ}
    (h : IsChance prob) : Returning inRange (Randomly.breed inner prob) := by
  refine returning_draw (P := fun _ => True) (sure_bool h) (fun _ => Prog.Ensures.trivial fun _ _ => trivial)
    fun hit _ => ?_
  split
  · exact hinner
  · exact returning_pure _

/-- The sigmoid of a score is a chance, as an exponential is not negative. -/
theorem isChance_sigmoid [FloatExp ℚ] (hexp : ∀ x : ℚ, 0 ≤ FloatExp.exp x) (score : ℚ) : IsChance (sigmoid score) := by
  have h := hexp (-0.5 * score)
  unfold sigmoid
  refine ⟨div_nonneg zero_le_one (by linarith), ?_⟩
  rw [div_le_one (by linarith)]
  linarith

theorem returning_adaptiveStrategyScheduler [FloatFns ℚ] [FloatExp ℚ] (hexp : ∀ x : ℚ, 0 ≤ FloatExp.exp x)
    {strategy : Breeder H Stmt} (hstrategy : Returning inRange strategy) (arm : ArmRef) :
    Returning inRange (AdaptiveStrategyScheduler.breed strategy arm) := by
  have hnext : ∀ score : ℚ, Returning inRange (do
      let hit ← (draw (Rng.bool (sigmoid score)) : Prog (Scene H Stmt) Bool)
      if !hit then pure (.ok .unchanged)
      else do
        let r ← strategy
        credit arm r
        pure r) := by
    intro score
    refine returning_draw (P := fun _ => True) (sure_bool (isChance_sigmoid hexp score))
      (fun _ => Prog.Ensures.trivial fun _ _ => trivial) fun hit _ => ?_
    split
    · exact returning_pure _
    · refine hstrategy.bind fun r => ?_
      exact ⟨(streams_credit arm r).bind fun _ => Prog.streams_pure r,
        (answers_credit arm r).bind (streams_credit arm r) fun _ _ => Prog.answers_pure trivial⟩
  exact ⟨(streams_calculateScore arm).bind fun score => (hnext score).streams,
    (answers_calculateScore arm).bind (streams_calculateScore arm) fun score _ => (hnext score).answers⟩

theorem returning_repeat {inner : Breeder H Stmt} (hinner : Returning inRange inner) {upTo : Nat} (h : 1 ≤ upTo) :
    Returning inRange (Repeat.breed inner upTo) := by
  refine returning_draw (P := fun _ => True) (sure_range (Nat.lt_succ_of_le h))
    (fun _ => Prog.Ensures.trivial fun _ _ => trivial) fun n _ => ?_
  generalize MutationState.unchanged = state
  induction n generalizing state with
  | zero => exact returning_pure _
  | succ n ih =>
    refine hinner.bind fun r => ?_
    cases r with
    | error e => exact returning_pure _
    | ok s => exact ih _

/-! ## The scheduler of strategies -/

section Scheduler

variable {queue : QueueRef}

theorem streams_pop (queue : QueueRef) :
    Prog.Streams (MABScheduler.pop queue : Prog (Scene H Stmt) (Option RuleItem)) := by
  intro σ top σ' h more
  have hsame : (feed σ more).queues queue = σ.queues queue := rfl
  cases hpop : BinaryHeap.pop (σ.queues queue) with
  | none =>
    obtain ⟨rfl, rfl⟩ := Prod.mk.inj (Option.some.inj ((MABScheduler.pop_eq_none hpop).symm.trans h))
    exact MABScheduler.pop_eq_none (hsame.symm ▸ hpop)
  | some popped =>
    obtain ⟨rfl, rfl⟩ := Prod.mk.inj (Option.some.inj ((MABScheduler.pop_eq_some hpop).symm.trans h))
    exact MABScheduler.pop_eq_some (hsame.symm ▸ hpop)

theorem streams_push (queue : QueueRef) (item : RuleItem) :
    Prog.Streams (MABScheduler.push queue item : Prog (Scene H Stmt) Unit) :=
  Prog.streams_modify fun _ _ => rfl

theorem answers_push [BinaryHeap.LawfulBinaryHeap H (SchedueldItem.score (T := Nat))] {item : RuleItem}
    (h : inRange queue item.item) :
    Prog.Answers (Scene.Filled inRange) (MABScheduler.push queue item : Prog (Scene H Stmt) Unit) fun _ => True := by
  refine Prog.answers_modify (fun σ hσ q x hx => ?_) trivial
  by_cases hq : q = queue
  · subst hq
    rw [MABScheduler.queues_setQueue_self] at hx
    have hperm := BinaryHeap.LawfulBinaryHeap.items_push SchedueldItem.score (σ.queues q) item
    rcases List.mem_cons.1 (hperm.mem_iff.1 hx) with rfl | hx
    · exact h
    · exact hσ q x hx
  · have hsame : (MABScheduler.setQueue queue (BinaryHeap.push (σ.queues queue) item) σ).queues q = σ.queues q :=
      Function.update_of_ne hq _ _
    rw [hsame] at hx
    exact hσ q x hx

variable [FloatFns ℚ]

theorem streams_take (queue : QueueRef) (currentEpoch : UInt32) (choose n : Nat) (acc : List RuleItem) :
    Prog.Streams (MABScheduler.take queue currentEpoch choose n acc : Prog (Scene H Stmt) (List RuleItem)) := by
  induction n generalizing acc with
  | zero => exact Prog.streams_none
  | succ n ih =>
    unfold MABScheduler.take
    split
    · exact Prog.streams_pure acc
    · refine (streams_pop queue).bind fun top => ?_
      cases top with
      | none => exact Prog.streams_pure acc
      | some top =>
        dsimp only
        split
        · exact (streams_calculateScore top.stats).bind fun score => (streams_push queue _).bind fun _ => ih acc
        · exact ih _

theorem streams_takeRules (queue : QueueRef) (body : BodyRef) (choose : Nat) :
    Prog.Streams (MABScheduler.takeRules queue body choose : Prog (Scene H Stmt) (List RuleItem)) :=
  Prog.streams_get_bind (fun _ => streams_take _ _ _ _ _) fun _ _ => rfl

variable [BinaryHeap.LawfulBinaryHeap H (SchedueldItem.score (T := Nat))]

/-- The rules that are taken are among those in the queue, and the others stay there. -/
theorem answers_takeRules (queue : QueueRef) (body : BodyRef) (choose : Nat) :
    Prog.Answers (Scene.Filled inRange) (MABScheduler.takeRules queue body choose : Prog (Scene H Stmt) (List RuleItem))
      fun taken => ∀ item ∈ taken, inRange queue item.item := by
  intro σ hσ
  obtain ⟨taken, σ₁, htake, hholding, -⟩ := MABScheduler.exists_takeRules queue body choose σ
  have hperm := hholding.perm_map (f := SchedueldItem.item) fun _ => rfl
  have hin : ∀ item ∈ BinaryHeap.items (σ₁.queues queue) ++ taken, inRange queue item.item := by
    intro item hitem
    obtain ⟨item', hitem', heq⟩ := List.mem_map.1 (hperm.mem_iff.1 (List.mem_map_of_mem hitem))
    rw [← heq]
    exact hσ queue item' hitem'
  refine ⟨[], taken, σ₁, by rw [feed_nil]; exact htake, fun q item hitem => ?_, fun item hitem => ?_⟩
  · by_cases hq : q = queue
    · subst hq
      exact hin item (List.mem_append_left _ hitem)
    · rw [hholding.queues q hq] at hitem
      exact hσ q item hitem
  · exact hin item (List.mem_append_right _ hitem)

omit [BinaryHeap.LawfulBinaryHeap H SchedueldItem.score] in
theorem breed_eq_takeRules (rules : List (Breeder H Stmt)) (queue : QueueRef) (body : BodyRef) (choose : Nat) :
    MABScheduler.breed rules queue body choose = (do
      let acc ← MABScheduler.takeRules queue body choose
      let isMutated ← acc.foldlM (MABScheduler.apply rules) false
      acc.foldlM (fun _ item => MABScheduler.push queue item) ()
      pure (reportFlag isMutated)) := rfl

theorem returning_mabScheduler {rules : List (Breeder H Stmt)} (hrules : ∀ x ∈ rules, Returning inRange x)
    (hin : ∀ i, inRange queue i → i < rules.length) (body : BodyRef) (choose : Nat) :
    Returning inRange (MABScheduler.breed rules queue body choose) := by
  rw [breed_eq_takeRules]
  have happly : ∀ isMutated (rule : RuleItem), Prog.Streams (MABScheduler.apply rules isMutated rule) :=
    fun isMutated rule => (Prog.streams_expect _).bind_of
      (fun _ => Prog.ensures_expect fun x hx => hrules x (List.mem_of_getElem? hx)) fun x hx =>
        hx.streams.bind fun r => (streams_credit _ r).bind fun _ => Prog.streams_pure _
  have hpushes : ∀ acc : List RuleItem, Prog.Streams
      (acc.foldlM (fun _ item => MABScheduler.push queue item) () : Prog (Scene H Stmt) Unit) :=
    fun acc => Prog.streams_foldlM (fun _ item _ => streams_push queue item) ()
  have hfold : ∀ acc : List RuleItem, Prog.Streams (acc.foldlM (MABScheduler.apply rules) false) :=
    fun acc => Prog.streams_foldlM (fun isMutated rule _ => happly isMutated rule) false
  refine ⟨(streams_takeRules queue body choose).bind fun acc => (hfold acc).bind fun isMutated =>
    (hpushes acc).bind fun _ => Prog.streams_pure _, ?_⟩
  refine (answers_takeRules queue body choose).bind (streams_takeRules queue body choose) fun acc hacc => ?_
  refine Prog.Answers.bind (P := fun _ => True) ?_ (hfold acc) fun isMutated _ => ?_
  · refine Prog.answers_foldlM (fun isMutated rule hrule _ => ?_) (fun isMutated rule _ => happly isMutated rule)
      trivial
    have hlt := hin rule.item (hacc rule hrule)
    have hx := hrules rules[rule.item] (List.getElem_mem hlt)
    refine (Prog.answers_expect (P := Returning inRange) (List.getElem?_eq_getElem hlt) hx).bind
      (Prog.streams_expect _) fun x hx => ?_
    refine hx.answers.bind hx.streams fun r _ => ?_
    exact (answers_credit _ r).bind (streams_credit _ r) fun _ _ => Prog.answers_pure trivial
  · refine Prog.Answers.bind (P := fun _ => True) ?_ (hpushes acc) fun _ _ => Prog.answers_pure trivial
    exact Prog.answers_foldlM (fun _ item hitem _ => answers_push (hacc item hitem))
      (fun _ item _ => streams_push queue item) trivial

end Scheduler

end Queues

/-! ## Trees -/

section Trees

variable [FloatExp ℚ]

mutual

/-- What a tree needs to return: chances that are chances, ranges and choices that are not empty, and queues that hold
positions of its rules. -/
def Strategy.Valid (inRange : Positions) : Strategy → Prop
  | .leaf rule => rule.Valid
  | .randomMutationSampler choices chooseMax chooseMin =>
    chooseMin ≤ chooseMax ∧ (chooseMax = 0 ∨ choices ≠ []) ∧ Strategy.AllValid inRange choices
  | .randomly inner prob => IsChance prob ∧ inner.Valid inRange
  | .adaptiveStrategyScheduler strategy _ => (∀ x : ℚ, 0 ≤ FloatExp.exp x) ∧ strategy.Valid inRange
  | .mabScheduler rules queue _ _ => (∀ i, inRange queue i → i < rules.length) ∧ Strategy.AllValid inRange rules
  | .repeating upTo inner => 1 ≤ upTo ∧ inner.Valid inRange

def Strategy.AllValid (inRange : Positions) : List Strategy → Prop
  | [] => True
  | strategy :: strategies => strategy.Valid inRange ∧ Strategy.AllValid inRange strategies

end

variable [BinaryHeap H RuleItem] [FloatFns ℚ] [Sqlparser Stmt] {inRange : Positions} {parentGen : List (Entry Stmt)}

mutual

/-- **A valid strategy can always return**, by induction over the tree. -/
theorem Strategy.returning_breed [BinaryHeap.LawfulBinaryHeap H (SchedueldItem.score (T := Nat))]
    (hgen : parentGen ≠ []) : (strategy : Strategy) → strategy.Valid inRange →
    Returning inRange (strategy.breed parentGen : Breeder H Stmt)
  | .leaf rule, h => by
    rw [Strategy.Valid] at h
    rw [Strategy.breed]
    exact returning_breedLeaf hgen h
  | .randomMutationSampler choices chooseMax chooseMin, h => by
    rw [Strategy.Valid] at h
    obtain ⟨hle, hsome, hall⟩ := h
    rw [Strategy.breed]
    refine returning_randomMutationSampler (Strategy.returning_breedEach hgen choices hall) hle (hsome.imp_right ?_)
    intro hne hnil
    have hlen := congrArg List.length hnil
    rw [MABScheduler.length_breedEach] at hlen
    exact hne (List.eq_nil_of_length_eq_zero hlen)
  | .randomly inner prob, h => by
    rw [Strategy.Valid] at h
    rw [Strategy.breed]
    exact returning_randomly (Strategy.returning_breed hgen inner h.2) h.1
  | .adaptiveStrategyScheduler strategy arm, h => by
    rw [Strategy.Valid] at h
    rw [Strategy.breed]
    exact returning_adaptiveStrategyScheduler h.1 (Strategy.returning_breed hgen strategy h.2) arm
  | .mabScheduler rules queue body choose, h => by
    rw [Strategy.Valid] at h
    rw [Strategy.breed]
    refine returning_mabScheduler (Strategy.returning_breedEach hgen rules h.2) (fun i hi => ?_) body choose
    rw [MABScheduler.length_breedEach]
    exact h.1 i hi
  | .repeating upTo inner, h => by
    rw [Strategy.Valid] at h
    rw [Strategy.breed]
    exact returning_repeat (Strategy.returning_breed hgen inner h.2) h.1

theorem Strategy.returning_breedEach [BinaryHeap.LawfulBinaryHeap H (SchedueldItem.score (T := Nat))]
    (hgen : parentGen ≠ []) : (strategies : List Strategy) →
    Strategy.AllValid inRange strategies →
    ∀ x ∈ (Strategy.breedEach parentGen strategies : List (Breeder H Stmt)), Returning inRange x
  | [], _ => by
    intro x hx
    rw [Strategy.breedEach] at hx
    cases hx
  | strategy :: strategies, h => by
    intro x hx
    rw [Strategy.AllValid] at h
    rw [Strategy.breedEach] at hx
    rcases List.mem_cons.1 hx with rfl | hx
    · exact Strategy.returning_breed hgen strategy h.1
    · exact Strategy.returning_breedEach hgen strategies h.2 x hx

end

end Trees

end Lsf.Mutate
