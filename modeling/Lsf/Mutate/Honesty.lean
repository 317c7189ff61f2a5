import Lsf.Mutate.Strategy

/-!
# Honest strategies

What a report of a strategy says about the child it worked on (`Reported`): a child that is not reported as mutated is
what it was, hooks included, and a strategy reports a mutation only where one of its rules has reported one. Errors come
from a shared AST only, so that none follows a mutation, and the loops can put the reports of their rounds together. By
induction over the tree, every strategy reports honestly (`unchanged_of_report`).
-/

namespace Lsf.Mutate

open Lsf.Core Lsf.Lib Lsf.Feedback Lsf.Engine

variable {H Stmt : Type}

/-! ## Reports put together -/

/-- The child is untouched; the rest of the scene may have changed. -/
structure Idle (σ σ' : Scene H Stmt) : Prop where
  child : σ'.child = σ.child
  events : ∃ new, σ'.events = σ.events ++ new

/-- What a report about the way from one scene to another says. -/
structure Reported (leaves : List Leaf) (σ : Scene H Stmt) (r : Report) (σ' : Scene H Stmt) : Prop where
  unchanged : r ≠ .ok .mutated → σ'.child = σ.child
  mutated : r = .ok .mutated → σ.child.sharers = 0
  shared : ∀ e, r = .error e → σ.child.sharers ≠ 0
  sharers : σ'.child.sharers = σ.child.sharers
  events : ∃ new, σ'.events = σ.events ++ new ∧
    (r = .ok .mutated → ∃ leaf ∈ leaves, Event.ran leaf (.ok .mutated) ∈ new)

/-- A strategy whose reports are honest. -/
def Fair (leaves : List Leaf) (breeder : Prog (Scene H Stmt) Report) : Prop :=
  ∀ σ, Prog.Ensures breeder σ fun r σ' => Reported leaves σ r σ'

section Compose

variable {leaves : List Leaf} {σ σ₁ σ₂ : Scene H Stmt} {r : Report} {state : MutationState}

theorem Idle.refl (σ : Scene H Stmt) : Idle σ σ := ⟨rfl, [], (List.append_nil _).symm⟩

theorem Idle.trans (h : Idle σ σ₁) (h' : Idle σ₁ σ₂) : Idle σ σ₂ := by
  obtain ⟨new, hnew⟩ := h.events
  obtain ⟨new', hnew'⟩ := h'.events
  exact ⟨h'.child.trans h.child, new ++ new', by rw [hnew', hnew, List.append_assoc]⟩

theorem Idle.unchanged (h : Idle σ σ₁) : Reported leaves σ (.ok .unchanged) σ₁ := by
  obtain ⟨new, hnew⟩ := h.events
  exact ⟨fun _ => h.child, fun h => (nomatch h), fun _ h => (nomatch h), by rw [h.child], new, hnew,
    fun h => (nomatch h)⟩

theorem Idle.reported (h : Idle σ σ₁) (h' : Reported leaves σ₁ r σ₂) : Reported leaves σ r σ₂ := by
  obtain ⟨new, hnew⟩ := h.events
  obtain ⟨new', hnew', hran⟩ := h'.events
  refine ⟨fun hr => (h'.unchanged hr).trans h.child, fun hr => h.child ▸ h'.mutated hr,
    fun e hr => h.child ▸ h'.shared e hr, h'.sharers.trans (by rw [h.child]), new ++ new', ?_, fun hr => ?_⟩
  · rw [hnew', hnew, List.append_assoc]
  · obtain ⟨leaf, hleaf, hmem⟩ := hran hr
    exact ⟨leaf, hleaf, List.mem_append_right _ hmem⟩

theorem Reported.idle (h : Reported leaves σ r σ₁) (h' : Idle σ₁ σ₂) : Reported leaves σ r σ₂ := by
  obtain ⟨new, hnew, hran⟩ := h.events
  obtain ⟨new', hnew'⟩ := h'.events
  refine ⟨fun hr => h'.child.trans (h.unchanged hr), h.mutated, h.shared, (by rw [h'.child, h.sharers]),
    new ++ new', ?_, fun hr => ?_⟩
  · rw [hnew', hnew, List.append_assoc]
  · obtain ⟨leaf, hleaf, hmem⟩ := hran hr
    exact ⟨leaf, hleaf, List.mem_append_left _ hmem⟩

theorem Reported.mono {leaves' : List Leaf} (h : Reported leaves σ r σ₁) (hle : ∀ leaf ∈ leaves, leaf ∈ leaves') :
    Reported leaves' σ r σ₁ := by
  obtain ⟨new, hnew, hran⟩ := h.events
  refine ⟨h.unchanged, h.mutated, h.shared, h.sharers, new, hnew, fun hr => ?_⟩
  obtain ⟨leaf, hleaf, hmem⟩ := hran hr
  exact ⟨leaf, hle leaf hleaf, hmem⟩

theorem after_eq_mutated : MutationState.after state r = .mutated ↔ state = .mutated ∨ r = .ok .mutated := by
  rcases r with e | (_ | _) <;> simp [MutationState.after]

/-- Two rounds of a loop. -/
theorem Reported.after (h : Reported leaves σ (.ok state) σ₁) (h' : Reported leaves σ₁ r σ₂) :
    Reported leaves σ (.ok (MutationState.after state r)) σ₂ := by
  obtain ⟨new, hnew, hran⟩ := h.events
  obtain ⟨new', hnew', hran'⟩ := h'.events
  have hcases : Except.ok (MutationState.after state r) = (.ok .mutated : Report) ↔
      (.ok state : Report) = .ok .mutated ∨ r = .ok .mutated := by
    simp only [Except.ok.injEq, after_eq_mutated]
  refine ⟨fun hr => ?_, fun hr => ?_, fun e he => (nomatch he), h'.sharers.trans h.sharers, new ++ new', ?_,
    fun hr => ?_⟩
  · obtain ⟨hs, hr⟩ := not_or.1 (mt hcases.2 hr)
    rw [h'.unchanged hr, h.unchanged hs]
  · rcases hcases.1 hr with hs | hr
    · exact h.mutated hs
    · rw [← h.sharers]
      exact h'.mutated hr
  · rw [hnew', hnew, List.append_assoc]
  · rcases hcases.1 hr with hs | hr
    · obtain ⟨leaf, hleaf, hmem⟩ := hran hs
      exact ⟨leaf, hleaf, List.mem_append_left _ hmem⟩
    · obtain ⟨leaf, hleaf, hmem⟩ := hran' hr
      exact ⟨leaf, hleaf, List.mem_append_right _ hmem⟩

/-- An error comes before any mutation. -/
theorem Reported.error {e : MutationError} (h : Reported leaves σ (.ok state) σ₁)
    (h' : Reported leaves σ₁ (.error e) σ₂) : Reported leaves σ (.error e) σ₂ := by
  have hshared : σ.child.sharers ≠ 0 := by
    rw [← h.sharers]
    exact h'.shared e rfl
  have hstate : (.ok state : Report) ≠ .ok .mutated := fun hs => hshared (h.mutated hs)
  obtain ⟨new, hnew, -⟩ := h.events
  obtain ⟨new', hnew', -⟩ := h'.events
  refine ⟨fun _ => ?_, fun hr => (nomatch hr), fun _ _ => hshared, h'.sharers.trans h.sharers, new ++ new', ?_,
    fun hr => (nomatch hr)⟩
  · rw [h'.unchanged (fun hr => nomatch hr), h.unchanged hstate]
  · rw [hnew', hnew, List.append_assoc]

theorem reportFlag_flagAfter (isMutated : Bool) (r : Report) : ∃ state, reportFlag isMutated = .ok state ∧
    reportFlag (MABScheduler.flagAfter isMutated r) = .ok (MutationState.after state r) := by
  refine ⟨if isMutated then .mutated else .unchanged, by cases isMutated <;> rfl, ?_⟩
  rcases r with e | (_ | _) <;> cases isMutated <;> rfl

/-- Two rounds of a loop that keeps a flag. -/
theorem Reported.flagAfter {isMutated : Bool} (h : Reported leaves σ (reportFlag isMutated) σ₁)
    (h' : Reported leaves σ₁ r σ₂) :
    Reported leaves σ (reportFlag (MABScheduler.flagAfter isMutated r)) σ₂ := by
  obtain ⟨state, hstate, hafter⟩ := reportFlag_flagAfter isMutated r
  rw [hafter]
  rw [hstate] at h
  exact h.after h'

/-- A hook may be attached after a mutation. -/
theorem Reported.attachHook (h : Reported leaves σ (.ok .mutated) σ₁) (arm : ArmRef) :
    Reported leaves σ (.ok .mutated)
      { σ₁ with child := { σ₁.child with entry := σ₁.child.entry.attachHook arm } } :=
  ⟨fun hr => absurd rfl hr, h.mutated, fun _ he => (nomatch he), h.sharers, h.events⟩

end Compose

/-! ## The steps of a strategy -/

section Steps

open Scene

variable {leaves : List Leaf} {σ : Scene H Stmt}

theorem idle_draw {α : Type} (x : Rng α) : Prog.Ensures (draw x) σ fun _ σ' => Idle σ σ' :=
  Prog.ensures_zoom (P := fun _ _ => True) (fun _ _ _ => trivial) fun _ _ _ => ⟨rfl, [], (List.append_nil _).symm⟩

theorem idle_onMutate (arm : ArmRef) (outcome : TestOutcome) :
    Prog.Ensures (onMutate arm outcome) σ fun _ σ' => Idle σ σ' :=
  Prog.ensures_modify ⟨rfl, [.onMutate arm outcome], rfl⟩

theorem idle_fireParentHooks (outcome : TestOutcome) :
    Prog.Ensures (fireParentHooks outcome) σ fun _ σ' => Idle σ σ' := by
  refine Prog.ensures_bind (R := fun τ σ' => τ = σ ∧ σ' = σ) (Prog.ensures_get ⟨rfl, rfl⟩) ?_
  rintro τ σ' ⟨hτ, hσ'⟩
  rw [hτ, hσ']
  refine Prog.ensures_foldlM (I := fun _ σ' => Idle σ σ') (fun _ arm _ σ' hσ' => ?_) (Idle.refl σ)
  exact (idle_onMutate arm outcome).mono fun _ _ h => hσ'.trans h

theorem idle_calculateScore [FloatFns ℚ] (arm : ArmRef) :
    Prog.Ensures (calculateScore arm) σ fun _ σ' => Idle σ σ' :=
  Prog.ensures_zoom (P := fun _ _ => True) (fun _ _ _ => trivial) fun _ _ _ => ⟨rfl, [], (List.append_nil _).symm⟩

/-- An arm is credited with what was reported. -/
theorem reported_credit {σ₁ : Scene H Stmt} {r : Report} (h : Reported leaves σ r σ₁) (arm : ArmRef) :
    Prog.Ensures (credit arm r) σ₁ fun _ σ' => Reported leaves σ r σ' := by
  unfold credit
  split
  · refine Prog.ensures_bind (R := fun _ σ' => Reported leaves σ (.ok .mutated) σ')
      (Prog.ensures_modify (h.attachHook arm)) fun _ σ' h' => ?_
    exact (idle_onMutate arm .mutated).mono fun _ _ hidle => h'.idle hidle
  · exact (idle_onMutate arm .noop).mono fun _ _ hidle => h.idle hidle

theorem fair_breedLeaf [Sqlparser Stmt] (parentGen : List (Entry Stmt)) (leaf : Leaf) :
    Fair [leaf] (breedLeaf parentGen leaf : Breeder H Stmt) := by
  intro σ
  refine Prog.ensures_bind (R := fun r σ' => Reported [leaf] σ r σ') (fun r σ' hx => ?_) fun r σ' h => ?_
  · obtain ⟨⟨⟨r', child⟩, draws⟩, hbreed, heq⟩ := Option.map_eq_some_iff.1 hx
    cases heq
    have hhonest := leaf.honest _ _ hbreed
    exact ⟨hhonest.unchanged, hhonest.mutated, hhonest.shared, hhonest.sharers, [.ran leaf r'], rfl,
      fun hr => ⟨leaf, by simp, by simpa using hr.symm⟩⟩
  · refine Prog.ensures_bind (idle_fireParentHooks (hookOutcome r)) fun _ σ' hidle => ?_
    exact Prog.ensures_pure (h.idle hidle)

/-- A draw before a strategy. -/
theorem fair_draw {α : Type} {x : Rng α} {f : α → Prog (Scene H Stmt) Report} (h : ∀ a, Fair leaves (f a)) :
    Fair leaves (draw x >>= f) := by
  intro σ
  exact Prog.ensures_bind (idle_draw x) fun a σ' hidle => (h a σ').mono fun _ _ hr => hidle.reported hr

theorem fair_unchanged : Fair leaves (pure (.ok .unchanged) : Prog (Scene H Stmt) Report) :=
  fun σ => Prog.ensures_pure (Idle.refl σ).unchanged

theorem fair_randomMutationSampler {choices : List (Breeder H Stmt)} (h : ∀ breeder ∈ choices, Fair leaves breeder)
    (chooseMax chooseMin : Nat) : Fair leaves (RandomMutationSampler.breed choices chooseMax chooseMin) := by
  refine fair_draw fun nChosen => ?_
  split
  · exact fair_unchanged
  · intro σ
    refine Prog.ensures_bind (R := fun status σ' => Reported leaves σ (.ok status) σ') ?_ fun status σ' hσ' =>
      Prog.ensures_pure hσ'
    refine Prog.ensures_repeated (I := fun status σ' => Reported leaves σ (.ok status) σ')
      (fun status σ₁ h₁ => ?_) (Idle.refl σ).unchanged nChosen
    refine Prog.ensures_bind (R := fun breeder σ' => Idle σ₁ σ' ∧ breeder ∈ choices) ?_ ?_
    · exact Prog.ensures_zoom (mem_of_choose choices) fun breeder draws hmem =>
        ⟨⟨rfl, [], (List.append_nil _).symm⟩, hmem⟩
    · rintro breeder σ₂ ⟨hidle, hmem⟩
      refine Prog.ensures_bind (h breeder hmem σ₂) fun r σ₃ h₃ => ?_
      exact Prog.ensures_pure (h₁.after (hidle.reported h₃))

theorem fair_randomly {inner : Breeder H Stmt} (h : Fair leaves inner) (prob : ℚ) :
    Fair leaves (Randomly.breed inner prob) := by
  refine fair_draw fun hit => ?_
  split
  · exact h
  · exact fair_unchanged

theorem fair_adaptiveStrategyScheduler [FloatFns ℚ] [FloatExp ℚ] {strategy : Breeder H Stmt}
    (h : Fair leaves strategy) (arm : ArmRef) : Fair leaves (AdaptiveStrategyScheduler.breed strategy arm) := by
  intro σ
  refine Prog.ensures_bind (idle_calculateScore arm) fun score σ₁ h₁ => ?_
  refine Prog.ensures_bind (idle_draw _) fun hit σ₂ h₂ => ?_
  have hidle := h₁.trans h₂
  split
  · exact Prog.ensures_pure hidle.unchanged
  · refine Prog.ensures_bind (h σ₂) fun r σ₃ h₃ => ?_
    refine Prog.ensures_bind (reported_credit h₃ arm) fun _ σ₄ h₄ => ?_
    exact Prog.ensures_pure (hidle.reported h₄)

theorem fair_repeat {inner : Breeder H Stmt} (h : Fair leaves inner) (upTo : Nat) :
    Fair leaves (Repeat.breed inner upTo) := by
  refine fair_draw fun n σ => ?_
  have hloop : ∀ state σ₁, Reported leaves σ (.ok state) σ₁ →
      Prog.Ensures (Repeat.loop inner n state) σ₁ fun r σ' => Reported leaves σ r σ' := by
    induction n with
    | zero => exact fun state σ₁ h₁ => Prog.ensures_pure h₁
    | succ n ih =>
      intro state σ₁ h₁
      refine Prog.ensures_bind (h σ₁) fun r σ₂ h₂ => ?_
      cases r with
      | error e => exact Prog.ensures_pure (h₁.error h₂)
      | ok s => exact ih _ σ₂ (h₁.after h₂)
  exact hloop .unchanged σ (Idle.refl σ).unchanged

/-! ## The scheduler of strategies -/

section Scheduler

variable [BinaryHeap H RuleItem] [FloatFns ℚ]

omit [FloatFns ℚ] in
theorem idle_pop (queue : QueueRef) :
    Prog.Ensures (MABScheduler.pop queue : Prog (Scene H Stmt) _) σ fun _ σ' => Idle σ σ' := by
  intro a σ' h
  unfold MABScheduler.pop at h
  split at h
  · cases h
    exact Idle.refl σ
  · cases h
    exact ⟨rfl, [], (List.append_nil _).symm⟩

omit [FloatFns ℚ] in
theorem idle_push (queue : QueueRef) (item : RuleItem) :
    Prog.Ensures (MABScheduler.push queue item : Prog (Scene H Stmt) Unit) σ fun _ σ' => Idle σ σ' :=
  Prog.ensures_modify ⟨rfl, [], (List.append_nil _).symm⟩

theorem idle_take (queue : QueueRef) (currentEpoch : UInt32) (choose n : Nat) (acc : List RuleItem) :
    Prog.Ensures (MABScheduler.take queue currentEpoch choose n acc : Prog (Scene H Stmt) _) σ
      fun _ σ' => Idle σ σ' := by
  induction n generalizing acc σ with
  | zero => exact fun _ _ h => (nomatch h)
  | succ n ih =>
    unfold MABScheduler.take
    split
    · exact Prog.ensures_pure (Idle.refl σ)
    · refine Prog.ensures_bind (idle_pop queue) fun top σ₁ h₁ => ?_
      cases top with
      | none => exact Prog.ensures_pure h₁
      | some top =>
        dsimp only
        split
        · refine Prog.ensures_bind (idle_calculateScore top.stats) fun score σ₂ h₂ => ?_
          refine Prog.ensures_bind (idle_push queue _) fun _ σ₃ h₃ => ?_
          exact (ih acc).mono fun _ _ h => ((h₁.trans h₂).trans h₃).trans h
        · exact (ih _).mono fun _ _ h => h₁.trans h

theorem fair_mabScheduler {rules : List (Breeder H Stmt)} (h : ∀ breeder ∈ rules, Fair leaves breeder)
    (queue : QueueRef) (body : BodyRef) (choose : Nat) :
    Fair leaves (MABScheduler.breed rules queue body choose) := by
  intro σ
  refine Prog.ensures_bind (R := fun τ σ' => σ' = σ) (Prog.ensures_get rfl) fun τ σ₀ h₀ => ?_
  rw [h₀]
  refine Prog.ensures_bind (idle_take queue _ choose _ []) fun acc σ₁ h₁ => ?_
  -- the loop over the chosen rules: the flag is a report
  refine Prog.ensures_bind (R := fun isMutated σ' => Reported leaves σ (reportFlag isMutated) σ') ?_
    fun isMutated σ₂ h₂ => ?_
  · refine Prog.ensures_foldlM (I := fun isMutated σ' => Reported leaves σ (reportFlag isMutated) σ')
      (fun isMutated rule _ σ₂ h₂ => ?_) h₁.unchanged
    refine Prog.ensures_bind (R := fun breeder σ' => σ' = σ₂ ∧ breeder ∈ rules)
      (Prog.ensures_expect fun breeder hb => ⟨rfl, List.mem_of_getElem? hb⟩) ?_
    rintro breeder σ₃ ⟨h₃, hmem⟩
    rw [h₃]
    refine Prog.ensures_bind (h breeder hmem σ₂) fun r σ₄ h₄ => ?_
    refine Prog.ensures_bind (reported_credit h₄ rule.stats) fun _ σ₅ h₅ => Prog.ensures_pure ?_
    exact h₂.flagAfter h₅
  · refine Prog.ensures_bind (R := fun _ σ' => Idle σ₂ σ') ?_ fun _ σ₃ h₃ => Prog.ensures_pure (h₂.idle h₃)
    refine Prog.ensures_foldlM (I := fun _ σ' => Idle σ₂ σ') (fun _ item _ σ' hσ' => ?_) (Idle.refl σ₂)
    exact (idle_push queue item).mono fun _ _ hidle => hσ'.trans hidle

end Scheduler

end Steps

/-! ## Trees -/

section Trees

variable [BinaryHeap H RuleItem] [FloatFns ℚ] [FloatExp ℚ] [Sqlparser Stmt]

mutual

/-- **Every strategy reports honestly**, by induction over the tree. -/
theorem fair_breed (parentGen : List (Entry Stmt)) :
    (strategy : Strategy) → Fair strategy.leaves (strategy.breed parentGen : Breeder H Stmt)
  | .leaf rule => by
    rw [Strategy.breed, Strategy.leaves]
    exact fair_breedLeaf parentGen rule
  | .randomMutationSampler choices chooseMax chooseMin => by
    rw [Strategy.breed, Strategy.leaves]
    exact fair_randomMutationSampler (fair_breedEach parentGen choices) chooseMax chooseMin
  | .randomly inner prob => by
    rw [Strategy.breed, Strategy.leaves]
    exact fair_randomly (fair_breed parentGen inner) prob
  | .adaptiveStrategyScheduler strategy arm => by
    rw [Strategy.breed, Strategy.leaves]
    exact fair_adaptiveStrategyScheduler (fair_breed parentGen strategy) arm
  | .mabScheduler rules queue body choose => by
    rw [Strategy.breed, Strategy.leaves]
    exact fair_mabScheduler (fair_breedEach parentGen rules) queue body choose
  | .repeating upTo inner => by
    rw [Strategy.breed, Strategy.leaves]
    exact fair_repeat (fair_breed parentGen inner) upTo

theorem fair_breedEach (parentGen : List (Entry Stmt)) : (strategies : List Strategy) →
    ∀ breeder ∈ (Strategy.breedEach parentGen strategies : List (Breeder H Stmt)),
      Fair (Strategy.leavesOf strategies) breeder
  | [] => by
    intro breeder h
    rw [Strategy.breedEach] at h
    cases h
  | strategy :: strategies => by
    intro breeder h σ
    rw [Strategy.breedEach] at h
    rw [Strategy.leavesOf]
    rcases List.mem_cons.1 h with rfl | h
    · exact (fair_breed parentGen strategy σ).mono fun _ _ hr =>
        hr.mono fun _ hleaf => List.mem_append_left _ hleaf
    · exact (fair_breedEach parentGen strategies breeder h σ).mono fun _ _ hr =>
        hr.mono fun _ hleaf => List.mem_append_right _ hleaf

end

/-- **A report is honest.** A child that a strategy does not report as mutated has its AST, its parents and its rule
hooks as before; and a strategy reports a mutation only if one of its rules has. -/
theorem unchanged_of_report (strategy : Strategy) (parentGen : List (Entry Stmt)) (σ σ' : Scene H Stmt) (r : Report)
    (h : strategy.breed parentGen σ = some (r, σ')) :
    (r ≠ .ok .mutated → σ'.child.entry.entry.ast = σ.child.entry.entry.ast ∧
      σ'.child.entry.entry.parents = σ.child.entry.entry.parents ∧
      σ'.child.entry.appliedRuleStats = σ.child.entry.appliedRuleStats) ∧
    (r = .ok .mutated → ∃ new, σ'.events = σ.events ++ new ∧
      ∃ leaf ∈ strategy.leaves, Event.ran leaf (.ok .mutated) ∈ new) := by
  have hr := fair_breed parentGen strategy σ r σ' h
  constructor
  · intro hne
    rw [hr.unchanged hne]
    exact ⟨rfl, rfl, rfl⟩
  · intro heq
    obtain ⟨new, hnew, hran⟩ := hr.events
    exact ⟨new, hnew, hran heq⟩

end Trees

/-! ## A splice -/

section Splice

attribute [local instance] FloatFns.tangent

attribute [local instance] FloatExp.tangent

attribute [local instance] Sqlparser.plain

/-- `SpliceIn`, which sees two entries of one statement each. -/
def spliced : Option (Report × Scene (ListHeap (SchedueldItem.score (T := Nat))) Plain) :=
  (Strategy.repeating 1 (.leaf (.spliceIn ⟨1 / 2⟩))).breed [⟨⟨⟨1⟩, [], [.commit]⟩, [], []⟩]
    { child := ⟨⟨⟨⟨2⟩, [], [.commit]⟩, [], []⟩, 0⟩
      bandits := .new
      queues := fun _ => ⟨[]⟩
      draws := List.replicate 5 ⟨1 / 2, by norm_num, by norm_num⟩
      events := [] }

theorem unchanged_of_report_splice : ∃ σ', spliced = some (.ok .mutated, σ') ∧
    ∃ leaf ∈ (Strategy.repeating 1 (.leaf (.spliceIn ⟨1 / 2⟩))).leaves,
      Event.ran leaf (.ok .mutated) ∈ σ'.events := by
  have hsome : spliced.map Prod.fst = some (.ok .mutated) := by decide +kernel
  obtain ⟨⟨r, σ'⟩, h, rfl⟩ := Option.map_eq_some_iff.1 hsome
  obtain ⟨new, hnew, hran⟩ := (unchanged_of_report _ _ _ _ _ h).2 rfl
  refine ⟨σ', h, ?_⟩
  rw [hnew]
  exact hran

end Splice

end Lsf.Mutate
