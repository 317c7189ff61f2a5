import Mathlib.Data.List.Infix

/-!
# Runs of a step function

A system is a partial step function `step : σ → α → Option σ` on states `σ` and actions `α`; `none` says that the
action cannot be taken (it waits, or it never returns). `run` iterates it, `AllStates` and `AllSteps` speak about
everything on the way, and the rules below turn what one step keeps into what a whole run keeps. The last section is
about systems that answer: two of them give the same answers when a simulation relates their states.
-/

namespace Lsf.Lib

section Runs

variable {σ α : Type*} (step : σ → α → Option σ)

/-- The state after the actions `as`. -/
def run : σ → List α → Option σ
  | s, [] => some s
  | s, a :: as => (step s a).bind fun s' => run s' as

/-- `P` holds in every state on the way. -/
def AllStates (P : σ → Prop) : σ → List α → Prop
  | s, [] => P s
  | s, a :: as => P s ∧ ∀ s', step s a = some s' → AllStates P s' as

/-- `F` holds of every action, in the state in which it comes. -/
def AllSteps (F : σ → α → Prop) : σ → List α → Prop
  | _, [] => True
  | s, a :: as => F s a ∧ ∀ s', step s a = some s' → AllSteps F s' as

variable {step}

/-- A run can be checked step by step. -/
instance AllSteps.decidable {F : σ → α → Prop} [∀ s a, Decidable (F s a)] :
    ∀ (s : σ) (as : List α), Decidable (AllSteps step F s as)
  | _, [] => isTrue trivial
  | s, a :: as =>
    match h : step s a with
    | none => decidable_of_iff (F s a) ⟨fun hF => ⟨hF, fun s' hs => by rw [h] at hs; cases hs⟩, And.left⟩
    | some s' =>
      haveI : Decidable (AllSteps step F s' as) := AllSteps.decidable s' as
      decidable_of_iff (F s a ∧ AllSteps step F s' as)
        ⟨fun hF => ⟨hF.1, fun t ht => by rw [h] at ht; cases ht; exact hF.2⟩, fun hF => ⟨hF.1, hF.2 s' h⟩⟩

@[simp] theorem run_nil (s : σ) : run step s [] = some s := rfl

theorem run_cons (s : σ) (a : α) (as : List α) : run step s (a :: as) = (step s a).bind (run step · as) := rfl

theorem run_cons_eq_some {s t : σ} {a : α} {as : List α} :
    run step s (a :: as) = some t ↔ ∃ s', step s a = some s' ∧ run step s' as = some t := by
  rw [run_cons, Option.bind_eq_some_iff]

theorem run_append (s : σ) (as bs : List α) : run step s (as ++ bs) = (run step s as).bind (run step · bs) := by
  induction as generalizing s with
  | nil => rfl
  | cons a as ih =>
    rw [List.cons_append, run_cons, run_cons, Option.bind_assoc]
    exact Option.bind_congr fun s' _ => ih s'

section Rules

variable {I P : σ → Prop} {F G : σ → α → Prop} {s t : σ} {as : List α}

theorem AllStates.head (h : AllStates step P s as) : P s := by
  cases as with
  | nil => exact h
  | cons a as => exact h.1

theorem allSteps_cons_of_step {a : α} (hs : step s a = some t) :
    AllSteps step F s (a :: as) ↔ F s a ∧ AllSteps step F t as := by
  refine and_congr_right fun _ => ⟨fun h => h t hs, fun h s' hs' => ?_⟩
  rw [hs] at hs'
  cases hs'
  exact h

theorem AllSteps.and (hF : AllSteps step F s as) (hG : AllSteps step G s as) :
    AllSteps step (fun s a => F s a ∧ G s a) s as := by
  induction as generalizing s with
  | nil => trivial
  | cons a as ih => exact ⟨⟨hF.1, hG.1⟩, fun s' hs => ih (hF.2 s' hs) (hG.2 s' hs)⟩

theorem allSteps_of_forall (h : ∀ s, ∀ a ∈ as, F s a) : AllSteps step F s as := by
  induction as generalizing s with
  | nil => trivial
  | cons a as ih => exact ⟨h s a (by simp), fun s' _ => ih fun s b hb => h s b (by simp [hb])⟩

/-- **The invariant rule**: what every step keeps holds at the end of a run. -/
theorem run_invariant (hstep : ∀ s a s', I s → F s a → step s a = some s' → I s') (h0 : I s)
    (hF : AllSteps step F s as) (hrun : run step s as = some t) : I t := by
  induction as generalizing s with
  | nil => cases hrun; exact h0
  | cons a as ih =>
    obtain ⟨s', hs, hrun⟩ := run_cons_eq_some.1 hrun
    exact ih (hstep s a s' h0 hF.1 hs) (hF.2 s' hs) hrun

/-- The invariant rule for systems in which every action keeps the invariant. -/
theorem run_invariant_of_forall (hstep : ∀ s a s', I s → step s a = some s' → I s') (h0 : I s)
    (hrun : run step s as = some t) : I t :=
  run_invariant (F := fun _ _ => True) (fun s a s' hi _ => hstep s a s' hi) h0
    (allSteps_of_forall fun _ _ _ => trivial) hrun

/-- The invariant rule for actions that can always be taken: the run comes to its end. -/
theorem exists_run (hstep : ∀ s a, I s → F s a → ∃ s', step s a = some s' ∧ I s') (h0 : I s)
    (hF : AllSteps step F s as) : ∃ t, run step s as = some t ∧ I t := by
  induction as generalizing s with
  | nil => exact ⟨s, rfl, h0⟩
  | cons a as ih =>
    obtain ⟨s', hs, hI⟩ := hstep s a h0 hF.1
    obtain ⟨t, hrun, ht⟩ := ih hI (hF.2 s' hs)
    exact ⟨t, run_cons_eq_some.2 ⟨s', hs, hrun⟩, ht⟩

/-- Two conditions that say the same where an invariant holds, which they keep, are met by the same runs. -/
theorem allSteps_congr_of_step (hstep : ∀ s a s', I s → F s a → step s a = some s' → I s')
    (hFG : ∀ s a, I s → (F s a ↔ G s a)) (h0 : I s) : AllSteps step F s as ↔ AllSteps step G s as := by
  induction as generalizing s with
  | nil => exact Iff.rfl
  | cons a as ih =>
    constructor
    · intro h
      exact ⟨(hFG s a h0).1 h.1, fun s' hs => (ih (hstep s a s' h0 h.1 hs)).1 (h.2 s' hs)⟩
    · intro h
      have hF := (hFG s a h0).2 h.1
      exact ⟨hF, fun s' hs => (ih (hstep s a s' h0 hF hs)).2 (h.2 s' hs)⟩

/-- The same for an invariant that every action keeps. -/
theorem allSteps_congr (hstep : ∀ s a s', I s → step s a = some s' → I s') (hFG : ∀ s a, I s → (F s a ↔ G s a))
    (h0 : I s) : AllSteps step F s as ↔ AllSteps step G s as :=
  allSteps_congr_of_step (fun s a s' hI _ => hstep s a s' hI) hFG h0

/-- The invariant rule for everything on the way. -/
theorem allStates_of_invariant (hP : ∀ s, I s → P s) (hstep : ∀ s a s', I s → F s a → step s a = some s' → I s')
    (h0 : I s) (hF : AllSteps step F s as) : AllStates step P s as := by
  induction as generalizing s with
  | nil => exact hP s h0
  | cons a as ih => exact ⟨hP s h0, fun s' hs => ih (hstep s a s' h0 hF.1 hs) (hF.2 s' hs)⟩

/-- The invariant rule for what every step does. -/
theorem allSteps_of_invariant (hFG : ∀ s a, I s → F s a → G s a)
    (hstep : ∀ s a s', I s → F s a → step s a = some s' → I s') (h0 : I s) (hF : AllSteps step F s as) :
    AllSteps step G s as := by
  induction as generalizing s with
  | nil => trivial
  | cons a as ih => exact ⟨hFG s a h0 hF.1, fun s' hs => ih (hstep s a s' h0 hF.1 hs) (hF.2 s' hs)⟩

/-- **The exact-condition rule.** If the steps that meet `F` keep the invariant and are as `Q` says, and every other step
breaks `P` or is not as `Q` says, then `P` and `Q` hold all along a run exactly when all its steps meet `F`. `G` is what is
known of the actions beforehand. -/
theorem allStates_and_allSteps_iff {Q : σ → α → Prop} (hP : ∀ s, I s → P s)
    (hgood : ∀ s a, I s → G s a → F s a → Q s a ∧ ∀ s', step s a = some s' → I s')
    (hbad : ∀ s a, I s → G s a → ¬F s a → ¬Q s a ∨ ∃ s', step s a = some s' ∧ ¬P s')
    (h0 : I s) (hG : AllSteps step G s as) : AllStates step P s as ∧ AllSteps step Q s as ↔ AllSteps step F s as := by
  constructor
  · rintro ⟨hall, hQ⟩
    induction as generalizing s with
    | nil => trivial
    | cons a as ih =>
      by_cases hF : F s a
      · exact ⟨hF, fun s' hs => ih ((hgood s a h0 hG.1 hF).2 s' hs) (hG.2 s' hs) (hall.2 s' hs) (hQ.2 s' hs)⟩
      · rcases hbad s a h0 hG.1 hF with hn | ⟨s', hs, hn⟩
        · exact absurd hQ.1 hn
        · exact absurd (hall.2 s' hs).head hn
  · intro h
    have hstep : ∀ s a s', I s → F s a ∧ G s a → step s a = some s' → I s' :=
      fun s a s' hi hFG hs => (hgood s a hi hFG.2 hFG.1).2 s' hs
    exact ⟨allStates_of_invariant hP hstep h0 (h.and hG),
      allSteps_of_invariant (fun s a hi hFG => (hgood s a hi hFG.2 hFG.1).1) hstep h0 (h.and hG)⟩

/-- The exact-condition rule for what holds in the states of a run. -/
theorem allStates_iff_allSteps (hP : ∀ s, I s → P s)
    (hgood : ∀ s a s', I s → G s a → F s a → step s a = some s' → I s')
    (hbad : ∀ s a, I s → G s a → ¬F s a → ∃ s', step s a = some s' ∧ ¬P s')
    (h0 : I s) (hG : AllSteps step G s as) : AllStates step P s as ↔ AllSteps step F s as := by
  rw [← allStates_and_allSteps_iff (Q := fun _ _ => True) hP
    (fun s a hi hg hF => ⟨trivial, fun s' hs => hgood s a s' hi hg hF hs⟩)
    (fun s a hi hg hF => .inr (hbad s a hi hg hF)) h0 hG]
  exact (and_iff_left (allSteps_of_forall fun _ _ _ => trivial)).symm

theorem AllStates.of_run (h : AllStates step P s as) (hrun : run step s as = some t) : P t := by
  induction as generalizing s with
  | nil => cases hrun; exact h
  | cons a as ih =>
    obtain ⟨s', hs, hrun⟩ := run_cons_eq_some.1 hrun
    exact ih (h.2 s' hs) hrun

theorem allSteps_append {bs : List α} (hrun : run step s as = some t) :
    AllSteps step F s (as ++ bs) ↔ AllSteps step F s as ∧ AllSteps step F t bs := by
  induction as generalizing s with
  | nil =>
    cases hrun
    exact (and_iff_right trivial).symm
  | cons a as ih =>
    obtain ⟨s', hs, hrun⟩ := run_cons_eq_some.1 hrun
    simp only [List.cons_append, AllSteps, hs, Option.some.injEq, forall_eq', ih hrun, and_assoc]

theorem AllStates.after_run {bs : List α} (h : AllStates step P s (as ++ bs)) (hrun : run step s as = some t) :
    AllStates step P t bs := by
  induction as generalizing s with
  | nil => cases hrun; exact h
  | cons a as ih =>
    obtain ⟨s', hs, hrun⟩ := run_cons_eq_some.1 hrun
    exact ih (h.2 s' hs) hrun

end Rules

/-- **The refinement rule**: if each step of a system, seen through `abs`, is a run of another one (of no step where the
other one does not move), then so is each run. -/
theorem exists_run_of_refines {τ β : Type*} {stepB : τ → β → Option τ} {abs : σ → τ} {I : σ → Prop} {s t : σ}
    {as : List α} (hstep : ∀ s a s', I s → step s a = some s' → I s' ∧ ∃ bs, run stepB (abs s) bs = some (abs s'))
    (h0 : I s) (hrun : run step s as = some t) : ∃ bs, run stepB (abs s) bs = some (abs t) := by
  induction as generalizing s with
  | nil =>
    cases hrun
    exact ⟨[], rfl⟩
  | cons a as ih =>
    obtain ⟨s', hs, hrun⟩ := run_cons_eq_some.1 hrun
    obtain ⟨hI, bs, hbs⟩ := hstep s a s' h0 hs
    obtain ⟨cs, hcs⟩ := ih hI hrun
    refine ⟨bs ++ cs, ?_⟩
    rw [run_append, hbs, Option.bind_some, hcs]

end Runs

/-! ## Systems that answer -/

section Answers

variable {σ τ α ο : Type*}

/-- The answers to the actions `as`. -/
def answers (step : σ → α → ο × σ) : σ → List α → List ο
  | _, [] => []
  | s, a :: as => (step s a).1 :: answers step (step s a).2 as

/-- The state after the actions `as`. -/
def after (step : σ → α → ο × σ) : σ → List α → σ
  | s, [] => s
  | s, a :: as => after step (step s a).2 as

/-- **The simulation rule**: related states with equal answers and related successors answer alike for ever. -/
theorem answers_eq_of_simulation {stepA : σ → α → ο × σ} {stepB : τ → α → ο × τ} {R : σ → τ → Prop} {K : α → Prop}
    (hstep : ∀ s t a, R s t → K a → (stepA s a).1 = (stepB t a).1 ∧ R (stepA s a).2 (stepB t a).2) {s : σ} {t : τ}
    (h : R s t) (as : List α) (hK : ∀ a ∈ as, K a) :
    answers stepA s as = answers stepB t as ∧ R (after stepA s as) (after stepB t as) := by
  induction as generalizing s t with
  | nil => exact ⟨rfl, h⟩
  | cons a as ih =>
    obtain ⟨heq, hR⟩ := hstep s t a h (hK a (by simp))
    obtain ⟨has, hend⟩ := ih hR fun b hb => hK b (by simp [hb])
    refine ⟨?_, hend⟩
    simp only [answers, heq, has]

/-- **The exact simulation rule**: if related states answer alike where `F` holds, and differently everywhere else, two
systems answer alike exactly as long as `F` holds. -/
theorem answers_eq_iff_allSteps {stepA : σ → α → ο × σ} {stepB : τ → α → ο × τ} {R : σ → τ → Prop} {F : σ → α → Prop}
    (hgood : ∀ s t a, R s t → F s a → (stepA s a).1 = (stepB t a).1 ∧ R (stepA s a).2 (stepB t a).2)
    (hbad : ∀ s t a, R s t → ¬F s a → (stepA s a).1 ≠ (stepB t a).1) {s : σ} {t : τ} (h : R s t) (as : List α) :
    answers stepA s as = answers stepB t as ↔ AllSteps (fun s a => some (stepA s a).2) F s as := by
  induction as generalizing s t with
  | nil => exact iff_of_true rfl trivial
  | cons a as ih =>
    simp only [answers, AllSteps, List.cons.injEq, Option.some.injEq, forall_eq']
    by_cases hF : F s a
    · obtain ⟨heq, hR⟩ := hgood s t a h hF
      rw [ih hR]
      exact ⟨fun hall => ⟨hF, hall.2⟩, fun hall => ⟨heq, hall.2⟩⟩
    · exact iff_of_false (fun hall => hbad s t a h hF hall.1) fun hall => hF hall.1

end Answers

end Lsf.Lib
