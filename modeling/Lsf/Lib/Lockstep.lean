import Mathlib.Data.Option.Basic
import Lsf.Lib.Run

/-!
# Two systems in lockstep

`Option.Rel R x y` says that two computations both stop, or both give results that `R` relates. The rules below follow
the shape of the computations: a bind, a map, a fold. The last two are about systems: one that takes several steps for
one of the other, and one that has a choice where the other has none.
-/

namespace Lsf.Lib

section Rel

variable {α β γ δ σ τ ι : Type*} {R : α → β → Prop} {S : γ → δ → Prop}

theorem rel_bind {x : Option α} {y : Option β} {f : α → Option γ} {g : β → Option δ} (h : Option.Rel R x y)
    (hf : ∀ a b, R a b → Option.Rel S (f a) (g b)) : Option.Rel S (x.bind f) (y.bind g) := by
  cases h with
  | some hab => exact hf _ _ hab
  | none => exact .none

/-- Both sides do the same first. -/
theorem rel_bind_same {x : Option α} {f : α → Option γ} {g : α → Option δ} (hf : ∀ a, Option.Rel S (f a) (g a)) :
    Option.Rel S (x.bind f) (x.bind g) := by
  cases x with
  | some a => exact hf a
  | none => exact .none

theorem rel_map {x : Option α} {y : Option β} {f : α → γ} {g : β → δ} (h : Option.Rel R x y)
    (hf : ∀ a b, R a b → S (f a) (g b)) : Option.Rel S (x.map f) (y.map g) := by
  cases h with
  | some hab => exact .some (hf _ _ hab)
  | none => exact .none

/-- Equal results, if only what they have in common is looked at. -/
theorem map_eq_of_rel {x : Option α} {y : Option β} {f : α → γ} {g : β → γ} (h : Option.Rel R x y)
    (hf : ∀ a b, R a b → f a = g b) : x.map f = y.map g := by
  cases h with
  | some hab => exact congrArg some (hf _ _ hab)
  | none => rfl

/-- **The rule for folds.** -/
theorem rel_foldlM {R : σ → τ → Prop} {f : σ → ι → Option σ} {g : τ → ι → Option τ} {as : List ι} {s : σ} {t : τ}
    (hstep : ∀ s t, ∀ a ∈ as, R s t → Option.Rel R (f s a) (g t a)) (h : R s t) :
    Option.Rel R (as.foldlM f s) (as.foldlM g t) := by
  induction as generalizing s t with
  | nil => exact .some h
  | cons a as ih =>
    rw [List.foldlM_cons, List.foldlM_cons]
    exact rel_bind (hstep s t a List.mem_cons_self h) fun s' t' h' =>
      ih (fun s t b hb => hstep s t b (List.mem_cons_of_mem _ hb)) h'

end Rel

/-- **The simulation rule for runs**: if each step of a system is matched by a run of another one, then so is each run.
-/
theorem exists_run_of_simulation {σ τ α β : Type*} {stepA : σ → α → Option σ} {stepB : τ → β → Option τ}
    {R : σ → τ → Prop}
    (hstep : ∀ s a s' t, R s t → stepA s a = some s' → ∃ bs t', run stepB t bs = some t' ∧ R s' t') {s s' : σ} {t : τ}
    {as : List α} (h : R s t) (hrun : run stepA s as = some s') : ∃ bs t', run stepB t bs = some t' ∧ R s' t' := by
  induction as generalizing s t with
  | nil =>
    cases hrun
    exact ⟨[], t, rfl, h⟩
  | cons a as ih =>
    obtain ⟨s₁, hs, hrun⟩ := run_cons_eq_some.1 hrun
    obtain ⟨bs, t₁, hbs, h₁⟩ := hstep s a s₁ t h hs
    obtain ⟨cs, t', hcs, h'⟩ := ih h₁ hrun
    refine ⟨bs ++ cs, t', ?_, h'⟩
    rw [run_append, hbs, Option.bind_some, hcs]

/-- **The simulation rule with a choice**: if for each action the second system can choose so that it answers alike,
then it can for all of them. -/
theorem exists_answers_eq {σ τ α β ο : Type*} {stepA : σ → α → ο × σ} {stepB : τ → α × β → ο × τ} {R : σ → τ → Prop}
    {K : α → Prop}
    (hstep : ∀ s t a, R s t → K a → ∃ b, (stepA s a).1 = (stepB t (a, b)).1 ∧ R (stepA s a).2 (stepB t (a, b)).2)
    {s : σ} {t : τ} (h : R s t) {as : List α} (hK : ∀ a ∈ as, K a) :
    ∃ bs : List β, bs.length = as.length ∧ answers stepA s as = answers stepB t (as.zip bs) ∧
      R (after stepA s as) (after stepB t (as.zip bs)) := by
  induction as generalizing s t with
  | nil => exact ⟨[], rfl, rfl, h⟩
  | cons a as ih =>
    obtain ⟨b, heq, hR⟩ := hstep s t a h (hK a List.mem_cons_self)
    obtain ⟨bs, hlength, hanswers, hend⟩ := ih hR fun c hc => hK c (List.mem_cons_of_mem _ hc)
    refine ⟨b :: bs, congrArg (· + 1) hlength, ?_, hend⟩
    rw [List.zip_cons_cons, answers, answers, heq, hanswers]

end Lsf.Lib
