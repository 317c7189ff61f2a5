import Mathlib.Data.List.Basic
import Mathlib.Order.Defs.Unbundled

/-!
# Programs that may panic

`Prog σ α` is a program over a state `σ` that returns an `α`, or panics. `Ensures x s Q` says that `Q` holds of the
answer and the state that `x` leaves, if it returns at all; the rules below take a program apart along its statements.
Loops are `repeated`, which runs a body a number of times, and `foldlM`, which runs it over a list. A program whose steps
all go along one preorder `Moves` along it.
-/

namespace Lsf.Lib

/-- A program over the state `σ`; `none` is a panic. -/
abbrev Prog (σ α : Type) := StateT σ Option α

namespace Prog

variable {σ τ α β : Type}

/-- Leave the program with a panic if there is no value. -/
def expect (x : Option α) : Prog σ α := fun s => x.map fun a => (a, s)

/-- `for _ in 0..n`, over an accumulator. -/
def repeated (body : β → Prog σ β) : Nat → β → Prog σ β
  | 0, b => pure b
  | n + 1, b => do
    let b ← body b
    repeated body n b

/-- A program on a part of the state. -/
def zoom (get : σ → τ) (set : σ → τ → σ) (x : Prog τ α) : Prog σ α :=
  fun s => (x (get s)).map fun r => (r.1, set s r.2)

@[simp] theorem pure_apply (a : α) (s : σ) : (pure a : Prog σ α) s = some (a, s) := rfl

theorem bind_apply (x : Prog σ α) (f : α → Prog σ β) (s : σ) : (x >>= f) s = (x s).bind fun r => f r.1 r.2 := rfl

/-- If `x` returns from `s`, then with an answer and a state of which `Q` holds. -/
def Ensures (x : Prog σ α) (s : σ) (Q : α → σ → Prop) : Prop := ∀ a s', x s = some (a, s') → Q a s'

variable {x : Prog σ α} {s : σ} {Q R : α → σ → Prop}

theorem Ensures.mono (h : Ensures x s R) (hRQ : ∀ a s', R a s' → Q a s') : Ensures x s Q :=
  fun a s' hx => hRQ a s' (h a s' hx)

theorem Ensures.trivial (h : ∀ a s', Q a s') : Ensures x s Q := fun a s' _ => h a s'

theorem ensures_pure {a : α} (h : Q a s) : Ensures (pure a) s Q := by
  intro b s' hx
  cases hx
  exact h

theorem ensures_bind {f : α → Prog σ β} {P : β → σ → Prop} (hx : Ensures x s R)
    (hf : ∀ a s', R a s' → Ensures (f a) s' P) : Ensures (x >>= f) s P := by
  intro b s'' hb
  obtain ⟨⟨a, s'⟩, ha, hfa⟩ := Option.bind_eq_some_iff.1 hb
  exact hf a s' (hx a s' ha) b s'' hfa

/-- The rule for a first statement of which nothing has to be known. -/
theorem ensures_then {f : α → Prog σ β} {P : β → σ → Prop} (hf : ∀ a s', Ensures (f a) s' P) :
    Ensures (x >>= f) s P :=
  ensures_bind (R := fun _ _ => True) (fun _ _ _ => True.intro) fun a s' _ => hf a s'

theorem ensures_expect {y : Option α} (h : ∀ a, y = some a → Q a s) : Ensures (expect y) s Q := by
  intro a s' hy
  obtain ⟨b, hb, heq⟩ := Option.map_eq_some_iff.1 hy
  cases heq
  exact h _ hb

theorem ensures_get {P : σ → σ → Prop} (h : P s s) : Ensures (get : Prog σ σ) s P := by
  intro a s' hx
  cases hx
  exact h

theorem ensures_modify {f : σ → σ} {P : Unit → σ → Prop} (h : P () (f s)) :
    Ensures (modify f : Prog σ Unit) s P := by
  intro a s' hx
  cases hx
  exact h

theorem ensures_zoom {get : σ → τ} {set : σ → τ → σ} {y : Prog τ α} {P : α → τ → Prop} (h : Ensures y (get s) P)
    (hQ : ∀ a t, P a t → Q a (set s t)) : Ensures (zoom get set y) s Q := by
  intro a s' hx
  obtain ⟨⟨b, t⟩, hb, heq⟩ := Option.map_eq_some_iff.1 hx
  cases heq
  exact hQ b t (h b t hb)

/-! ## Loops -/

section Loops

variable {I : β → σ → Prop} {b : β}

/-- What the body keeps, the loop keeps. -/
theorem ensures_repeated {body : β → Prog σ β} (hbody : ∀ b s, I b s → Ensures (body b) s I) (h : I b s) (n : Nat) :
    Ensures (repeated body n b) s I := by
  induction n generalizing b s with
  | zero => exact ensures_pure h
  | succ n ih => exact ensures_bind (hbody b s h) fun b' s' h' => ih h'

theorem ensures_foldlM {body : β → α → Prog σ β} {l : List α}
    (hbody : ∀ b, ∀ a ∈ l, ∀ s, I b s → Ensures (body b a) s I) (h : I b s) : Ensures (l.foldlM body b) s I := by
  induction l generalizing b s with
  | nil => exact ensures_pure h
  | cons a l ih =>
    rw [List.foldlM_cons]
    refine ensures_bind (hbody b a (by simp) s h) fun b' s' h' => ih (fun b a ha => hbody b a (by simp [ha])) h'

end Loops

/-! ## Programs that move along a preorder -/

section Moves

variable {I : σ → Prop} {S : σ → σ → Prop} {P : α → Prop} {T : β → Prop}

/-- From a state with `I` the program moves along `S` to a state with `I`, and its answer has `P`. -/
def Moves (I : σ → Prop) (S : σ → σ → Prop) (x : Prog σ α) (P : α → Prop) : Prop :=
  ∀ s, I s → Ensures x s fun a s' => I s' ∧ S s s' ∧ P a

theorem moves_modify {f : σ → σ} (h : ∀ s, I s → I (f s) ∧ S s (f s)) :
    Moves I S (modify f : Prog σ Unit) fun _ => True :=
  fun s hs => ensures_modify ⟨(h s hs).1, (h s hs).2, True.intro⟩

theorem moves_zoom {get : σ → τ} {set : σ → τ → σ} {y : Prog τ α} {Q : α → τ → Prop}
    (hy : ∀ s, Ensures y (get s) Q) (h : ∀ s a t, I s → Q a t → I (set s t) ∧ S s (set s t) ∧ P a) :
    Moves I S (zoom get set y) P :=
  fun s hs => ensures_zoom (hy s) fun a t hq => h s a t hs hq

theorem moves_bind [IsTrans σ S] {f : α → Prog σ β} (hx : Moves I S x P) (hf : ∀ a, P a → Moves I S (f a) T) :
    Moves I S (x >>= f) T := by
  intro s hs
  refine ensures_bind (hx s hs) fun a s₁ ⟨hs₁, hmove, ha⟩ => ?_
  exact (hf a ha s₁ hs₁).mono fun b s₂ ⟨hs₂, hmove', hb⟩ => ⟨hs₂, trans_of S hmove hmove', hb⟩

variable [IsPreorder σ S]

theorem moves_pure {a : α} (h : P a) : Moves I S (pure a) P :=
  fun s hs => ensures_pure ⟨hs, refl_of S s, h⟩

theorem moves_get : Moves I S (get : Prog σ σ) fun _ => True :=
  fun s hs => ensures_get ⟨hs, refl_of S s, True.intro⟩

theorem moves_expect {y : Option α} (h : ∀ a, y = some a → P a) : Moves I S (expect y) P :=
  fun s hs => ensures_expect fun a ha => ⟨hs, refl_of S s, h a ha⟩

theorem moves_repeated {body : β → Prog σ β} (hbody : ∀ b, T b → Moves I S (body b) T) {b : β} (h : T b) (n : Nat) :
    Moves I S (repeated body n b) T := by
  induction n generalizing b with
  | zero => exact moves_pure h
  | succ n ih => exact moves_bind (hbody b h) fun b' h' => ih h'

theorem moves_foldlM {body : β → α → Prog σ β} {l : List α}
    (hbody : ∀ b, ∀ a ∈ l, T b → Moves I S (body b a) T) {b : β} (h : T b) : Moves I S (l.foldlM body b) T := by
  induction l generalizing b with
  | nil => exact moves_pure h
  | cons a l ih =>
    rw [List.foldlM_cons]
    exact moves_bind (hbody b a (by simp) h) fun b' h' => ih (fun b a ha => hbody b a (by simp [ha])) h'

end Moves

end Prog

end Lsf.Lib
