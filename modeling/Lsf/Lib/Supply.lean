import Lsf.Lib.Visit

/-!
# Programs that read a supply

A state can hold a supply that a program reads from its front, and that can be fed at its end. A program that only reads
`Streams`: what it has returned, it returns with more behind it. A program that returns nothing from any longer supply
has panicked, or never ends; `Answers` says that this does not happen: whatever has been read so far, there is a supply
with which the program returns. The rules below take such a program apart along its statements.
-/

namespace Lsf.Lib

/-- States with a supply of `ι`. -/
class Supply (σ : Type) (ι : outParam Type) where
  feed : σ → List ι → σ
  feed_nil : ∀ s, feed s [] = s
  feed_append : ∀ s more more', feed s (more ++ more') = feed (feed s more) more'

export Supply (feed feed_nil feed_append)

instance Supply.list {ι : Type} : Supply (List ι) ι :=
  ⟨(· ++ ·), List.append_nil, fun s more more' => (List.append_assoc s more more').symm⟩

namespace Prog

variable {σ ι α β : Type} [Supply σ ι]

/-- What the program returns, it returns with more supply. -/
def Streams (x : Prog σ α) : Prop := ∀ s a s', x s = some (a, s') → ∀ more, x (feed s more) = some (a, feed s' more)

/-- From every state with `I` the program can still return, with an answer that has `P` and with `I`. -/
def Answers (I : σ → Prop) (x : Prog σ α) (P : α → Prop) : Prop :=
  ∀ s, I s → ∃ more a s', x (feed s more) = some (a, s') ∧ I s' ∧ P a

/-- A program that can always return. -/
structure Sure (x : Prog σ α) : Prop where
  streams : Streams x
  answers : ∀ s, ∃ more r, x (feed s more) = some r

variable {I : σ → Prop} {P : α → Prop} {Q : β → Prop} {x : Prog σ α} {f : α → Prog σ β}

/-! ## Reading -/

theorem streams_pure (a : α) : Streams (pure a : Prog σ α) := by
  intro s b s' h more
  cases h
  rfl

theorem Streams.bind (hx : Streams x) (hf : ∀ a, Streams (f a)) : Streams (x >>= f) := by
  intro s b s'' h more
  obtain ⟨⟨a, s'⟩, ha, hb⟩ := Option.bind_eq_some_iff.1 h
  rw [bind_apply, hx s a s' ha more, Option.bind_some]
  exact hf a s' b s'' hb more

/-- The same where something is known of what the first statement returns. -/
theorem Streams.bind_of (hx : Streams x) (hP : ∀ s, Ensures x s fun a _ => P a) (hf : ∀ a, P a → Streams (f a)) :
    Streams (x >>= f) := by
  intro s b s'' h more
  obtain ⟨⟨a, s'⟩, ha, hb⟩ := Option.bind_eq_some_iff.1 h
  rw [bind_apply, hx s a s' ha more, Option.bind_some]
  exact hf a (hP s a s' ha) s' b s'' hb more

theorem streams_expect (y : Option α) : Streams (expect y : Prog σ α) := by
  intro s a s' h more
  obtain ⟨b, rfl, hb⟩ := Option.map_eq_some_iff.1 h
  cases hb
  rfl

theorem streams_none : Streams (fun _ => none : Prog σ α) := fun _ _ _ h => nomatch h

/-- A change of the state that does not look at the supply. -/
theorem streams_modify {g : σ → σ} (hg : ∀ s more, g (feed s more) = feed (g s) more) :
    Streams (modify g : Prog σ Unit) := by
  intro s a s' h more
  cases h
  exact congrArg (fun t => some ((), t)) (hg s more)

/-- A program that looks at the state, but not at the supply. -/
theorem streams_get_bind {g : σ → Prog σ β} (hg : ∀ s, Streams (g s)) (hfeed : ∀ s more, g (feed s more) = g s) :
    Streams (get >>= g) := by
  intro s b s' h more
  show g (feed s more) (feed s more) = _
  rw [hfeed]
  exact hg s s b s' h more

theorem streams_foldlM {body : β → α → Prog σ β} {l : List α} (hbody : ∀ b, ∀ a ∈ l, Streams (body b a)) (b : β) :
    Streams (l.foldlM body b) := by
  induction l generalizing b with
  | nil => exact streams_pure b
  | cons a l ih =>
    rw [List.foldlM_cons]
    exact (hbody b a List.mem_cons_self).bind fun b => ih (fun b a ha => hbody b a (List.mem_cons_of_mem _ ha)) b

theorem streams_repeated {body : β → Prog σ β} (hbody : ∀ b, Streams (body b)) (n : Nat) (b : β) :
    Streams (repeated body n b) := by
  induction n generalizing b with
  | zero => exact streams_pure b
  | succ n ih => exact (hbody b).bind ih

/-! ## Returning -/

theorem answers_pure {a : α} (h : P a) : Answers I (pure a) P :=
  fun s hs => ⟨[], a, s, by rw [feed_nil]; rfl, hs, h⟩

/-- What comes next returns from where the first statement returns. -/
theorem Answers.bind (hx : Answers I x P) (hstreams : Streams x) (hf : ∀ a, P a → Answers I (f a) Q) :
    Answers I (x >>= f) Q := by
  intro s hs
  obtain ⟨first, a, s₁, ha, hs₁, hP⟩ := hx s hs
  obtain ⟨second, b, s₂, hb, hs₂, hQ⟩ := hf a hP s₁ hs₁
  refine ⟨first ++ second, b, s₂, ?_, hs₂, hQ⟩
  rw [feed_append, bind_apply, hstreams _ a s₁ ha second, Option.bind_some]
  exact hb

theorem answers_expect {y : Option α} {a : α} (hy : y = some a) (ha : P a) : Answers I (expect y) P :=
  fun s hs => ⟨[], a, s, by rw [feed_nil, hy]; rfl, hs, ha⟩

theorem answers_modify {g : σ → σ} {R : Unit → Prop} (hg : ∀ s, I s → I (g s)) (hR : R ()) :
    Answers I (modify g : Prog σ Unit) R :=
  fun s hs => ⟨[], (), g s, by rw [feed_nil]; rfl, hg s hs, hR⟩

/-- A program that looks at the state returns if it does for every state with `I`. -/
theorem answers_get_bind {g : σ → Prog σ β} (hg : ∀ s, I s → Answers I (g s) Q)
    (hfeed : ∀ s more, g (feed s more) = g s) : Answers I (get >>= g) Q := by
  intro s hs
  obtain ⟨more, b, s', hb, hs', hQ⟩ := hg s hs s hs
  refine ⟨more, b, s', ?_, hs', hQ⟩
  show g (feed s more) (feed s more) = _
  rw [hfeed]
  exact hb

theorem answers_foldlM {body : β → α → Prog σ β} {l : List α}
    (hbody : ∀ b, ∀ a ∈ l, Q b → Answers I (body b a) Q) (hstreams : ∀ b, ∀ a ∈ l, Streams (body b a)) {b : β}
    (hb : Q b) : Answers I (l.foldlM body b) Q := by
  induction l generalizing b with
  | nil => exact answers_pure hb
  | cons a l ih =>
    rw [List.foldlM_cons]
    refine (hbody b a List.mem_cons_self hb).bind (hstreams b a List.mem_cons_self) fun b hb => ?_
    exact ih (fun b a ha => hbody b a (List.mem_cons_of_mem _ ha))
      (fun b a ha => hstreams b a (List.mem_cons_of_mem _ ha)) hb

theorem answers_repeated {body : β → Prog σ β} (hbody : ∀ b, Q b → Answers I (body b) Q)
    (hstreams : ∀ b, Streams (body b)) (n : Nat) {b : β} (hb : Q b) : Answers I (repeated body n b) Q := by
  induction n generalizing b with
  | zero => exact answers_pure hb
  | succ n ih => exact (hbody b hb).bind (hstreams b) fun b hb => ih hb

/-! ## Both -/

theorem Sure.answers_of (h : Sure x) (hP : ∀ s, Ensures x s fun a _ => P a) : Answers (fun _ => True) x P := by
  intro s _
  obtain ⟨more, ⟨a, s'⟩, hx⟩ := h.answers s
  exact ⟨more, a, s', hx, trivial, hP _ a s' hx⟩

theorem Sure.to_answers (h : Sure x) : Answers (fun _ => True) x fun _ => True :=
  h.answers_of fun _ => Ensures.trivial fun _ _ => trivial

theorem Answers.sure (h : Answers (fun _ => True) x fun _ => True) (hstreams : Streams x) : Sure x := by
  refine ⟨hstreams, fun s => ?_⟩
  obtain ⟨more, a, s', hx, -, -⟩ := h s trivial
  exact ⟨more, (a, s'), hx⟩

theorem sure_pure (a : α) : Sure (pure a : Prog σ α) := (answers_pure trivial).sure (streams_pure a)

theorem Sure.bind (hx : Sure x) (hf : ∀ a, Sure (f a)) : Sure (x >>= f) :=
  (hx.to_answers.bind hx.streams fun a _ => (hf a).to_answers).sure (hx.streams.bind fun a => (hf a).streams)

/-- A loop over a list. -/
theorem sure_foldlM {body : β → α → Prog σ β} {l : List α} (hbody : ∀ b a, Sure (body b a)) (b : β) :
    Sure (l.foldlM body b) :=
  (answers_foldlM (fun b a _ _ => (hbody b a).to_answers) (fun b a _ => (hbody b a).streams) trivial).sure
    (streams_foldlM (fun b a _ => (hbody b a).streams) b)

/-- A visit returns if its closure does. -/
theorem sure_visit {Node : Type} {f : Node → β → Prog σ (Node × β × ControlFlow)} (hf : ∀ n b, Sure (f n b))
    (v : Visit Node α) (b : β) : Sure (v.run f b) := by
  induction v generalizing b with
  | done a => exact sure_pure (a, b)
  | node n next ih =>
    refine (hf n b).bind fun ⟨n', b', flow⟩ => ?_
    cases flow with
    | goOn => exact ih n' b'
    | stop => exact sure_pure _

end Prog

end Lsf.Lib
