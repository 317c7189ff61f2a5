import Lsf.Lib.Program

/-!
# Visitors

A mutable visitor presents the nodes of a structure one after the other; the closure may put another node in the place
of each, and may stop the visit. `Visit Node α` is such a traversal with nothing said about the closure: it shows a node,
goes on with the node that it finds in its place afterwards, and ends with the structure as it is then. `run` is the
traversal with a closure; `rest` is what comes out when no node is changed.
-/

namespace Lsf.Lib

/-- What a closure asks the visitor to do next. -/
inductive ControlFlow where
  | goOn
  | stop
deriving DecidableEq, Repr

/-- A traversal that shows nodes, and ends with an `α`. -/
inductive Visit (Node α : Type) where
  | done (a : α)
  | node (n : Node) (next : Node → Visit Node α)

namespace Visit

variable {Node α β σ : Type}

/-- What comes out when the nodes stay as they are from here on. -/
def rest : Visit Node α → α
  | .done a => a
  | .node n next => rest (next n)

/-- The nodes that are shown when none is changed. -/
def shown : Visit Node α → List Node
  | .done _ => []
  | .node n next => n :: shown (next n)

/-- The traversal with the closure `f`, which works on its own variables `b`; the nodes after a stop stay as they are. -/
def run (f : Node → β → Prog σ (Node × β × ControlFlow)) : Visit Node α → β → Prog σ (α × β)
  | .done a, b => pure (a, b)
  | .node n next, b => do
    let (n, b, flow) ← f n b
    match flow with
    | .goOn => run f (next n) b
    | .stop => pure ((next n).rest, b)

/-- The closure `f`, over the nodes of a structure that stays as it is. -/
def fold (f : Node → β → β × ControlFlow) : List Node → β → β
  | [], b => b
  | n :: nodes, b =>
    match f n b with
    | (b, .goOn) => fold f nodes b
    | (b, .stop) => b

/-- A traversal whose result is changed. -/
def map (g : α → β) : Visit Node α → Visit Node β
  | .done a => .done (g a)
  | .node n next => .node n fun n => map g (next n)

/-- The elements of a list. -/
def elements : List Node → Visit Node (List Node)
  | [] => .done []
  | n :: nodes => .node n fun n => (elements nodes).map (n :: ·)

@[simp] theorem rest_map (g : α → β) (v : Visit Node α) : (v.map g).rest = g v.rest := by
  induction v with
  | done a => rfl
  | node n next ih => exact ih n

@[simp] theorem shown_map (g : α → β) (v : Visit Node α) : (v.map g).shown = v.shown := by
  induction v with
  | done a => rfl
  | node n next ih => exact congrArg (n :: ·) (ih n)

theorem rest_elements (nodes : List Node) : (elements nodes).rest = nodes := by
  induction nodes with
  | nil => rfl
  | cons n nodes ih => simp [elements, rest, ih]

theorem shown_elements (nodes : List Node) : (elements nodes).shown = nodes := by
  induction nodes with
  | nil => rfl
  | cons n nodes ih => simp [elements, shown, ih]

/-- **Quiet closures.** If the variables of a closure are quiet afterwards only where they were before and the node
stays, then a traversal that ends quietly has changed nothing. -/
theorem ensures_run (quiet : β → Prop) {f : Node → β → Prog σ (Node × β × ControlFlow)}
    (hf : ∀ n b s, Prog.Ensures (f n b) s fun r _ => quiet r.2.1 → quiet b ∧ r.1 = n) (v : Visit Node α) (b : β)
    (s : σ) : Prog.Ensures (v.run f b) s fun r _ => quiet r.2 → quiet b ∧ r.1 = v.rest := by
  induction v generalizing b s with
  | done a => exact Prog.ensures_pure fun h => ⟨h, rfl⟩
  | node n next ih =>
    refine Prog.ensures_bind (hf n b s) fun r s' hr => ?_
    obtain ⟨n', b', flow⟩ := r
    cases flow with
    | goOn =>
      refine (ih n' b' s').mono fun r _ h hq => ?_
      obtain ⟨hb', hrest⟩ := h hq
      obtain ⟨hb, rfl⟩ := hr hb'
      exact ⟨hb, hrest⟩
    | stop =>
      refine Prog.ensures_pure fun hq => ?_
      obtain ⟨hb, rfl⟩ := hr hq
      exact ⟨hb, rfl⟩

/-- A closure that keeps the nodes and its variables keeps the structure. -/
theorem ensures_run_kept {f : Node → β → Prog σ (Node × β × ControlFlow)}
    (hf : ∀ n b s, Prog.Ensures (f n b) s fun r _ => r.1 = n ∧ r.2.1 = b) (v : Visit Node α) (b : β) (s : σ) :
    Prog.Ensures (v.run f b) s fun r _ => r.1 = v.rest ∧ r.2 = b := by
  induction v generalizing s with
  | done a => exact Prog.ensures_pure ⟨rfl, rfl⟩
  | node n next ih =>
    refine Prog.ensures_bind (hf n b s) fun r s' hr => ?_
    obtain ⟨n', b', flow⟩ := r
    obtain ⟨rfl, rfl⟩ := hr
    cases flow with
    | goOn => exact ih n' s'
    | stop => exact Prog.ensures_pure ⟨rfl, rfl⟩

/-- A closure that reads one value and leaves everything as it is reads one value for each node. -/
theorem run_idle {δ : Type} {f : Node → β → Prog (List δ) (Node × β × ControlFlow)}
    (hnil : ∀ n b, f n b [] = none) (hcons : ∀ n b u s, f n b (u :: s) = some ((n, b, .goOn), s)) (v : Visit Node α)
    (b : β) (s : List δ) :
    v.run f b s = if v.shown.length ≤ s.length then some ((v.rest, b), s.drop v.shown.length) else none := by
  induction v generalizing s with
  | done a => rfl
  | node n next ih =>
    rw [run, Prog.bind_apply]
    cases s with
    | nil =>
      rw [hnil]
      rfl
    | cons u s =>
      rw [hcons, Option.bind_some]
      refine (ih n s).trans ?_
      simp only [shown, rest, List.length_cons, Nat.add_le_add_iff_right, List.drop_succ_cons]

/-! ## What a run leaves -/

/-- A run can end with `a`, of which the nodes are shown and left as in the list. -/
inductive Leaves : Visit Node α → List (Node × Node) → α → Prop
  | done (a : α) : Leaves (.done a) [] a
  | node {n n' : Node} {next : Node → Visit Node α} {l : List (Node × Node)} {a : α} :
      Leaves (next n') l a → Leaves (.node n next) ((n, n') :: l) a

/-- What a closure that never stops makes of every node, a run makes of all. -/
theorem ensures_run_leaves {P : Node → Node → Prop} {f : Node → β → Prog σ (Node × β × ControlFlow)}
    (hf : ∀ n b s, Prog.Ensures (f n b) s fun r _ => P n r.1 ∧ r.2.2 = .goOn) (v : Visit Node α) (b : β) (s : σ) :
    Prog.Ensures (v.run f b) s fun r _ => ∃ l, Leaves v l r.1 ∧ ∀ p ∈ l, P p.1 p.2 := by
  induction v generalizing b s with
  | done a => exact Prog.ensures_pure ⟨[], .done a, List.forall_mem_nil _⟩
  | node n next ih =>
    refine Prog.ensures_bind (hf n b s) fun r s' hr => ?_
    obtain ⟨n', b', flow⟩ := r
    obtain ⟨hP, rfl⟩ := hr
    refine (ih n' b' s').mono fun r _ ⟨l, hleaves, hl⟩ => ?_
    exact ⟨(n, n') :: l, .node hleaves, List.forall_mem_cons.2 ⟨hP, hl⟩⟩

/-! ## Where a run gets to -/

/-- The run of `v` with `f` gets to what `v'` still has to show, and its variables and state are `b'` and `s'` there. -/
inductive Reaches (f : Node → β → Prog σ (Node × β × ControlFlow)) :
    Visit Node α → β → σ → Visit Node α → β → σ → Prop
  | here (v : Visit Node α) (b : β) (s : σ) : Reaches f v b s v b s
  | goOn {n n' : Node} {next : Node → Visit Node α} {v : Visit Node α} {b b' b'' : β} {s s' s'' : σ} :
      f n b s = some ((n', b', .goOn), s') → Reaches f (next n') b' s' v b'' s'' →
      Reaches f (.node n next) b s v b'' s''

/-- **A run is the run from where it gets to.** -/
theorem Reaches.run_eq {f : Node → β → Prog σ (Node × β × ControlFlow)} {v v' : Visit Node α} {b b' : β} {s s' : σ}
    (h : Reaches f v b s v' b' s') : v.run f b s = v'.run f b' s' := by
  induction h with
  | here v b s => rfl
  | goOn hstep _ ih =>
    rw [run, Prog.bind_apply, hstep, Option.bind_some]
    exact ih

theorem Reaches.trans {f : Node → β → Prog σ (Node × β × ControlFlow)} {v v' v'' : Visit Node α} {b b' b'' : β}
    {s s' s'' : σ} (h : Reaches f v b s v' b' s') (h' : Reaches f v' b' s' v'' b'' s'') :
    Reaches f v b s v'' b'' s'' := by
  induction h with
  | here => exact h'
  | goOn hstep _ ih => exact .goOn hstep (ih h')

end Visit

end Lsf.Lib
