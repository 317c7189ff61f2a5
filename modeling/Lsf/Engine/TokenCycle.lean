import Lsf.Cov.Ipc
import Lsf.Lib.Run

/-!
# Every test is credited with its own coverage

Any number of tasks share the tokens of one channel. A task takes a token, its worker marks edges in the map of that
token, and the task gives the token back, directly or through a commit; the zeroing of the map and the step into the
channel are steps of their own, so that other tasks may act in between. `Exclusive` is the invariant of every
interleaving: a token is in one place, the maps in the channel are zero, and the map of a task shows what its own worker
wrote (`credited_exactly`).
-/

namespace Lsf.Engine

open Lsf.Cov Lsf.Lib

/-- The ways a task gives a token back without committing; all of them end in `SharedMemHandle::send`. -/
inductive ReturnPath where
  | send
  | returnToken
  | dropHandle
  deriving DecidableEq, Repr

/-- How far a task is with its token. -/
inductive Phase where
  /-- its worker may be running -/
  | testing
  /-- `edge_map.update` has read the map -/
  | collected (found : EdgesFound)
  /-- `write_bytes` has cleared the map -/
  | zeroed
  deriving DecidableEq, Repr

/-- A token in the hands of a task, with the edges written since the task received it. -/
structure Holding where
  token : IPCToken
  phase : Phase
  written : Finset Nat
  deriving DecidableEq

structure TaskSystem (T : Type) where
  shmemQueue : SharedMemHandle
  edgeMap : EdgeMap
  held : T → Option Holding

inductive TaskStep (T : Type) where
  | recv (t : T)
  | hit (t : T) (e : Nat)
  | giveBack (t : T) (path : ReturnPath)
  | commit (t : T)
  | zero (t : T)
  | push (t : T)

namespace TaskSystem

variable {T : Type} [DecidableEq T]

def new (T : Type) (nWorkers maxEdges : Nat) : TaskSystem T :=
  ⟨.new nWorkers maxEdges, .new maxEdges, fun _ => none⟩

/-- Task `t` holds `x`, the others what they held. -/
def hold (s : TaskSystem T) (t : T) (x : Option Holding) : TaskSystem T :=
  { s with held := fun t' => if t' = t then x else s.held t' }

/-- One step of one task. -/
def step (s : TaskSystem T) : TaskStep T → Option (TaskSystem T)
  | .recv t =>
    match s.held t with
    | some _ => none
    | none => do
      let (token, q) ← s.shmemQueue.recv
      some ({ s with shmemQueue := q }.hold t (some ⟨token, .testing, ∅⟩))
  | .hit t e => do
    -- the worker runs between `recv` and the call that gives the token back
    let x ← s.held t
    if x.phase = .testing ∧ e < x.token.shmem.length then
      some (s.hold t (some { x with token := x.token.hit e, written := insert e x.written }))
    else none
  | .giveBack t _ => do
    let x ← s.held t
    if x.phase = .testing then some (s.hold t (some { x with token := s.shmemQueue.zero x.token, phase := .zeroed }))
    else none
  | .commit t => do
    let x ← s.held t
    if x.phase = .testing then
      let (found, edgeMap) ← s.edgeMap.update x.token.asEdgeMap
      some ({ s with edgeMap := edgeMap }.hold t (some { x with phase := .collected found }))
    else none
  | .zero t => do
    let x ← s.held t
    match x.phase with
    | .collected _ => some (s.hold t (some { x with token := s.shmemQueue.zero x.token, phase := .zeroed }))
    | _ => none
  | .push t => do
    let x ← s.held t
    if x.phase = .zeroed then
      let q ← s.shmemQueue.push x.token
      some ({ s with shmemQueue := q }.hold t none)
    else none

/-! ## The invariant -/

/-- What is known of a token in the hands of a task. -/
structure Holding.Good (n size : Nat) (ids : List Nat) (x : Holding) : Prop where
  id_lt : x.token.id < n
  id_not_mem : x.token.id ∉ ids
  length : x.token.shmem.length = size
  testing : x.phase = .testing → ∀ e, x.token.shmem.getD e 0 ≠ 0 ↔ e ∈ x.written
  collected : ∀ found, x.phase = .collected found → ∀ e, e ∈ found.all ↔ e ∈ x.written
  zeroed : x.phase = .zeroed → x.token.shmem = List.replicate size 0

/-- The numbers of the tokens in the channel. -/
def queueIds (s : TaskSystem T) : List Nat := s.shmemQueue.queue.map IPCToken.id

/-- **A token is in one place**, in the channel with a map of zeros, or with the one task whose worker writes to it. -/
structure Exclusive (n size : Nat) (s : TaskSystem T) : Prop where
  cap : s.shmemQueue.cap = n
  shmemSize : s.shmemQueue.shmemSize = size
  mapSize : s.edgeMap.rawMap.length = size
  nodup : s.queueIds.Nodup
  queued : ∀ token ∈ s.shmemQueue.queue, token.id < n ∧ token.shmem = List.replicate size 0
  holding : ∀ t x, s.held t = some x → Holding.Good n size s.queueIds x
  distinct : ∀ t t' x x', s.held t = some x → s.held t' = some x' → x.token.id = x'.token.id → t = t'

variable {n size : Nat} {s s' : TaskSystem T} {t : T} {x : Holding}

theorem held_hold (s : TaskSystem T) (t t' : T) (y : Option Holding) :
    (s.hold t y).held t' = if t' = t then y else s.held t' := rfl

@[simp] theorem shmemQueue_hold (s : TaskSystem T) (t : T) (x : Option Holding) :
    (s.hold t x).shmemQueue = s.shmemQueue := rfl

omit [DecidableEq T] in
theorem exclusive_new (nWorkers maxEdges : Nat) :
    Exclusive (nWorkers * tokensPerWorker) maxEdges (new T nWorkers maxEdges) where
  cap := rfl
  shmemSize := rfl
  mapSize := by simp [new, EdgeMap.new]
  nodup := by
    have hids : (new T nWorkers maxEdges).queueIds = List.range (nWorkers * tokensPerWorker) := by
      simp [queueIds, new, SharedMemHandle.new, IPCToken.new, Function.comp_def]
    rw [hids]
    exact List.nodup_range
  queued token ht := by
    obtain ⟨i, hi, rfl⟩ := List.mem_map.1 ht
    exact ⟨List.mem_range.1 hi, rfl⟩
  holding t x hx := by cases hx
  distinct t t' x x' hx := by cases hx

/-- A step that changes one token in its task's hands, keeping its number. -/
theorem Exclusive.hold (h : Exclusive n size s) (hx : s.held t = some x) {y : Holding}
    (hid : y.token.id = x.token.id) (hy : Holding.Good n size s.queueIds y) :
    Exclusive n size (s.hold t (some y)) := by
  refine ⟨h.cap, h.shmemSize, h.mapSize, h.nodup, h.queued, fun t' z hz => ?_, fun t₁ t₂ z₁ z₂ h₁ h₂ heq => ?_⟩
  · rw [held_hold] at hz
    split at hz
    · cases hz
      exact hy
    · exact h.holding t' z hz
  · rw [held_hold] at h₁ h₂
    split at h₁ <;> split at h₂
    · next e₁ e₂ => rw [e₁, e₂]
    · next e₁ e₂ =>
      cases h₁
      rw [e₁]
      exact h.distinct t t₂ x z₂ hx h₂ (hid.symm.trans heq)
    · next e₁ e₂ =>
      cases h₂
      rw [e₂]
      exact h.distinct t₁ t z₁ x h₁ hx (heq.trans hid)
    · exact h.distinct t₁ t₂ z₁ z₂ h₁ h₂ heq

theorem getD_set_one {bs : List UInt8} {e i : Nat} (he : e < bs.length) :
    (bs.set e 1).getD i 0 ≠ 0 ↔ i = e ∨ bs.getD i 0 ≠ 0 := by
  by_cases hi : i = e
  · subst hi
    simp [List.getD_eq_getElem?_getD, he]
  · simp [List.getD_eq_getElem?_getD, hi, Ne.symm hi]

/-- The worker marks an edge in the map of its own task. -/
theorem Holding.Good.hit {ids : List Nat} (h : Holding.Good n size ids x) (hp : x.phase = .testing) {e : Nat}
    (he : e < x.token.shmem.length) :
    Holding.Good n size ids { x with token := x.token.hit e, written := insert e x.written } where
  id_lt := h.id_lt
  id_not_mem := h.id_not_mem
  length := by simp [IPCToken.hit, h.length]
  testing _ i := by
    simp only [IPCToken.hit, Finset.mem_insert]
    rw [getD_set_one he, h.testing hp i]
  collected found hc := by simp [hp] at hc
  zeroed hz := by simp [hp] at hz

theorem Holding.Good.zero {ids : List Nat} {q : SharedMemHandle} (h : Holding.Good n size ids x)
    (hq : q.shmemSize = size) :
    Holding.Good n size ids { x with token := q.zero x.token, phase := .zeroed } := by
  have hz : (q.zero x.token).shmem = List.replicate size 0 := by
    rw [SharedMemHandle.shmem_zero (h.length.trans hq.symm), hq]
  refine ⟨h.id_lt, h.id_not_mem, ?_, ?_, ?_, fun _ => hz⟩
  · rw [hz, List.length_replicate]
  · intro hp
    cases hp
  · intro found hp
    cases hp

/-- The commit reads what the worker of the task wrote, and nothing else. -/
theorem Holding.Good.collect {ids : List Nat} {m m' : EdgeMap} {found : EdgesFound} (h : Holding.Good n size ids x)
    (hp : x.phase = .testing) (hu : m.update x.token.asEdgeMap = some (found, m')) :
    Holding.Good n size ids { x with phase := .collected found } where
  id_lt := h.id_lt
  id_not_mem := h.id_not_mem
  length := h.length
  testing hp' := by cases hp'
  collected found' hf e := by
    cases hf
    rw [(updated_of_eq hu).mem_all]
    exact h.testing hp e
  zeroed hz := by cases hz

omit [DecidableEq T] in
/-- There is room for a token that a task holds. -/
theorem Exclusive.room (h : Exclusive n size s) (hx : s.held t = some x) :
    s.shmemQueue.queue.length < s.shmemQueue.cap := by
  have hgood := h.holding t x hx
  have hlt : ∀ i ∈ s.queueIds, i < n := by
    intro i hi
    obtain ⟨token, ht, rfl⟩ := List.mem_map.1 hi
    exact (h.queued token ht).1
  have hlen := SharedMemHandle.length_lt_of_not_mem h.nodup hlt hgood.id_lt hgood.id_not_mem
  rw [h.cap]
  simpa [queueIds] using hlen

/-! ## One step -/

theorem Exclusive.recv (h : Exclusive n size s) {token : IPCToken} {q : SharedMemHandle} (t : T)
    (hrecv : s.shmemQueue.recv = some (token, q)) :
    Exclusive n size ({ s with shmemQueue := q }.hold t (some ⟨token, .testing, ∅⟩)) := by
  obtain ⟨hq, hcap, hsize⟩ := SharedMemHandle.recv_eq_some hrecv
  have hids : s.queueIds = token.id :: q.queue.map IPCToken.id := by rw [queueIds, hq, List.map_cons]
  have hnodup := h.nodup
  rw [hids, List.nodup_cons] at hnodup
  obtain ⟨hlt, hzero⟩ := h.queued token (by rw [hq]; exact List.mem_cons_self)
  refine ⟨hcap.trans h.cap, hsize.trans h.shmemSize, h.mapSize, hnodup.2, fun tok htok => ?_, fun t' y hy => ?_,
    fun t₁ t₂ y₁ y₂ h₁ h₂ heq => ?_⟩
  · exact h.queued tok (by rw [hq]; exact List.mem_cons_of_mem _ htok)
  · rw [held_hold] at hy
    split at hy
    · cases hy
      refine ⟨hlt, hnodup.1, by simp [hzero], fun _ e => ?_, ?_, ?_⟩
      · simp only [hzero, Finset.notMem_empty, iff_false, not_not]
        rw [List.getD_eq_getElem?_getD, List.getElem?_replicate]
        split <;> rfl
      · intro found hp
        cases hp
      · intro hp
        cases hp
    · obtain ⟨h₁, h₂, h₃, h₄, h₅, h₆⟩ := h.holding t' y hy
      refine ⟨h₁, fun hmem => h₂ ?_, h₃, h₄, h₅, h₆⟩
      rw [hids]
      exact List.mem_cons_of_mem _ hmem
  · -- the token comes out of the channel, so no task holds it
    have hnew : ∀ t' y, s.held t' = some y → y.token.id ≠ token.id := by
      intro t' y hy hid
      refine (h.holding t' y hy).id_not_mem ?_
      rw [hid, hids]
      exact List.mem_cons_self
    rw [held_hold] at h₁ h₂
    split at h₁ <;> split at h₂
    · next e₁ e₂ => rw [e₁, e₂]
    · cases h₁
      exact absurd heq.symm (hnew t₂ y₂ h₂)
    · cases h₂
      exact absurd heq (hnew t₁ y₁ h₁)
    · exact h.distinct t₁ t₂ y₁ y₂ h₁ h₂ heq

theorem Exclusive.push (h : Exclusive n size s) (hx : s.held t = some x) (hp : x.phase = .zeroed) :
    Exclusive n size
      ({ s with shmemQueue := { s.shmemQueue with queue := s.shmemQueue.queue ++ [x.token] } }.hold t none) := by
  have hgood := h.holding t x hx
  have hids : (s.shmemQueue.queue ++ [x.token]).map IPCToken.id = s.queueIds ++ [x.token.id] := by simp [queueIds]
  refine ⟨h.cap, h.shmemSize, h.mapSize, ?_, fun tok htok => ?_, fun t' y hy => ?_, fun t₁ t₂ y₁ y₂ h₁ h₂ heq => ?_⟩
  · change ((s.shmemQueue.queue ++ [x.token]).map IPCToken.id).Nodup
    rw [hids, List.nodup_append']
    refine ⟨h.nodup, List.nodup_singleton _, ?_⟩
    rw [List.disjoint_singleton]
    exact hgood.id_not_mem
  · rcases List.mem_append.1 htok with htok | htok
    · exact h.queued tok htok
    · obtain rfl := List.mem_singleton.1 htok
      exact ⟨hgood.id_lt, hgood.zeroed hp⟩
  · rw [held_hold] at hy
    split at hy
    · cases hy
    · next hne =>
      obtain ⟨h₁, h₂, h₃, h₄, h₅, h₆⟩ := h.holding t' y hy
      refine ⟨h₁, fun hmem => ?_, h₃, h₄, h₅, h₆⟩
      change y.token.id ∈ (s.shmemQueue.queue ++ [x.token]).map IPCToken.id at hmem
      rw [hids, List.mem_append, List.mem_singleton] at hmem
      rcases hmem with hmem | hmem
      · exact h₂ hmem
      · exact hne (h.distinct t' t y x hy hx hmem)
  · rw [held_hold] at h₁ h₂
    split at h₁
    · cases h₁
    · split at h₂
      · cases h₂
      · exact h.distinct t₁ t₂ y₁ y₂ h₁ h₂ heq

/-- **Every step of every task keeps the tokens apart.** -/
theorem Exclusive.step {a : TaskStep T} (h : Exclusive n size s) (hstep : s.step a = some s') : Exclusive n size s' := by
  cases a with
  | recv t =>
    simp only [TaskSystem.step] at hstep
    split at hstep
    · cases hstep
    · obtain ⟨⟨token, q⟩, hrecv, hs⟩ := Option.bind_eq_some_iff.1 hstep
      cases hs
      exact h.recv t hrecv
  | hit t e =>
    obtain ⟨x, hx, hs⟩ := Option.bind_eq_some_iff.1 hstep
    split at hs
    · next hc =>
      cases hs
      exact h.hold hx rfl ((h.holding t x hx).hit hc.1 hc.2)
    · cases hs
  | giveBack t path =>
    obtain ⟨x, hx, hs⟩ := Option.bind_eq_some_iff.1 hstep
    split at hs
    · cases hs
      exact h.hold hx rfl ((h.holding t x hx).zero h.shmemSize)
    · cases hs
  | commit t =>
    obtain ⟨x, hx, hs⟩ := Option.bind_eq_some_iff.1 hstep
    split at hs
    · next hp =>
      obtain ⟨⟨found, m⟩, hu, hs⟩ := Option.bind_eq_some_iff.1 hs
      cases hs
      have hm : Exclusive n size { s with edgeMap := m } :=
        ⟨h.cap, h.shmemSize, (updated_of_eq hu).length.trans h.mapSize, h.nodup, h.queued, h.holding, h.distinct⟩
      exact hm.hold hx rfl ((h.holding t x hx).collect hp hu)
    · cases hs
  | zero t =>
    obtain ⟨x, hx, hs⟩ := Option.bind_eq_some_iff.1 hstep
    split at hs
    · cases hs
      exact h.hold hx rfl ((h.holding t x hx).zero h.shmemSize)
    · cases hs
  | push t =>
    obtain ⟨x, hx, hs⟩ := Option.bind_eq_some_iff.1 hstep
    split at hs
    · next hp =>
      obtain ⟨q, hq, hs⟩ := Option.bind_eq_some_iff.1 hs
      cases hs
      obtain ⟨-, rfl⟩ := SharedMemHandle.push_eq_some.1 hq
      exact h.push hx hp
    · cases hs

/-! ## The calls as steps -/

@[simp] theorem hold_hold (s : TaskSystem T) (t : T) (x y : Option Holding) : (s.hold t x).hold t y = s.hold t y := by
  unfold hold
  congr 1
  funext t'
  dsimp only
  split <;> rfl

@[simp] theorem held_hold_self (s : TaskSystem T) (t : T) (x : Option Holding) : (s.hold t x).held t = x := if_pos rfl

theorem step_push {q : SharedMemHandle} (hx : s.held t = some x) (hp : x.phase = .zeroed)
    (hpush : s.shmemQueue.push x.token = some q) : s.step (.push t) = some ({ s with shmemQueue := q }.hold t none) := by
  simp [TaskSystem.step, hx, hp, hpush]

theorem step_push_hold {q : SharedMemHandle} (hp : x.phase = .zeroed) (hpush : s.shmemQueue.push x.token = some q) :
    (s.hold t (some x)).step (.push t) = some ({ s with shmemQueue := q }.hold t none) := by
  rw [step_push (held_hold_self s t _) hp hpush]
  exact congrArg some (hold_hold { s with shmemQueue := q } t _ none)

/-- What the engine does with the token of a result is the commit, the zeroing and the step into the channel. -/
theorem run_collect {q : SharedMemHandle} {m : EdgeMap} {found : EdgesFound} (hx : s.held t = some x)
    (hp : x.phase = .testing) (hcollect : s.shmemQueue.collect s.edgeMap x.token = some (found, m, q)) :
    run step s [.commit t, .zero t, .push t] = some ({ s with shmemQueue := q, edgeMap := m }.hold t none) := by
  obtain ⟨⟨found', m'⟩, hu, hrest⟩ := Option.bind_eq_some_iff.1 hcollect
  obtain ⟨q', hsend, heq⟩ := Option.bind_eq_some_iff.1 hrest
  cases heq
  have hcommit : s.step (.commit t) =
      some ({ s with edgeMap := m }.hold t (some { x with phase := .collected found })) := by
    simp [TaskSystem.step, hx, hp, hu]
  have hzero : ({ s with edgeMap := m }.hold t (some { x with phase := .collected found })).step (.zero t) =
      some ({ s with edgeMap := m }.hold t (some { x with token := s.shmemQueue.zero x.token, phase := .zeroed })) := by
    simp [TaskSystem.step]
  have hpush := step_push_hold (s := { s with edgeMap := m }) (t := t)
    (x := { x with token := s.shmemQueue.zero x.token, phase := .zeroed }) rfl hsend
  rw [run_cons, hcommit, Option.bind_some, run_cons, hzero, Option.bind_some, run_cons, hpush, Option.bind_some, run_nil]

/-! ## Runs -/

/-- **Every test is credited with its own coverage only**, whatever the interleaving: no token is with two tasks or with
a task and in the channel, the maps in the channel are zero, a commit lists exactly the edges that the worker of the task
wrote, and neither the commit nor the return of a token ever waits. -/
theorem credited_exactly (nWorkers maxEdges : Nat) (steps : List (TaskStep T)) (s : TaskSystem T)
    (hrun : run step (new T nWorkers maxEdges) steps = some s) :
    (∀ t t' x x', s.held t = some x → s.held t' = some x' → x.token.id = x'.token.id → t = t') ∧
      (∀ t x, s.held t = some x → x.token.id ∉ s.queueIds) ∧
      (∀ token ∈ s.shmemQueue.queue, ∀ b ∈ token.shmem, b = 0) ∧
      (∀ t x found, s.held t = some x → x.phase = .collected found → ∀ e, e ∈ found.all ↔ e ∈ x.written) ∧
      (∀ t x, s.held t = some x → x.phase = .testing → (s.step (.commit t)).isSome) ∧
      ∀ t x, s.held t = some x → x.phase = .zeroed → (s.step (.push t)).isSome := by
  have h := run_invariant_of_forall (fun _ _ _ hi hs => Exclusive.step hi hs) (exclusive_new nWorkers maxEdges) hrun
  refine ⟨h.distinct, fun t x hx => (h.holding t x hx).id_not_mem, fun token ht b hb => ?_,
    fun t x found hx hp => (h.holding t x hx).collected found hp, fun t x hx hp => ?_, fun t x hx hp => ?_⟩
  · rw [(h.queued token ht).2] at hb
    exact List.eq_of_mem_replicate hb
  · obtain ⟨found, m, hu, -⟩ := update_spec (h.mapSize.trans (h.holding t x hx).length.symm)
    simp [TaskSystem.step, hx, hp, IPCToken.asEdgeMap, hu]
  · rw [step_push hx hp (SharedMemHandle.push_eq_some.2 ⟨h.room hx, rfl⟩)]
    rfl

/-- Two tasks with one token between them: the second finds nothing of what the first wrote. -/
theorem credited_exactly_two :
    ∃ s, run step (new Bool 1 3) [.recv true, .hit true 0, .commit true, .zero true, .push true, .recv false,
        .hit false 2, .commit false] = some s ∧
      ∀ x found, s.held false = some x → x.phase = .collected found → ∀ e, e ∈ found.all ↔ e ∈ x.written := by
  obtain ⟨s, hs⟩ : ∃ s, run step (new Bool 1 3) [.recv true, .hit true 0, .commit true, .zero true, .push true,
      .recv false, .hit false 2, .commit false] = some s := ⟨_, rfl⟩
  exact ⟨s, hs, (credited_exactly 1 3 _ s hs).2.2.2.1 false⟩

end TaskSystem

end Lsf.Engine
