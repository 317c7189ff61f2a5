import Mathlib.Logic.Function.Basic
import Lsf.Engine.TokenCycle

/-!
# The workers of the tasks

`run_single_mutation` of `tester/exec.py` looks its worker up by the number of its token; the worker was made with the
name of the memory of the token that came first (`FUZZER_SHMEM_PATH`), and its processes open the memory of that name.
Nothing ties the two together but the numbers. A process runs while a call of its worker is in progress, whoever calls.

- `Sound.step`: seen through `abs`, where each token has its own map and only the worker of its task marks edges in it,
  what the tasks and the processes do are steps of `TaskSystem`;
- `attributed`: no worker is called by two tasks at once, its process has the memory of the token of the task that
  calls, and a commit finds the edges that it has marked in the meantime.
-/

namespace Lsf.Tester

open Lsf.Lib Lsf.Cov Lsf.Engine

/-! ## The system -/

/-- An `IPCToken` without its memory, which is known by its name. -/
structure SharedToken where
  path : String
  id : Nat
deriving DecidableEq

/-- `SQLiteWorker`: the environment of its processes, the memory that its process has opened, if there is a process, and
the tasks that wait for `execute`. -/
structure MappedWorker (T : Type) where
  fuzzerShmemPath : String
  shmemMap : Option String
  callers : List T

/-- How far a task is with its token. -/
inductive Stage where
  /-- `await worker.execute(...)` -/
  | executing
  | executed
  | collected (found : EdgesFound)
  | zeroed

/-- A task that has a token; `marked` are the edges that processes of its worker have marked during its call. -/
structure Testing where
  token : SharedToken
  stage : Stage
  marked : Finset Nat

/-- The memories by their names, the channel, the edge map of the engine, the dictionary of workers and the tasks. -/
structure Workers (T : Type) where
  memory : String → List UInt8
  queue : List SharedToken
  cap : Nat
  shmemSize : Nat
  edgeMap : EdgeMap
  workers : Nat → Option (MappedWorker T)
  tasks : T → Option Testing

inductive WorkersStep (T : Type) where
  /-- a task gets a token and calls its worker -/
  | recv (t : T)
  /-- `_start` -/
  | start (id : Nat)
  /-- the process of a worker marks an edge -/
  | hit (id e : Nat)
  /-- the process of a worker exits or is killed -/
  | exit (id : Nat)
  /-- `execute` returns or raises an exception -/
  | finish (t : T)
  | giveBack (t : T)
  | commit (t : T)
  | zero (t : T)
  | push (t : T)

/-- `format!("/fuzzer_shm_{}", id)` -/
def shmemPath (id : Nat) : String := "/fuzzer_shm_" ++ toString id

def SharedToken.new (id : Nat) : SharedToken := ⟨shmemPath id, id⟩

namespace Workers

variable {T : Type}

def new (T : Type) (nWorkers maxEdges : Nat) : Workers T where
  memory _ := List.replicate maxEdges 0
  queue := (List.range (nWorkers * tokensPerWorker)).map SharedToken.new
  cap := nWorkers * tokensPerWorker
  shmemSize := maxEdges
  edgeMap := .new maxEdges
  workers _ := none
  tasks _ := none

/-- The worker of a token, which is made if there is none. -/
def workerOf (s : Workers T) (token : SharedToken) : MappedWorker T :=
  (s.workers token.id).getD ⟨token.path, none, []⟩

def setTask [DecidableEq T] (s : Workers T) (t : T) (x : Option Testing) : Workers T :=
  { s with tasks := Function.update s.tasks t x }

def setWorker (s : Workers T) (id : Nat) (w : MappedWorker T) : Workers T :=
  { s with workers := Function.update s.workers id (some w) }

/-- `*map.add(v - 1) = 1` -/
def hitMemory (s : Workers T) (path : String) (e : Nat) : Workers T :=
  { s with memory := Function.update s.memory path ((s.memory path).set e 1) }

/-- `write_bytes` in the memory of a token. -/
def clearMemory (s : Workers T) (token : SharedToken) : Workers T :=
  { s with
    memory := Function.update s.memory token.path
      (List.replicate s.shmemSize 0 ++ (s.memory token.path).drop s.shmemSize) }

/-- An edge is marked during the calls of these tasks. -/
def mark [DecidableEq T] (callers : List T) (e : Nat) (s : Workers T) : Workers T :=
  { s with
    tasks := fun t => (s.tasks t).map fun x => if t ∈ callers then { x with marked := insert e x.marked } else x }

/-- One step, if it can be taken. -/
def step [DecidableEq T] (s : Workers T) : WorkersStep T → Option (Workers T)
  | .recv t =>
    match s.tasks t, s.queue with
    | none, token :: queue =>
      let w := s.workerOf token
      some (({ s with queue := queue }.setWorker token.id { w with callers := t :: w.callers }).setTask t
        (some ⟨token, .executing, ∅⟩))
    | _, _ => none
  | .start id => do
    let w ← s.workers id
    if w.shmemMap = none then some (s.setWorker id { w with shmemMap := some w.fuzzerShmemPath }) else none
  | .hit id e => do
    let w ← s.workers id
    let path ← w.shmemMap
    -- between two calls the process waits for its input
    if w.callers ≠ [] ∧ e < (s.memory path).length then
      some (mark w.callers e (s.hitMemory path e))
    else none
  | .exit id => do
    let w ← s.workers id
    some (s.setWorker id { w with shmemMap := none })
  | .finish t => do
    let x ← s.tasks t
    let w ← s.workers x.token.id
    match x.stage with
    | .executing =>
      some ((s.setWorker x.token.id { w with callers := w.callers.erase t }).setTask t
        (some { x with stage := .executed }))
    | _ => none
  | .giveBack t => do
    let x ← s.tasks t
    match x.stage with
    | .executed => some ((s.clearMemory x.token).setTask t (some { x with stage := .zeroed }))
    | _ => none
  | .commit t => do
    let x ← s.tasks t
    match x.stage with
    | .executed => do
      let (found, edgeMap) ← s.edgeMap.update (s.memory x.token.path)
      some ({ s with edgeMap := edgeMap }.setTask t (some { x with stage := .collected found }))
    | _ => none
  | .zero t => do
    let x ← s.tasks t
    match x.stage with
    | .collected _ => some ((s.clearMemory x.token).setTask t (some { x with stage := .zeroed }))
    | _ => none
  | .push t => do
    let x ← s.tasks t
    match x.stage with
    | .zeroed =>
      if s.queue.length < s.cap then some ({ s with queue := s.queue ++ [x.token] }.setTask t none) else none
    | _ => none

/-! ## What it looks like -/

/-- The token with its memory. -/
def view (memory : String → List UInt8) (token : SharedToken) : IPCToken := ⟨token.path, memory token.path, token.id⟩

def phase : Stage → Phase
  | .executing => .testing
  | .executed => .testing
  | .collected found => .collected found
  | .zeroed => .zeroed

def viewTask (memory : String → List UInt8) (x : Testing) : Holding := ⟨view memory x.token, phase x.stage, x.marked⟩

/-- The steps of the tasks that a step amounts to: what a process does is done by the task that calls it. -/
def shadow (s : Workers T) : WorkersStep T → List (TaskStep T)
  | .recv t => [.recv t]
  | .start _ => []
  | .hit id e => ((s.workers id).elim [] MappedWorker.callers).map fun t => .hit t e
  | .exit _ => []
  | .finish _ => []
  | .giveBack t => [.giveBack t .send]
  | .commit t => [.commit t]
  | .zero t => [.zero t]
  | .push t => [.push t]

/-- The system in which every token has a map of its own. -/
def abs (s : Workers T) : TaskSystem T :=
  ⟨⟨s.queue.map (view s.memory), s.cap, s.shmemSize⟩, s.edgeMap, fun t => (s.tasks t).map (viewTask s.memory)⟩

variable {n size : Nat} {s s' : Workers T} {t : T} {x : Testing} {token : SharedToken}

@[simp] theorem workers_setWorker_self (s : Workers T) (id : Nat) (w : MappedWorker T) :
    (s.setWorker id w).workers id = some w := by
  simp [setWorker]

theorem workers_setWorker_of_ne {id id' : Nat} (hid : id' ≠ id) (s : Workers T) (w : MappedWorker T) :
    (s.setWorker id w).workers id' = s.workers id' := by
  simp [setWorker, hid]

theorem workers_setWorker_cases {id id' : Nat} {w w' : MappedWorker T} (h : (s.setWorker id w).workers id' = some w') :
    (id' = id ∧ w = w') ∨ (id' ≠ id ∧ s.workers id' = some w') := by
  by_cases hid : id' = id
  · subst hid
    rw [workers_setWorker_self] at h
    exact .inl ⟨rfl, Option.some.inj h⟩
  · rw [workers_setWorker_of_ne hid] at h
    exact .inr ⟨hid, h⟩

@[simp] theorem abs_setWorker (id : Nat) (w : MappedWorker T) : (s.setWorker id w).abs = s.abs := rfl

/-! ## The invariant -/

theorem shmemPath_injective {id id' : Nat} (h : shmemPath id = shmemPath id') : id = id' := by
  have hchars := congrArg String.toList h
  rw [shmemPath, shmemPath, String.toList_append, String.toList_append, List.append_cancel_left_eq] at hchars
  have hdigits : ∀ n : Nat, (toString n).toList = Nat.toDigits 10 n := fun n => Nat.toList_repr
  rw [hdigits, hdigits] at hchars
  have hvalues := congrArg (fun digits => Nat.ofDigitChars 10 digits 0) hchars
  simpa only [Nat.ofDigitChars_ten_toDigits] using hvalues

/-- Names go with numbers, and the callers of a worker are the tasks that execute with its number. -/
structure Wired (s : Workers T) : Prop where
  queued : ∀ token ∈ s.queue, token.path = shmemPath token.id
  named : ∀ t x, s.tasks t = some x → x.token.path = shmemPath x.token.id
  env : ∀ id w, s.workers id = some w → w.fuzzerShmemPath = shmemPath id
  opened : ∀ id w path, s.workers id = some w → w.shmemMap = some path → path = shmemPath id
  nodup : ∀ id w, s.workers id = some w → w.callers.Nodup
  callers : ∀ id w t, s.workers id = some w →
    (t ∈ w.callers ↔ ∃ x, s.tasks t = some x ∧ x.stage = .executing ∧ x.token.id = id)
  known : ∀ t x, s.tasks t = some x → x.stage = .executing → (s.workers x.token.id).isSome = true

/-- Together with what is known of `TaskSystem`. -/
structure Sound (n size : Nat) (s : Workers T) : Prop extends Wired s where
  exclusive : s.abs.Exclusive n size

theorem abs_new (nWorkers maxEdges : Nat) : (new T nWorkers maxEdges).abs = TaskSystem.new T nWorkers maxEdges := by
  unfold new abs TaskSystem.new SharedMemHandle.new
  dsimp only
  rw [List.map_map]
  rfl

theorem wired_new (nWorkers maxEdges : Nat) : Wired (new T nWorkers maxEdges) := by
  refine ⟨fun token htoken => ?_, fun t x h => ?_, fun id w h => ?_, fun id w path h => ?_, fun id w h => ?_,
    fun id w t h => ?_, fun t x h => ?_⟩
  · obtain ⟨id, -, rfl⟩ := List.mem_map.1 htoken
    rfl
  all_goals cases h

theorem sound_new (nWorkers maxEdges : Nat) :
    Sound (nWorkers * tokensPerWorker) maxEdges (new T nWorkers maxEdges) := by
  refine ⟨wired_new nWorkers maxEdges, ?_⟩
  rw [abs_new]
  exact TaskSystem.exclusive_new nWorkers maxEdges

theorem held_abs (hx : s.tasks t = some x) : s.abs.held t = some (viewTask s.memory x) := by
  show (s.tasks t).map _ = _
  rw [hx, Option.map_some]

/-- Two tasks have tokens with different numbers. -/
theorem Sound.eq_of_id (h : Sound n size s) {t' : T} {x' : Testing} (hx : s.tasks t = some x)
    (hx' : s.tasks t' = some x') (hid : x'.token.id = x.token.id) : t' = t :=
  h.exclusive.distinct t' t _ _ (held_abs hx') (held_abs hx) hid

/-- Nothing in the channel has the name of a token that is out. -/
theorem Sound.path_ne_of_queued (h : Sound n size s) (hx : s.tasks t = some x) :
    ∀ token ∈ s.queue, token.path ≠ x.token.path := by
  intro token htoken hpath
  rw [h.queued token htoken, h.named t x hx] at hpath
  refine (h.exclusive.holding t _ (held_abs hx)).id_not_mem ?_
  show x.token.id ∈ (s.queue.map (view s.memory)).map IPCToken.id
  rw [List.map_map, ← shmemPath_injective hpath]
  exact List.mem_map_of_mem htoken

/-- Neither has what another task has. -/
theorem Sound.path_ne (h : Sound n size s) (hx : s.tasks t = some x) :
    ∀ t' x', t' ≠ t → s.tasks t' = some x' → x'.token.path ≠ x.token.path := by
  intro t' x' ht hx' hpath
  rw [h.named t x hx, h.named t' x' hx'] at hpath
  exact ht (h.eq_of_id hx hx' (shmemPath_injective hpath))

/-- A worker is called by one task. -/
theorem Sound.callers_eq (h : Sound n size s) {id : Nat} {w : MappedWorker T} (hw : s.workers id = some w)
    (ht : t ∈ w.callers) : w.callers = [t] := by
  obtain ⟨x, hx, -, hid⟩ := (h.callers id w t hw).1 ht
  refine List.perm_singleton.1 ((List.perm_ext_iff_of_nodup (h.nodup id w hw) (List.nodup_singleton t)).2 fun t' => ?_)
  rw [List.mem_singleton]
  constructor
  · intro ht'
    obtain ⟨x', hx', -, hid'⟩ := (h.callers id w t' hw).1 ht'
    exact h.eq_of_id hx hx' (hid'.trans hid.symm)
  · rintro rfl
    exact ht

theorem Wired.setWorker (h : Wired s) {id : Nat} {w w' : MappedWorker T} (hw : s.workers id = some w)
    (hcallers : w'.callers = w.callers) (henv : w'.fuzzerShmemPath = shmemPath id)
    (hopened : ∀ path, w'.shmemMap = some path → path = shmemPath id) : Wired (s.setWorker id w') := by
  refine ⟨h.queued, h.named, fun id' w₀ hw₀ => ?_, fun id' w₀ path hw₀ hpath => ?_, fun id' w₀ hw₀ => ?_,
    fun id' w₀ t hw₀ => ?_, fun t x hx hstage => ?_⟩
  · obtain ⟨rfl, rfl⟩ | ⟨-, hw₀⟩ := workers_setWorker_cases hw₀
    · exact henv
    · exact h.env id' w₀ hw₀
  · obtain ⟨rfl, rfl⟩ | ⟨-, hw₀⟩ := workers_setWorker_cases hw₀
    · exact hopened path hpath
    · exact h.opened id' w₀ path hw₀ hpath
  · obtain ⟨rfl, rfl⟩ | ⟨-, hw₀⟩ := workers_setWorker_cases hw₀
    · rw [hcallers]
      exact h.nodup id' w hw
    · exact h.nodup id' w₀ hw₀
  · obtain ⟨rfl, rfl⟩ | ⟨-, hw₀⟩ := workers_setWorker_cases hw₀
    · rw [hcallers]
      exact h.callers id' w t hw
    · exact h.callers id' w₀ t hw₀
  · by_cases hid : x.token.id = id
    · rw [hid, workers_setWorker_self]
      rfl
    · rw [workers_setWorker_of_ne hid]
      exact h.known t x hx hstage

/-- The worker of a token, also when it is new. -/
theorem Wired.workerOf (h : Wired s) (htoken : token.path = shmemPath token.id) :
    (s.workerOf token).fuzzerShmemPath = shmemPath token.id ∧
      (∀ path, (s.workerOf token).shmemMap = some path → path = shmemPath token.id) ∧
      (s.workerOf token).callers.Nodup ∧
      ∀ t, t ∈ (s.workerOf token).callers ↔
        ∃ x, s.tasks t = some x ∧ x.stage = .executing ∧ x.token.id = token.id := by
  unfold Workers.workerOf
  cases hw : s.workers token.id with
  | none =>
    refine ⟨htoken, fun path hpath => absurd hpath (by simp), List.nodup_nil, fun t => ?_⟩
    refine iff_of_false (by simp) ?_
    rintro ⟨x, hx, hexec, hid⟩
    have hknown := h.known t x hx hexec
    rw [hid, hw] at hknown
    exact absurd hknown Bool.false_ne_true
  | some w => exact ⟨h.env _ w hw, fun path => h.opened _ w path hw, h.nodup _ w hw, fun t => h.callers _ w t hw⟩

variable [DecidableEq T]

@[simp] theorem tasks_setTask_self (s : Workers T) (t : T) (y : Option Testing) : (s.setTask t y).tasks t = y := by
  simp [setTask]

theorem tasks_setTask_of_ne {t' : T} (ht : t' ≠ t) (s : Workers T) (y : Option Testing) :
    (s.setTask t y).tasks t' = s.tasks t' := by
  simp [setTask, ht]

theorem tasks_setTask_cases {y : Option Testing} {t' : T} {x' : Testing} (h : (s.setTask t y).tasks t' = some x') :
    (t' = t ∧ y = some x') ∨ (t' ≠ t ∧ s.tasks t' = some x') := by
  by_cases ht : t' = t
  · subst ht
    rw [tasks_setTask_self] at h
    exact .inl ⟨rfl, h⟩
  · rw [tasks_setTask_of_ne ht] at h
    exact .inr ⟨ht, h⟩

theorem abs_setTask (y : Option Testing) : (s.setTask t y).abs = s.abs.hold t (y.map (viewTask s.memory)) := by
  unfold setTask abs TaskSystem.hold
  congr 1
  funext t'
  by_cases ht : t' = t
  · subst ht
    simp
  · simp [ht]

theorem view_update {path : String} (hpath : token.path ≠ path) (memory : String → List UInt8) (bytes : List UInt8) :
    view (Function.update memory path bytes) token = view memory token := by
  unfold view
  rw [Function.update_of_ne hpath]

/-- A memory changes whose token is with task `t`. -/
theorem abs_update {path : String} {y : Testing} (hqueue : ∀ token ∈ s.queue, token.path ≠ path)
    (hothers : ∀ t' x', t' ≠ t → s.tasks t' = some x' → x'.token.path ≠ path) (bytes : List UInt8) :
    ({ s with memory := Function.update s.memory path bytes }.setTask t (some y)).abs =
      s.abs.hold t (some (viewTask (Function.update s.memory path bytes) y)) := by
  unfold setTask abs TaskSystem.hold
  dsimp only
  have hviews : s.queue.map (view (Function.update s.memory path bytes)) = s.queue.map (view s.memory) :=
    List.map_congr_left fun token htoken => view_update (hqueue token htoken) _ _
  rw [hviews]
  congr 1
  funext t'
  by_cases ht : t' = t
  · subst ht
    simp
  · rw [Function.update_of_ne ht, if_neg ht]
    cases hx : s.tasks t' with
    | none => rfl
    | some x' =>
      rw [Option.map_some, Option.map_some, viewTask, viewTask, view_update (hothers t' x' ht hx)]

theorem mark_singleton (h : s.tasks t = some x) (e : Nat) :
    mark [t] e s = s.setTask t (some { x with marked := insert e x.marked }) := by
  unfold mark setTask
  congr 1
  funext t'
  by_cases ht : t' = t
  · subst ht
    simp [h]
  · cases hx : s.tasks t' <;> simp [ht, hx]

/-! ## The names -/

/-- A task that goes on with its token, and neither begins nor ends a call. -/
theorem Wired.setTask (h : Wired s) (hx : s.tasks t = some x) {y : Testing} (htoken : y.token = x.token)
    (hstage : y.stage = .executing ↔ x.stage = .executing) : Wired (s.setTask t (some y)) := by
  refine ⟨h.queued, fun t' x' hx' => ?_, h.env, h.opened, h.nodup, fun id w t' hw => ?_, fun t' x' hx' hexec => ?_⟩
  · obtain ⟨rfl, heq⟩ | ⟨-, hx'⟩ := tasks_setTask_cases hx'
    · cases heq
      rw [htoken]
      exact h.named _ x hx
    · exact h.named t' x' hx'
  · rw [h.callers id w t' hw]
    by_cases ht : t' = t
    · subst ht
      simp [hx, htoken, hstage]
    · rw [tasks_setTask_of_ne ht]
  · obtain ⟨rfl, heq⟩ | ⟨-, hx'⟩ := tasks_setTask_cases hx'
    · cases heq
      rw [htoken]
      exact h.known _ x hx (hstage.1 hexec)
    · exact h.known t' x' hx' hexec

/-- A task with a new token calls the worker. -/
theorem Wired.recv (h : Wired s) (ht : s.tasks t = none) {queue : List SharedToken} (hq : s.queue = token :: queue) :
    Wired (({ s with queue := queue }.setWorker token.id
      { s.workerOf token with callers := t :: (s.workerOf token).callers }).setTask t
        (some ⟨token, .executing, ∅⟩)) := by
  have htoken : token.path = shmemPath token.id := h.queued token (hq ▸ List.mem_cons_self)
  obtain ⟨henv, hopened, hnodup, hcallers⟩ := h.workerOf htoken
  refine ⟨fun tok htok => ?_, fun t' x hx => ?_, fun id w hw => ?_, fun id w path hw hpath => ?_, fun id w hw => ?_,
    fun id w t' hw => ?_, fun t' x hx hexec => ?_⟩
  · exact h.queued tok (hq ▸ List.mem_cons_of_mem _ htok)
  · obtain ⟨-, heq⟩ | ⟨-, hx⟩ := tasks_setTask_cases hx
    · cases heq
      exact htoken
    · exact h.named t' x hx
  · obtain ⟨rfl, rfl⟩ | ⟨-, hw⟩ := workers_setWorker_cases hw
    · exact henv
    · exact h.env id w hw
  · obtain ⟨rfl, rfl⟩ | ⟨-, hw⟩ := workers_setWorker_cases hw
    · exact hopened path hpath
    · exact h.opened id w path hw hpath
  · obtain ⟨rfl, rfl⟩ | ⟨-, hw⟩ := workers_setWorker_cases hw
    · refine List.nodup_cons.2 ⟨fun hmem => ?_, hnodup⟩
      obtain ⟨x, hx, -⟩ := (hcallers t).1 hmem
      rw [ht] at hx
      cases hx
    · exact h.nodup id w hw
  · obtain ⟨rfl, rfl⟩ | ⟨hid, hother⟩ := workers_setWorker_cases hw
    · by_cases ht' : t' = t
      · subst ht'
        simp
      · rw [tasks_setTask_of_ne ht', List.mem_cons, or_iff_right ht']
        exact hcallers t'
    · rw [h.callers id w t' hother]
      by_cases ht' : t' = t
      · subst ht'
        simp [ht, Ne.symm hid]
      · rw [tasks_setTask_of_ne ht']
        rfl
  · obtain ⟨-, heq⟩ | ⟨-, hx⟩ := tasks_setTask_cases hx
    · cases heq
      exact Option.isSome_iff_exists.2 ⟨_, workers_setWorker_self _ _ _⟩
    · by_cases hid : x.token.id = token.id
      · rw [hid]
        exact Option.isSome_iff_exists.2 ⟨_, workers_setWorker_self _ _ _⟩
      · have hother := h.known t' x hx hexec
        rw [← workers_setWorker_of_ne hid { s with queue := queue }
          { s.workerOf token with callers := t :: (s.workerOf token).callers }] at hother
        exact hother

/-- The call comes back. -/
theorem Wired.finish (h : Wired s) (hx : s.tasks t = some x) {w : MappedWorker T}
    (hw : s.workers x.token.id = some w) :
    Wired ((s.setWorker x.token.id { w with callers := w.callers.erase t }).setTask t
      (some { x with stage := .executed })) := by
  refine ⟨h.queued, fun t' x' hx' => ?_, fun id w' hw' => ?_, fun id w' path hw' hpath => ?_, fun id w' hw' => ?_,
    fun id w' t' hw' => ?_, fun t' x' hx' hexec' => ?_⟩
  · obtain ⟨-, heq⟩ | ⟨-, hx'⟩ := tasks_setTask_cases hx'
    · cases heq
      exact h.named t x hx
    · exact h.named t' x' hx'
  · obtain ⟨rfl, rfl⟩ | ⟨-, hw'⟩ := workers_setWorker_cases hw'
    · exact h.env _ w hw
    · exact h.env id w' hw'
  · obtain ⟨rfl, rfl⟩ | ⟨-, hw'⟩ := workers_setWorker_cases hw'
    · exact h.opened _ w path hw hpath
    · exact h.opened id w' path hw' hpath
  · obtain ⟨rfl, rfl⟩ | ⟨-, hw'⟩ := workers_setWorker_cases hw'
    · exact (h.nodup _ w hw).erase t
    · exact h.nodup id w' hw'
  · obtain ⟨rfl, rfl⟩ | ⟨hid, hw'⟩ := workers_setWorker_cases hw'
    · rw [(h.nodup _ w hw).mem_erase_iff, h.callers _ w t' hw]
      by_cases ht : t' = t
      · subst ht
        simp
      · rw [tasks_setTask_of_ne ht, and_iff_right ht]
        rfl
    · rw [h.callers id w' t' hw']
      by_cases ht : t' = t
      · subst ht
        simp [hx, hid.symm]
      · rw [tasks_setTask_of_ne ht]
        rfl
  · obtain ⟨-, heq⟩ | ⟨-, hx'⟩ := tasks_setTask_cases hx'
    · cases heq
      cases hexec'
    · by_cases hid : x'.token.id = x.token.id
      · rw [hid]
        exact Option.isSome_iff_exists.2 ⟨_, workers_setWorker_self _ _ _⟩
      · have hother := h.known t' x' hx' hexec'
        rw [← workers_setWorker_of_ne hid s { w with callers := w.callers.erase t }] at hother
        exact hother

/-- The token is back in the channel. -/
theorem Wired.push (h : Wired s) (hx : s.tasks t = some x) (hstage : x.stage ≠ .executing) :
    Wired ({ s with queue := s.queue ++ [x.token] }.setTask t none) := by
  refine ⟨fun tok htok => ?_, fun t' x' hx' => ?_, h.env, h.opened, h.nodup, fun id w t' hw => ?_,
    fun t' x' hx' hexec => ?_⟩
  · rcases List.mem_append.1 htok with htok | htok
    · exact h.queued tok htok
    · rw [List.mem_singleton.1 htok]
      exact h.named t x hx
  · obtain ⟨-, heq⟩ | ⟨-, hx'⟩ := tasks_setTask_cases hx'
    · cases heq
    · exact h.named t' x' hx'
  · rw [h.callers id w t' hw]
    by_cases ht : t' = t
    · subst ht
      simp [hx, hstage]
    · rw [tasks_setTask_of_ne ht]
  · obtain ⟨-, heq⟩ | ⟨-, hx'⟩ := tasks_setTask_cases hx'
    · cases heq
    · exact h.known t' x' hx' hexec

/-! ## One step -/

theorem Sound.of_stutter {a : WorkersStep T} (h : Sound n size s) (hshadow : s.shadow a = []) (hwired : Wired s')
    (habs : s'.abs = s.abs) : Sound n size s' ∧ run TaskSystem.step s.abs (s.shadow a) = some s'.abs :=
  ⟨⟨hwired, habs ▸ h.exclusive⟩, by rw [hshadow, habs]; rfl⟩

theorem Sound.of_step {a : WorkersStep T} (h : Sound n size s) {b : TaskStep T} (hshadow : s.shadow a = [b])
    (hwired : Wired s') (hstep : s.abs.step b = some s'.abs) :
    Sound n size s' ∧ run TaskSystem.step s.abs (s.shadow a) = some s'.abs := by
  refine ⟨⟨hwired, h.exclusive.step hstep⟩, ?_⟩
  rw [hshadow, run_cons, hstep]
  rfl

theorem hold_of_held {s : TaskSystem T} {x : Holding} (h : s.held t = some x) : s.hold t (some x) = s := by
  have hheld : (fun t' => if t' = t then some x else s.held t') = s.held := by
    funext t'
    split
    · rename_i ht
      rw [ht, h]
    · rfl
  unfold TaskSystem.hold
  rw [hheld]

/-- A memory is cleared. -/
theorem Sound.abs_clearMemory (h : Sound n size s) (hx : s.tasks t = some x) (y : Stage) :
    ((s.clearMemory x.token).setTask t (some { x with stage := y })).abs =
      s.abs.hold t (some ⟨s.abs.shmemQueue.zero (view s.memory x.token), phase y, x.marked⟩) := by
  refine (abs_update (h.path_ne_of_queued hx) (h.path_ne hx) _).trans ?_
  have hview : view (Function.update s.memory x.token.path
      (List.replicate s.shmemSize 0 ++ (s.memory x.token.path).drop s.shmemSize)) x.token =
        s.abs.shmemQueue.zero (view s.memory x.token) := by
    unfold view SharedMemHandle.zero
    rw [Function.update_self]
    rfl
  rw [viewTask, hview]

/-- **A step is a step of one task, or of none.** -/
theorem Sound.step {a : WorkersStep T} (h : Sound n size s) (hstep : s.step a = some s') :
    Sound n size s' ∧ run TaskSystem.step s.abs (s.shadow a) = some s'.abs := by
  cases a with
  | recv t =>
    simp only [Workers.step] at hstep
    split at hstep
    · rename_i token queue ht hq
      cases hstep
      refine h.of_step rfl (h.toWired.recv ht hq) ?_
      have hheld : s.abs.held t = none := by
        show (s.tasks t).map _ = none
        rw [ht, Option.map_none]
      have hqueue : s.abs.shmemQueue.recv = some (view s.memory token,
          ⟨queue.map (view s.memory), s.cap, s.shmemSize⟩) := by
        show SharedMemHandle.recv ⟨s.queue.map (view s.memory), s.cap, s.shmemSize⟩ = _
        rw [hq]
        rfl
      rw [abs_setTask, abs_setWorker]
      simp only [TaskSystem.step, hheld, hqueue]
      rfl
    · cases hstep
  | start id =>
    obtain ⟨w, hw, hstep⟩ := Option.bind_eq_some_iff.1 hstep
    split at hstep
    · cases hstep
      refine h.of_stutter rfl (h.toWired.setWorker hw rfl (h.env id w hw) fun path hpath => ?_) rfl
      cases hpath
      exact h.env id w hw
    · cases hstep
  | hit id e =>
    obtain ⟨w, hw, hstep⟩ := Option.bind_eq_some_iff.1 hstep
    obtain ⟨path, hpath, hstep⟩ := Option.bind_eq_some_iff.1 hstep
    split at hstep
    · rename_i hrunning
      cases hstep
      obtain ⟨t, ht⟩ := List.exists_mem_of_ne_nil _ hrunning.1
      obtain ⟨x, hx, hexec, rfl⟩ := (h.callers id w t hw).1 ht
      obtain rfl : path = x.token.path := (h.opened _ w path hw hpath).trans (h.named t x hx).symm
      have hwired : Wired (s.hitMemory x.token.path e) :=
        ⟨h.queued, h.named, h.env, h.opened, h.nodup, h.callers, h.known⟩
      have htask : (s.hitMemory x.token.path e).tasks t = some x := hx
      have hshadow : s.shadow (.hit x.token.id e) = [.hit t e] := by
        rw [shadow, hw, Option.elim_some, h.callers_eq hw ht, List.map_singleton]
      rw [h.callers_eq hw ht, mark_singleton htask]
      refine h.of_step hshadow (hwired.setTask htask rfl Iff.rfl) ?_
      rw [hitMemory, abs_update (h.path_ne_of_queued hx) (h.path_ne hx)]
      have hview : view (Function.update s.memory x.token.path ((s.memory x.token.path).set e 1)) x.token =
          (view s.memory x.token).hit e := by
        unfold view IPCToken.hit
        rw [Function.update_self]
      simp only [TaskSystem.step, held_abs hx, viewTask, hexec, phase, hview]
      exact if_pos ⟨rfl, hrunning.2⟩
    · cases hstep
  | exit id =>
    obtain ⟨w, hw, hstep⟩ := Option.bind_eq_some_iff.1 hstep
    cases hstep
    exact h.of_stutter rfl (h.toWired.setWorker hw rfl (h.env id w hw) fun path hpath => by cases hpath) rfl
  | finish t =>
    obtain ⟨x, hx, hstep⟩ := Option.bind_eq_some_iff.1 hstep
    obtain ⟨w, hw, hstep⟩ := Option.bind_eq_some_iff.1 hstep
    split at hstep
    · rename_i hexec
      cases hstep
      refine h.of_stutter rfl (h.toWired.finish hx hw) ?_
      have hsame : s.abs.hold t (some (viewTask s.memory x)) = s.abs := hold_of_held (held_abs hx)
      rw [abs_setTask, abs_setWorker]
      refine Eq.trans ?_ hsame
      simp only [viewTask, hexec]
      rfl
    · cases hstep
  | giveBack t =>
    obtain ⟨x, hx, hstep⟩ := Option.bind_eq_some_iff.1 hstep
    split at hstep
    · rename_i hexecuted
      cases hstep
      have hwired : Wired (s.clearMemory x.token) :=
        ⟨h.queued, h.named, h.env, h.opened, h.nodup, h.callers, h.known⟩
      refine h.of_step rfl (hwired.setTask hx rfl (by simp [hexecuted])) ?_
      rw [h.abs_clearMemory hx]
      simp only [TaskSystem.step, held_abs hx, viewTask, hexecuted, phase]
      rfl
    · cases hstep
  | commit t =>
    obtain ⟨x, hx, hstep⟩ := Option.bind_eq_some_iff.1 hstep
    split at hstep
    · rename_i hexecuted
      obtain ⟨⟨found, edgeMap⟩, hupdate, hstep⟩ := Option.bind_eq_some_iff.1 hstep
      cases hstep
      have hwired : Wired { s with edgeMap := edgeMap } :=
        ⟨h.queued, h.named, h.env, h.opened, h.nodup, h.callers, h.known⟩
      refine h.of_step rfl (hwired.setTask hx rfl (by simp [hexecuted])) ?_
      have hmap : s.abs.edgeMap.update (view s.memory x.token).asEdgeMap = some (found, edgeMap) := hupdate
      rw [abs_setTask]
      simp only [TaskSystem.step, held_abs hx, viewTask, hexecuted, phase, Option.bind_eq_bind, Option.bind_some, hmap]
      rfl
    · cases hstep
  | zero t =>
    obtain ⟨x, hx, hstep⟩ := Option.bind_eq_some_iff.1 hstep
    split at hstep
    · rename_i found hcollected
      cases hstep
      have hwired : Wired (s.clearMemory x.token) :=
        ⟨h.queued, h.named, h.env, h.opened, h.nodup, h.callers, h.known⟩
      refine h.of_step rfl (hwired.setTask hx rfl (by simp [hcollected])) ?_
      rw [h.abs_clearMemory hx]
      simp only [TaskSystem.step, held_abs hx, viewTask, hcollected, phase]
      rfl
    · cases hstep
  | push t =>
    obtain ⟨x, hx, hstep⟩ := Option.bind_eq_some_iff.1 hstep
    split at hstep
    · rename_i hzeroed
      split at hstep
      · rename_i hroom
        cases hstep
        refine h.of_step rfl (h.toWired.push hx (by simp [hzeroed])) ?_
        have hpush : s.abs.shmemQueue.push (view s.memory x.token) =
            some ⟨(s.queue ++ [x.token]).map (view s.memory), s.cap, s.shmemSize⟩ := by
          refine SharedMemHandle.push_eq_some.2 ⟨?_, ?_⟩
          · show (s.queue.map (view s.memory)).length < s.cap
            rw [List.length_map]
            exact hroom
          · rw [List.map_append, List.map_singleton]
            rfl
        have hphase : (viewTask s.memory x).phase = .zeroed := by rw [viewTask, hzeroed]; rfl
        rw [TaskSystem.step_push (held_abs hx) hphase hpush, abs_setTask]
        rfl
      · cases hstep
    · cases hstep

/-! ## Runs -/

/-- **The coverage of a test is that of its own query**, whatever the order in which tasks and processes go on. What
they do is a run of the system in which each token has its own map and its own worker. No worker is called by two tasks
at once; the process of a worker has opened the memory of the token of the task that calls; and a commit finds exactly
the edges that this worker's processes have marked during the call. -/
theorem attributed {nWorkers maxEdges : Nat} {as : List (WorkersStep T)}
    (hrun : run step (new T nWorkers maxEdges) as = some s) :
    (∃ bs, run TaskSystem.step (TaskSystem.new T nWorkers maxEdges) bs = some s.abs) ∧
      (∀ id w, s.workers id = some w → w.callers.length ≤ 1) ∧
      (∀ id w t, s.workers id = some w → t ∈ w.callers → ∃ x, s.tasks t = some x ∧ x.token.id = id ∧
        ∀ path, w.shmemMap = some path → path = x.token.path) ∧
      ∀ t x found, s.tasks t = some x → x.stage = .collected found → ∀ e, e ∈ found.all ↔ e ∈ x.marked := by
  have hstart := sound_new (T := T) nWorkers maxEdges
  have hsound : Sound (nWorkers * tokensPerWorker) maxEdges s :=
    run_invariant_of_forall (fun _ _ _ hs hstep => (hs.step hstep).1) hstart hrun
  refine ⟨?_, fun id w hw => ?_, fun id w t hw ht => ?_, fun t x found hx hstage e => ?_⟩
  · rw [← abs_new]
    exact exists_run_of_refines (fun _ _ _ hs hstep => ⟨(hs.step hstep).1, _, (hs.step hstep).2⟩) hstart hrun
  · by_cases hcallers : w.callers = []
    · rw [hcallers]
      exact Nat.zero_le 1
    · obtain ⟨t, ht⟩ := List.exists_mem_of_ne_nil _ hcallers
      rw [hsound.callers_eq hw ht]
      rfl
  · obtain ⟨x, hx, -, hid⟩ := (hsound.callers id w t hw).1 ht
    refine ⟨x, hx, hid, fun path hpath => ?_⟩
    rw [hsound.named t x hx, hid]
    exact hsound.opened id w path hw hpath
  · have hphase : (viewTask s.memory x).phase = .collected found := by rw [viewTask, hstage]; rfl
    exact (hsound.exclusive.holding t _ (held_abs hx)).collected found hphase e

/-- Two tasks with one token, and one process that serves both. -/
def twoCalls : List (WorkersStep Bool) :=
  [.recv true, .start 0, .hit 0 0, .finish true, .giveBack true, .push true, .recv false, .hit 0 2, .finish false,
    .commit false]

theorem attributed_twoCalls : ∃ s, run step (new Bool 1 3) twoCalls = some s ∧
    ∀ x found, s.tasks false = some x → x.stage = .collected found → ∀ e, e ∈ found.all ↔ e ∈ x.marked := by
  obtain ⟨s, hs⟩ : ∃ s, run step (new Bool 1 3) twoCalls = some s := ⟨_, rfl⟩
  exact ⟨s, hs, (attributed hs).2.2.2 false⟩

end Workers

end Lsf.Tester
