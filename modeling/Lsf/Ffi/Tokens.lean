import Lsf.Cov.Ipc
import Lsf.Lib.Maps
import Lsf.Lib.Run

/-!
# Tokens in the hands of Python

Python sees a token through two kinds of objects: an `IPCTokenHandle`, with or without the channel it came from, and a
`TestResult`. Calls move the token between them with `Option::take`, and dropping an object is a call like the others.
A handle with its channel returns the token when it is dropped; a handle without one and a `TestResult` lose it. Hence
every token stays in exactly one place along a run if and only if no object that would lose a token is dropped while it
holds one (`conserved_iff`).
-/

namespace Lsf.Ffi

open Lsf.Cov Lsf.Lib

/-- A token and whether the handle carries a clone of the channel. -/
structure IPCTokenHandle where
  token : Option IPCToken
  hasQueue : Bool
  deriving DecidableEq, Repr

structure TestResult where
  triggersBug : Bool
  isValidSyntax : Bool
  execTime : UInt32
  querySize : Nat
  token : Option IPCToken
  deriving DecidableEq, Repr

/-- The live objects under the names of their references, and what they share. -/
structure PyState where
  queue : SharedMemHandle
  edgeMap : EdgeMap
  handles : HashMap Nat IPCTokenHandle
  results : HashMap Nat TestResult

/-- What Python can do with them. -/
inductive Call where
  | recv (h : Nat)
  | newResult (r h : Nat) (execTime : UInt32) (querySize : Nat) (isValidSyntax triggersBug : Bool)
  | resultToken (r h : Nat)
  | send (h : Nat)
  | returnToken (h : Nat)
  | commitTestResult (r : Nat) (entryLive : Bool)
  | dropHandle (h : Nat)
  | dropResult (r : Nat)
  deriving Repr

namespace PyState

/-- `IPCTokenQueue(n, max_edges)`, with the map of an engine over it. -/
def new (nWorkers maxEdges : Nat) : PyState := ⟨.new nWorkers maxEdges, .new maxEdges, ∅, ∅⟩

/-- `take` on the token of a handle. -/
def takeHandle (s : PyState) (h : Nat) (x : IPCTokenHandle) : PyState :=
  { s with handles := s.handles.insert h { x with token := none } }

def takeResult (s : PyState) (r : Nat) (x : TestResult) : PyState :=
  { s with results := s.results.insert r { x with token := none } }

/-- `IPCTokenQueue::send` and `Engine::return_token`. On an empty handle `unwrap` raises an exception. -/
def sendHandle (s : PyState) (h : Nat) : Option PyState := do
  let x ← s.handles.lookup h
  match x.token with
  | none => some s
  | some token => do
    let q ← s.queue.send token
    some { s.takeHandle h x with queue := q }

/-- One call. A new object goes by a name that is free; `none` says that there is no such object, or that the call waits
on the channel. A call that raises an exception leaves the objects as they are. -/
def step (s : PyState) : Call → Option PyState
  | .recv h =>
    if (s.handles.lookup h).isSome then none else do
      let (token, q) ← s.queue.recv
      some { s with queue := q, handles := s.handles.insert h ⟨some token, true⟩ }
  | .newResult r h execTime querySize isValidSyntax triggersBug => do
    let x ← s.handles.lookup h
    if (s.results.lookup r).isSome then none else
      some { s.takeHandle h x with
        results := s.results.insert r ⟨triggersBug, isValidSyntax, execTime, querySize, x.token⟩ }
  | .resultToken r h => do
    let x ← s.results.lookup r
    if (s.handles.lookup h).isSome then none else
      match x.token with
      | none => some s
      | some token => some { s.takeResult r x with handles := s.handles.insert h ⟨some token, false⟩ }
  | .send h => s.sendHandle h
  | .returnToken h => s.sendHandle h
  | .commitTestResult r entryLive => do
    let x ← s.results.lookup r
    -- the entry is taken first, then the token
    match if entryLive then x.token else none with
    | none => some s
    | some token => do
      let (_, edgeMap, q) ← s.queue.collect s.edgeMap token
      some { s.takeResult r x with queue := q, edgeMap := edgeMap }
  | .dropHandle h => do
    let x ← s.handles.lookup h
    match x.token, x.hasQueue with
    | some token, true => do
      let q ← s.queue.send token
      some { s with queue := q, handles := s.handles.erase h }
    -- "an IPC token was permanentrly leaked. this is a bug."
    | some _, false => some { s with handles := s.handles.erase h }
    | none, _ => some { s with handles := s.handles.erase h }
  | .dropResult r => do
    let _ ← s.results.lookup r
    some { s with results := s.results.erase r }

/-! ## Places -/

inductive Place where
  | channel
  | handle (h : Nat)
  | result (r : Nat)
  deriving DecidableEq, Repr

/-- The token `u` is in place `p`. -/
def Holds (s : PyState) : Place → IPCToken → Prop
  | .channel, u => u ∈ s.queue.queue
  | .handle h, u => ∃ x, s.handles.lookup h = some x ∧ x.token = some u
  | .result r, u => ∃ x, s.results.lookup r = some x ∧ x.token = some u

/-- The token number `i` is in place `p`. -/
def At (s : PyState) (i : Nat) (p : Place) : Prop := ∃ u, s.Holds p u ∧ u.id = i

def queueIds (s : PyState) : List Nat := s.queue.queue.map IPCToken.id

/-- **Conservation**: each of the `n` tokens is in exactly one place; without live objects all of them are in the
channel; and no call that returns a token waits for room or fails. -/
structure Conserved (n : Nat) (s : PyState) : Prop where
  one : ∀ i < n, ∃ p, s.At i p ∧ ∀ p', s.At i p' → p' = p
  nodup : s.queueIds.Nodup
  back : (∀ h, s.handles.lookup h = none) → (∀ r, s.results.lookup r = none) → s.queueIds.Perm (List.range n)
  room : ∀ p u, p ≠ .channel → s.Holds p u → (s.queue.send u).isSome ∧ (s.queue.collect s.edgeMap u).isSome

/-- No object that would lose a token is dropped while it holds one. -/
def KeepsTokens (s : PyState) : Call → Prop
  | .dropHandle h => ∀ x, s.handles.lookup h = some x → x.token = none ∨ x.hasQueue = true
  | .dropResult r => ∀ x, s.results.lookup r = some x → x.token = none
  | _ => True

/-- What holds even after a token got lost. -/
structure Placed (n size : Nat) (s : PyState) : Prop where
  cap : s.queue.cap = n
  shmemSize : s.queue.shmemSize = size
  mapSize : s.edgeMap.rawMap.length = size
  nodup : s.queueIds.Nodup
  unique : ∀ p p' u u', s.Holds p u → s.Holds p' u' → u.id = u'.id → p = p'
  token : ∀ p u, s.Holds p u → u.id < n ∧ u.shmem.length = size

/-- Every token is somewhere. -/
def Full (n : Nat) (s : PyState) : Prop := ∀ i < n, ∃ p, s.At i p

variable {n size : Nat} {s s' : PyState} {p : Place} {u u' : IPCToken}

/-! ## The updates, place by place -/

theorem holds_insertHandle (s : PyState) (h h' : Nat) (x : IPCTokenHandle) (u : IPCToken) :
    Holds { s with handles := s.handles.insert h x } (.handle h') u ↔
      if h' = h then x.token = some u else s.Holds (.handle h') u := by
  simp only [Holds, HashMap.lookup_insert_iff]
  split <;> simp

theorem holds_insertResult (s : PyState) (r r' : Nat) (x : TestResult) (u : IPCToken) :
    Holds { s with results := s.results.insert r x } (.result r') u ↔
      if r' = r then x.token = some u else s.Holds (.result r') u := by
  simp only [Holds, HashMap.lookup_insert_iff]
  split <;> simp

theorem holds_eraseHandle (s : PyState) (h h' : Nat) (u : IPCToken) :
    Holds { s with handles := s.handles.erase h } (.handle h') u ↔ h' ≠ h ∧ s.Holds (.handle h') u := by
  simp only [Holds, HashMap.lookup_erase_iff]
  split <;> simp_all

theorem holds_eraseResult (s : PyState) (r r' : Nat) (u : IPCToken) :
    Holds { s with results := s.results.erase r } (.result r') u ↔ r' ≠ r ∧ s.Holds (.result r') u := by
  simp only [Holds, HashMap.lookup_erase_iff]
  split <;> simp_all

/-- Outside the channel only the objects count. -/
theorem holds_congr (s' s : PyState) {q : Place} (hq : q ≠ .channel) (hh : s'.handles = s.handles)
    (hr : s'.results = s.results) : s'.Holds q u ↔ s.Holds q u := by
  cases q with
  | channel => exact absurd rfl hq
  | handle h => simp only [Holds, hh]
  | result r => simp only [Holds, hr]

/-- The only token of a handle. -/
theorem holds_handle {h : Nat} {x : IPCTokenHandle} (hx : s.handles.lookup h = some x) (u : IPCToken) :
    s.Holds (.handle h) u ↔ x.token = some u := by
  simp [Holds, hx]

theorem holds_result {r : Nat} {x : TestResult} (hx : s.results.lookup r = some x) (u : IPCToken) :
    s.Holds (.result r) u ↔ x.token = some u := by
  simp [Holds, hx]

/-- A handle and a result hold one token at most. -/
theorem holds_inj {v : IPCToken} (hp : p ≠ .channel) (hu : s.Holds p u) (hv : s.Holds p v) : u = v := by
  cases p with
  | channel => exact absurd rfl hp
  | handle h =>
    obtain ⟨x, hx, hxu⟩ := hu
    rw [holds_handle hx, hxu] at hv
    exact Option.some.inj hv
  | result r =>
    obtain ⟨x, hx, hxu⟩ := hu
    rw [holds_result hx, hxu] at hv
    exact Option.some.inj hv

/-! ## Moving a token -/

/-- The token number `i` moves to `p`, as the token `u`; the other tokens stay where they are. -/
structure Moves (s s' : PyState) (i : Nat) (p : Place) (u : IPCToken) : Prop where
  out : ∀ q v, s'.Holds q v → (s.Holds q v ∧ v.id ≠ i) ∨ (q = p ∧ v = u)
  kept : ∀ q v, s.Holds q v → v.id ≠ i → s'.Holds q v
  arrived : s'.Holds p u

theorem Placed.moves (h : Placed n size s) (hm : Moves s s' u'.id p u) (hid : u.id = u'.id) (hlt : u'.id < n)
    (hlen : u.shmem.length = size) (hcap : s'.queue.cap = s.queue.cap)
    (hsize : s'.queue.shmemSize = s.queue.shmemSize) (hmap : s'.edgeMap.rawMap.length = s.edgeMap.rawMap.length)
    (hnodup : s'.queueIds.Nodup) : Placed n size s' := by
  refine ⟨hcap.trans h.cap, hsize.trans h.shmemSize, hmap.trans h.mapSize, hnodup, fun q q' v v' hq hq' heq => ?_,
    fun q v hq => ?_⟩
  · rcases hm.out q v hq with ⟨hq, hv⟩ | ⟨rfl, rfl⟩ <;> rcases hm.out q' v' hq' with ⟨hq', hv'⟩ | ⟨rfl, rfl⟩
    · exact h.unique q q' v v' hq hq' heq
    · exact absurd (heq.trans hid) hv
    · exact absurd (heq.symm.trans hid) hv'
    · rfl
  · rcases hm.out q v hq with ⟨hq, -⟩ | ⟨rfl, rfl⟩
    · exact h.token q v hq
    · exact ⟨by rw [hid]; exact hlt, hlen⟩

theorem Full.moves (h : Full n s) (hm : Moves s s' u'.id p u) (hid : u.id = u'.id) : Full n s' := by
  intro i hi
  by_cases hiu : i = u'.id
  · exact ⟨p, u, hm.arrived, hid.trans hiu.symm⟩
  · obtain ⟨q, v, hq, rfl⟩ := h i hi
    exact ⟨q, v, hm.kept q v hq hiu, rfl⟩

/-- A token elsewhere is another token. -/
theorem Placed.ne_of_place (h : Placed n size s) {q : Place} {v : IPCToken} (hu : s.Holds p u) (hv : s.Holds q v)
    (hne : q ≠ p) : v.id ≠ u.id := fun heq => hne (h.unique q p v u hv hu heq)

theorem Placed.room (h : Placed n size s) (hp : p ≠ .channel) (hu : s.Holds p u) :
    s.queue.queue.length < s.queue.cap := by
  have hlt : ∀ i ∈ s.queueIds, i < n := by
    intro i hi
    obtain ⟨v, hv, rfl⟩ := List.mem_map.1 hi
    exact (h.token .channel v hv).1
  have hnot : u.id ∉ s.queueIds := by
    intro hmem
    obtain ⟨v, hv, heq⟩ := List.mem_map.1 hmem
    exact h.ne_of_place hu (show s.Holds .channel v from hv) hp.symm heq
  have hlen := SharedMemHandle.length_lt_of_not_mem h.nodup hlt (h.token p u hu).1 hnot
  rw [h.cap]
  simpa [queueIds] using hlen

/-- The channel after a token was sent. -/
theorem Placed.send_eq (h : Placed n size s) (hp : p ≠ .channel) (hu : s.Holds p u) :
    s.queue.send u = some { s.queue with queue := s.queue.queue ++ [s.queue.zero u] } :=
  SharedMemHandle.push_eq_some.2 ⟨h.room hp hu, rfl⟩

theorem Placed.zero (h : Placed n size s) (hu : s.Holds p u) :
    (s.queue.zero u).shmem.length = size := by
  rw [SharedMemHandle.shmem_zero ((h.token p u hu).2.trans h.shmemSize.symm), List.length_replicate, h.shmemSize]

theorem Placed.nodup_send (h : Placed n size s) (hp : p ≠ .channel) (hu : s.Holds p u) :
    ((s.queue.queue ++ [s.queue.zero u]).map IPCToken.id).Nodup := by
  rw [List.map_append, List.nodup_append', List.map_singleton, List.disjoint_singleton]
  refine ⟨h.nodup, List.nodup_singleton _, fun hmem => ?_⟩
  obtain ⟨v, hv, heq⟩ := List.mem_map.1 hmem
  exact h.ne_of_place hu (show s.Holds .channel v from hv) hp.symm heq

/-- **A token goes back to the channel** from a handle or a result that is emptied or dropped. -/
theorem Placed.sent (h : Placed n size s) (hfull : Full n s) (hp : p ≠ .channel) (hu : s.Holds p u)
    (hqueue : s'.queue = { s.queue with queue := s.queue.queue ++ [s.queue.zero u] })
    (hmap : s'.edgeMap.rawMap.length = s.edgeMap.rawMap.length)
    (hothers : ∀ q v, q ≠ .channel → (s'.Holds q v ↔ q ≠ p ∧ s.Holds q v)) : Placed n size s' ∧ Full n s' := by
  have hm : Moves s s' u.id .channel (s.queue.zero u) := by
    refine ⟨fun q v hv => ?_, fun q v hv hne => ?_, ?_⟩
    · by_cases hq : q = .channel
      · subst hq
        change v ∈ s'.queue.queue at hv
        rw [hqueue, List.mem_append, List.mem_singleton] at hv
        refine hv.imp (fun hv => ⟨hv, ?_⟩) fun hv => ⟨rfl, hv⟩
        exact h.ne_of_place hu (show s.Holds .channel v from hv) hp.symm
      · obtain ⟨hne, hv⟩ := (hothers q v hq).1 hv
        exact .inl ⟨hv, h.ne_of_place hu hv hne⟩
    · by_cases hq : q = .channel
      · subst hq
        change v ∈ s'.queue.queue
        rw [hqueue]
        exact List.mem_append_left _ hv
      · refine (hothers q v hq).2 ⟨?_, hv⟩
        rintro rfl
        exact hne (congrArg IPCToken.id (holds_inj hp hv hu))
    · change s.queue.zero u ∈ s'.queue.queue
      rw [hqueue]
      exact List.mem_append_right _ (List.mem_singleton_self _)
  refine ⟨h.moves hm rfl (h.token p u hu).1 (h.zero hu) (by rw [hqueue]) (by rw [hqueue]) hmap ?_, hfull.moves hm rfl⟩
  unfold queueIds
  rw [hqueue]
  exact h.nodup_send hp hu

/-- A token passes from one object to another. -/
theorem Placed.passed {r : Place} (h : Placed n size s) (hfull : Full n s) (hp : p ≠ .channel) (hr : r ≠ .channel)
    (hu : s.Holds p u) (hqueue : s'.queue = s.queue) (hmap : s'.edgeMap = s.edgeMap)
    (hothers : ∀ q v, q ≠ .channel → (s'.Holds q v ↔ (q ≠ p ∧ s.Holds q v) ∨ (q = r ∧ v = u))) :
    Placed n size s' ∧ Full n s' := by
  have hchannel : ∀ v, s'.Holds .channel v ↔ s.Holds .channel v := fun v => by unfold Holds; rw [hqueue]
  have hm : Moves s s' u.id r u := by
    refine ⟨fun q v hv => ?_, fun q v hv hne => ?_, (hothers r u hr).2 (.inr ⟨rfl, rfl⟩)⟩
    · by_cases hq : q = .channel
      · subst hq
        rw [hchannel] at hv
        exact .inl ⟨hv, h.ne_of_place hu hv hp.symm⟩
      · exact ((hothers q v hq).1 hv).imp_left fun hv => ⟨hv.2, h.ne_of_place hu hv.2 hv.1⟩
    · by_cases hq : q = .channel
      · subst hq
        exact (hchannel v).2 hv
      · refine (hothers q v hq).2 (.inl ⟨?_, hv⟩)
        rintro rfl
        exact hne (congrArg IPCToken.id (holds_inj hp hv hu))
  refine ⟨h.moves hm rfl (h.token p u hu).1 (h.token p u hu).2 (by rw [hqueue]) (by rw [hqueue]) (by rw [hmap]) ?_,
    hfull.moves hm rfl⟩
  unfold queueIds
  rw [hqueue]
  exact h.nodup

/-- Nothing moves. -/
theorem Placed.same (h : Placed n size s) (hfull : Full n s) (hqueue : s'.queue = s.queue) (hmap : s'.edgeMap = s.edgeMap)
    (hothers : ∀ q v, q ≠ .channel → (s'.Holds q v ↔ s.Holds q v)) : Placed n size s' ∧ Full n s' := by
  have hall : ∀ q v, s'.Holds q v ↔ s.Holds q v := by
    intro q v
    by_cases hq : q = .channel
    · subst hq
      unfold Holds
      rw [hqueue]
    · exact hothers q v hq
  refine ⟨⟨by rw [hqueue]; exact h.cap, by rw [hqueue]; exact h.shmemSize, by rw [hmap]; exact h.mapSize, ?_,
    fun q q' v v' hv hv' => h.unique q q' v v' ((hall q v).1 hv) ((hall q' v').1 hv'),
    fun q v hv => h.token q v ((hall q v).1 hv)⟩, fun i hi => ?_⟩
  · unfold queueIds
    rw [hqueue]
    exact h.nodup
  · obtain ⟨q, v, hv, hid⟩ := hfull i hi
    exact ⟨q, v, (hall q v).2 hv, hid⟩

/-- A place that holds nothing can go. -/
theorem Placed.goes (h : Placed n size s) (hfull : Full n s) (hempty : ∀ u, ¬s.Holds p u) (hqueue : s'.queue = s.queue)
    (hmap : s'.edgeMap = s.edgeMap) (hothers : ∀ q v, q ≠ .channel → (s'.Holds q v ↔ q ≠ p ∧ s.Holds q v)) :
    Placed n size s' ∧ Full n s' := by
  refine h.same hfull hqueue hmap fun q v hq => (hothers q v hq).trans (and_iff_right_of_imp ?_)
  rintro hv rfl
  exact hempty v hv

/-- A token that is dropped is nowhere. -/
theorem Placed.lost (h : Placed n size s) (hu : s.Holds p u) (hothers : ∀ q v, s'.Holds q v → q ≠ p ∧ s.Holds q v) :
    ¬Conserved n s' := by
  intro hc
  obtain ⟨q, ⟨v, hv, hid⟩, -⟩ := hc.one u.id (h.token p u hu).1
  obtain ⟨hne, hv⟩ := hothers q v hv
  exact h.ne_of_place hu hv hne hid

theorem Placed.conserved (h : Placed n size s) (hfull : Full n s) : Conserved n s where
  one i hi := by
    obtain ⟨p, u, hu, rfl⟩ := hfull i hi
    refine ⟨p, ⟨u, hu, rfl⟩, fun p' hp' => ?_⟩
    obtain ⟨u', hu', heq⟩ := hp'
    exact h.unique p' p u' u hu' hu heq
  nodup := h.nodup
  back hh hr := by
    refine (List.perm_ext_iff_of_nodup h.nodup List.nodup_range).2 fun i => ?_
    rw [List.mem_range]
    constructor
    · intro hi
      obtain ⟨u, hu, rfl⟩ := List.mem_map.1 hi
      exact (h.token .channel u hu).1
    · intro hi
      obtain ⟨p, u, hu, rfl⟩ := hfull i hi
      cases p with
      | channel => exact List.mem_map_of_mem hu
      | handle x => obtain ⟨y, hy, -⟩ := hu; rw [hh x] at hy; cases hy
      | result x => obtain ⟨y, hy, -⟩ := hu; rw [hr x] at hy; cases hy
  room p u hp hu := by
    have hsend := h.send_eq hp hu
    obtain ⟨found, m, hupd, -⟩ := update_spec (h.mapSize.trans (h.token p u hu).2.symm)
    refine ⟨by rw [hsend]; rfl, ?_⟩
    simp [SharedMemHandle.collect, IPCToken.asEdgeMap, hupd, hsend]

theorem placed_new (nWorkers maxEdges : Nat) :
    Placed (nWorkers * tokensPerWorker) maxEdges (new nWorkers maxEdges) ∧
      Full (nWorkers * tokensPerWorker) (new nWorkers maxEdges) := by
  have hids : (new nWorkers maxEdges).queueIds = List.range (nWorkers * tokensPerWorker) := by
    simp [queueIds, new, SharedMemHandle.new, IPCToken.new, Function.comp_def]
  have hchannel : ∀ p u, (new nWorkers maxEdges).Holds p u → p = .channel := by
    intro p u hu
    cases p with
    | channel => rfl
    | handle h => obtain ⟨x, hx, -⟩ := hu; cases hx
    | result r => obtain ⟨x, hx, -⟩ := hu; cases hx
  refine ⟨⟨rfl, rfl, by simp [new, EdgeMap.new], by rw [hids]; exact List.nodup_range, ?_, ?_⟩, fun i hi => ?_⟩
  · intro p p' u u' hu hu' _
    rw [hchannel p u hu, hchannel p' u' hu']
  · intro p u hu
    obtain rfl := hchannel p u hu
    obtain ⟨i, hi, rfl⟩ := List.mem_map.1 (show u ∈ (new nWorkers maxEdges).queue.queue from hu)
    exact ⟨List.mem_range.1 hi, by simp [IPCToken.new]⟩
  · exact ⟨.channel, IPCToken.new i maxEdges, List.mem_map_of_mem (List.mem_range.2 hi), rfl⟩

/-! ## The calls -/

/-- Taking the token of a handle empties that place. -/
theorem holds_takeHandle {h : Nat} {x : IPCTokenHandle} {q : Place} (hq : q ≠ .channel) :
    (s.takeHandle h x).Holds q u ↔ q ≠ .handle h ∧ s.Holds q u := by
  cases q with
  | channel => exact absurd rfl hq
  | handle h' =>
    unfold takeHandle
    rw [holds_insertHandle]
    split
    · next heq => simp [heq]
    · next hne => simp [hne]
  | result r => simp [takeHandle, Holds]

theorem holds_takeResult {r : Nat} {x : TestResult} {q : Place} (hq : q ≠ .channel) :
    (s.takeResult r x).Holds q u ↔ q ≠ .result r ∧ s.Holds q u := by
  cases q with
  | channel => exact absurd rfl hq
  | result r' =>
    unfold takeResult
    rw [holds_insertResult]
    split
    · next heq => simp [heq]
    · next hne => simp [hne]
  | handle h => simp [takeResult, Holds]

/-- A new object in a free place. -/
theorem holds_giveHandle {h : Nat} {x : IPCTokenHandle} (hfree : ¬(s.handles.lookup h).isSome) {q : Place}
    (hq : q ≠ .channel) : Holds { s with handles := s.handles.insert h x } q u ↔
      s.Holds q u ∨ (q = .handle h ∧ x.token = some u) := by
  cases q with
  | channel => exact absurd rfl hq
  | handle h' =>
    rw [holds_insertHandle]
    split
    · next heq =>
      subst heq
      simp only [true_and]
      refine (or_iff_right ?_).symm
      rintro ⟨y, hy, -⟩
      rw [hy] at hfree
      exact hfree rfl
    · next hne => simp [hne]
  | result r => simp [Holds]

theorem holds_giveResult {r : Nat} {x : TestResult} (hfree : ¬(s.results.lookup r).isSome) {q : Place}
    (hq : q ≠ .channel) : Holds { s with results := s.results.insert r x } q u ↔
      s.Holds q u ∨ (q = .result r ∧ x.token = some u) := by
  cases q with
  | channel => exact absurd rfl hq
  | handle h => simp [Holds]
  | result r' =>
    rw [holds_insertResult]
    split
    · next heq =>
      subst heq
      simp only [true_and]
      refine (or_iff_right ?_).symm
      rintro ⟨y, hy, -⟩
      rw [hy] at hfree
      exact hfree rfl
    · next hne => simp [hne]

theorem holds_dropHandle {h : Nat} {q : Place} (hq : q ≠ .channel) :
    Holds { s with handles := s.handles.erase h } q u ↔ q ≠ .handle h ∧ s.Holds q u := by
  cases q with
  | channel => exact absurd rfl hq
  | handle h' => rw [holds_eraseHandle]; simp
  | result r => simp [Holds]

theorem holds_dropResult {r : Nat} {q : Place} (hq : q ≠ .channel) :
    Holds { s with results := s.results.erase r } q u ↔ q ≠ .result r ∧ s.Holds q u := by
  cases q with
  | channel => exact absurd rfl hq
  | handle h => simp [Holds]
  | result r' => rw [holds_eraseResult]; simp

/-- A token comes out of the channel. -/
theorem Placed.recv {h : Nat} {token : IPCToken} {q : SharedMemHandle} (hs : Placed n size s) (hfull : Full n s)
    (hfree : ¬(s.handles.lookup h).isSome) (hrecv : s.queue.recv = some (token, q)) :
    Placed n size { s with queue := q, handles := s.handles.insert h ⟨some token, true⟩ } ∧
      Full n { s with queue := q, handles := s.handles.insert h ⟨some token, true⟩ } := by
  obtain ⟨hq, hcap, hsize⟩ := SharedMemHandle.recv_eq_some hrecv
  have hu : s.Holds .channel token := by
    change token ∈ s.queue.queue
    rw [hq]
    exact List.mem_cons_self
  have hnodup : (token.id :: q.queue.map IPCToken.id).Nodup := by
    have hn := hs.nodup
    unfold queueIds at hn
    rw [hq] at hn
    exact hn
  have hnot : ∀ v ∈ q.queue, v.id ≠ token.id := by
    intro v hv heq
    exact (List.nodup_cons.1 hnodup).1 (heq ▸ List.mem_map_of_mem hv)
  have hnone : ∀ v, ¬s.Holds (.handle h) v := by
    rintro v ⟨x, hx, -⟩
    rw [hx] at hfree
    exact hfree rfl
  have hm : Moves s { s with queue := q, handles := s.handles.insert h ⟨some token, true⟩ } token.id (.handle h) token := by
    refine ⟨fun p v hv => ?_, fun p v hv hne => ?_, ?_⟩
    · cases p with
      | channel =>
        refine .inl ⟨?_, hnot v hv⟩
        change v ∈ s.queue.queue
        rw [hq]
        exact List.mem_cons_of_mem _ hv
      | handle h' =>
        have hv := (holds_insertHandle s h h' _ v).1 hv
        split at hv
        · next heq => exact .inr ⟨by rw [heq], (Option.some.inj hv).symm⟩
        · exact .inl ⟨hv, hs.ne_of_place hu hv (by simp)⟩
      | result r => exact .inl ⟨hv, hs.ne_of_place hu (show s.Holds (.result r) v from hv) (by simp)⟩
    · cases p with
      | channel =>
        change v ∈ s.queue.queue at hv
        rw [hq] at hv
        rcases List.mem_cons.1 hv with rfl | hv
        · exact absurd rfl hne
        · exact hv
      | handle h' =>
        refine (holds_insertHandle s h h' _ v).2 ?_
        split
        · next heq => rw [heq] at hv; exact absurd hv (hnone v)
        · exact hv
      | result r => exact hv
    · exact (holds_insertHandle s h h _ token).2 (by simp)
  exact ⟨hs.moves hm rfl (hs.token _ _ hu).1 (hs.token _ _ hu).2 hcap hsize rfl (List.nodup_cons.1 hnodup).2,
    hfull.moves hm rfl⟩

theorem Placed.sendHandle {h : Nat} (hs : Placed n size s) (hfull : Full n s) (hstep : s.sendHandle h = some s') :
    Placed n size s' ∧ Full n s' := by
  obtain ⟨x, hx, hrest⟩ := Option.bind_eq_some_iff.1 hstep
  split at hrest
  · cases hrest
    exact ⟨hs, hfull⟩
  · next token ht =>
    have hu : s.Holds (.handle h) token := ⟨x, hx, ht⟩
    obtain ⟨q, hq, hrest⟩ := Option.bind_eq_some_iff.1 hrest
    cases hrest
    rw [hs.send_eq (by simp) hu] at hq
    cases hq
    exact hs.sent hfull (by simp) hu rfl rfl fun q v hq =>
      Iff.trans (holds_congr _ (s.takeHandle h x) hq rfl rfl) (holds_takeHandle hq)

/-- The token of a handle, if there is one, passes to the new result. -/
theorem Placed.newResult {r h : Nat} {execTime : UInt32} {querySize : Nat} {isValidSyntax triggersBug : Bool}
    (hs : Placed n size s) (hfull : Full n s)
    (hstep : s.step (.newResult r h execTime querySize isValidSyntax triggersBug) = some s') :
    Placed n size s' ∧ Full n s' := by
  obtain ⟨x, hx, hrest⟩ := Option.bind_eq_some_iff.1 hstep
  split at hrest
  · cases hrest
  · next hfree =>
    cases hrest
    have hothers := fun q v hq => (holds_giveResult (s := s.takeHandle h x) (r := r) (q := q) (u := v)
      (x := ⟨triggersBug, isValidSyntax, execTime, querySize, x.token⟩) hfree hq).trans
        (or_congr_left (holds_takeHandle hq))
    cases ht : x.token with
    | none =>
      simp only [ht, reduceCtorEq, and_false, or_false] at hothers
      refine hs.goes hfull (p := .handle h) (fun u hu => ?_) rfl rfl hothers
      rw [holds_handle hx, ht] at hu
      cases hu
    | some token =>
      simp only [ht, Option.some.injEq, @eq_comm _ token] at hothers
      exact hs.passed (p := .handle h) (r := .result r) hfull (by simp) (by simp) ⟨x, hx, ht⟩ rfl rfl hothers

/-- The token of a result passes to a handle without channel. -/
theorem Placed.resultToken {r h : Nat} (hs : Placed n size s) (hfull : Full n s)
    (hstep : s.step (.resultToken r h) = some s') : Placed n size s' ∧ Full n s' := by
  obtain ⟨x, hx, hrest⟩ := Option.bind_eq_some_iff.1 hstep
  split at hrest
  · cases hrest
  · next hfree =>
    split at hrest
    · cases hrest
      exact ⟨hs, hfull⟩
    · next token ht =>
      cases hrest
      have hothers := fun q v hq => (holds_giveHandle (s := s.takeResult r x) (h := h) (q := q) (u := v)
        (x := ⟨some token, false⟩) hfree hq).trans (or_congr_left (holds_takeResult hq))
      simp only [Option.some.injEq, @eq_comm _ token] at hothers
      exact hs.passed (p := .result r) (r := .handle h) hfull (by simp) (by simp) ⟨x, hx, ht⟩ rfl rfl hothers

/-- A commit sends the token of its result. -/
theorem Placed.commitTestResult {r : Nat} {entryLive : Bool} (hs : Placed n size s) (hfull : Full n s)
    (hstep : s.step (.commitTestResult r entryLive) = some s') : Placed n size s' ∧ Full n s' := by
  obtain ⟨x, hx, hrest⟩ := Option.bind_eq_some_iff.1 hstep
  split at hrest
  · cases hrest
    exact ⟨hs, hfull⟩
  · next token ht =>
    have hu : s.Holds (.result r) token := by
      refine ⟨x, hx, ?_⟩
      cases entryLive
      · cases ht
      · exact ht
    obtain ⟨⟨found, m, q⟩, hcollect, hrest⟩ := Option.bind_eq_some_iff.1 hrest
    cases hrest
    obtain ⟨⟨found', m'⟩, hupd, hrest⟩ := Option.bind_eq_some_iff.1 hcollect
    obtain ⟨q', hsend, heq⟩ := Option.bind_eq_some_iff.1 hrest
    cases heq
    rw [hs.send_eq (by simp) hu] at hsend
    cases hsend
    exact hs.sent hfull (by simp) hu rfl (updated_of_eq hupd).length fun q v hq =>
      Iff.trans (holds_congr _ (s.takeResult r x) hq rfl rfl) (holds_takeResult hq)

/-- A handle with a channel sends its token when it is dropped. -/
theorem Placed.dropHandle {h : Nat} (hs : Placed n size s) (hfull : Full n s) (hkeeps : KeepsTokens s (.dropHandle h))
    (hstep : s.step (.dropHandle h) = some s') : Placed n size s' ∧ Full n s' := by
  obtain ⟨x, hx, hrest⟩ := Option.bind_eq_some_iff.1 hstep
  split at hrest
  · next token ht hq =>
    have hu : s.Holds (.handle h) token := ⟨x, hx, ht⟩
    obtain ⟨q, hsend, hrest⟩ := Option.bind_eq_some_iff.1 hrest
    cases hrest
    rw [hs.send_eq (by simp) hu] at hsend
    cases hsend
    exact hs.sent hfull (by simp) hu rfl rfl fun q v hq =>
      Iff.trans (holds_congr _ { s with handles := s.handles.erase h } hq rfl rfl) (holds_dropHandle hq)
  · next token ht hq =>
    rcases hkeeps x hx with hnone | hqueue
    · rw [ht] at hnone; cases hnone
    · rw [hq] at hqueue; cases hqueue
  · next ht =>
    cases hrest
    refine hs.goes hfull (p := .handle h) (fun u hu => ?_) rfl rfl fun q v hq => holds_dropHandle hq
    rw [holds_handle hx, ht] at hu
    cases hu

theorem Placed.dropResult {r : Nat} (hs : Placed n size s) (hfull : Full n s) (hkeeps : KeepsTokens s (.dropResult r))
    (hstep : s.step (.dropResult r) = some s') : Placed n size s' ∧ Full n s' := by
  obtain ⟨x, hx, hrest⟩ := Option.bind_eq_some_iff.1 hstep
  cases hrest
  refine hs.goes hfull (p := .result r) (fun u hu => ?_) rfl rfl fun q v hq => holds_dropResult hq
  rw [holds_result hx, hkeeps x hx] at hu
  cases hu

/-- **Every call that drops no token keeps all of them.** -/
theorem Placed.step {c : Call} (hs : Placed n size s) (hfull : Full n s) (hkeeps : KeepsTokens s c)
    (hstep : s.step c = some s') : Placed n size s' ∧ Full n s' := by
  cases c with
  | recv h =>
    simp only [PyState.step] at hstep
    split at hstep
    · cases hstep
    · next hfree =>
      obtain ⟨⟨token, q⟩, hrecv, hrest⟩ := Option.bind_eq_some_iff.1 hstep
      cases hrest
      exact hs.recv hfull hfree hrecv
  | newResult => exact hs.newResult hfull hstep
  | resultToken => exact hs.resultToken hfull hstep
  | send h => exact hs.sendHandle hfull hstep
  | returnToken h => exact hs.sendHandle hfull hstep
  | commitTestResult => exact hs.commitTestResult hfull hstep
  | dropHandle => exact hs.dropHandle hfull hkeeps hstep
  | dropResult => exact hs.dropResult hfull hkeeps hstep

/-- **A dropped token is lost.** -/
theorem Placed.not_conserved_step {c : Call} (hs : Placed n size s) (hdrops : ¬KeepsTokens s c) :
    ∃ s', s.step c = some s' ∧ ¬Conserved n s' := by
  cases c with
  | dropHandle h =>
    obtain ⟨x, hdrops⟩ := not_forall.1 hdrops
    obtain ⟨hx, hdrops⟩ := Classical.not_imp.1 hdrops
    obtain ⟨htoken, hqueue⟩ := not_or.1 hdrops
    obtain ⟨token, ht⟩ := Option.ne_none_iff_exists'.1 htoken
    have hq : x.hasQueue = false := Bool.eq_false_iff.2 hqueue
    refine ⟨{ s with handles := s.handles.erase h }, ?_, ?_⟩
    · simp [PyState.step, hx, ht, hq]
    · refine hs.lost (p := .handle h) ⟨x, hx, ht⟩ fun q v hv => ?_
      by_cases hc : q = .channel
      · subst hc
        exact ⟨by simp, hv⟩
      · exact (holds_dropHandle hc).1 hv
  | dropResult r =>
    obtain ⟨x, hdrops⟩ := not_forall.1 hdrops
    obtain ⟨hx, htoken⟩ := Classical.not_imp.1 hdrops
    obtain ⟨token, ht⟩ := Option.ne_none_iff_exists'.1 htoken
    refine ⟨{ s with results := s.results.erase r }, ?_, ?_⟩
    · simp [PyState.step, hx]
    · refine hs.lost (p := .result r) ⟨x, hx, ht⟩ fun q v hv => ?_
      by_cases hc : q = .channel
      · subst hc
        exact ⟨by simp, hv⟩
      · exact (holds_dropResult hc).1 hv
  | _ => exact absurd trivial hdrops

/-! ## Runs -/

/-- **Exactly when the tokens are conserved**: along a run every token stays in exactly one place, and is back in the
channel once nothing else is alive, if and only if no call drops a `TestResult` or a handle without channel that holds a
token. -/
theorem conserved_iff (nWorkers maxEdges : Nat) (calls : List Call) :
    AllStates step (Conserved (nWorkers * tokensPerWorker)) (new nWorkers maxEdges) calls ↔
      AllSteps step KeepsTokens (new nWorkers maxEdges) calls :=
  allStates_iff_allSteps (G := fun _ _ => True)
    (I := fun s => Placed (nWorkers * tokensPerWorker) maxEdges s ∧ Full (nWorkers * tokensPerWorker) s)
    (fun _ h => h.1.conserved h.2) (fun _ _ _ h _ hkeeps hstep => h.1.step h.2 hkeeps hstep)
    (fun _ _ h _ hdrops => h.1.not_conserved_step hdrops) (placed_new nWorkers maxEdges)
    (allSteps_of_forall fun _ _ _ => trivial)

/-- An exception between the test and the return of its token: the result goes, then the empty handle, and the only
token is not back. -/
theorem not_conserved_drop :
    ¬AllStates step (Conserved 1) (new 1 8) [.recv 0, .newResult 0 0 5 10 true false, .dropResult 0, .dropHandle 0] := by
  rintro ⟨-, h⟩
  obtain ⟨-, h⟩ := h _ rfl
  obtain ⟨-, h⟩ := h _ rfl
  obtain ⟨-, h⟩ := h _ rfl
  have hback := (h _ rfl).back (fun _ => rfl) (fun _ => rfl)
  exact absurd hback.length_eq (by decide)

end PyState

end Lsf.Ffi
