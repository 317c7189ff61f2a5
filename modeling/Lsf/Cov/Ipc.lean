import Lsf.Cov.Bitmap

/-!
# IPC tokens

A token carries the shared memory in which one worker leaves its coverage map. The tokens travel through a bounded
channel: `SharedMemHandle::new` fills it, `recv` takes a token out, and `send` zeroes the map of a token before it puts
it back. `collect` is what the engine does with the token of a result: merge its map, then send it.
-/

namespace Lsf.Cov

def tokensPerWorker : Nat := 1

structure IPCToken where
  path : String
  shmem : List UInt8
  id : Nat
  deriving DecidableEq, Repr

/-- A new token; its memory is zero. -/
def IPCToken.new (id size : Nat) : IPCToken := ⟨"/fuzzer_shm_" ++ toString id, List.replicate size 0, id⟩

def IPCToken.asEdgeMap (token : IPCToken) : EdgeMapView := token.shmem

/-- The instrumented code marks an edge. -/
def IPCToken.hit (token : IPCToken) (e : Nat) : IPCToken := { token with shmem := token.shmem.set e 1 }

/-- The channel, its capacity and the size of the maps. -/
structure SharedMemHandle where
  queue : List IPCToken
  cap : Nat
  shmemSize : Nat
  deriving DecidableEq, Repr

namespace SharedMemHandle

def new (nWorkers maxEdges : Nat) : SharedMemHandle where
  queue := (List.range (nWorkers * tokensPerWorker)).map fun i => IPCToken.new i maxEdges
  cap := nWorkers * tokensPerWorker
  shmemSize := maxEdges

/-- `rx().recv()`; `none` while the channel is empty. -/
def recv (h : SharedMemHandle) : Option (IPCToken × SharedMemHandle) :=
  match h.queue with
  | [] => none
  | token :: queue => some (token, { h with queue := queue })

/-- `write_bytes`: the first `shmemSize` bytes become zero. -/
def zero (h : SharedMemHandle) (token : IPCToken) : IPCToken :=
  { token with shmem := List.replicate h.shmemSize 0 ++ token.shmem.drop h.shmemSize }

/-- `tx.send`; `none` while the channel is full. -/
def push (h : SharedMemHandle) (token : IPCToken) : Option SharedMemHandle :=
  if h.queue.length < h.cap then some { h with queue := h.queue ++ [token] } else none

def send (h : SharedMemHandle) (token : IPCToken) : Option SharedMemHandle := h.push (h.zero token)

/-- The first statements of `Engine::commit_test_result`. -/
def collect (h : SharedMemHandle) (edgeMap : EdgeMap) (token : IPCToken) :
    Option (EdgesFound × EdgeMap × SharedMemHandle) := do
  let (found, edgeMap) ← edgeMap.update token.asEdgeMap
  let h ← h.send token
  some (found, edgeMap, h)

variable {h h' : SharedMemHandle} {token : IPCToken} {n : Nat}

theorem recv_eq_some (hrecv : h.recv = some (token, h')) :
    h.queue = token :: h'.queue ∧ h'.cap = h.cap ∧ h'.shmemSize = h.shmemSize := by
  unfold recv at hrecv
  split at hrecv
  · cases hrecv
  · next t q hq =>
    cases hrecv
    exact ⟨hq, rfl, rfl⟩

theorem push_eq_some : h.push token = some h' ↔
    h.queue.length < h.cap ∧ h' = { h with queue := h.queue ++ [token] } := by
  unfold push
  split
  · next hlt => simp [hlt, eq_comm]
  · next hlt => simp [hlt]

/-- A token with a map of the right size is collected if the channel has room for it. -/
theorem collect_spec {edgeMap : EdgeMap} (hlen : edgeMap.rawMap.length = token.shmem.length)
    (hroom : h.queue.length < h.cap) :
    ∃ found edgeMap', h.collect edgeMap token = some (found, edgeMap', { h with queue := h.queue ++ [h.zero token] }) ∧
      Updated edgeMap token.asEdgeMap found edgeMap' := by
  obtain ⟨found, edgeMap', hupdate, hu⟩ : ∃ found edgeMap', edgeMap.update token.asEdgeMap = some (found, edgeMap') ∧
    Updated edgeMap token.asEdgeMap found edgeMap' := update_spec hlen
  exact ⟨found, edgeMap', by simp [collect, hupdate, send, push_eq_some.2 ⟨hroom, rfl⟩], hu⟩

/-- A token of the size of the maps is zero afterwards. -/
theorem shmem_zero (hlen : token.shmem.length = h.shmemSize) :
    (h.zero token).shmem = List.replicate h.shmemSize 0 := by
  unfold zero
  simp [List.drop_eq_nil_of_le (Nat.le_of_eq hlen)]

/-- Distinct tokens with numbers below `n`: while one of them is not in the channel, there is room for it. -/
theorem length_lt_of_not_mem {ids : List Nat} (hnodup : ids.Nodup) (hlt : ∀ i ∈ ids, i < n) {i : Nat} (hi : i < n)
    (hmem : i ∉ ids) : ids.length < n := by
  have hnodup' : (i :: ids).Nodup := List.nodup_cons.2 ⟨hmem, hnodup⟩
  have hsub : (i :: ids) ⊆ List.range n := by
    intro j hj
    rcases List.mem_cons.1 hj with rfl | hj
    · exact List.mem_range.2 hi
    · exact List.mem_range.2 (hlt j hj)
  have hle := (hnodup'.subperm hsub).length_le
  rw [List.length_cons, List.length_range] at hle
  omega

end SharedMemHandle

end Lsf.Cov
