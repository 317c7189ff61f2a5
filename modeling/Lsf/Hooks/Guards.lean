import Mathlib.Algebra.BigOperators.Group.Finset.Sigma
import Mathlib.Algebra.Order.BigOperators.Group.Finset
import Lsf.Lib.Run

/-!
# The guards of an instrumented program

The callbacks that the compiler's instrumentation makes (`lsf-hooks`). Every module of the program has a range of
guards and hands it to `sanitizerCovTracePcGuardInit`, which numbers the guards from the counter `EDGES`; every edge
taken calls `sanitizerCovTracePcGuard`, which writes the byte of its guard in the shared map. A first process, with
`FUZZER_INIT` set, only finds the size of that map (`maxEdges`): it prints the counter and exits inside the callback.

- one numbering pass: `number_length`, `number_fst`, `getElem_number`;
- one callback: `init_of_notFresh`, `init_fresh`;
- a whole start-up: `load_probe`, `load_fuzz`, `load_keeps`;
- the map is large enough for every guard exactly when at most one module has guards, and fewer than 2^32 of them
  (`safe_iff`): the first process leaves before the second module has been counted (`not_safe_twoModules`).
-/

namespace Lsf.Hooks

/-! ## The process -/

/-- A process linked with the hooks. -/
structure Process where
  /-- The guards of each module. -/
  ranges : List (List UInt32)
  /-- `EDGES`. -/
  edges : UInt32
  /-- `NEED_INIT`. -/
  needInit : Bool
  /-- `SHMEM_MAP` points to the shared map. -/
  shmemMap : Bool
deriving DecidableEq, Repr

/-- A process before its first callback: the modules have these numbers of guards, all of them zero. -/
def Process.new (lengths : List Nat) : Process where
  ranges := lengths.map fun n => List.replicate n 0
  edges := 0
  needInit := true
  shmemMap := false

/-- The guards of module `m`. -/
def Process.range (p : Process) (m : Nat) : List UInt32 := p.ranges.getD m []

/-- What a callback leaves: the process goes on, or it has printed its number of edges and has left. -/
inductive Called where
  | returned (p : Process)
  | exited (maxEdges : UInt32)
deriving DecidableEq, Repr

/-- The loop over `guards.iter_mut()`: every guard takes the next value of the counter, which wraps. -/
def number : UInt32 → List UInt32 → UInt32 × List UInt32
  | edges, [] => (edges, [])
  | edges, _ :: guards =>
    let id := edges + 1
    let rest := number id guards
    (rest.1, id :: rest.2)

/-- `__sanitizer_cov_trace_pc_guard_init` on the range of module `m`. `fuzzerInit` says that `FUZZER_INIT` is set. -/
def sanitizerCovTracePcGuardInit (fuzzerInit : Bool) (p : Process) (m : Nat) : Called :=
  match p.range m with
  | [] => .returned p
  | guard :: guards =>
    if guard ≠ 0 then .returned p
    else
      let numbered := number p.edges (guard :: guards)
      let p := { p with ranges := p.ranges.set m numbered.2, edges := numbered.1 }
      if fuzzerInit then .exited p.edges
      else if p.needInit then .returned { p with needInit := false, shmemMap := true }
      else .returned p

/-- `__sanitizer_cov_trace_pc_guard` on guard `i` of module `m`: the index of the map that it writes. -/
def sanitizerCovTracePcGuard (p : Process) (m i : Nat) : Option Nat :=
  match (p.range m)[i]? with
  | none => none
  | some v =>
    if v = 0 then none
    else if p.shmemMap then some (v.toNat - 1)
    else none

/-- The callbacks of a start-up, one for each entry of `calls`, until one leaves. -/
def load (fuzzerInit : Bool) : Process → List Nat → Called
  | p, [] => .returned p
  | p, m :: calls =>
    match sanitizerCovTracePcGuardInit fuzzerInit p m with
    | .exited maxEdges => .exited maxEdges
    | .returned p' => load fuzzerInit p' calls

/-- The size that `init` gives the shared maps: the printed number, or the fallback when the program has printed
none. -/
def maxEdges : Called → Nat
  | .exited maxEdges => maxEdges.toNat
  | .returned _ => 70000

/-! ## One numbering pass -/

@[simp] theorem number_length (edges : UInt32) (guards : List UInt32) :
    (number edges guards).2.length = guards.length := by
  induction guards generalizing edges with
  | nil => rfl
  | cons g guards ih => simp [number, ih]

/-- The counter moves by the length of the range, modulo 2^32. -/
theorem number_fst (edges : UInt32) (guards : List UInt32) :
    (number edges guards).1.toNat = (edges.toNat + guards.length) % 2 ^ 32 := by
  induction guards generalizing edges with
  | nil =>
    simp [number]
  | cons g guards ih =>
    simp only [number, ih, UInt32.toNat_add, UInt32.reduceToNat, List.length_cons]
    omega

/-- Guard `i` of a range takes the `i + 1`st value after the counter, when the counter does not wrap. -/
theorem getElem_number {edges v : UInt32} {guards : List UInt32} {i : Nat}
    (hlt : edges.toNat + guards.length < 2 ^ 32) (hv : (number edges guards).2[i]? = some v) :
    v.toNat = edges.toNat + i + 1 := by
  induction guards generalizing edges i with
  | nil => simp [number] at hv
  | cons g guards ih =>
    simp only [List.length_cons] at hlt
    have hnext : (edges + 1).toNat = edges.toNat + 1 := by
      simp only [UInt32.toNat_add, UInt32.reduceToNat]
      omega
    cases i with
    | zero =>
      simp only [number, List.getElem?_cons_zero, Option.some.injEq] at hv
      rw [← hv, hnext, Nat.add_zero]
    | succ i =>
      simp only [number, List.getElem?_cons_succ] at hv
      rw [ih (by omega) hv, hnext]
      omega

/-! ## One callback -/

section Callback

variable {fuzzerInit : Bool} {p p' : Process} {m : Nat}

/-- A range that is empty, or whose first guard has an id, is left as it is. -/
theorem init_of_notFresh (h : (p.range m).head? ≠ some 0) :
    sanitizerCovTracePcGuardInit fuzzerInit p m = .returned p := by
  unfold sanitizerCovTracePcGuardInit
  split
  · rfl
  · rename_i guard guards hr
    have hg : guard ≠ 0 := by
      intro h0
      simp [hr, h0] at h
    rw [if_pos hg]

/-- A fresh range is numbered; the process then prints its counter and leaves, or has the map from then on. -/
theorem init_fresh (h : (p.range m).head? = some 0) :
    sanitizerCovTracePcGuardInit fuzzerInit p m =
      if fuzzerInit then .exited (number p.edges (p.range m)).1
      else .returned
        { ranges := p.ranges.set m (number p.edges (p.range m)).2
          edges := (number p.edges (p.range m)).1
          needInit := false
          shmemMap := p.shmemMap || p.needInit } := by
  unfold sanitizerCovTracePcGuardInit
  split
  · rename_i hr
    simp [hr] at h
  · rename_i guard guards hr
    have hg : guard = 0 := by simpa [hr] using h
    rw [if_neg (not_not.2 hg)]
    cases fuzzerInit
    · cases hn : p.needInit <;> simp [hr]
    · simp [hr]

/-- A callback of a fuzzing process returns, and no range has another number of guards after it. -/
theorem init_fuzz (p : Process) (m : Nat) : ∃ p', sanitizerCovTracePcGuardInit false p m = .returned p' ∧
    (∀ m', (p'.range m').length = (p.range m').length) := by
  by_cases h : (p.range m).head? = some 0
  · refine ⟨_, init_fresh h, fun m' => ?_⟩
    simp only [Process.range, List.getD_eq_getElem?_getD, List.getElem?_set]
    by_cases hm : m = m'
    · subst hm
      by_cases hlt : m < p.ranges.length <;> simp [hlt]
    · simp [hm]
  · exact ⟨p, init_of_notFresh h, fun _ => rfl⟩

end Callback

/-! ## A whole start-up -/

/-- The map is there as soon as one guard has an id. -/
structure Attached (p : Process) : Prop where
  waits : p.needInit = true ∨ p.shmemMap = true
  mapped : ∀ m, ∀ v ∈ p.range m, v ≠ 0 → p.shmemMap = true

section Load

variable {fuzzerInit : Bool} {p p' : Process} {m : Nat} {calls : List Nat}

theorem attached_init (hp : Attached p) (h : sanitizerCovTracePcGuardInit false p m = .returned p') : Attached p' := by
  by_cases hf : (p.range m).head? = some 0
  · rw [init_fresh hf] at h
    cases h
    have hmap : (p.shmemMap || p.needInit) = true := by simpa [or_comm] using hp.waits
    exact ⟨.inr hmap, fun _ _ _ _ => hmap⟩
  · rw [init_of_notFresh hf] at h
    cases h
    exact hp

/-- The start-up of a fuzzing process returns; it keeps the number of guards of every range and has the map. -/
theorem load_fuzz (hp : Attached p) (calls : List Nat) : ∃ p', load false p calls = .returned p' ∧ Attached p' ∧
    ∀ m, (p'.range m).length = (p.range m).length := by
  induction calls generalizing p with
  | nil => exact ⟨p, rfl, hp, fun _ => rfl⟩
  | cons m calls ih =>
    obtain ⟨p₁, h₁, hlen₁⟩ := init_fuzz p m
    obtain ⟨p₂, h₂, hp₂, hlen₂⟩ := ih (attached_init hp h₁)
    refine ⟨p₂, ?_, hp₂, fun m' => (hlen₂ m').trans (hlen₁ m')⟩
    simp only [load, h₁, h₂]

/-- Callbacks on ranges that are not fresh change nothing. -/
theorem load_append (h : ∀ m ∈ calls, (p.range m).head? ≠ some 0) (rest : List Nat) :
    load fuzzerInit p (calls ++ rest) = load fuzzerInit p rest := by
  induction calls with
  | nil => rfl
  | cons m calls ih =>
    simp only [List.cons_append, load, init_of_notFresh (h m (by simp))]
    exact ih fun m' hm' => h m' (by simp [hm'])

theorem load_of_notFresh (h : ∀ m ∈ calls, (p.range m).head? ≠ some 0) : load fuzzerInit p calls = .returned p := by
  simpa [load] using load_append h []

end Load

/-! ## The guards and the map -/

/-- What an instrumented process with a map of `size` bytes has to keep, once the ranges of `calls` have been handed
in. -/
structure Safe (size : Nat) (calls : List Nat) (p : Process) : Prop where
  numbered : ∀ m ∈ calls, ∀ v ∈ p.range m, v ≠ 0
  distinct : ∀ m ∈ calls, ∀ m' ∈ calls, ∀ (i i' : Nat) v, (p.range m)[i]? = some v → (p.range m')[i']? = some v →
    m = m' ∧ i = i'
  stable : ∀ m ∈ calls, ∃ p', sanitizerCovTracePcGuardInit false p m = .returned p' ∧ p'.ranges = p.ranges
  bounded : ∀ m i k, sanitizerCovTracePcGuard p m i = some k → k < size

theorem Safe.notFresh {size m : Nat} {calls : List Nat} {p : Process} (h : Safe size calls p) (hm : m ∈ calls) :
    (p.range m).head? ≠ some 0 := by
  intro hf
  exact h.numbered m hm 0 (List.mem_of_head? hf) rfl

/-- A safe map has a byte for every guard that has been handed in. -/
theorem Safe.sum_le {size : Nat} {calls : List Nat} {p : Process} (h : Safe size calls p) (hp : Attached p) :
    ∑ m ∈ calls.toFinset, (p.range m).length ≤ size := by
  have hguard : ∀ m ∈ calls, ∀ i < (p.range m).length, ∃ v, (p.range m)[i]? = some v ∧ v ≠ 0 ∧
      v.toNat - 1 < size := by
    intro m hm i hi
    have hv := List.getElem?_eq_getElem hi
    have hne := h.numbered m hm _ (List.getElem_mem hi)
    have hmap := hp.mapped m _ (List.getElem_mem hi) hne
    refine ⟨_, hv, hne, h.bounded m i _ ?_⟩
    simp [sanitizerCovTracePcGuard, hv, hne, hmap]
  rw [← Finset.card_range size, ← Finset.sum_congr rfl fun m _ => Finset.card_range (p.range m).length,
    ← Finset.card_sigma]
  refine Finset.card_le_card_of_injOn (fun g => ((p.range g.1)[g.2]?.getD 0).toNat - 1) ?_ ?_
  · intro g hg
    simp only [Finset.coe_sigma, Set.mem_sigma_iff, Finset.mem_coe, List.mem_toFinset, Finset.mem_range] at hg
    obtain ⟨v, hv, -, hlt⟩ := hguard g.1 hg.1 g.2 hg.2
    simpa [hv] using hlt
  · intro g hg g' hg' heq
    simp only [Finset.coe_sigma, Set.mem_sigma_iff, Finset.mem_coe, List.mem_toFinset, Finset.mem_range] at hg hg'
    obtain ⟨v, hv, hv0, -⟩ := hguard g.1 hg.1 g.2 hg.2
    obtain ⟨v', hv', hv0', -⟩ := hguard g'.1 hg'.1 g'.2 hg'.2
    simp only [hv, hv', Option.getD_some] at heq
    have hpos : v.toNat ≠ 0 := fun h0 => hv0 (UInt32.toNat_inj.1 h0)
    have hpos' : v'.toNat ≠ 0 := fun h0 => hv0' (UInt32.toNat_inj.1 h0)
    have hvv : v = v' := UInt32.toNat_inj.1 (by omega)
    obtain ⟨hm, hi⟩ := h.distinct _ hg.1 _ hg'.1 _ _ v hv (hvv ▸ hv')
    exact Sigma.ext hm (heq_of_eq hi)

theorem range_new (lengths : List Nat) (m : Nat) :
    (Process.new lengths).range m = List.replicate (lengths.getD m 0) 0 := by
  cases h : lengths[m]? <;> simp [Process.range, Process.new, h]

theorem head?_range_new (lengths : List Nat) (m : Nat) :
    ((Process.new lengths).range m).head? = some 0 ↔ lengths.getD m 0 ≠ 0 := by
  rw [range_new, List.head?_replicate]
  simp

theorem attached_new (lengths : List Nat) : Attached (Process.new lengths) := by
  refine ⟨.inl rfl, fun m v hv h0 => ?_⟩
  rw [range_new] at hv
  exact absurd (List.eq_of_mem_replicate hv) h0

/-- Guards that have no id are never written. -/
theorem guard_of_zero {p : Process} {m i : Nat} (h : ∀ v ∈ p.range m, v = 0) :
    sanitizerCovTracePcGuard p m i = none := by
  unfold sanitizerCovTracePcGuard
  split
  · rfl
  · rename_i v hv
    rw [if_pos (h v (List.mem_of_getElem? hv))]

theorem guard_eq_some {p : Process} {m i k : Nat} (h : sanitizerCovTracePcGuard p m i = some k) :
    ∃ v, (p.range m)[i]? = some v ∧ k = v.toNat - 1 := by
  unfold sanitizerCovTracePcGuard at h
  split at h
  · cases h
  · rename_i v hv
    refine ⟨v, hv, ?_⟩
    split at h
    · cases h
    · split at h <;> cases h
      rfl

section Startup

variable {lengths calls : List Nat}

/-- The process after its first range with guards, that of module `m`. -/
def Process.started (lengths : List Nat) (m : Nat) : Process where
  ranges := (Process.new lengths).ranges.set m (number 0 (List.replicate (lengths.getD m 0) 0)).2
  edges := (number 0 (List.replicate (lengths.getD m 0) 0)).1
  needInit := false
  shmemMap := true

theorem range_started {m : Nat} (hm : lengths.getD m 0 ≠ 0) (m' : Nat) : (Process.started lengths m).range m' =
    if m = m' then (number 0 (List.replicate (lengths.getD m 0) 0)).2 else List.replicate (lengths.getD m' 0) 0 := by
  have hlt : m < lengths.length := by
    by_contra h
    exact hm (by simp [List.getElem?_eq_none (not_lt.1 h)])
  simp only [Process.range, Process.started, List.getD_eq_getElem?_getD, List.getElem?_set]
  split
  · simp [Process.new, hlt]
  · simpa [Process.range] using range_new lengths m'

/-- **The first process** prints the number of guards of the first range that has any. -/
theorem load_probe {m : Nat} {before after : List Nat} (hbefore : ∀ m' ∈ before, lengths.getD m' 0 = 0)
    (hm : lengths.getD m 0 ≠ 0) :
    maxEdges (load true (Process.new lengths) (before ++ m :: after)) = lengths.getD m 0 % 2 ^ 32 := by
  rw [load_append fun m' hm' hf => (head?_range_new lengths m').1 hf (hbefore m' hm')]
  simp only [load, init_fresh ((head?_range_new lengths m).2 hm), if_true, maxEdges, number_fst, range_new,
    List.length_replicate]
  simp [Process.new]

/-- **The fuzzing process** goes on from there with the ranges after it. -/
theorem load_started {m : Nat} {before after : List Nat} (hbefore : ∀ m' ∈ before, lengths.getD m' 0 = 0)
    (hm : lengths.getD m 0 ≠ 0) :
    load false (Process.new lengths) (before ++ m :: after) = load false (.started lengths m) after := by
  rw [load_append fun m' hm' hf => (head?_range_new lengths m').1 hf (hbefore m' hm')]
  simp only [load, init_fresh ((head?_range_new lengths m).2 hm), range_new]
  rfl

/-- One range with guards, fewer than 2^32 of them: the map that is made for it is large enough. -/
theorem safe_started {m : Nat} (hm : lengths.getD m 0 ≠ 0) (hlt : lengths.getD m 0 < 2 ^ 32)
    (hcalls : ∀ m' ∈ calls, m' ≠ m → lengths.getD m' 0 = 0) :
    Safe (lengths.getD m 0) calls (.started lengths m) := by
  have hid : ∀ i v, ((Process.started lengths m).range m)[i]? = some v → v.toNat = i + 1 := by
    intro i v hv
    rw [range_started hm, if_pos rfl] at hv
    simpa using getElem_number (by simpa using hlt) hv
  have hother : ∀ m' ∈ calls, m' ≠ m → (Process.started lengths m).range m' = [] := by
    intro m' hm' hne
    rw [range_started hm, if_neg (Ne.symm hne), hcalls m' hm' hne]
    rfl
  refine ⟨fun m' hm' v hv h0 => ?_, fun m₁ h₁ m₂ h₂ i i' v hv hv' => ?_, fun m' hm' => ?_, fun m' i k hk => ?_⟩
  · obtain ⟨i, hi⟩ := List.getElem?_of_mem hv
    by_cases hne : m' = m
    · subst hne
      have := hid i v hi
      simp [h0] at this
    · rw [hother m' hm' hne] at hv
      cases hv
  · have hm₁ : m₁ = m := by
      by_contra hne
      simp [hother m₁ h₁ hne] at hv
    have hm₂ : m₂ = m := by
      by_contra hne
      simp [hother m₂ h₂ hne] at hv'
    subst hm₁ hm₂
    have := hid i v hv
    have := hid i' v hv'
    exact ⟨rfl, by omega⟩
  · refine ⟨_, init_of_notFresh fun hf => ?_, rfl⟩
    rw [List.head?_eq_getElem?] at hf
    by_cases hne : m' = m
    · subst hne
      have := hid 0 0 hf
      simp at this
    · simp [hother m' hm' hne] at hf
  · by_cases hne : m' = m
    · subst hne
      obtain ⟨v, hv, hkv⟩ := guard_eq_some hk
      have := hid i v hv
      have hi := (List.getElem?_eq_some_iff.1 hv).1
      rw [range_started hm, if_pos rfl, number_length, List.length_replicate] at hi
      omega
    · rw [guard_of_zero fun v hv => ?_] at hk
      · cases hk
      · rw [range_started hm, if_neg (Ne.symm hne)] at hv
        exact List.eq_of_mem_replicate hv

/-- Ranges without guards need no map. -/
theorem safe_new {size : Nat} (hcalls : ∀ m ∈ calls, lengths.getD m 0 = 0) : Safe size calls (.new lengths) := by
  have hempty : ∀ m ∈ calls, (Process.new lengths).range m = [] := by
    intro m hm
    rw [range_new, hcalls m hm]
    rfl
  refine ⟨fun m hm v hv => ?_, fun m hm _ _ i i' v hv => ?_, fun m hm => ?_, fun m i k hk => ?_⟩
  · simp [hempty m hm] at hv
  · simp [hempty m hm] at hv
  · exact ⟨_, init_of_notFresh (by simp [hempty m hm]), rfl⟩
  · rw [guard_of_zero fun v hv => List.eq_of_mem_replicate (range_new lengths m ▸ hv)] at hk
    cases hk

/-- The first range with guards. -/
theorem exists_first (h : ∃ m ∈ calls, lengths.getD m 0 ≠ 0) : ∃ m before after, calls = before ++ m :: after ∧
    lengths.getD m 0 ≠ 0 ∧ ∀ m' ∈ before, lengths.getD m' 0 = 0 := by
  have hfind : (calls.find? fun m => decide (lengths.getD m 0 ≠ 0)).isSome := by
    simpa [List.find?_isSome] using h
  obtain ⟨m, hm⟩ := Option.isSome_iff_exists.1 hfind
  obtain ⟨hne, before, after, rfl, hbefore⟩ := List.find?_eq_some_iff_append.1 hm
  exact ⟨m, before, after, rfl, of_decide_eq_true hne, fun m' hm' => by simpa using hbefore m' hm'⟩

/-- Two ranges of a list of callbacks have together at most as many guards as all of them. -/
theorem add_le_sum {m m' : Nat} (hm : m ∈ calls) (hm' : m' ∈ calls) (hne : m' ≠ m) :
    lengths.getD m 0 + lengths.getD m' 0 ≤ ∑ m ∈ calls.toFinset, lengths.getD m 0 := by
  rw [← Finset.sum_pair (f := fun m => lengths.getD m 0) (Ne.symm hne)]
  refine Finset.sum_le_sum_of_subset fun x hx => ?_
  rcases Finset.mem_insert.1 hx with rfl | hx
  · exact List.mem_toFinset.2 hm
  · rw [Finset.mem_singleton.1 hx]
    exact List.mem_toFinset.2 hm'

/-- **The map and the guards.** A start-up of the fuzzing process returns. With the map that the first process has
measured over the same callbacks it is safe exactly when at most one of the ranges has guards, and fewer than 2^32. -/
theorem safe_iff (lengths calls : List Nat) : ∃ p, load false (.new lengths) calls = .returned p ∧
    (Safe (maxEdges (load true (.new lengths) calls)) calls p ↔
      ∀ m ∈ calls, lengths.getD m 0 ≠ 0 →
        lengths.getD m 0 < 2 ^ 32 ∧ ∀ m' ∈ calls, m' ≠ m → lengths.getD m' 0 = 0) := by
  obtain ⟨p, hp, hatt, hlen⟩ := load_fuzz (attached_new lengths) calls
  refine ⟨p, hp, ?_⟩
  by_cases hsome : ∃ m ∈ calls, lengths.getD m 0 ≠ 0
  · -- the first process leaves in the first range with guards
    obtain ⟨m, before, after, rfl, hm, hbefore⟩ := exists_first hsome
    have hmem : m ∈ before ++ m :: after := by simp
    rw [load_probe hbefore hm]
    constructor
    · intro hsafe m₀ hm₀ hne₀
      have hsum := hsafe.sum_le hatt
      simp only [hlen, range_new, List.length_replicate] at hsum
      have hmod := Nat.mod_le (lengths.getD m 0) (2 ^ 32)
      have hothers : ∀ m' ∈ before ++ m :: after, m' ≠ m → lengths.getD m' 0 = 0 := by
        intro m' hm' hne
        have : lengths.getD m 0 + lengths.getD m' 0 ≤ _ := add_le_sum hmem hm' hne
        omega
      have hm₀m : m₀ = m := by
        by_contra hne
        exact hne₀ (hothers m₀ hm₀ hne)
      subst hm₀m
      have hle := Finset.single_le_sum (f := fun m => lengths.getD m 0) (fun _ _ => Nat.zero_le _)
        (List.mem_toFinset.2 hmem)
      have := Nat.mod_lt (lengths.getD m₀ 0) (show 0 < 2 ^ 32 by omega)
      exact ⟨by omega, hothers⟩
    · intro hcond
      obtain ⟨hlt, hothers⟩ := hcond m hmem hm
      rw [load_started hbefore hm] at hp
      have hsafe : Safe _ (before ++ m :: after) _ := safe_started hm hlt hothers
      rw [load_of_notFresh fun m' hm' => hsafe.notFresh (by simp [hm'])] at hp
      cases hp
      rwa [Nat.mod_eq_of_lt hlt]
  · have hzero : ∀ m ∈ calls, lengths.getD m 0 = 0 := by
      intro m hm
      by_contra h
      exact hsome ⟨m, hm, h⟩
    rw [load_of_notFresh fun m hm hf => (head?_range_new lengths m).1 hf (hzero m hm)] at hp ⊢
    cases hp
    refine iff_of_true (safe_new hzero) fun m hm hne => absurd (hzero m hm) hne

end Startup

/-- Two modules with one guard each. The first process has counted one guard; the second guard has id 2, and writes
past the end of the map. -/
theorem not_safe_twoModules : ∃ p, load false (.new [1, 1]) [0, 1] = .returned p ∧
    maxEdges (load true (.new [1, 1]) [0, 1]) = 1 ∧ sanitizerCovTracePcGuard p 1 0 = some 1 ∧
    ¬ Safe (maxEdges (load true (.new [1, 1]) [0, 1])) [0, 1] p := by
  refine ⟨⟨[[1], [2]], 2, false, true⟩, by decide, by decide, by decide, fun h => ?_⟩
  have hlt := h.bounded 1 0 1 (by decide)
  exact absurd hlt (by decide)

end Lsf.Hooks
