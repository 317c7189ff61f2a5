import Lsf.Core.Draws
import Lsf.Feedback.Mab
import Lsf.Lib.Roulette
import Mathlib.Data.Nat.Sqrt

/-!
# Block sums

`BlockSumTable` keeps weights in slots and the sums of blocks of slots, so that a slot can be sampled in proportion to
its weight; removed slots weigh nothing and are used again. The weights are those that were set, but the sums are kept up
to date in rounded steps, so that a point below the total may lie beyond all weights: it falls through to the last slot.

- `Fitted`: there are as many blocks as the slots need, and no operation panics, whatever the rounding;
- a sampled slot weighs something, or the point has fallen through (`sample_cases`);
- `Summed`: in exact arithmetic the sums are the sums, and no point falls through (`Summed.sample_prefix`).
-/

namespace Lsf.Engine

open Lsf.Core Lsf.Lib Lsf.Feedback

def alignUp (n alignment : Nat) : Nat := (n + alignment - 1) / alignment * alignment

/-- The root of a capacity, rounded up. -/
def ceilSqrt (n : Nat) : Nat := if n.sqrt * n.sqrt = n then n.sqrt else n.sqrt + 1

structure BlockSumTable where
  leaves : List ℚ
  blocks : List ℚ
  totalSum : ℚ
  blockSize : Nat
  freeSlots : List Nat
  requests : Nat
  fallThrough : Nat

def clampWeight (weight : ℚ) : ℚ := min (max weight (minWeight ℚ)) (maxWeight ℚ)

namespace BlockSumTable

def new (initialCapacity : Nat) : BlockSumTable := ⟨[], [], 0, alignUp (ceilSqrt initialCapacity) 2, [], 0, 0⟩

section Operations

variable [Rounding ℚ]

/-- An index out of range panics. -/
def setWeigth (t : BlockSumTable) (slot : Nat) (weight : ℚ) : Option BlockSumTable := do
  let blockIdx := slot / t.blockSize
  let blocks := if blockIdx ≥ t.blocks.length then t.blocks ++ [0] else t.blocks
  let old ← t.leaves[slot]?
  let sum ← blocks[blockIdx]?
  let diff := Rounding.round (weight - old)
  some { t with
    leaves := t.leaves.set slot weight
    blocks := blocks.set blockIdx (Rounding.round (sum + diff))
    totalSum := Rounding.round (t.totalSum + diff) }

def push (t : BlockSumTable) (weight : ℚ) : Option (Nat × BlockSumTable) := do
  let weight := clampWeight weight
  let idx := t.leaves.length
  let t ← ({ t with leaves := t.leaves ++ [0] } : BlockSumTable).setWeigth idx weight
  some (idx, t)

/-- The slot that was freed last is used again. -/
def insert (t : BlockSumTable) (weight : ℚ) : Option (Nat × BlockSumTable) :=
  match t.freeSlots.getLast? with
  | some free => do
    let t ← ({ t with freeSlots := t.freeSlots.dropLast } : BlockSumTable).setWeigth free weight
    some (free, t)
  | none => t.push weight

def remove (t : BlockSumTable) (idx : Nat) : Option BlockSumTable := do
  let t ← t.setWeigth idx 0
  some { t with freeSlots := t.freeSlots ++ [idx] }

def update (t : BlockSumTable) (idx : Nat) (weight : ℚ) : Option BlockSumTable := t.setWeigth idx (clampWeight weight)

/-- The weights of the block `j`. -/
def blockLeaves (t : BlockSumTable) (j : Nat) : List ℚ := (t.leaves.drop (j * t.blockSize)).take t.blockSize

/-- Every block that exists is summed anew. -/
def resum (t : BlockSumTable) : BlockSumTable :=
  let blocks := (List.range t.blocks.length).map fun j => roundedSum (t.blockLeaves j)
  { t with blocks := blocks, totalSum := roundedSum blocks, requests := 0, fallThrough := 0 }

/-- The slot in which a point is found, in a block and then in a leaf of the block; the first block is searched when no
block has it. -/
def slotAt (t : BlockSumTable) (target : ℚ) : Option Nat :=
  let (blockIdx, target) := (seek target t.blocks).getD (0, roundedRest target t.blocks)
  (seek target (t.blockLeaves blockIdx)).map fun (i, _) => blockIdx * t.blockSize + i

/-- The slot of the point that is drawn; an empty range panics. -/
def sample (t : BlockSumTable) (draws : List Draw) : Option (Option Nat × BlockSumTable × List Draw) :=
  if t.leaves.isEmpty then some (none, t, draws) else do
    let (u, draws) ← Draw.next draws
    let target ← u.randomPoint t.totalSum
    match t.slotAt target with
    | some i => some (some i, { t with requests := t.requests + 1 }, draws)
    | none => some (some (t.leaves.length - 1),
        { t with requests := t.requests + 1, fallThrough := t.fallThrough + 1 }, draws)

/-- The next point is found in no slot. -/
def fallsThrough (t : BlockSumTable) : List Draw → Bool
  | [] => false
  | u :: _ => (u.randomPoint t.totalSum).any fun target => (t.slotAt target).isNone

/-- The next point falls through, and to a slot that weighs nothing. -/
def Strays (t : BlockSumTable) (draws : List Draw) : Prop := t.fallsThrough draws = true ∧ t.leaves.getLast? = some 0

instance (t : BlockSumTable) (draws : List Draw) : Decidable (t.Strays draws) :=
  inferInstanceAs (Decidable (t.fallsThrough draws = true ∧ t.leaves.getLast? = some 0))

end Operations

/-- `fall_through_rate() >= 0.1`; without requests the rate is NaN. -/
def fallsThroughOften (t : BlockSumTable) : Bool := t.requests ≠ 0 && t.fallThrough * 10 ≥ t.requests

/-! ## Slots and blocks -/

/-- There are as many blocks as the slots need. -/
structure Fitted (t : BlockSumTable) : Prop where
  blockSize_pos : 0 < t.blockSize
  length : ∀ j, j < t.blocks.length ↔ j * t.blockSize < t.leaves.length

theorem Fitted.new {initialCapacity : Nat} (h : 0 < initialCapacity) : Fitted (new initialCapacity) where
  blockSize_pos := by
    have hsqrt : 0 < ceilSqrt initialCapacity := by
      have := Nat.sqrt_pos.2 h
      unfold ceilSqrt
      split <;> omega
    show 0 < (ceilSqrt initialCapacity + 2 - 1) / 2 * 2
    omega
  length j := by simp [BlockSumTable.new]

theorem Fitted.div_lt {t : BlockSumTable} {slot : Nat} (h : t.Fitted) (hslot : slot < t.leaves.length) :
    slot / t.blockSize < t.blocks.length :=
  (h.length _).2 (lt_of_le_of_lt (Nat.div_mul_le_self _ _) hslot)

/-- The slots end in the last block. -/
theorem Fitted.length_le {t : BlockSumTable} (h : t.Fitted) : t.leaves.length ≤ t.blocks.length * t.blockSize :=
  not_lt.1 ((h.length _).not.1 (Nat.lt_irrefl _))

section Fits

variable [Rounding ℚ] {t t' : BlockSumTable} {slot : Nat} {weight : ℚ}

/-- Setting the weight of a slot whose block exists, or comes next. -/
theorem exists_setWeigth (hslot : slot < t.leaves.length) (hnext : slot / t.blockSize ≤ t.blocks.length) (weight : ℚ) :
    ∃ t', t.setWeigth slot weight = some t' ∧ t'.leaves = t.leaves.set slot weight ∧ t'.blockSize = t.blockSize
      ∧ t'.freeSlots = t.freeSlots ∧ t'.blocks.length = max t.blocks.length (slot / t.blockSize + 1) := by
  obtain ⟨roomy, hroomy, hlen⟩ : ∃ roomy, (if slot / t.blockSize ≥ t.blocks.length then t.blocks ++ [0] else t.blocks)
      = roomy ∧ roomy.length = max t.blocks.length (slot / t.blockSize + 1) := by
    refine ⟨_, rfl, ?_⟩
    split
    · rw [List.length_append, List.length_singleton]
      omega
    · omega
  have hold : t.leaves[slot]? = some t.leaves[slot] := List.getElem?_eq_getElem hslot
  have hlt : slot / t.blockSize < roomy.length := by omega
  simp only [setWeigth, hroomy, hold, List.getElem?_eq_getElem hlt, Option.bind_eq_bind, Option.bind_some]
  exact ⟨_, rfl, rfl, rfl, rfl, by simpa using hlen⟩

/-- In a fitted table every slot can be set. -/
theorem Fitted.setWeigth (h : t.Fitted) (hslot : slot < t.leaves.length) (weight : ℚ) :
    ∃ t', t.setWeigth slot weight = some t' ∧ t'.Fitted ∧ t'.leaves = t.leaves.set slot weight
      ∧ t'.freeSlots = t.freeSlots := by
  have hin := h.div_lt hslot
  obtain ⟨t', heq, hleaves, hsize, hfree, hlen⟩ := exists_setWeigth hslot hin.le weight
  refine ⟨t', heq, ⟨hsize ▸ h.blockSize_pos, fun j => ?_⟩, hleaves, hfree⟩
  rw [hlen, hleaves, List.length_set, hsize, ← h.length j]
  omega

/-- A new slot is the last one. -/
theorem Fitted.push (h : t.Fitted) (weight : ℚ) :
    ∃ t', t.push weight = some (t.leaves.length, t') ∧ t'.Fitted ∧ t'.leaves = t.leaves ++ [clampWeight weight]
      ∧ t'.freeSlots = t.freeSlots := by
  have hpos := h.blockSize_pos
  have hnext : t.leaves.length / t.blockSize ≤ t.blocks.length :=
    Nat.div_le_of_le_mul (Nat.mul_comm _ _ ▸ h.length_le)
  have hlast : t.leaves.length < (t.leaves ++ [(0 : ℚ)]).length := by simp
  obtain ⟨t', heq, hleaves, hsize, hfree, hlen⟩ :=
    exists_setWeigth (t := { t with leaves := t.leaves ++ [0] }) hlast hnext (clampWeight weight)
  have hset : (t.leaves ++ [(0 : ℚ)]).set t.leaves.length (clampWeight weight) = t.leaves ++ [clampWeight weight] := by
    simp
  refine ⟨t', ?_, ⟨hsize ▸ hpos, fun j => ?_⟩, hleaves.trans hset, hfree⟩
  · simp [BlockSumTable.push, heq]
  · have hj := h.length j
    rw [hlen, hleaves, hset, hsize, List.length_append, List.length_singleton]
    show j < max t.blocks.length (t.leaves.length / t.blockSize + 1) ↔ j * t.blockSize < t.leaves.length + 1
    rw [lt_max_iff, hj, Nat.lt_succ_iff, Nat.lt_succ_iff, Nat.le_div_iff_mul_le hpos]
    omega

/-- Inserting takes the slot freed last, or a new one. -/
theorem Fitted.insert (h : t.Fitted) (hfree : ∀ i ∈ t.freeSlots, i < t.leaves.length) (weight : ℚ) :
    ∃ idx t', t.insert weight = some (idx, t') ∧ t'.Fitted ∧
      ((t.freeSlots = [] ∧ idx = t.leaves.length ∧ t'.leaves = t.leaves ++ [clampWeight weight] ∧ t'.freeSlots = []) ∨
        (t.freeSlots = t'.freeSlots ++ [idx] ∧ idx < t.leaves.length ∧ t'.leaves = t.leaves.set idx weight)) := by
  unfold BlockSumTable.insert
  rcases List.eq_nil_or_concat' t.freeSlots with hnil | ⟨slots, idx, hslots⟩
  · obtain ⟨t', heq, hfitted, hleaves, hfree'⟩ := h.push weight
    refine ⟨_, t', ?_, hfitted, .inl ⟨hnil, rfl, hleaves, hfree'.trans hnil⟩⟩
    rw [hnil]
    exact heq
  · have hidx : idx < t.leaves.length := hfree idx (by simp [hslots])
    have hrest : Fitted { t with freeSlots := slots } := ⟨h.1, h.2⟩
    obtain ⟨t', heq, hfitted, hleaves, hfree'⟩ := hrest.setWeigth hidx weight
    refine ⟨idx, t', ?_, hfitted, .inr ⟨?_, hidx, hleaves⟩⟩
    · simp [hslots, heq]
    · rw [hfree', hslots]

theorem Fitted.remove (h : t.Fitted) (hslot : slot < t.leaves.length) :
    ∃ t', t.remove slot = some t' ∧ t'.Fitted ∧ t'.leaves = t.leaves.set slot 0
      ∧ t'.freeSlots = t.freeSlots ++ [slot] := by
  obtain ⟨t', heq, hfitted, hleaves, hfree⟩ := h.setWeigth hslot 0
  refine ⟨{ t' with freeSlots := t'.freeSlots ++ [slot] }, ?_, ⟨hfitted.1, hfitted.2⟩, hleaves, ?_⟩
  · simp [BlockSumTable.remove, heq]
  · show t'.freeSlots ++ [slot] = _
    rw [hfree]

theorem Fitted.resum (h : t.Fitted) : t.resum.Fitted where
  blockSize_pos := h.blockSize_pos
  length j := by simpa [BlockSumTable.resum] using h.length j

/-- Sampling changes nothing but the counters. -/
theorem sample_spec {draws draws' : List Draw} {o : Option Nat} (h : t.Fitted)
    (hs : t.sample draws = some (o, t', draws')) :
    t'.Fitted ∧ t'.leaves = t.leaves ∧ t'.freeSlots = t.freeSlots := by
  unfold sample at hs
  split at hs
  · cases hs
    exact ⟨h, rfl, rfl⟩
  obtain ⟨⟨u, rest⟩, -, hs⟩ := Option.bind_eq_some_iff.1 hs
  obtain ⟨target, -, hs⟩ := Option.bind_eq_some_iff.1 hs
  split at hs <;> (cases hs; exact ⟨⟨h.1, h.2⟩, rfl, rfl⟩)

/-- A point that falls through gives the last slot. -/
theorem sample_of_fallsThrough {draws : List Draw} (hne : t.leaves ≠ []) (h : t.fallsThrough draws = true) :
    ∃ t' draws', t.sample draws = some (some (t.leaves.length - 1), t', draws') := by
  cases draws with
  | nil => cases h
  | cons u draws =>
    obtain ⟨target, htarget, hslot⟩ := (Option.any_eq_true _ _).1 h
    refine ⟨{ t with requests := t.requests + 1, fallThrough := t.fallThrough + 1 }, draws, ?_⟩
    simp [sample, hne, Draw.next, htarget, Option.isNone_iff_eq_none.1 hslot]

variable [LawfulRounding ℚ]

/-- A slot in which a point is found weighs something. -/
theorem slotAt_pos {target : ℚ} {i : Nat} (h0 : 0 ≤ target) (h : t.slotAt target = some i) :
    ∃ w, t.leaves[i]? = some w ∧ 0 < w := by
  obtain ⟨⟨j, left⟩, hleft, hblock⟩ : ∃ p : Nat × ℚ, 0 ≤ p.2 ∧
      (seek target t.blocks).getD (0, roundedRest target t.blocks) = p := by
    refine ⟨_, ?_, rfl⟩
    cases hseek : seek target t.blocks with
    | none => exact roundedRest_nonneg hseek h0
    | some p => exact (seek_eq_some hseek h0).1
  simp only [slotAt, hblock] at h
  obtain ⟨⟨k, left'⟩, hleaf, rfl⟩ := Option.map_eq_some_iff.1 h
  obtain ⟨hleft', w, hw, hlt⟩ := seek_eq_some hleaf hleft
  refine ⟨w, ?_, hleft'.trans_lt hlt⟩
  obtain ⟨hk, -⟩ := List.getElem?_eq_some_iff.1 hw
  rw [blockLeaves, List.length_take] at hk
  rwa [blockLeaves, List.getElem?_take_of_lt (by omega), List.getElem?_drop] at hw

/-- **What is sampled weighs something, or it is the last slot**, to which the point fell through. -/
theorem sample_cases {draws draws' : List Draw} {i : Nat} (hs : t.sample draws = some (some i, t', draws')) :
    (t.fallsThrough draws = false ∧ ∃ w, t.leaves[i]? = some w ∧ 0 < w) ∨
      (t.fallsThrough draws = true ∧ i = t.leaves.length - 1 ∧ i < t.leaves.length) := by
  unfold sample at hs
  split at hs
  · cases hs
  rename_i hne
  obtain ⟨⟨u, rest⟩, hnext, hslot⟩ := Option.bind_eq_some_iff.1 hs
  obtain ⟨target, htarget, hslot⟩ := Option.bind_eq_some_iff.1 hslot
  cases draws with
  | nil => cases hnext
  | cons v draws =>
    cases hnext
    have hfalls : t.fallsThrough (u :: rest) = (t.slotAt target).isNone := by
      rw [fallsThrough, htarget]
      rfl
    rw [hfalls]
    split at hslot
    · rename_i k hk
      cases hslot
      exact .inl ⟨by rw [hk]; rfl, slotAt_pos (Draw.randomPoint_bounds htarget).1 hk⟩
    · rename_i hk
      cases hslot
      have hpos : 0 < t.leaves.length := List.length_pos_iff.2 (by simpa using hne)
      exact .inr ⟨by rw [hk]; rfl, rfl, by omega⟩

end Fits

/-! ## Exact sums -/

/-- The sums are sums. -/
structure Summed (t : BlockSumTable) : Prop extends Fitted t where
  block : ∀ j, t.blocks.getD j 0 = blockSum t.blockSize t.leaves j
  total : t.blocks.sum = t.totalSum

section Exact

attribute [local instance] Rounding.exact

variable {t t' : BlockSumTable} {slot : Nat} {weight : ℚ}

theorem Summed.new {initialCapacity : Nat} (h : 0 < initialCapacity) : Summed (new initialCapacity) where
  toFitted := .new h
  block j := by simp [BlockSumTable.new, blockSum]
  total := rfl

/-- One weight is set, and the sums with it. -/
theorem sums_setWeigth (hpos : 0 < t.blockSize) (hblock : ∀ j, t.blocks.getD j 0 = blockSum t.blockSize t.leaves j)
    (htotal : t.blocks.sum = t.totalSum) (hs : t.setWeigth slot weight = some t') :
    (∀ j, t'.blocks.getD j 0 = blockSum t'.blockSize t'.leaves j) ∧ t'.blocks.sum = t'.totalSum := by
  -- a block that is added has the sum zero
  obtain ⟨roomy, hroomy, hgetD, hsum⟩ : ∃ roomy,
      (if slot / t.blockSize ≥ t.blocks.length then t.blocks ++ [0] else t.blocks) = roomy ∧
        (∀ j, roomy.getD j 0 = t.blocks.getD j 0) ∧ roomy.sum = t.blocks.sum := by
    refine ⟨_, rfl, ?_⟩
    split
    · refine ⟨fun j => ?_, by simp⟩
      simp only [List.getD_eq_getElem?_getD, List.getElem?_append]
      split
      · rfl
      · rename_i hj
        rw [List.getElem?_eq_none (l := t.blocks) (by omega)]
        cases j - t.blocks.length <;> simp
    · exact ⟨fun _ => rfl, rfl⟩
  simp only [BlockSumTable.setWeigth, hroomy] at hs
  obtain ⟨old, hold, hs⟩ := Option.bind_eq_some_iff.1 hs
  obtain ⟨sum, hget, hs⟩ := Option.bind_eq_some_iff.1 hs
  cases hs
  obtain ⟨hlt, hval⟩ := List.getElem?_eq_some_iff.1 hget
  refine ⟨fun j => ?_, ?_⟩
  · show (roomy.set _ (sum + (weight - old))).getD j 0 = blockSum t.blockSize (t.leaves.set slot weight) j
    rw [blockSum_set hpos hold, ← hblock j, List.getD_eq_getElem?_getD, List.getElem?_set, ← hgetD j]
    by_cases hj : slot / t.blockSize = j
    · subst hj
      simp [hlt, List.getD_eq_getElem?_getD, hval]
    · rw [if_neg hj, if_neg (Ne.symm hj), add_zero, ← List.getD_eq_getElem?_getD]
  · show (roomy.set _ (sum + (weight - old))).sum = t.totalSum + (weight - old)
    rw [sum_set hget, hsum, htotal]
    ring

theorem Summed.setWeigth (h : t.Summed) (hslot : slot < t.leaves.length) (hs : t.setWeigth slot weight = some t') :
    t'.Summed := by
  obtain ⟨t'', heq, hfitted, -⟩ := h.toFitted.setWeigth hslot weight
  obtain rfl : t' = t'' := Option.some.inj (hs.symm.trans heq)
  obtain ⟨hblock, htotal⟩ := sums_setWeigth h.blockSize_pos h.block h.total hs
  exact ⟨hfitted, hblock, htotal⟩

theorem Summed.push {idx : Nat} (h : t.Summed) (hs : t.push weight = some (idx, t')) : t'.Summed := by
  obtain ⟨t'', heq, hfitted, -⟩ := h.toFitted.push weight
  obtain ⟨-, rfl⟩ := Prod.mk.inj (Option.some.inj (hs.symm.trans heq))
  obtain ⟨t'', hset, hs⟩ := Option.bind_eq_some_iff.1 hs
  cases hs
  obtain ⟨hblock, htotal⟩ := sums_setWeigth (t := { t with leaves := t.leaves ++ [0] }) h.blockSize_pos
    (fun j => (h.block j).trans (blockSum_snoc_zero _ _ _).symm) h.total hset
  exact ⟨hfitted, hblock, htotal⟩

theorem Summed.insert {idx : Nat} (h : t.Summed) (hfree : ∀ i ∈ t.freeSlots, i < t.leaves.length)
    (hs : t.insert weight = some (idx, t')) : t'.Summed := by
  unfold BlockSumTable.insert at hs
  split at hs
  · rename_i free hlast
    obtain ⟨t'', hset, hs⟩ := Option.bind_eq_some_iff.1 hs
    cases hs
    have hrest : Summed { t with freeSlots := t.freeSlots.dropLast } := ⟨⟨h.1.1, h.1.2⟩, h.2, h.3⟩
    exact hrest.setWeigth (hfree idx (List.mem_of_getLast? hlast)) hset
  · exact h.push hs

theorem Summed.remove (h : t.Summed) (hslot : slot < t.leaves.length) (hs : t.remove slot = some t') : t'.Summed := by
  obtain ⟨t'', hset, hs⟩ := Option.bind_eq_some_iff.1 hs
  cases hs
  obtain ⟨hfitted, hblock, htotal⟩ := h.setWeigth hslot hset
  exact ⟨⟨hfitted.1, hfitted.2⟩, hblock, htotal⟩

theorem Summed.resum (h : t.Summed) : t.resum.Summed where
  toFitted := h.toFitted.resum
  block j := by
    have hblocks : t.resum.blocks = (List.range t.blocks.length).map (blockSum t.blockSize t.leaves) :=
      List.map_congr_left fun j _ => roundedSum_exact (t.blockLeaves j)
    rw [hblocks, List.getD_eq_getElem?_getD]
    by_cases hj : j < t.blocks.length
    · simp [hj, BlockSumTable.resum]
    · have hzero := h.block j
      rw [List.getD_eq_getElem?_getD, List.getElem?_eq_none (not_lt.1 hj)] at hzero
      simp only [Option.getD_none] at hzero
      simp [hj, ← hzero, BlockSumTable.resum]
  total := (roundedSum_exact _).symm

/-- The blocks are those of the leaves. -/
theorem Summed.blocks_eq (h : t.Summed) : t.blocks = (List.range t.blocks.length).map (blockSum t.blockSize t.leaves) := by
  apply List.ext_getElem?
  intro j
  by_cases hj : j < t.blocks.length
  · have hblock := h.block j
    rw [List.getD_eq_getElem?_getD, List.getElem?_eq_getElem hj, Option.getD_some] at hblock
    simp [hj, hblock]
  · simp [hj]

theorem Summed.sum_take_blocks (h : t.Summed) {j : Nat} (hj : j ≤ t.blocks.length) :
    (t.blocks.take j).sum = (t.leaves.take (j * t.blockSize)).sum := by
  rw [h.blocks_eq, ← List.map_take, List.take_range, Nat.min_eq_left hj, sum_blockSum]

/-- The total is the sum of the leaves. -/
theorem Summed.totalSum_eq (h : t.Summed) : t.totalSum = t.leaves.sum := by
  have hsum := h.sum_take_blocks (Nat.le_refl _)
  rwa [List.take_length, h.total, List.take_of_length_le h.length_le] at hsum

/-- **A sampled slot is where the prefix sums of the leaves reach beyond the point**, and it is found in its block. -/
theorem Summed.sample_prefix (h : t.Summed) {u : Draw} {target : ℚ} (hu : u.randomPoint t.totalSum = some target)
    (draws : List Draw) :
    ∃ i, t.sample (u :: draws) = some (some i, { t with requests := t.requests + 1 }, draws) ∧
      (t.leaves.take i).sum ≤ target ∧ target < (t.leaves.take (i + 1)).sum := by
  obtain ⟨hnonneg, hlt⟩ := Draw.randomPoint_bounds hu
  have hne : ¬t.leaves.isEmpty := by
    intro hempty
    rw [h.totalSum_eq, List.isEmpty_iff.1 hempty] at hlt
    exact absurd hlt (not_lt.2 hnonneg)
  -- the point is below the total, so it lies in a block, and in a leaf of this block
  obtain ⟨⟨j, left⟩, hblock⟩ := Option.isSome_iff_exists.1 (pick_isSome (h.total.symm ▸ hlt) hnonneg)
  obtain ⟨hleft, sum, hsum, hleftlt⟩ := pick_eq_some hblock hnonneg
  obtain ⟨hj, -⟩ := List.getElem?_eq_some_iff.1 hsum
  have hsumeq : sum = blockSum t.blockSize t.leaves j := by
    rw [← h.block j, List.getD_eq_getElem?_getD, hsum]
    rfl
  rw [hsumeq] at hleftlt
  obtain ⟨⟨k, left'⟩, hleaf⟩ := Option.isSome_iff_exists.1 (pick_isSome hleftlt hleft)
  have hprefix := pick_prefix hleaf hleft
  have hk : k < t.blockSize := by
    obtain ⟨-, w, hw, -⟩ := pick_eq_some hleaf hleft
    obtain ⟨hk, -⟩ := List.getElem?_eq_some_iff.1 hw
    rw [List.length_take] at hk
    omega
  have hrest : (t.leaves.take (j * t.blockSize)).sum + left = target := by
    rw [← h.sum_take_blocks hj.le]
    exact pick_rest hblock
  have htake : ∀ n, n ≤ t.blockSize → (t.leaves.take (j * t.blockSize + n)).sum =
      (t.leaves.take (j * t.blockSize)).sum + (((t.leaves.drop (j * t.blockSize)).take t.blockSize).take n).sum := by
    intro n hn
    rw [List.take_add, List.sum_append, List.take_take, Nat.min_eq_left hn]
  refine ⟨j * t.blockSize + k, ?_, ?_, ?_⟩
  · have hslot : t.slotAt target = some (j * t.blockSize + k) := by
      simp [slotAt, seek_exact, hblock, blockLeaves, hleaf]
    simp [sample, Draw.next, hne, hu, hslot]
  · rw [htake k hk.le, ← hrest]
    exact add_le_add_right hprefix.1 _
  · rw [Nat.add_assoc, htake (k + 1) hk, ← hrest]
    exact add_lt_add_right hprefix.2 _

end Exact

end BlockSumTable

end Lsf.Engine
