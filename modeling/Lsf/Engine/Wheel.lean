import Lsf.Engine.BlockSum
import Lsf.Lib.Run
import Mathlib.Data.Finset.Insert

/-!
# The table as a roulette wheel

A run of `BlockSumTable` with the slots that are live: those that were handed out and not removed since. `IsWheel` is
what the table is for. Its sums are the sums of the leaves, the free slots are those that weigh nothing, and every point
below the total is sampled as on the plain wheel of the leaves. In exact arithmetic it holds after every run
(`isWheel_of_run`).
-/

namespace Lsf.Engine

open Lsf.Core Lsf.Lib Lsf.Feedback

/-- A table with the slots that are live. -/
structure WheelRun where
  table : BlockSumTable
  live : Finset Nat

inductive WheelOp where
  | insert (weight : ℚ)
  | push (weight : ℚ)
  | update (slot : Nat) (weight : ℚ)
  | remove (slot : Nat)
  | resum

namespace WheelRun

attribute [local instance] Rounding.exact

def new (initialCapacity : Nat) : WheelRun := ⟨.new initialCapacity, ∅⟩

def step (s : WheelRun) : WheelOp → Option WheelRun
  | .insert weight => (s.table.insert weight).map fun (slot, table) => ⟨table, insert slot s.live⟩
  | .push weight => (s.table.push weight).map fun (slot, table) => ⟨table, insert slot s.live⟩
  | .update slot weight => (s.table.update slot weight).map fun table => ⟨table, s.live⟩
  | .remove slot => (s.table.remove slot).map fun table => ⟨table, s.live.erase slot⟩
  | .resum => some ⟨s.table.resum, s.live⟩

/-- Weights are in their range, and only live slots are updated and removed. -/
def Proper (s : WheelRun) : WheelOp → Prop
  | .insert weight => minWeight ℚ ≤ weight ∧ weight ≤ maxWeight ℚ
  | .push weight => minWeight ℚ ≤ weight ∧ weight ≤ maxWeight ℚ
  | .update slot weight => slot ∈ s.live ∧ minWeight ℚ ≤ weight ∧ weight ≤ maxWeight ℚ
  | .remove slot => slot ∈ s.live
  | .resum => True

instance (s : WheelRun) : ∀ op, Decidable (s.Proper op)
  | .insert weight => inferInstanceAs (Decidable (minWeight ℚ ≤ weight ∧ weight ≤ maxWeight ℚ))
  | .push weight => inferInstanceAs (Decidable (minWeight ℚ ≤ weight ∧ weight ≤ maxWeight ℚ))
  | .update slot weight => inferInstanceAs (Decidable (slot ∈ s.live ∧ minWeight ℚ ≤ weight ∧ weight ≤ maxWeight ℚ))
  | .remove slot => inferInstanceAs (Decidable (slot ∈ s.live))
  | .resum => isTrue trivial

/-- The point `target` lies in the slot `i` of the plain wheel. -/
def LiesIn (leaves : List ℚ) (target : ℚ) (i : Nat) : Prop :=
  (leaves.take i).sum ≤ target ∧ target < (leaves.take (i + 1)).sum

/-- **The table is the wheel of its leaves.** -/
structure IsWheel (s : WheelRun) : Prop where
  blocks : ∀ (b : Nat) sum, s.table.blocks[b]? = some sum →
    sum = ((s.table.leaves.drop (b * s.table.blockSize)).take s.table.blockSize).sum
  total : s.table.totalSum = s.table.leaves.sum
  free : ∀ i, i ∈ s.table.freeSlots ↔ s.table.leaves[i]? = some 0
  nodup : s.table.freeSlots.Nodup
  total_pos : s.live.Nonempty → 0 < s.table.totalSum
  drawn : ∀ target, 0 ≤ target → target < s.table.totalSum → ∃ u : Draw, u.randomPoint s.table.totalSum = some target
  sample : ∀ (u : Draw) target draws, u.randomPoint s.table.totalSum = some target →
    ∃ i table, s.table.sample (u :: draws) = some (some i, table, draws) ∧ LiesIn s.table.leaves target i ∧
      (∀ j, LiesIn s.table.leaves target j → j = i) ∧ i ∈ s.live ∧ i ∉ s.table.freeSlots ∧
      table.fallThrough = s.table.fallThrough

/-! ## The invariant -/

/-- Sums are sums, a slot is free or live, and only free slots weigh nothing. -/
structure Kept (s : WheelRun) : Prop where
  summed : s.table.Summed
  free : ∀ i, i ∈ s.table.freeSlots ↔ s.table.leaves[i]? = some 0
  nodup : s.table.freeSlots.Nodup
  live : ∀ i, i ∈ s.live ↔ ∃ w, s.table.leaves[i]? = some w ∧ 0 < w
  nonneg : ∀ w ∈ s.table.leaves, 0 ≤ w

variable {s : WheelRun} {slot : Nat} {weight : ℚ}

theorem Kept.new {initialCapacity : Nat} (h : 1 ≤ initialCapacity) : Kept (new initialCapacity) where
  summed := .new h
  free := by simp [WheelRun.new, BlockSumTable.new]
  nodup := List.nodup_nil
  live := by simp [WheelRun.new, BlockSumTable.new]
  nonneg := by simp [WheelRun.new, BlockSumTable.new]

theorem Kept.isWheel (h : Kept s) : IsWheel s where
  blocks b sum hb := by
    rw [← blockSum, ← h.summed.block b, List.getD_eq_getElem?_getD, hb]
    rfl
  total := h.summed.totalSum_eq
  free := h.free
  nodup := h.nodup
  total_pos := by
    rintro ⟨i, hi⟩
    obtain ⟨w, hw, hpos⟩ := (h.live i).1 hi
    rw [h.summed.totalSum_eq]
    exact hpos.trans_le (List.single_le_sum h.nonneg w (List.mem_of_getElem? hw))
  drawn _ h0 hlt := Draw.exists_randomPoint h0 hlt
  sample u target draws hu := by
    obtain ⟨i, heq, hprefix⟩ := h.summed.sample_prefix hu draws
    obtain ⟨w, hw, hpos⟩ := exists_pos_of_prefix hprefix
    refine ⟨i, _, heq, hprefix, fun j hj => prefix_unique h.nonneg hj hprefix, (h.live i).2 ⟨w, hw, hpos⟩, ?_, rfl⟩
    intro hfree
    rw [(h.free i).1 hfree] at hw
    cases hw
    exact lt_irrefl 0 hpos

/-! ## One operation -/

theorem minWeight_pos : (0 : ℚ) < minWeight ℚ := by
  unfold minWeight
  norm_num

theorem clampWeight_eq (h : minWeight ℚ ≤ weight ∧ weight ≤ maxWeight ℚ) : clampWeight weight = weight := by
  unfold clampWeight
  rw [max_eq_left h.1, min_eq_left h.2]

/-- A table in which one slot got a weight, or lost it. -/
theorem Kept.set (h : Kept s) {table : BlockSumTable} {live : Finset Nat} (hslot : slot < s.table.leaves.length)
    (hweight : 0 ≤ weight) (hsummed : table.Summed) (hleaves : table.leaves = s.table.leaves.set slot weight)
    (hfree : ∀ i, i ∈ table.freeSlots ↔ if i = slot then weight = 0 else i ∈ s.table.freeSlots)
    (hnodup : table.freeSlots.Nodup) (hlive : ∀ i, i ∈ live ↔ if i = slot then 0 < weight else i ∈ s.live) :
    Kept ⟨table, live⟩ where
  summed := hsummed
  nodup := hnodup
  free i := by
    rw [hfree i]
    show _ ↔ table.leaves[i]? = some 0
    rw [hleaves, List.getElem?_set]
    by_cases hi : i = slot
    · simp [hi, hslot]
    · rw [if_neg hi, if_neg (Ne.symm hi), h.free i]
  live i := by
    rw [hlive i]
    show _ ↔ ∃ w, table.leaves[i]? = some w ∧ 0 < w
    rw [hleaves, List.getElem?_set]
    by_cases hi : i = slot
    · simp [hi, hslot]
    · rw [if_neg hi, if_neg (Ne.symm hi), h.live i]
  nonneg w hw := by
    change w ∈ table.leaves at hw
    rw [hleaves] at hw
    rcases List.mem_or_eq_of_mem_set hw with hw | rfl
    · exact h.nonneg w hw
    · exact hweight

/-- A table with one more slot. -/
theorem Kept.snoc (h : Kept s) {table : BlockSumTable} (hweight : 0 < weight) (hsummed : table.Summed)
    (hleaves : table.leaves = s.table.leaves ++ [weight]) (hfree : table.freeSlots = s.table.freeSlots) :
    Kept ⟨table, insert s.table.leaves.length s.live⟩ where
  summed := hsummed
  nodup := hfree ▸ h.nodup
  free i := by
    show i ∈ table.freeSlots ↔ table.leaves[i]? = some 0
    rw [hfree, h.free i, hleaves, List.getElem?_append]
    split
    · rfl
    · rename_i hi
      rw [List.getElem?_eq_none (not_lt.1 hi), List.getElem?_singleton]
      split <;> simp [hweight.ne']
  live i := by
    show i ∈ insert _ s.live ↔ ∃ w, table.leaves[i]? = some w ∧ 0 < w
    rw [Finset.mem_insert, h.live i, hleaves, List.getElem?_append]
    split
    · rename_i hi
      exact ⟨fun hor => hor.resolve_left hi.ne, .inr⟩
    · rename_i hi
      rw [List.getElem?_eq_none (not_lt.1 hi), List.getElem?_singleton]
      split
      · have heq : i = s.table.leaves.length := by omega
        simp [heq, hweight]
      · have hne : i ≠ s.table.leaves.length := by omega
        simp [hne]
  nonneg w hw := by
    change w ∈ table.leaves at hw
    rw [hleaves, List.mem_append, List.mem_singleton] at hw
    rcases hw with hw | rfl
    · exact h.nonneg w hw
    · exact hweight.le

theorem Kept.lt_length_of_free (h : Kept s) {i : Nat} (hi : i ∈ s.table.freeSlots) : i < s.table.leaves.length :=
  (List.getElem?_eq_some_iff.1 ((h.free i).1 hi)).1

theorem Kept.lt_length_of_live (h : Kept s) {i : Nat} (hi : i ∈ s.live) : i < s.table.leaves.length := by
  obtain ⟨w, hw, -⟩ := (h.live i).1 hi
  exact (List.getElem?_eq_some_iff.1 hw).1

theorem Kept.not_free_of_live (h : Kept s) {i : Nat} (hi : i ∈ s.live) : i ∉ s.table.freeSlots := by
  intro hfree
  obtain ⟨w, hw, hpos⟩ := (h.live i).1 hi
  rw [(h.free i).1 hfree] at hw
  cases hw
  exact lt_irrefl 0 hpos

theorem Kept.push (h : Kept s) (hweight : minWeight ℚ ≤ weight ∧ weight ≤ maxWeight ℚ) :
    ∃ s', s.step (.push weight) = some s' ∧ Kept s' := by
  obtain ⟨table, heq, -, hleaves, hfree⟩ := h.summed.toFitted.push weight
  rw [clampWeight_eq hweight] at hleaves
  refine ⟨_, ?_, h.snoc (minWeight_pos.trans_le hweight.1) (h.summed.push heq) hleaves hfree⟩
  simp [step, heq]

/-- An insertion is a push, or gives the slot freed last a new life. -/
theorem Kept.insert (h : Kept s) (hweight : minWeight ℚ ≤ weight ∧ weight ≤ maxWeight ℚ) :
    ∃ s', s.step (.insert weight) = some s' ∧ Kept s' := by
  have hpos : 0 < weight := minWeight_pos.trans_le hweight.1
  have hslots : ∀ i ∈ s.table.freeSlots, i < s.table.leaves.length := fun i hi => h.lt_length_of_free hi
  obtain ⟨slot, table, heq, -, hcases⟩ := h.summed.toFitted.insert hslots weight
  have hsummed : table.Summed := h.summed.insert hslots heq
  refine ⟨⟨table, Insert.insert slot s.live⟩, by simp [step, heq], ?_⟩
  rcases hcases with ⟨hnil, rfl, hleaves, hfree⟩ | ⟨hslots, hslot, hleaves⟩
  · rw [clampWeight_eq hweight] at hleaves
    exact h.snoc hpos hsummed hleaves (hfree.trans hnil.symm)
  · have hnodup := h.nodup
    rw [hslots, List.nodup_append] at hnodup
    obtain ⟨hrest, -, hdisjoint⟩ := hnodup
    refine h.set hslot hpos.le hsummed hleaves (fun i => ?_) hrest (fun i => ?_)
    · rw [hslots]
      split
      · rename_i hi
        subst hi
        exact iff_of_false (fun hi => hdisjoint i hi i (by simp) rfl) hpos.ne'
      · rename_i hi
        simp [hi]
    · rw [Finset.mem_insert]
      split
      · rename_i hi
        exact iff_of_true (.inl hi) hpos
      · rename_i hi
        exact ⟨fun hor => hor.resolve_left hi, .inr⟩

theorem Kept.update (h : Kept s) (hslot : slot ∈ s.live) (hweight : minWeight ℚ ≤ weight ∧ weight ≤ maxWeight ℚ) :
    ∃ s', s.step (.update slot weight) = some s' ∧ Kept s' := by
  have hpos : 0 < weight := minWeight_pos.trans_le hweight.1
  have hlt := h.lt_length_of_live hslot
  obtain ⟨table, heq, -, hleaves, hfree⟩ := h.summed.toFitted.setWeigth hlt weight
  refine ⟨⟨table, s.live⟩, ?_, h.set hlt hpos.le (h.summed.setWeigth hlt heq) hleaves (fun i => ?_) (hfree ▸ h.nodup)
    (fun i => ?_)⟩
  · simp [step, BlockSumTable.update, clampWeight_eq hweight, heq]
  · rw [hfree]
    split
    · rename_i hi
      exact iff_of_false (hi ▸ h.not_free_of_live hslot) hpos.ne'
    · rfl
  · split
    · rename_i hi
      exact iff_of_true (hi ▸ hslot) hpos
    · rfl

theorem Kept.remove (h : Kept s) (hslot : slot ∈ s.live) : ∃ s', s.step (.remove slot) = some s' ∧ Kept s' := by
  have hlt := h.lt_length_of_live hslot
  have hnew := h.not_free_of_live hslot
  obtain ⟨table, heq, -, hleaves, hfree⟩ := h.summed.toFitted.remove hlt
  refine ⟨⟨table, s.live.erase slot⟩, by simp [step, heq],
    h.set hlt le_rfl (h.summed.remove hlt heq) hleaves (fun i => ?_) (hfree ▸ ?_) (fun i => ?_)⟩
  · rw [hfree, List.mem_append, List.mem_singleton]
    split
    · rename_i hi
      exact iff_of_true (.inr hi) rfl
    · rename_i hi
      exact ⟨fun hor => hor.resolve_right hi, .inl⟩
  · rw [List.nodup_append]
    refine ⟨h.nodup, List.nodup_singleton _, ?_⟩
    rintro i hi j hj rfl
    exact hnew (List.mem_singleton.1 hj ▸ hi)
  · rw [Finset.mem_erase]
    split
    · rename_i hi
      exact iff_of_false (fun hand => hand.1 hi) (lt_irrefl 0)
    · rename_i hi
      exact ⟨And.right, fun hin => ⟨hi, hin⟩⟩

/-- Every proper operation is carried out, and keeps the wheel. -/
theorem Kept.step (h : Kept s) (op : WheelOp) (hop : s.Proper op) : ∃ s', s.step op = some s' ∧ Kept s' := by
  cases op with
  | insert weight => exact h.insert hop
  | push weight => exact h.push hop
  | update slot weight => exact h.update hop.1 hop.2
  | remove slot => exact h.remove hop
  | resum => exact ⟨_, rfl, h.summed.resum, h.free, h.nodup, h.live, h.nonneg⟩

/-- **A table of any capacity is a roulette wheel after every run.** -/
theorem isWheel_of_run {initialCapacity : Nat} (hcap : 1 ≤ initialCapacity) {ops : List WheelOp}
    (hops : AllSteps WheelRun.step Proper (new initialCapacity) ops) :
    ∃ s, run WheelRun.step (new initialCapacity) ops = some s ∧ IsWheel s := by
  obtain ⟨s, hrun, hkept⟩ := exists_run (fun s op hs hop => hs.step op hop) (Kept.new hcap) hops
  exact ⟨s, hrun, hkept.isWheel⟩

/-- A run in which a slot is freed and used again. -/
theorem isWheel_of_reuse :
    ∃ s, run WheelRun.step (new 4)
      [.insert 1, .push 2, .push 200, .remove 0, .insert 3, .remove 2, .update 1 5, .resum] = some s ∧ IsWheel s :=
  isWheel_of_run (by decide) (by decide +kernel)

end WheelRun

end Lsf.Engine
