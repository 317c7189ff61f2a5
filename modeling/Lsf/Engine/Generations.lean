import Lsf.Engine.Outline
import Mathlib.Algebra.Order.BigOperators.Group.Finset

/-!
# Generations of seeds

Entries that own no edge and are not in the diversity window are counted by every pass. When such entries come in
generations that are large enough, each `chore` is a pass, so that a generation is counted from its first `chore` on and
goes at the one after `cullAfter` of them (`Ready.mem_left`), whatever else the engine has; what is shielded stays.
-/

namespace Lsf.Engine

open Lsf.Core Lsf.Lib Lsf.Cov Lsf.Feedback

namespace Outline

/-- The entries that no pass is bad for. -/
def shield (o : Outline) : Finset ID := o.bestEdges.getBestEntries ∪ o.diversity.entries.toFinset

def add (o : Outline) (ids : Finset ID) : Outline := { o with ids := o.ids ∪ ids }

def chore (o : Outline) : Outline := if o.minimizes then o.minimize else o

end Outline

/-- Generations up to the `last`: they are disjoint, none has a shielded entry, and each is large enough for a pass
against all that may have come before it. -/
structure Generations (shield kept : Finset ID) (A : Nat → Finset ID) (last : Nat) : Prop where
  shielded : kept ⊆ shield
  bad : ∀ j ≤ last, Disjoint (A j) shield
  disjoint : ∀ i ≤ last, ∀ j ≤ last, i ≠ j → Disjoint (A i) (A j)
  large : ∀ j ≤ last, RawEngine.gcMinAbsolute ≤ (A j).card
  grown : ∀ j ≤ last, kept.card + ∑ i ∈ Finset.range j, (A i).card ≤ 5 * (A j).card

/-- Generation `n` waits for its first pass, and those before it that had no more than `cullAfter` of them are there. -/
structure Ready (shield kept : Finset ID) (A : Nat → Finset ID) (last n : Nat) (o : Outline) : Prop where
  shield : o.shield = shield
  ids : ∀ id, id ∈ o.ids ↔ id ∈ kept ∨ ∃ j ≤ n, n ≤ j + cullAfter.toNat ∧ id ∈ A j
  counts : ∀ j ≤ last, ∀ id ∈ A j, o.counts id =
    if j < n ∧ n ≤ j + cullAfter.toNat then some (UInt8.ofNat (n - 1 - j)) else none
  size : o.sizeAtLastReset ≤ (o.ids \ A n).card

namespace Ready

variable {shield kept : Finset ID} {A : Nat → Finset ID} {last n j : Nat} {o : Outline} {id : ID}

/-- A generation is there or not as a whole. -/
theorem mem_ids_iff (hA : Generations shield kept A last) (h : Ready shield kept A last n o) (hn : n ≤ last)
    (hj : j ≤ last) (hid : id ∈ A j) : id ∈ o.ids ↔ j ≤ n ∧ n ≤ j + cullAfter.toNat := by
  rw [h.ids]
  constructor
  · rintro (hkept | ⟨i, hi, hage, hin⟩)
    · exact absurd (hA.shielded hkept) (Finset.disjoint_left.1 (hA.bad j hj) hid)
    · obtain rfl : i = j := by
        by_contra hne
        exact Finset.disjoint_left.1 (hA.disjoint i (hi.trans hn) j hj hne) hin hid
      exact ⟨hi, hage⟩
  · rintro ⟨hi, hage⟩
    exact .inr ⟨j, hi, hage, hid⟩

theorem mem_bad_iff (hA : Generations shield kept A last) (h : Ready shield kept A last n o) (hj : j ≤ last)
    (hid : id ∈ A j) : id ∈ o.bad ↔ id ∈ o.ids := by
  have hshield : id ∉ o.shield := h.shield ▸ Finset.disjoint_left.1 (hA.bad j hj) hid
  exact Finset.mem_sdiff.trans (and_iff_left hshield)

/-- The next count of a generation is the number of passes that it has had. -/
theorem toNat_nextCount (h : Ready shield kept A last n o) (hj : j ≤ last) (hid : id ∈ A j) (hle : j ≤ n)
    (hage : n ≤ j + cullAfter.toNat) : (GreedyCoverage.nextCount (o.counts id)).toNat = n - j := by
  have hcull : cullAfter.toNat = 5 := rfl
  rw [h.counts j hj id hid]
  unfold GreedyCoverage.nextCount
  split
  · rename_i hlt
    simp only [Option.map_some, Option.getD_some, UInt8.toNat_add, UInt8.toNat_ofNat', UInt8.reduceToNat]
    omega
  · rename_i hnot
    have hsame : n - j = 0 := by omega
    rw [hsame]
    rfl

/-- **A pass is due.** -/
theorem minimizes (hA : Generations shield kept A last) (h : Ready shield kept A last n o) (hn : n ≤ last) :
    o.minimizes = true := by
  have hsub : A n ⊆ o.ids := by
    intro id hid
    exact (h.mem_ids_iff hA hn hn hid).2 ⟨le_rfl, Nat.le_add_right _ _⟩
  have hcard := Finset.card_sdiff_add_card_eq_card hsub
  have hold : (o.ids \ A n).card ≤ kept.card + ∑ i ∈ Finset.range n, (A i).card := by
    have hbefore : o.ids \ A n ⊆ kept ∪ (Finset.range n).biUnion A := by
      intro id hid
      obtain ⟨hin, hnot⟩ := Finset.mem_sdiff.1 hid
      rcases (h.ids id).1 hin with hkept | ⟨j, hj, -, hmem⟩
      · exact Finset.mem_union_left _ hkept
      · have hne : j ≠ n := by
          rintro rfl
          exact hnot hmem
        exact Finset.mem_union_right _ (Finset.mem_biUnion.2 ⟨j, Finset.mem_range.2 (by omega), hmem⟩)
    calc (o.ids \ A n).card ≤ (kept ∪ (Finset.range n).biUnion A).card := Finset.card_le_card hbefore
      _ ≤ kept.card + ((Finset.range n).biUnion A).card := Finset.card_union_le _ _
      _ ≤ kept.card + ∑ i ∈ Finset.range n, (A i).card := Nat.add_le_add_left Finset.card_biUnion_le _
  have hlarge := hA.large n hn
  have hgrown := hA.grown n hn
  have hsize := h.size
  have hnew : (A n).card ≤ o.ids.card - o.sizeAtLastReset := by omega
  unfold Outline.minimizes RawEngine.hasGrown
  simp only [decide_eq_true_eq]
  refine ⟨?_, hlarge.trans hnew⟩
  split
  · rw [decide_eq_true_eq]
    unfold RawEngine.gcMinAbsolute at hlarge
    omega
  · rename_i hne
    have hpos : (0 : ℚ) < o.sizeAtLastReset := by exact_mod_cast Nat.pos_of_ne_zero hne
    have hle : (o.sizeAtLastReset : ℚ) ≤ 5 * ((o.ids.card - o.sizeAtLastReset : Nat) : ℚ) := by
      have : o.sizeAtLastReset ≤ 5 * (o.ids.card - o.sizeAtLastReset) := by omega
      exact_mod_cast this
    rw [decide_eq_true_eq]
    unfold RawEngine.gcAt
    rw [le_div_iff₀ hpos]
    linarith

/-- **What a pass leaves**: a generation goes at the pass after `cullAfter` of them. -/
theorem mem_left (hA : Generations shield kept A last) (h : Ready shield kept A last n o) (hn : n ≤ last) :
    id ∈ o.left ↔ id ∈ kept ∨ ∃ j ≤ n, n < j + cullAfter.toNat ∧ id ∈ A j := by
  have hcull : cullAfter.toNat = 5 := rfl
  unfold Outline.left
  rw [Finset.mem_filter, h.ids]
  constructor
  · rintro ⟨hkept | ⟨j, hj, hage, hmem⟩, hcount⟩
    · exact .inl hkept
    · have hin : id ∈ o.ids := (h.ids id).2 (.inr ⟨j, hj, hage, hmem⟩)
      have hlt := hcount ((h.mem_bad_iff hA (hj.trans hn) hmem).2 hin)
      rw [UInt8.lt_iff_toNat_lt, h.toNat_nextCount (hj.trans hn) hmem hj hage] at hlt
      exact .inr ⟨j, hj, by omega, hmem⟩
  · rintro (hkept | ⟨j, hj, hage, hmem⟩)
    · refine ⟨.inl hkept, fun hbad => ?_⟩
      have hshield : id ∈ o.shield := h.shield ▸ hA.shielded hkept
      exact absurd hshield (Finset.mem_sdiff.1 hbad).2
    · refine ⟨.inr ⟨j, hj, hage.le, hmem⟩, fun _ => ?_⟩
      rw [UInt8.lt_iff_toNat_lt, h.toNat_nextCount (hj.trans hn) hmem hj hage.le]
      omega

/-- **A generation goes as a whole** at the pass after `cullAfter` of them. -/
theorem goes (hA : Generations shield kept A last) (h : Ready shield kept A last n o) (hn : n ≤ last)
    (hage : n = j + cullAfter.toNat) (hid : id ∈ A j) : id ∈ o.ids ∧ id ∉ o.chore.ids := by
  have hj : j ≤ n := hage ▸ Nat.le_add_right _ _
  constructor
  · exact (h.mem_ids_iff hA hn (hj.trans hn) hid).2 ⟨hj, hage.le⟩
  · intro hleft
    have hchore : o.chore = o.minimize := if_pos (h.minimizes hA hn)
    rw [hchore] at hleft
    rcases (h.mem_left hA hn).1 hleft with hkept | ⟨i, hi, hyoung, hmem⟩
    · exact Finset.disjoint_left.1 (hA.bad j (hj.trans hn)) hid (hA.shielded hkept)
    · obtain rfl : i = j := by
        by_contra hne
        exact Finset.disjoint_left.1 (hA.disjoint i (hi.trans hn) j (hj.trans hn) hne) hmem hid
      omega

/-- **A pass, and the next generation comes in.** -/
theorem add_chore (hA : Generations shield kept A last) (h : Ready shield kept A last n o) (hn : n < last) :
    Ready shield kept A last (n + 1) (o.chore.add (A (n + 1))) := by
  have hcull : cullAfter.toNat = 5 := rfl
  have hchore : o.chore = o.minimize := if_pos (h.minimizes hA hn.le)
  rw [hchore]
  constructor
  · exact h.shield
  · intro id
    show id ∈ o.left ∪ A (n + 1) ↔ _
    rw [Finset.mem_union, h.mem_left hA hn.le]
    constructor
    · rintro ((hkept | ⟨j, hj, hage, hmem⟩) | hmem)
      · exact .inl hkept
      · exact .inr ⟨j, by omega, hage, hmem⟩
      · exact .inr ⟨n + 1, le_rfl, Nat.le_add_right _ _, hmem⟩
    · rintro (hkept | ⟨j, hj, hage, hmem⟩)
      · exact .inl (.inl hkept)
      · rcases Nat.lt_or_eq_of_le hj with hlt | rfl
        · exact .inl (.inr ⟨j, by omega, hage, hmem⟩)
        · exact .inr hmem
  · intro j hj id hid
    show (if id ∈ o.bad then GreedyCoverage.keptCount (o.counts id) else o.counts id) = _
    have hbad := (h.mem_bad_iff hA hj hid).trans (h.mem_ids_iff hA hn.le hj hid)
    by_cases hthere : j ≤ n ∧ n ≤ j + cullAfter.toNat
    · -- the generation is counted, or goes
      have hnext := h.toNat_nextCount hj hid hthere.1 hthere.2
      rw [if_pos (hbad.2 hthere)]
      unfold GreedyCoverage.keptCount
      have hge : GreedyCoverage.nextCount (o.counts id) ≥ cullAfter ↔ 5 ≤ n - j := by
        rw [ge_iff_le, UInt8.le_iff_toNat_le, hnext, hcull]
      by_cases hlast : 5 ≤ n - j
      · rw [if_pos (hge.2 hlast), if_neg (by omega)]
      · rw [if_neg (mt hge.1 hlast), if_pos (by omega)]
        refine congrArg some (UInt8.toNat_inj.1 ?_)
        rw [hnext, UInt8.toNat_ofNat']
        omega
    · rw [if_neg (mt hbad.1 hthere), h.counts j hj id hid, if_neg (by omega), if_neg (by omega)]
  · show o.left.card ≤ ((o.left ∪ A (n + 1)) \ A (n + 1)).card
    apply Finset.card_le_card
    intro id hid
    refine Finset.mem_sdiff.2 ⟨Finset.mem_union_left _ hid, ?_⟩
    intro hnew
    have hold := (h.mem_ids_iff hA hn.le hn hnew).1 (Finset.mem_filter.1 hid).1
    omega

/-- The first generation comes to an engine that has not counted anything. -/
theorem zero {ids : Finset ID} (hshield : o.shield = shield) (hids : o.ids ∪ ids = kept ∪ A 0)
    (hcounts : ∀ id, o.counts id = none) (hsize : o.sizeAtLastReset = 0) :
    Ready shield kept A last 0 (o.add ids) where
  shield := hshield
  ids id := by
    show id ∈ o.ids ∪ ids ↔ _
    rw [hids, Finset.mem_union]
    refine or_congr_right ⟨fun hid => ⟨0, le_rfl, Nat.zero_le _, hid⟩, ?_⟩
    rintro ⟨j, hj, -, hid⟩
    rwa [Nat.le_zero.1 hj] at hid
  counts j _ id _ := (hcounts id).trans (if_neg (by omega)).symm
  size := hsize.trans_le (Nat.zero_le _)

end Ready

/-! ## Sessions -/

namespace Session

variable {M Stmt : Type} [Hasher Stmt] [FloatFns ℚ] [MutationStrategy M Stmt] {shield kept : Finset ID}
  {A : Nat → Finset ID} {last : Nat}

theorem exists_step_chore (order : HashOrder ID) (s : MemSession M Stmt) :
    ∃ e, s.step (.chore order) = some { s with engine := e } ∧ e.outline = s.engine.outline.chore := by
  obtain ⟨e, hchore, houtline⟩ := RawEngine.outline_chore order s.engine
  exact ⟨e, congrArg (Option.map _) hchore, houtline⟩

theorem exists_step_populate (seeds : List (CorpusEntry Stmt)) (s : MemSession M Stmt) :
    ∃ e, s.step (.populate [seeds]) = some { s with engine := e } ∧
      e.outline = s.engine.outline.add (seeds.map CorpusEntry.id).toFinset := by
  obtain ⟨e, hpopulate, houtline⟩ := RawEngine.outline_populate seeds s.engine
  exact ⟨e, congrArg (Option.map _) hpopulate, houtline⟩

/-- One generation after the other, with a `chore` before each but the first. -/
def generations (order : HashOrder ID) (seeds : Nat → List (CorpusEntry Stmt)) (n : Nat) : List (Op M Stmt) :=
  .populate [seeds 0] :: (List.range n).flatMap fun k => [.chore order, .populate [seeds (k + 1)]]

/-- **The run of the generations** comes to its end, and the last of them waits for its first pass. -/
theorem exists_run_generations (hA : Generations shield kept A last) (order : HashOrder ID)
    (seeds : Nat → List (CorpusEntry Stmt)) (hseeds : ∀ k, A (k + 1) = ((seeds (k + 1)).map CorpusEntry.id).toFinset)
    {s : MemSession M Stmt} (hshield : s.engine.outline.shield = shield)
    (hids : s.engine.outline.ids ∪ ((seeds 0).map CorpusEntry.id).toFinset = kept ∪ A 0)
    (hcounts : ∀ id, s.engine.outline.counts id = none) (hsize : s.engine.outline.sizeAtLastReset = 0) {n : Nat}
    (hn : n ≤ last) :
    ∃ e, run step s (generations order seeds n) = some { s with engine := e } ∧
      Ready shield kept A last n e.outline := by
  induction n with
  | zero =>
    obtain ⟨e, hpopulate, houtline⟩ := exists_step_populate (seeds 0) s
    refine ⟨e, run_cons_eq_some.2 ⟨_, hpopulate, rfl⟩, ?_⟩
    rw [houtline]
    exact Ready.zero hshield hids hcounts hsize
  | succ n ih =>
    obtain ⟨e, hrun, hready⟩ := ih (Nat.le_of_succ_le hn)
    obtain ⟨e₁, hchore, houtline₁⟩ := exists_step_chore order { s with engine := e }
    obtain ⟨e₂, hpopulate, houtline₂⟩ := exists_step_populate (seeds (n + 1)) { s with engine := e₁ }
    refine ⟨e₂, ?_, ?_⟩
    · unfold generations at hrun ⊢
      rw [List.range_succ, List.flatMap_append, ← List.cons_append, run_append, hrun]
      exact run_cons_eq_some.2 ⟨_, hchore, run_cons_eq_some.2 ⟨_, hpopulate, rfl⟩⟩
    · rw [houtline₂, houtline₁, ← hseeds n]
      exact hready.add_chore hA hn

end Session

/-! ## Generations that double -/

/-- A hundred seeds, then two hundred, and so on. -/
def doubling (k : Nat) : List (CorpusEntry Nat) :=
  (List.range' (100 * 2 ^ k) (100 * 2 ^ k)).map fun i => ⟨⟨⟨UInt32.ofNat i⟩, [], []⟩, .default⟩

def doublingIds (k : Nat) : Finset ID := ((doubling k).map CorpusEntry.id).toFinset

theorem mem_doublingIds {k : Nat} (hk : k ≤ 5) {id : ID} :
    id ∈ doublingIds k ↔ 100 * 2 ^ k ≤ id.raw.toNat ∧ id.raw.toNat < 100 * 2 ^ (k + 1) := by
  have hpow : 2 ^ k ≤ 2 ^ 5 := Nat.pow_le_pow_right (by omega) hk
  unfold doublingIds doubling
  rw [List.mem_toFinset, List.map_map, List.mem_map]
  constructor
  · rintro ⟨i, hi, rfl⟩
    rw [List.mem_range'_1] at hi
    have hval : (UInt32.ofNat i).toNat = i := Nat.mod_eq_of_lt (by omega)
    show 100 * 2 ^ k ≤ (UInt32.ofNat i).toNat ∧ (UInt32.ofNat i).toNat < _
    rw [hval, pow_succ]
    omega
  · rintro ⟨hlo, hhi⟩
    rw [pow_succ] at hhi
    refine ⟨id.raw.toNat, List.mem_range'_1.2 ⟨hlo, by omega⟩, ?_⟩
    show (⟨UInt32.ofNat id.raw.toNat⟩ : ID) = id
    rw [UInt32.ofNat_toNat]

theorem nodup_doubling {k : Nat} (hk : k ≤ 5) : ((doubling k).map CorpusEntry.id).Nodup := by
  have hpow : 2 ^ k ≤ 2 ^ 5 := Nat.pow_le_pow_right (by omega) hk
  unfold doubling
  rw [List.map_map]
  refine List.Nodup.map_on (fun i hi j hj heq => ?_) (List.nodup_range' ..)
  rw [List.mem_range'_1] at hi hj
  have hraw := congrArg (fun id : ID => id.raw.toNat) heq
  change i % 2 ^ 32 = j % 2 ^ 32 at hraw
  omega

theorem card_doublingIds {k : Nat} (hk : k ≤ 5) : (doublingIds k).card = 100 * 2 ^ k := by
  unfold doublingIds
  rw [List.toFinset_card_of_nodup (nodup_doubling hk), doubling, List.length_map, List.length_map, List.length_range']

/-- The first generation has some others with it. -/
def joined (others : Finset ID) (k : Nat) : Finset ID := if k = 0 then others ∪ doublingIds 0 else doublingIds k

theorem joined_zero (others : Finset ID) : joined others 0 = others ∪ doublingIds 0 :=
  if_pos rfl

theorem joined_succ (others : Finset ID) (k : Nat) : joined others (k + 1) = doublingIds (k + 1) :=
  if_neg (Nat.succ_ne_zero k)

theorem card_joined (others : Finset ID) {k : Nat} (hk : k ≤ 5) :
    100 * 2 ^ k ≤ (joined others k).card ∧ (joined others k).card ≤ (if k = 0 then others.card else 0) + 100 * 2 ^ k := by
  unfold joined
  split
  · rename_i hzero
    subst hzero
    rw [← card_doublingIds hk]
    exact ⟨Finset.card_le_card Finset.subset_union_right, Finset.card_union_le _ _⟩
  · rw [card_doublingIds hk]
    omega

/-- All that comes before a generation is less than the generation itself. -/
theorem sum_card_joined (others : Finset ID) {k : Nat} (hk : k ≤ 5) :
    ∑ i ∈ Finset.range k, (joined others i).card + 100 ≤ others.card + 100 * 2 ^ k := by
  induction k with
  | zero => simp
  | succ k ih =>
    have hle := (card_joined others (k := k) (by omega)).2
    rw [Finset.sum_range_succ, pow_succ]
    by_cases hzero : k = 0
    · subst hzero
      rw [if_pos rfl] at hle
      simp only [Finset.range_zero, Finset.sum_empty]
      omega
    · have hsum := ih (by omega)
      rw [if_neg hzero] at hle
      omega

theorem le_of_mem_doublingIds {k : Nat} (hk : k ≤ 5) {id : ID} (hid : id ∈ doublingIds k) : 100 ≤ id.raw.toNat :=
  (Nat.le_mul_of_pos_right 100 (Nat.two_pow_pos k)).trans ((mem_doublingIds hk).1 hid).1

theorem disjoint_joined {others : Finset ID} (hothers : ∀ id ∈ others, id.raw.toNat < 100) {i j : Nat} (hj : j ≤ 5)
    (hlt : i < j) : Disjoint (joined others i) (joined others j) := by
  rw [Finset.disjoint_left]
  intro id hid hid'
  rw [joined, if_neg (by omega)] at hid'
  have hge := ((mem_doublingIds hj).1 hid').1
  have hpow : 2 ^ (i + 1) ≤ 2 ^ j := Nat.pow_le_pow_right (by omega) hlt
  by_cases hzero : i = 0
  · rw [joined, if_pos hzero, Finset.mem_union] at hid
    rcases hid with hid | hid
    · exact absurd (hothers id hid) (not_lt.2 (le_of_mem_doublingIds hj hid'))
    · have hless := ((mem_doublingIds (by omega)).1 hid).2
      rw [hzero] at hpow
      omega
  · rw [joined, if_neg hzero] at hid
    have hless := ((mem_doublingIds (by omega)).1 hid).2
    omega

/-- Generations that double are large enough, with a few others before them. -/
theorem generations_joined {shield kept others : Finset ID} (hkept : kept ⊆ shield)
    (hshield : ∀ id ∈ shield, id.raw.toNat < 100) (hothers : ∀ id ∈ others, id.raw.toNat < 100)
    (hdisjoint : Disjoint others shield) (hcard : kept.card + others.card ≤ 100) :
    Generations shield kept (joined others) 5 where
  shielded := hkept
  bad j hj := by
    rw [Finset.disjoint_left]
    intro id hid hin
    have hlt := hshield id hin
    unfold joined at hid
    split at hid
    · rcases Finset.mem_union.1 hid with hid | hid
      · exact Finset.disjoint_left.1 hdisjoint hid hin
      · exact absurd hlt (not_lt.2 (le_of_mem_doublingIds (by omega) hid))
    · exact absurd hlt (not_lt.2 (le_of_mem_doublingIds hj hid))
  disjoint i hi j hj hne := by
    rcases Nat.lt_or_gt_of_ne hne with hlt | hlt
    · exact disjoint_joined hothers hj hlt
    · exact (disjoint_joined hothers hi hlt).symm
  large j hj := (Nat.le_mul_of_pos_right 100 (Nat.two_pow_pos j)).trans (card_joined others hj).1
  grown j hj := by
    have hbefore := sum_card_joined others hj
    have hcardj := (card_joined others hj).1
    omega

end Lsf.Engine
