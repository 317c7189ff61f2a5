import Lsf.Engine.MabScheduler
import Lsf.Lib.Run

/-!
# Weights and places

`AdaptiveWeightedRandomScheduler` computes its weights in the order in which the corpus lists its ids, and looks up what
was drawn in the order in which its map was filled, where ids that were removed keep their places. So a weight is that of
the id at its place (`Aligned`) only while every order is a prefix of the keys of the map, which over a whole run means
that the orders of all rebuilds since the last reset are prefixes of one another (`aligned_iff_comparable`).
-/

namespace Lsf.Engine

open Lsf.Core Lsf.Lib Lsf.Feedback

namespace AdaptiveWeightedRandomScheduler

variable {s s' : AdaptiveWeightedRandomScheduler} {h h' : Bandits} {ids : List ID} {id : ID}

/-! ## What a rebuild adds -/

/-- The arms of the map exist. -/
def Fresh (s : AdaptiveWeightedRandomScheduler) (h : Bandits) : Prop :=
  ∀ p ∈ s.statMapping.entries, p.2 < h.nextArm

/-- Places are only added, and the arms that there were have the scores they had. -/
structure Grows (s : AdaptiveWeightedRandomScheduler) (h : Bandits) (s' : AdaptiveWeightedRandomScheduler)
    (h' : Bandits) [FloatFns ℚ] : Prop where
  fresh : s'.Fresh h'
  entries : s.statMapping.entries <+: s'.statMapping.entries
  nextArm : h.nextArm ≤ h'.nextArm
  score : ∀ a < h.nextArm, (h'.calculateScore a).1 = (h.calculateScore a).1

variable [FloatFns ℚ]

theorem Grows.refl (hs : s.Fresh h) : Grows s h s h := ⟨hs, List.prefix_rfl, le_rfl, fun _ _ => rfl⟩

theorem Grows.trans {t : AdaptiveWeightedRandomScheduler} {g : Bandits} (hst : Grows s h s' h')
    (htu : Grows s' h' t g) : Grows s h t g where
  fresh := htu.fresh
  entries := hst.entries.trans htu.entries
  nextArm := hst.nextArm.trans htu.nextArm
  score a ha := (htu.score a (ha.trans_le hst.nextArm)).trans (hst.score a ha)

/-- What an id had in the map it keeps. -/
theorem Grows.get {arm : ArmRef} (hg : Grows s h s' h') (hget : s.statMapping.get id = some arm) :
    s'.statMapping.get id = some arm :=
  IndexMap.get_eq_some_iff.2 (hg.entries.subset (IndexMap.get_eq_some_iff.1 hget))

/-- The turn of one id. -/
def weighOne (s : AdaptiveWeightedRandomScheduler) (id : ID) (h : Bandits) :
    ArmRef × AdaptiveWeightedRandomScheduler × Bandits :=
  let (fresh, h) := h.newArm s.body
  let (stats, statMapping) := s.statMapping.orInsert id fresh
  (stats, { s with statMapping := statMapping }, (h.calculateScore stats).2)

theorem weigh_cons (s : AdaptiveWeightedRandomScheduler) (id : ID) (ids : List ID) (h : Bandits) :
    s.weigh (id :: ids) h =
      let (stats, s₁, h₁) := s.weighOne id h
      let (scores, s₂, h₂) := s₁.weigh ids h₁
      ((h₁.calculateScore stats).1 :: scores, s₂, h₂) := by
  simp [weigh, weighOne]

theorem weighOne_grows (hs : s.Fresh h) (id : ID) : Grows s h (s.weighOne id h).2.1 (s.weighOne id h).2.2 := by
  have hlt : ∀ p ∈ s.statMapping.entries, p.2 < h.nextArm + 1 := fun p hp => (hs p hp).trans (Nat.lt_succ_self _)
  have hscore : ∀ (stats : ArmRef), ∀ a < h.nextArm,
      (((h.newArm s.body).2.calculateScore stats).2.calculateScore a).1 = (h.calculateScore a).1 := by
    intro stats a ha
    rw [Bandits.calculateScore_calculateScore, Bandits.calculateScore_newArm ha]
  unfold weighOne IndexMap.orInsert
  cases hget : s.statMapping.get id with
  | some stats => exact ⟨hlt, List.prefix_rfl, Nat.le_succ _, hscore stats⟩
  | none =>
    have hno : id ∉ s.statMapping.keys := by
      rw [IndexMap.mem_keys, hget]
      simp
    have hentries := IndexMap.entries_insert_of_notMem (v := h.nextArm) hno
    refine ⟨fun p hp => ?_, ?_, Nat.le_succ _, hscore _⟩
    · rcases List.mem_append.1 (hentries ▸ hp) with hp | hp
      · exact hlt p hp
      · rw [List.mem_singleton.1 hp]
        exact Nat.lt_succ_self _
    · exact ⟨_, hentries.symm⟩

/-- Afterwards the id is in the map, behind all keys if it was not there before. -/
theorem weighOne_spec (s : AdaptiveWeightedRandomScheduler) (id : ID) (h : Bandits) :
    (s.weighOne id h).2.1.statMapping.get id = some (s.weighOne id h).1 ∧
      (s.weighOne id h).2.1.statMapping.keys =
        s.statMapping.keys ++ if id ∈ s.statMapping.keys then [] else [id] := by
  unfold weighOne IndexMap.orInsert
  cases hget : s.statMapping.get id with
  | some stats =>
    have hmem : id ∈ s.statMapping.keys := by
      rw [IndexMap.mem_keys, hget]
      rfl
    exact ⟨hget, by simp [hmem]⟩
  | none =>
    have hno : id ∉ s.statMapping.keys := by
      rw [IndexMap.mem_keys, hget]
      simp
    constructor
    · simp [IndexMap.get_insert]
    · rw [if_neg hno]
      exact IndexMap.keys_insert_of_notMem hno

/-! ## The weights of a rebuild -/

theorem weigh_pos (s : AdaptiveWeightedRandomScheduler) {w : ℚ} (hw : w ∈ (s.weigh ids h).1) : 0 < w := by
  induction ids generalizing s h with
  | nil => cases hw
  | cons id ids ih =>
    rw [weigh_cons] at hw
    rcases List.mem_cons.1 hw with rfl | hw
    · apply lt_of_lt_of_le _ (Bandits.minWeight_le_calculateScore _ _)
      norm_num [minWeight]
    · exact ih _ hw

theorem weigh_grows (hs : s.Fresh h) (ids : List ID) : Grows s h (s.weigh ids h).2.1 (s.weigh ids h).2.2 := by
  induction ids generalizing s h with
  | nil => exact .refl hs
  | cons id ids ih =>
    have hone := weighOne_grows hs id
    rw [weigh_cons]
    exact hone.trans (ih hone.fresh)

theorem length_weigh (s : AdaptiveWeightedRandomScheduler) (ids : List ID) (h : Bandits) :
    (s.weigh ids h).1.length = ids.length := by
  induction ids generalizing s h with
  | nil => rfl
  | cons id ids ih =>
    rw [weigh_cons, List.length_cons, List.length_cons, ih]

/-- The keys that are new come in the order of the ids. -/
theorem keys_weigh (s : AdaptiveWeightedRandomScheduler) (h : Bandits) (hids : ids.Nodup) :
    (s.weigh ids h).2.1.statMapping.keys = s.statMapping.keys ++ ids.filter (· ∉ s.statMapping.keys) := by
  induction ids generalizing s h with
  | nil => exact (List.append_nil _).symm
  | cons id ids ih =>
    obtain ⟨hid, hids⟩ := List.nodup_cons.1 hids
    obtain ⟨-, hkeys⟩ := s.weighOne_spec id h
    rw [weigh_cons]
    dsimp only
    rw [ih _ _ hids, hkeys]
    by_cases hmem : id ∈ s.statMapping.keys
    · simp [hmem]
    · have hfilter : ids.filter (· ∉ s.statMapping.keys ++ [id]) = ids.filter (· ∉ s.statMapping.keys) := by
        apply List.filter_congr
        intro j hj
        have hne : j ≠ id := fun heq => hid (heq ▸ hj)
        simp [hne]
      rw [if_neg hmem, hfilter, List.filter_cons_of_pos (by simpa using hmem), List.append_assoc]
      rfl

/-- **The weight at a place of the order** is the score of the arm that the id there has in the map. -/
theorem weigh_getElem? (hs : s.Fresh h) {i : Nat} (hi : ids[i]? = some id) :
    ∃ arm, (s.weigh ids h).2.1.statMapping.get id = some arm ∧
      (s.weigh ids h).1[i]? = some ((s.weigh ids h).2.2.calculateScore arm).1 := by
  induction ids generalizing s h i with
  | nil => cases hi
  | cons id' ids ih =>
    have hone := weighOne_grows hs id'
    have hrest := weigh_grows hone.fresh ids
    rw [weigh_cons]
    cases i with
    | zero =>
      cases hi
      obtain ⟨hget, -⟩ := s.weighOne_spec id h
      refine ⟨_, hrest.get hget, ?_⟩
      have hlt := hone.fresh _ (IndexMap.get_eq_some_iff.1 hget)
      exact congrArg some (hrest.score _ hlt).symm
    | succ i => exact ih hone.fresh hi

/-- The weights of a rebuild are the scores. -/
theorem rebuild_spec (hdue : s.dist.isNone ∨ h.epoch s.body % granularity = 0)
    (hb : s.rebuild ids h = some (s', h')) :
    ∃ dist, s'.dist = some dist ∧ dist.weights = (s.weigh ids h).1 ∧
      s'.statMapping = (s.weigh ids h).2.1.statMapping ∧ h' = (s.weigh ids h).2.2 := by
  unfold rebuild at hb
  rw [if_pos hdue] at hb
  obtain ⟨dist, hdist, hb⟩ := Option.bind_eq_some_iff.1 hb
  cases hb
  exact ⟨dist, rfl, WeightedIndex.weights_newOrEqual (fun w hw => s.weigh_pos hw) hdist, rfl, rfl⟩

/-- A rebuild is only made where there are ids. -/
theorem exists_rebuild (hids : ids ≠ []) : ∃ s' h', s.rebuild ids h = some (s', h') := by
  unfold rebuild
  split
  · have hne : (s.weigh ids h).1 ≠ [] := by
      rw [← List.length_pos_iff, length_weigh, List.length_pos_iff]
      exact hids
    obtain ⟨dist, hdist⟩ := WeightedIndex.exists_newOrEqual hne
    simp [hdist]
  · exact ⟨_, _, rfl⟩

/-! ## When the weights are aligned -/

omit [FloatFns ℚ] in
theorem append_filter_notMem {keys : List ID} (hlead : keys <+: ids) (hids : ids.Nodup) :
    keys ++ ids.filter (· ∉ keys) = ids := by
  obtain ⟨rest, rfl⟩ := hlead
  have hdisjoint := (List.nodup_append'.1 hids).2.2
  have hold : keys.filter (· ∉ keys) = [] := by simp
  have hnew : rest.filter (· ∉ keys) = rest := by
    rw [List.filter_eq_self]
    intro id hid
    simpa using fun hmem => hdisjoint hmem hid
  rw [List.filter_append, hold, hnew, List.nil_append]

/-- The weight at each place is the score of the arm there and was computed for the id there, and the draws that give an
id fill a stretch as long as the score of its own arm. -/
structure Aligned (ids : List ID) (s : AdaptiveWeightedRandomScheduler) (h : Bandits) : Prop where
  weighed : ∀ dist ∈ s.dist, ∀ (i : Nat) w, dist.weights[i]? = some w →
    ∃ id arm, s.statMapping.entries[i]? = some (id, arm) ∧ ids[i]? = some id ∧ w = (h.calculateScore arm).1
  drawn : ∀ dist ∈ s.dist, ∀ id ∈ ids, ∃ (i : Nat) (arm : ArmRef) (lo : ℚ),
    s.statMapping.entries[i]? = some (id, arm) ∧ ∀ u : Draw, dist.sample u = i ↔
      lo ≤ u.val * dist.weights.sum ∧ u.val * dist.weights.sum < lo + (h.calculateScore arm).1

/-- An id that has the same place in the order and in the map has its weight there. -/
theorem exists_place (hs : s.Fresh h) (hlead : ids <+: (s.weigh ids h).2.1.statMapping.keys) {i : Nat} {id : ID}
    (hi : ids[i]? = some id) : ∃ arm, (s.weigh ids h).2.1.statMapping.entries[i]? = some (id, arm) ∧
      (s.weigh ids h).1[i]? = some (((s.weigh ids h).2.2.calculateScore arm).1) := by
  obtain ⟨arm, hget, hw⟩ := weigh_getElem? hs hi
  obtain ⟨hlt, rfl⟩ := List.getElem?_eq_some_iff.1 hi
  have hkey := List.prefix_iff_getElem?.1 hlead i hlt
  rw [IndexMap.keys, List.getElem?_map] at hkey
  obtain ⟨⟨id, arm'⟩, hentry, hid⟩ := Option.map_eq_some_iff.1 hkey
  subst hid
  rw [IndexMap.get_eq_some_iff.2 (List.mem_of_getElem? hentry)] at hget
  cases hget
  exact ⟨arm, hentry, hw⟩

/-- **A rebuild aligns the weights** exactly when the order of the ids is the order of the map, as far as it goes. -/
theorem aligned_iff_inOrder (hs : s.Fresh h) (hids : ids.Nodup)
    (hdue : s.dist.isNone ∨ h.epoch s.body % granularity = 0) (hb : s.rebuild ids h = some (s', h')) :
    Aligned ids s' h' ↔ ids <+: s.statMapping.keys ++ ids.filter (· ∉ s.statMapping.keys) := by
  obtain ⟨dist, hdist, hweights, hmapping, rfl⟩ := rebuild_spec hdue hb
  have hkeys := s.keys_weigh h hids
  have hlength := s.length_weigh ids h
  rw [← hkeys, ← hmapping]
  constructor
  · intro ha
    rw [List.prefix_iff_getElem?]
    intro i hi
    have hi' : i < dist.weights.length := by
      rw [hweights, hlength]
      exact hi
    obtain ⟨id, arm, hentry, hid, -⟩ := ha.weighed dist hdist i _ (List.getElem?_eq_getElem hi')
    rw [List.getElem?_eq_getElem hi] at hid
    rw [IndexMap.keys, List.getElem?_map, hentry, hid]
    rfl
  · intro hlead
    have hplace : ∀ (i : Nat) id, ids[i]? = some id → ∃ arm, s'.statMapping.entries[i]? = some (id, arm) ∧
        dist.weights[i]? = some (((s.weigh ids h).2.2.calculateScore arm).1) := by
      intro i id hi
      rw [hmapping, hweights]
      exact exists_place hs (hmapping ▸ hlead) hi
    have hnonneg : ∀ w ∈ dist.weights, 0 ≤ w := fun w hw => (s.weigh_pos (hweights ▸ hw)).le
    refine ⟨fun d hd i w hw => ?_, fun d hd id hid => ?_⟩
    · obtain rfl : dist = d := Option.some.inj (hdist.symm.trans hd)
      have hi : i < ids.length := by
        rw [← hlength, ← hweights]
        exact (List.getElem?_eq_some_iff.1 hw).1
      have hid := List.getElem?_eq_getElem hi
      obtain ⟨arm, hentry, hscore⟩ := hplace i _ hid
      exact ⟨_, arm, hentry, hid, Option.some.inj (hw.symm.trans hscore)⟩
    · obtain rfl : dist = d := Option.some.inj (hdist.symm.trans hd)
      obtain ⟨i, hi⟩ := List.getElem?_of_mem hid
      obtain ⟨arm, hentry, hscore⟩ := hplace i id hi
      refine ⟨i, arm, (dist.weights.take i).sum, hentry, fun u => ?_⟩
      rw [WeightedIndex.sample_eq_iff hnonneg, List.take_add_one, hscore, List.sum_append]
      simp

end AdaptiveWeightedRandomScheduler

/-! ## Runs -/

/-- The scheduler with the bandits that it shares, and the orders of the rebuilds since the start or the last reset. -/
structure AdaptiveRun where
  scheduler : AdaptiveWeightedRandomScheduler
  bandits : Bandits
  orders : List (List ID)

/-- The calls, each with the corpus as the insertions and removals before it have left it, and what others do with the
bandits in between. -/
inductive AdaptiveOp (C : Type) where
  | nextBatch (c : C) (size : Nat) (order : HashOrder ID) (draws : List Draw)
  | reset
  | others (h : Bandits)

namespace AdaptiveRun

open AdaptiveWeightedRandomScheduler

variable {C Stmt : Type} [CorpusHandler C Stmt] [FloatFns ℚ] {s : AdaptiveRun}

def new (body : BodyRef) (h : Bandits) : AdaptiveRun := ⟨.new body, h, []⟩

/-- With this corpus the distribution is made anew. -/
def Rebuilds (s : AdaptiveRun) (c : C) : Prop :=
  CorpusHandler.size c ≠ 0 ∧ (s.scheduler.dist.isNone ∨ s.bandits.epoch s.scheduler.body % granularity = 0)

instance (s : AdaptiveRun) (c : C) : Decidable (s.Rebuilds c) := by
  unfold Rebuilds
  infer_instance

def step (s : AdaptiveRun) : AdaptiveOp C → Option AdaptiveRun
  | .nextBatch c size order draws => do
    let b : Batch AdaptiveWeightedRandomScheduler C Stmt ← s.scheduler.nextBatch c size s.bandits order draws
    let orders := if s.Rebuilds c then order.list (CorpusHandler.ids c) :: s.orders else s.orders
    some ⟨b.scheduler, b.bandits, orders⟩
  | .reset =>
    let (scheduler, h) := Schedule.reset Stmt s.scheduler s.bandits
    some ⟨scheduler, h, []⟩
  -- arms that were handed out stay
  | .others h => if s.bandits.nextArm ≤ h.nextArm then some { s with bandits := h } else none

/-- If the call makes the distribution anew, its weights are aligned. -/
def Aligns (s : AdaptiveRun) : AdaptiveOp C → Prop
  | .nextBatch c _ order _ => s.Rebuilds c → ∀ scheduler h,
      s.scheduler.rebuild (order.list (CorpusHandler.ids c)) s.bandits = some (scheduler, h) →
        Aligned (order.list (CorpusHandler.ids c)) scheduler h
  | .reset | .others _ => True

/-- If the call makes the distribution anew, the order of its ids goes on from, or stops short of, each one before. -/
def Comparable (s : AdaptiveRun) : AdaptiveOp C → Prop
  | .nextBatch c _ order _ => s.Rebuilds c → ∀ l ∈ s.orders,
      l <+: order.list (CorpusHandler.ids c) ∨ order.list (CorpusHandler.ids c) <+: l
  | .reset | .others _ => True

/-- The orders so far are prefixes of the keys, which are the longest of them. -/
structure Nested (s : AdaptiveRun) : Prop where
  fresh : s.scheduler.Fresh s.bandits
  isPrefix : ∀ l ∈ s.orders, l <+: s.scheduler.statMapping.keys
  longest : s.scheduler.statMapping.keys = [] ∨ s.scheduler.statMapping.keys ∈ s.orders

omit [FloatFns ℚ] in
theorem Nested.new (body : BodyRef) (h : Bandits) : Nested (new body h) :=
  ⟨fun _ hp => absurd hp List.not_mem_nil, fun _ hl => absurd hl List.not_mem_nil, .inl rfl⟩

omit [FloatFns ℚ] in
/-- An order goes with all those before it when it goes with the keys. -/
theorem Nested.comparable_iff (hs : Nested s) {ids : List ID} (hids : ids.Nodup) :
    (∀ l ∈ s.orders, l <+: ids ∨ ids <+: l) ↔
      ids <+: s.scheduler.statMapping.keys ++ ids.filter (· ∉ s.scheduler.statMapping.keys) := by
  constructor
  · intro hl
    have hkeys : s.scheduler.statMapping.keys <+: ids ∨ ids <+: s.scheduler.statMapping.keys := by
      rcases hs.longest with hnil | hmem
      · left
        rw [hnil]
        exact List.nil_prefix
      · exact hl _ hmem
    rcases hkeys with hkeys | hkeys
    · rw [append_filter_notMem hkeys hids]
    · exact hkeys.trans (List.prefix_append _ _)
  · intro hlead l hl
    exact List.prefix_or_prefix_of_prefix ((hs.isPrefix l hl).trans (List.prefix_append _ _)) hlead

/-- An order that goes with the keys is nested with those before it. -/
theorem Nested.rebuild (hs : Nested s) {ids : List ID} (hids : ids.Nodup)
    (hlead : ids <+: s.scheduler.statMapping.keys ++ ids.filter (· ∉ s.scheduler.statMapping.keys))
    {scheduler : AdaptiveWeightedRandomScheduler} {h : Bandits}
    (hdue : s.scheduler.dist.isNone ∨ s.bandits.epoch s.scheduler.body % granularity = 0)
    (hb : s.scheduler.rebuild ids s.bandits = some (scheduler, h)) : Nested ⟨scheduler, h, ids :: s.orders⟩ := by
  obtain ⟨dist, -, -, hmapping, rfl⟩ := rebuild_spec hdue hb
  have hkeys := s.scheduler.keys_weigh s.bandits hids
  rw [← hmapping] at hkeys
  refine ⟨?_, ?_, ?_⟩
  · intro p hp
    exact (weigh_grows hs.fresh ids).fresh p (hmapping ▸ hp)
  · intro l hl
    show l <+: scheduler.statMapping.keys
    rw [hkeys]
    rcases List.mem_cons.1 hl with rfl | hl
    · exact hlead
    · exact (hs.isPrefix l hl).trans (List.prefix_append _ _)
  · show scheduler.statMapping.keys = [] ∨ scheduler.statMapping.keys ∈ ids :: s.orders
    rw [hkeys]
    rcases List.prefix_or_prefix_of_prefix hlead (List.prefix_append _ _) with hle | hle
    · -- nothing is new
      have hnil : ids.filter (· ∉ s.scheduler.statMapping.keys) = [] := by
        rw [List.filter_eq_nil_iff]
        intro id hid
        simpa using hle.subset hid
      rw [hnil, List.append_nil]
      exact hs.longest.imp_right (List.mem_cons_of_mem _)
    · right
      rw [append_filter_notMem hle hids]
      exact List.mem_cons_self

/-- Without a rebuild a batch leaves the scheduler and the bandits as they are. -/
theorem nextBatch_of_not_rebuilds {c : C} {size : Nat} {order : HashOrder ID} {draws : List Draw}
    {b : Batch AdaptiveWeightedRandomScheduler C Stmt} (hno : ¬s.Rebuilds c)
    (hb : s.scheduler.nextBatch c size s.bandits order draws = some b) :
    b.scheduler = s.scheduler ∧ b.bandits = s.bandits := by
  unfold AdaptiveWeightedRandomScheduler.nextBatch at hb
  split at hb
  · cases hb
    exact ⟨rfl, rfl⟩
  · rename_i hsize
    obtain ⟨⟨scheduler, h⟩, hrebuild, hb⟩ := Option.bind_eq_some_iff.1 hb
    obtain ⟨dist, -, hb⟩ := Option.bind_eq_some_iff.1 hb
    obtain ⟨⟨members, c', draws'⟩, -, hb⟩ := Option.bind_eq_some_iff.1 hb
    cases hb
    unfold AdaptiveWeightedRandomScheduler.rebuild at hrebuild
    rw [if_neg fun hdue => hno ⟨hsize, hdue⟩] at hrebuild
    cases hrebuild
    exact ⟨rfl, rfl⟩

/-- Otherwise they are what the rebuild has made of them. -/
theorem nextBatch_of_rebuilds {c : C} {size : Nat} {order : HashOrder ID} {draws : List Draw}
    {b : Batch AdaptiveWeightedRandomScheduler C Stmt} (hyes : s.Rebuilds c)
    (hb : s.scheduler.nextBatch c size s.bandits order draws = some b) :
    s.scheduler.rebuild (order.list (CorpusHandler.ids c)) s.bandits = some (b.scheduler, b.bandits) := by
  unfold AdaptiveWeightedRandomScheduler.nextBatch at hb
  rw [if_neg hyes.1] at hb
  obtain ⟨⟨scheduler, h⟩, hrebuild, hb⟩ := Option.bind_eq_some_iff.1 hb
  obtain ⟨dist, -, hb⟩ := Option.bind_eq_some_iff.1 hb
  obtain ⟨⟨members, c', draws'⟩, -, hb⟩ := Option.bind_eq_some_iff.1 hb
  cases hb
  exact hrebuild

theorem aligns_iff (hs : Nested s) (op : AdaptiveOp C) : Aligns s op ↔ Comparable s op := by
  cases op with
  | reset => exact Iff.rfl
  | others h => exact Iff.rfl
  | nextBatch c size order draws =>
    have hids := order.nodup (CorpusHandler.ids c)
    refine forall_congr' fun hyes => ?_
    rw [hs.comparable_iff hids]
    constructor
    · intro haligned
      by_cases hnil : order.list (CorpusHandler.ids c) = []
      · rw [hnil]
        exact List.nil_prefix
      · obtain ⟨scheduler, h, hb⟩ := exists_rebuild (s := s.scheduler) (h := s.bandits) hnil
        exact (aligned_iff_inOrder hs.fresh hids hyes.2 hb).1 (haligned _ _ hb)
    · intro hlead scheduler h hb
      exact (aligned_iff_inOrder hs.fresh hids hyes.2 hb).2 hlead

/-- While the orders go together they stay nested. -/
theorem Nested.step (hs : Nested s) {op : AdaptiveOp C} {s' : AdaptiveRun} (hop : Comparable s op)
    (hstep : AdaptiveRun.step s op = some s') : Nested s' := by
  cases op with
  | reset =>
    cases hstep
    exact .new s.scheduler.body s.bandits
  | others h =>
    obtain ⟨hle, heq⟩ := Option.ite_none_right_eq_some.1 hstep
    cases heq
    exact ⟨fun p hp => (hs.fresh p hp).trans_le hle, hs.isPrefix, hs.longest⟩
  | nextBatch c size order draws =>
    obtain ⟨b, hb, hstep⟩ := Option.bind_eq_some_iff.1 hstep
    cases hstep
    have hids := order.nodup (CorpusHandler.ids c)
    split
    · rename_i hyes
      exact hs.rebuild hids ((hs.comparable_iff hids).1 (hop hyes)) hyes.2 (nextBatch_of_rebuilds hyes hb)
    · rename_i hno
      obtain ⟨hscheduler, hbandits⟩ := nextBatch_of_not_rebuilds hno hb
      rw [hscheduler, hbandits]
      exact hs

/-- **When weights and ids are aligned.** In a run the weights of every rebuild are aligned with the map exactly when the
orders in which the corpus lists its ids are prefixes of one another, at all rebuilds since the start or the last
reset. -/
theorem aligned_iff_comparable (body : BodyRef) (h : Bandits) (ops : List (AdaptiveOp C)) :
    AllSteps step Aligns (new body h) ops ↔ AllSteps step Comparable (new body h) ops :=
  allSteps_congr_of_step (fun _ _ _ hs ha hstep => hs.step ((aligns_iff hs _).1 ha) hstep) (fun _ op hs => aligns_iff hs op)
    (.new body h)

end AdaptiveRun

/-! ## An entry that is never drawn -/

namespace AdaptiveRun

attribute [local instance] FloatFns.tangent

/-- A corpus of one entry. -/
def single (n : UInt32) : InMemory (CorpusEntry Nat) :=
  CorpusHandler.insert (InMemory.new : InMemory (CorpusEntry Nat)) ⟨⟨⟨n⟩, [], []⟩, .default⟩ .posInf

/-- The first entry gets an arm, which is told of a mutation. -/
def firstDrawn : List (AdaptiveOp (InMemory (CorpusEntry Nat))) :=
  [.nextBatch (single 1) 0 (.sorted ID) [], .others ((Bandits.new.newArm 0).2.onMutate 0 .mutated)]

theorem list_ids_single (n : UInt32) : (HashOrder.sorted ID).list (CorpusHandler.ids (single n)) = [⟨n⟩] :=
  (HashOrder.sorted ID).list_singleton ⟨n⟩

/-- The state after these calls, with what a rebuild for the second entry makes of it. -/
def replaced (ids : List ID) : Option (AdaptiveRun × AdaptiveWeightedRandomScheduler × Bandits) := do
  let s ← run step (new 0 .new) firstDrawn
  let (scheduler, h) ← s.scheduler.rebuild ids s.bandits
  some (s, scheduler, h)

/-- When another entry has taken the place of the first in the corpus, its weight stands at the place that the first has
in the map, and that one has another score. -/
theorem not_aligned_replaced :
    ∃ s scheduler h, run step (new 0 .new) firstDrawn = some s ∧ s.Rebuilds (single 2) ∧
      s.scheduler.rebuild ((HashOrder.sorted ID).list (CorpusHandler.ids (single 2))) s.bandits = some (scheduler, h) ∧
      ∃ dist ∈ scheduler.dist, dist.weights[0]? = some 200 ∧
        (scheduler.statMapping.entries[0]?.map fun p => (p.1, (h.calculateScore p.2).1)) = some (⟨1⟩, 1 / 1000) := by
  have heval : ((replaced [⟨2⟩]).map fun (s, scheduler, h) => (decide (s.Rebuilds (single 2)),
      scheduler.dist.map (·.weights[0]?), scheduler.statMapping.entries[0]?.map fun p => (p.1, (h.calculateScore p.2).1))) =
      some (true, some (some 200), some (⟨1⟩, 1 / 1000)) := by
    unfold replaced firstDrawn
    simp only [run, step, AdaptiveWeightedRandomScheduler.nextBatch, list_ids_single]
    decide +kernel
  obtain ⟨⟨s, scheduler, h⟩, hreplaced, heq⟩ := Option.map_eq_some_iff.1 heval
  obtain ⟨s, hrun, hreplaced⟩ := Option.bind_eq_some_iff.1 hreplaced
  obtain ⟨⟨scheduler, h⟩, hrebuild, hreplaced⟩ := Option.bind_eq_some_iff.1 hreplaced
  cases hreplaced
  simp only [Prod.mk.injEq] at heq
  obtain ⟨hyes, hdist, hplace⟩ := heq
  obtain ⟨dist, hdist, hweight⟩ := Option.map_eq_some_iff.1 hdist
  rw [list_ids_single]
  exact ⟨s, scheduler, h, hrun, of_decide_eq_true hyes, hrebuild, dist, hdist, hweight, hplace⟩

end AdaptiveRun

end Lsf.Engine
