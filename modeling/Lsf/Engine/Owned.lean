import Lsf.Engine.Batching
import Lsf.Engine.MabScheduler
import Lsf.Engine.Retaining

/-!
# Arms and their entries

Three schedulers make an arm for every entry that they are told of. `Owner` says which entry an arm was made for, and
`ArmedSchedule` what such a scheduler does with it: what it hands out carries the arm of its own entry as its build hook
(`Hooked`). Whether the arm is among the rule hooks as well, which `mutate_batch` gives to the children, is
`passesArm`. `SchedulerBatcher` passes on what its inner scheduler does.
-/

namespace Lsf.Engine

open Lsf.Core Lsf.Lib Lsf.Feedback

/-- The entry that an arm was made for. -/
abbrev Owner := ArmRef → Option ID

/-- Arms keep their entries. -/
def Owner.Extends (owner owner' : Owner) : Prop := ∀ a id, owner a = some id → owner' a = some id

/-- The arms from `lo` up to `hi` were made for the entry `id`. -/
def Owner.grant (owner : Owner) (lo hi : ArmRef) (id : ID) : Owner := fun a => if lo ≤ a ∧ a < hi then some id else owner a

/-- Arms from `n` on, which are not made yet, count as those of an entry. -/
def Owner.upTo (owner : Owner) (n : ArmRef) : Owner := fun a => if a < n then owner a else some ⟨0⟩

section Owner

variable {owner : Owner} {n lo hi : ArmRef} {id : ID}

theorem Owner.upTo_eq_none {a : ArmRef} : owner.upTo n a = none ↔ a < n ∧ owner a = none := by
  unfold Owner.upTo
  split <;> simp [*]

/-- An arm of no entry stays one, whoever gets the arms that are made next. -/
theorem Owner.upTo_grant_eq_none {a : ArmRef} (h : owner.upTo lo a = none) (hle : lo ≤ hi) :
    (owner.grant lo hi id).upTo hi a = none := by
  obtain ⟨hlt, hnone⟩ := Owner.upTo_eq_none.1 h
  refine Owner.upTo_eq_none.2 ⟨hlt.trans_le hle, ?_⟩
  have hold : ¬(lo ≤ a ∧ a < hi) := fun hnew => absurd hnew.1 (not_le.2 hlt)
  unfold Owner.grant
  rw [if_neg hold]
  exact hnone

theorem Owner.grant_extends (h : ∀ a id, owner a = some id → a < lo) : owner.Extends (owner.grant lo hi id) := by
  intro a id' ha
  have hlt := h a id' ha
  have hold : ¬(lo ≤ a ∧ a < hi) := fun hnew => absurd hnew.1 (not_le.2 hlt)
  unfold Owner.grant
  rw [if_neg hold]
  exact ha

end Owner

/-- An entry with the arm that was made for it. -/
structure Hooked {Stmt : Type} (owner : Owner) (passesArm : Bool) (m : TestableEntry (RawEntry Stmt)) : Prop where
  hooks : ∃ a, owner a = some m.entry.id ∧ m.parentStats = [a] ∧ m.appliedRuleStats = if passesArm then [a] else []

theorem Hooked.extends {Stmt : Type} {owner owner' : Owner} {passesArm : Bool} {m : TestableEntry (RawEntry Stmt)}
    (h : Hooked owner passesArm m) (hext : owner.Extends owner') : Hooked owner' passesArm m := by
  obtain ⟨a, ha, hparent, hrule⟩ := h.hooks
  exact ⟨a, hext a _ ha, hparent, hrule⟩

/-- Schedulers with an arm for each entry. -/
class ArmedSchedule (S T : Type) [Schedule S T] where
  new : BodyRef → S
  passesArm : Bool
  /-- Every arm is kept with the id of its entry. -/
  Owns : Owner → S → Prop
  owns_new : ∀ body, Owns (fun _ => none) (new body)
  owns_extends : ∀ owner owner' s, Owns owner s → owner.Extends owner' → Owns owner' s
  owns_onAdd : ∀ owner (s : S) (h : Bandits) (e : CorpusEntry T) score s' h', Owns owner s →
    Schedule.onAdd s h e = some (score, s', h') → (∀ a, h.nextArm ≤ a → a < h'.nextArm → owner a = some e.id) →
    Owns owner s'
  owns_onRemove : ∀ owner (s : S) id s', Owns owner s → Schedule.onRemove T s id = some s' → Owns owner s'
  owns_chore : ∀ owner s, Owns owner s → Owns owner (Schedule.chore T s)
  owns_reset : ∀ owner s h, Owns owner s → Owns owner (Schedule.reset T s h).1
  owns_nextBatch : ∀ {C : Type} [CorpusHandler C T] [FaithfulCorpus C] owner (s : S) (c : C) size h order draws b,
    Owns owner s → FaithfulCorpus.Faithful T c → Schedule.nextBatch s c size h order draws = some b →
    (Owns owner b.scheduler ∧ FaithfulCorpus.Faithful T b.corpus) ∧ ∀ m ∈ b.members, Hooked owner passesArm m
  nextArm_onAdd : ∀ (s : S) (h : Bandits) (e : CorpusEntry T) score s' h',
    Schedule.onAdd s h e = some (score, s', h') → h.nextArm ≤ h'.nextArm
  nextArm_reset : ∀ (s : S) h, (Schedule.reset T s h).2.nextArm = h.nextArm
  nextArm_nextBatch : ∀ {C : Type} [CorpusHandler C T] (s : S) (c : C) size h order draws b,
    Schedule.nextBatch s c size h order draws = some b → b.bandits.nextArm = h.nextArm

/-! ## MABScheduler -/

namespace MABScheduler

variable {H C Stmt : Type} [BinaryHeap H (SchedueldItem ID)] [BinaryHeap.LawfulBinaryHeap H (SchedueldItem.score (T := ID))]
  {owner : Owner}

/-- The item has the arm that was made for its entry. -/
def OwnsItem (owner : Owner) (item : SchedueldItem ID) : Prop := owner item.stats = some item.item

def Owns (owner : Owner) (s : MABScheduler H) : Prop := ∀ item ∈ BinaryHeap.items s.queue, OwnsItem owner item

theorem ownsItem_empty : ∀ x ∈ BinaryHeap.items (BinaryHeap.empty : H), OwnsItem owner x := by
  intro x hx
  rw [BinaryHeap.LawfulBinaryHeap.items_empty SchedueldItem.score] at hx
  cases hx

theorem ownsItem_push {queue : H} {item : SchedueldItem ID} (h : ∀ x ∈ BinaryHeap.items queue, OwnsItem owner x)
    (hitem : OwnsItem owner item) : ∀ x ∈ BinaryHeap.items (BinaryHeap.push queue item), OwnsItem owner x := by
  intro x hx
  have hperm := BinaryHeap.LawfulBinaryHeap.items_push SchedueldItem.score queue item
  rcases List.mem_cons.1 (hperm.mem_iff.1 hx) with rfl | hx
  · exact hitem
  · exact h x hx

theorem ownsItem_extend {queue : H} {acc : List (SchedueldItem ID)}
    (h : ∀ x ∈ BinaryHeap.items queue, OwnsItem owner x) (hacc : ∀ x ∈ acc, OwnsItem owner x) :
    ∀ x ∈ BinaryHeap.items (acc.foldl BinaryHeap.push queue), OwnsItem owner x := by
  induction acc generalizing queue with
  | nil => exact h
  | cons item acc ih =>
    exact ih (ownsItem_push h (hacc item (by simp))) fun x hx => hacc x (by simp [hx])

variable [CorpusHandler C Stmt] [FaithfulCorpus C] [FloatFns ℚ]

/-- What the loop keeps: every item has the arm of its entry. -/
structure Kept (Stmt : Type) [CorpusHandler C Stmt] [FaithfulCorpus C] (owner : Owner) (v : Visit H C) : Prop where
  queue : ∀ item ∈ BinaryHeap.items v.1, OwnsItem owner item
  acc : ∀ item ∈ v.2.1, OwnsItem owner item
  corpus : FaithfulCorpus.Faithful Stmt v.2.2.1

theorem Kept.round {currentEpoch : UInt32} {v : Visit H C} {draws : List Draw}
    {r : Round (Visit H C) (TestableEntry (RawEntry Stmt))} (hv : Kept Stmt owner v)
    (hr : round currentEpoch v draws = some r) : Kept Stmt owner r.state ∧ ∀ m ∈ r.found, Hooked owner false m := by
  obtain ⟨queue, acc, c, h⟩ := v
  obtain ⟨hqueue, hacc, hcorpus⟩ := hv
  simp only [MABScheduler.round] at hr
  split at hr
  · cases hr
    exact ⟨⟨hqueue, hacc, hcorpus⟩, fun _ hm => by cases hm⟩
  · rename_i top queue' hpop
    have hperm := BinaryHeap.LawfulBinaryHeap.pop_some SchedueldItem.score queue top queue' hpop
    have htop : OwnsItem owner top := hqueue top (hperm.mem_iff.2 List.mem_cons_self)
    have hqueue' : ∀ item ∈ BinaryHeap.items queue', OwnsItem owner item :=
      fun item hitem => hqueue item (hperm.mem_iff.2 (List.mem_cons_of_mem _ hitem))
    split at hr
    · cases hr
      exact ⟨⟨ownsItem_push hqueue' htop, hacc, hcorpus⟩, fun _ hm => by cases hm⟩
    · have hget : FaithfulCorpus.Faithful Stmt (CorpusHandler.get c top.item).2 :=
        FaithfulCorpus.faithful_get _ _ hcorpus
      split at hr
      · rename_i c' heq
        rw [heq] at hget
        cases hr
        exact ⟨⟨hqueue', hacc, hget⟩, fun _ hm => by cases hm⟩
      · rename_i parent c' heq
        have hid : parent.id = top.item := FaithfulCorpus.get_id c top.item parent hcorpus (by rw [heq])
        rw [heq] at hget
        cases hr
        refine ⟨⟨hqueue', fun item hitem => ?_, FaithfulCorpus.faithful_update _ _ _ hget⟩, fun m hm => ?_⟩
        · rcases List.mem_append.1 hitem with hitem | hitem
          · exact hacc item hitem
          · rw [List.mem_singleton.1 hitem]
            exact htop
        · cases hm
          refine ⟨top.stats, ?_, rfl, rfl⟩
          show owner top.stats = some parent.id
          rw [hid]
          exact htop

/-- The arm of an entry is a build hook only. -/
instance : ArmedSchedule (MABScheduler H) Stmt where
  new := new
  passesArm := false
  Owns := Owns
  owns_new body := ownsItem_empty
  owns_extends owner owner' s hs hext item hitem := hext _ _ (hs item hitem)
  owns_onAdd owner s h e score s' h' hs heq hnew := by
    cases heq
    exact ownsItem_push hs (hnew h.nextArm le_rfl (Nat.lt_succ_self _))
  owns_onRemove owner s id s' hs heq := by
    cases heq
    exact hs
  owns_chore owner s hs := hs
  owns_reset owner s h hs := ownsItem_empty
  owns_nextBatch owner s c size h order draws b hs hc hb := by
    obtain ⟨⟨parents, v, draws'⟩, hloop, hb⟩ := Option.bind_eq_some_iff.1 hb
    cases hb
    have h0 : Kept Stmt owner (s.queue, [], c, h) := ⟨hs, by simp, hc⟩
    obtain ⟨hkept, hhooked⟩ := whileShort_spec (I := Kept Stmt owner) (fun _ _ _ hv hr => hv.round hr) h0 (by simp) hloop
    exact ⟨⟨ownsItem_extend hkept.queue hkept.acc, hkept.corpus⟩, hhooked⟩
  nextArm_onAdd s h e score s' h' heq := by
    cases heq
    exact Nat.le_succ _
  nextArm_reset _ _ := rfl
  nextArm_nextBatch s c size h order draws b hb := by
    obtain ⟨⟨parents, v, draws'⟩, hloop, hb⟩ := Option.bind_eq_some_iff.1 hb
    cases hb
    refine whileShort_invariant (I := fun v => v.2.2.2.nextArm = h.nextArm) ?_ rfl hloop
    rintro ⟨queue, acc, c, h'⟩ draws r hv hr
    simp only [MABScheduler.round] at hr
    split at hr
    · cases hr
      exact hv
    · split at hr
      · cases hr
        exact hv
      · split at hr <;> cases hr <;> exact hv

end MABScheduler

/-! ## ProbabilisticMABScheduler -/

/-- An entry of a corpus with its arm as both hooks. -/
theorem hooked_hookedEntry {Stmt : Type} {owner : Owner} {entry : CorpusEntry Stmt} {stats : ArmRef}
    (h : owner stats = some entry.id) : Hooked owner true (hookedEntry entry stats) :=
  ⟨stats, h, rfl, rfl⟩

namespace ProbabilisticMABScheduler

variable {C Stmt : Type} {owner : Owner} {s : ProbabilisticMABScheduler}

/-- The bucket has the arm that was made for its key. -/
def OwnsBucket (owner : Owner) (b : Bucket ID (SmallSchedueldItem Unit)) : Prop := owner b.value.stats = some b.key

def Owns (owner : Owner) (s : ProbabilisticMABScheduler) : Prop := ∀ b ∈ s.idMapping, OwnsBucket owner b

theorem ownsBucket_modify {m : BucketMap ID (SmallSchedueldItem Unit)} {i : Nat}
    {f : Bucket ID (SmallSchedueldItem Unit) → Bucket ID (SmallSchedueldItem Unit)}
    (h : ∀ b ∈ m, OwnsBucket owner b) (hf : ∀ b, m[i]? = some b → OwnsBucket owner (f b)) :
    ∀ b ∈ m.modify i f, OwnsBucket owner b := by
  intro b hb
  obtain ⟨j, hj⟩ := List.getElem?_of_mem hb
  rw [List.getElem?_modify] at hj
  obtain ⟨b', hb', rfl⟩ := Option.map_eq_some_iff.1 hj
  split
  · rename_i hij
    exact hf b' (hij ▸ hb')
  · exact h b' (List.mem_of_getElem? hb')

theorem Owns.place [Hasher ID] (h : Owns owner s) {idx : Nat} {queue : BlockSumTable} {id : ID}
    {item : SmallSchedueldItem Unit} (hitem : owner item.stats = some id) : Owns owner (s.place idx queue id item) := by
  unfold Owns ProbabilisticMABScheduler.place
  dsimp only
  split
  · unfold BucketMap.insert
    split
    · rename_i i hi
      refine ownsBucket_modify h fun b hb => ?_
      obtain ⟨b', hb', -, hkey⟩ := BucketMap.getFull_eq_some hi
      obtain rfl : b' = b := Option.some.inj (hb'.symm.trans hb)
      show owner item.stats = some b'.key
      rw [hkey]
      exact hitem
    · intro b hb
      rcases List.mem_append.1 hb with hb | hb
      · exact h b hb
      · rw [List.mem_singleton.1 hb]
        exact hitem
  · exact ownsBucket_modify h fun _ _ => hitem

variable [CorpusHandler C Stmt] [FloatFns ℚ] [Rounding ℚ]

/-- Rounds make no arms. -/
theorem round_nextArm {currentEpoch : UInt32} {v : Visit C} {draws : List Draw}
    {r : Round (Visit C) (TestableEntry (RawEntry Stmt))} (hr : round currentEpoch v draws = some r) :
    r.state.2.2.nextArm = v.2.2.nextArm := by
  obtain ⟨s, c, h⟩ := v
  obtain ⟨⟨top, queue, draws'⟩, -, hr⟩ := Option.bind_eq_some_iff.1 hr
  cases top with
  | none =>
    cases hr
    rfl
  | some top =>
    obtain ⟨⟨parent, v'⟩, hvisit, hr⟩ := Option.bind_eq_some_iff.1 hr
    cases hr
    simp only [ProbabilisticMABScheduler.visit] at hvisit
    split at hvisit
    · cases hvisit
      rfl
    · split at hvisit
      · obtain ⟨queue', -, hvisit⟩ := Option.bind_eq_some_iff.1 hvisit
        cases hvisit
        rfl
      · cases hvisit
        rfl

variable [FaithfulCorpus C]

/-- What the loop keeps. -/
structure Kept (Stmt : Type) [CorpusHandler C Stmt] [FaithfulCorpus C] (owner : Owner) (v : Visit C) : Prop where
  owns : Owns owner v.1
  corpus : FaithfulCorpus.Faithful Stmt v.2.1

theorem Kept.visit {currentEpoch : UInt32} {top : Nat} {v v' : Visit C}
    {parent : Option (TestableEntry (RawEntry Stmt))} (hv : Kept Stmt owner v)
    (h : visit currentEpoch top v = some (parent, v')) : Kept Stmt owner v' ∧ ∀ m ∈ parent, Hooked owner true m := by
  obtain ⟨s, c, bandits⟩ := v
  obtain ⟨howns, hcorpus⟩ := hv
  simp only [ProbabilisticMABScheduler.visit] at h
  split at h
  · cases h
    exact ⟨⟨howns, hcorpus⟩, fun _ hm => by cases hm⟩
  · rename_i b hb
    have hbucket : OwnsBucket owner b := howns b (List.mem_of_getElem? hb)
    split at h
    · obtain ⟨queue, -, h⟩ := Option.bind_eq_some_iff.1 h
      cases h
      refine ⟨⟨ownsBucket_modify howns fun b' hb' => ?_, hcorpus⟩, fun _ hm => by cases hm⟩
      obtain rfl : b = b' := Option.some.inj (hb.symm.trans hb')
      exact hbucket
    · cases h
      refine ⟨⟨howns, FaithfulCorpus.faithful_get _ _ hcorpus⟩, fun m hm => ?_⟩
      obtain ⟨entry, hentry, rfl⟩ := Option.map_eq_some_iff.1 hm
      refine hooked_hookedEntry ?_
      rw [FaithfulCorpus.get_id c b.key entry hcorpus hentry]
      exact hbucket

theorem Kept.round {currentEpoch : UInt32} {v : Visit C} {draws : List Draw}
    {r : Round (Visit C) (TestableEntry (RawEntry Stmt))} (hv : Kept Stmt owner v)
    (hr : round currentEpoch v draws = some r) : Kept Stmt owner r.state ∧ ∀ m ∈ r.found, Hooked owner true m := by
  obtain ⟨s, c, h⟩ := v
  obtain ⟨⟨top, queue, draws'⟩, -, hr⟩ := Option.bind_eq_some_iff.1 hr
  have hv' : Kept Stmt owner ({ s with queue := queue }, c, h) := ⟨hv.owns, hv.corpus⟩
  cases top with
  | none =>
    cases hr
    exact ⟨hv', fun _ hm => by cases hm⟩
  | some top =>
    obtain ⟨⟨parent, v'⟩, hvisit, hr⟩ := Option.bind_eq_some_iff.1 hr
    cases hr
    exact hv'.visit hvisit

variable [Hasher ID]

instance : ArmedSchedule ProbabilisticMABScheduler Stmt where
  new := new
  passesArm := true
  Owns := Owns
  owns_new body b hb := by cases hb
  owns_extends owner owner' s hs hext b hb := hext _ _ (hs b hb)
  owns_onAdd owner s h e score s' h' hs heq hnew := by
    obtain ⟨⟨idx, queue⟩, -, heq⟩ := Option.bind_eq_some_iff.1 heq
    cases heq
    exact hs.place (hnew h.nextArm le_rfl (Nat.lt_succ_self _))
  owns_onRemove owner s id s' hs heq := by
    change s.onRemove id = some s' at heq
    unfold onRemove at heq
    split at heq
    · obtain ⟨queue, -, rfl⟩ := Option.map_eq_some_iff.1 heq
      exact hs
    · cases heq
      exact hs
  owns_chore owner s hs := by
    show Owns owner s.chore
    unfold chore
    split <;> exact hs
  owns_reset owner s h hs b hb := by cases hb
  owns_nextBatch owner s c size h order draws b hs hc hb := by
    obtain ⟨⟨parents, v, draws'⟩, hloop, hb⟩ := Option.bind_eq_some_iff.1 hb
    cases hb
    have h0 : Kept Stmt owner (s, c, h) := ⟨hs, hc⟩
    obtain ⟨hkept, hhooked⟩ := whileShort_spec (I := Kept Stmt owner) (fun _ _ _ hv hr => hv.round hr) h0 (by simp) hloop
    exact ⟨⟨hkept.owns, hkept.corpus⟩, hhooked⟩
  nextArm_onAdd s h e score s' h' heq := by
    obtain ⟨⟨idx, queue⟩, -, heq⟩ := Option.bind_eq_some_iff.1 heq
    cases heq
    exact Nat.le_succ _
  nextArm_reset _ _ := rfl
  nextArm_nextBatch s c size h order draws b hb := by
    obtain ⟨⟨parents, v, draws'⟩, hloop, hb⟩ := Option.bind_eq_some_iff.1 hb
    cases hb
    exact whileShort_invariant (I := fun v => v.2.2.nextArm = h.nextArm)
      (fun _ _ _ hv hr => (round_nextArm hr).trans hv) rfl hloop

end ProbabilisticMABScheduler

/-! ## FastProbabilisticMABScheduler -/

namespace FastProbabilisticMABScheduler

variable {C Stmt : Type} {owner : Owner}

def Owns (owner : Owner) (s : FastProbabilisticMABScheduler) : Prop :=
  ∀ p ∈ s.entries.entries, owner p.2.stats = some p.1

theorem Owns.setValue {s : FastProbabilisticMABScheduler} (h : Owns owner s) {i : Nat} {id : ID}
    {arm arm' : SmallSchedueldItem ℚ} (hi : s.entries.entries[i]? = some (id, arm)) (hstats : arm'.stats = arm.stats) :
    Owns owner { s with entries := s.entries.setValue i arm' } := by
  intro p hp
  obtain ⟨j, hj⟩ := List.getElem?_of_mem hp
  change (s.entries.entries.modify i fun p => (p.1, arm'))[j]? = some p at hj
  rw [List.getElem?_modify] at hj
  obtain ⟨q, hq, rfl⟩ := Option.map_eq_some_iff.1 hj
  have howned : owner q.2.stats = some q.1 := h q (List.mem_of_getElem? hq)
  split
  · rename_i hij
    rw [← hij, hi] at hq
    cases hq
    show owner arm'.stats = some id
    rw [hstats]
    exact howned
  · exact howned

theorem Owns.insert {s : FastProbabilisticMABScheduler} (h : Owns owner s) {id : ID} {arm : SmallSchedueldItem ℚ}
    (harm : owner arm.stats = some id) : Owns owner { s with entries := s.entries.insert id arm } := by
  rintro ⟨id', arm'⟩ hp
  have hget := IndexMap.get_eq_some_iff.2 hp
  rw [IndexMap.get_insert] at hget
  split at hget
  · rename_i hid
    cases hget
    rw [hid]
    exact harm
  · exact h _ (IndexMap.get_eq_some_iff.1 hget)

variable [CorpusHandler C Stmt] [FloatFns ℚ]

theorem stats_refresh (currentEpoch : UInt32) (arm : SmallSchedueldItem ℚ) (h : Bandits) :
    (refresh currentEpoch arm h).1.stats = arm.stats ∧ (refresh currentEpoch arm h).2.nextArm = h.nextArm := by
  unfold refresh
  split <;> exact ⟨rfl, rfl⟩

/-- Rounds make no arms. -/
theorem round_nextArm {currentEpoch : UInt32} {v : Visit C} {draws : List Draw}
    {r : Round (Visit C) (TestableEntry (RawEntry Stmt))} (hr : round currentEpoch v draws = some r) :
    r.state.2.2.nextArm = v.2.2.nextArm := by
  obtain ⟨s, c, h⟩ := v
  obtain ⟨⟨u, draws₁⟩, -, hr⟩ := Option.bind_eq_some_iff.1 hr
  obtain ⟨rdIdx, -, hr⟩ := Option.bind_eq_some_iff.1 hr
  obtain ⟨⟨id, arm⟩, hplace, hr⟩ := Option.bind_eq_some_iff.1 hr
  dsimp only at hr
  split at hr
  · cases hr
    rfl
  · obtain ⟨⟨u', draws₂⟩, -, hr⟩ := Option.bind_eq_some_iff.1 hr
    obtain ⟨accepted, -, hr⟩ := Option.bind_eq_some_iff.1 hr
    cases hr
    exact (stats_refresh currentEpoch arm h).2

variable [FaithfulCorpus C]

/-- What the loop keeps. -/
structure Kept (Stmt : Type) [CorpusHandler C Stmt] [FaithfulCorpus C] (owner : Owner) (v : Visit C) : Prop where
  owns : Owns owner v.1
  corpus : FaithfulCorpus.Faithful Stmt v.2.1

theorem Kept.round {currentEpoch : UInt32} {v : Visit C} {draws : List Draw}
    {r : Round (Visit C) (TestableEntry (RawEntry Stmt))} (hv : Kept Stmt owner v)
    (hr : round currentEpoch v draws = some r) : Kept Stmt owner r.state ∧ ∀ m ∈ r.found, Hooked owner true m := by
  obtain ⟨s, c, h⟩ := v
  obtain ⟨howns, hcorpus⟩ := hv
  obtain ⟨⟨u, draws₁⟩, -, hr⟩ := Option.bind_eq_some_iff.1 hr
  obtain ⟨rdIdx, -, hr⟩ := Option.bind_eq_some_iff.1 hr
  obtain ⟨⟨id, arm⟩, hplace, hr⟩ := Option.bind_eq_some_iff.1 hr
  have hget : FaithfulCorpus.Faithful Stmt (CorpusHandler.get c id).2 := FaithfulCorpus.faithful_get _ _ hcorpus
  dsimp only at hr
  split at hr
  · cases hr
    exact ⟨⟨howns, hget⟩, fun _ hm => by cases hm⟩
  · rename_i entry hentry
    obtain ⟨⟨u', draws₂⟩, -, hr⟩ := Option.bind_eq_some_iff.1 hr
    obtain ⟨accepted, -, hr⟩ := Option.bind_eq_some_iff.1 hr
    cases hr
    have hstats := (stats_refresh currentEpoch arm h).1
    refine ⟨⟨howns.setValue hplace hstats, hget⟩, fun m hm => ?_⟩
    cases accepted with
    | false => cases hm
    | true =>
      cases hm
      refine hooked_hookedEntry ?_
      rw [hstats, FaithfulCorpus.get_id c id entry hcorpus hentry]
      exact howns _ (List.mem_of_getElem? hplace)

instance : ArmedSchedule FastProbabilisticMABScheduler Stmt where
  new := new
  passesArm := true
  Owns := Owns
  owns_new body p hp := by cases hp
  owns_extends owner owner' s hs hext p hp := hext _ _ (hs p hp)
  owns_onAdd owner s h e score s' h' hs heq hnew := by
    cases heq
    exact hs.insert (hnew h.nextArm le_rfl (Nat.lt_succ_self _))
  owns_onRemove owner s id s' hs heq := by
    cases heq
    exact fun p hp => hs p (IndexMap.mem_of_mem_swapRemove hp)
  owns_chore owner s hs := hs
  owns_reset owner s h hs p hp := by cases hp
  owns_nextBatch owner s c size h order draws b hs hc hb := by
    obtain ⟨⟨parents, v, draws'⟩, hloop, hb⟩ := Option.bind_eq_some_iff.1 hb
    cases hb
    have h0 : Kept Stmt owner (s, c, h) := ⟨hs, hc⟩
    obtain ⟨hkept, hhooked⟩ := whileShort_spec (I := Kept Stmt owner) (fun _ _ _ hv hr => hv.round hr) h0 (by simp) hloop
    exact ⟨⟨hkept.owns, hkept.corpus⟩, hhooked⟩
  nextArm_onAdd s h e score s' h' heq := by
    cases heq
    exact Nat.le_succ _
  nextArm_reset _ _ := rfl
  nextArm_nextBatch s c size h order draws b hb := by
    obtain ⟨⟨parents, v, draws'⟩, hloop, hb⟩ := Option.bind_eq_some_iff.1 hb
    cases hb
    exact whileShort_invariant (I := fun v => v.2.2.nextArm = h.nextArm)
      (fun _ _ _ hv hr => (round_nextArm hr).trans hv) rfl hloop

end FastProbabilisticMABScheduler

/-! ## SchedulerBatcher -/

namespace SchedulerBatcher

variable {S C Stmt : Type} [CorpusHandler C Stmt] [Schedule S Stmt] [ArmedSchedule S Stmt] [FloatFns ℚ]
  {s : SchedulerBatcher S Stmt} {c : C} {h : Bandits} {size n : Nat} {order : HashOrder ID} {draws : List Draw}
  {b : Batch (SchedulerBatcher S Stmt) C Stmt}

/-- The inner scheduler owns its arms, and what waits in the batch has its own. -/
structure Owns (owner : Owner) (s : SchedulerBatcher S Stmt) : Prop where
  inner : ArmedSchedule.Owns Stmt owner s.innerScheduler
  batch : ∀ item ∈ s.batch, Hooked owner (ArmedSchedule.passesArm S Stmt) item.1

theorem nextArm_energize (h : Bandits) (items : List (TestableEntry (RawEntry Stmt))) :
    (energize h items).2.nextArm = h.nextArm := by
  induction items generalizing h with
  | nil => rfl
  | cons item items ih =>
    refine (ih _).trans ?_
    show (calculatePersistence h item).2.nextArm = h.nextArm
    unfold calculatePersistence
    split <;> rfl

theorem nextArm_refillIf {needed : Bool} (hb : s.refillIf needed c size h order draws = some b) :
    b.bandits.nextArm = h.nextArm := by
  unfold refillIf at hb
  split at hb
  · obtain ⟨b', hinner, hb⟩ := Option.bind_eq_some_iff.1 hb
    cases hb
    exact (nextArm_energize _ _).trans (ArmedSchedule.nextArm_nextBatch _ _ _ _ _ _ _ hinner)
  · cases hb
    rfl

theorem nextArm_fill (hb : fill size order n s c h draws = some b) : b.bandits.nextArm = h.nextArm := by
  induction n generalizing s c h draws b with
  | zero =>
    cases hb
    rfl
  | succ n ih =>
    unfold fill at hb
    obtain ⟨b₁, hrefill, hb⟩ := Option.bind_eq_some_iff.1 hb
    obtain ⟨⟨u, rest⟩, -, hb⟩ := Option.bind_eq_some_iff.1 hb
    obtain ⟨⟨entry, s'⟩, -, hb⟩ := Option.bind_eq_some_iff.1 hb
    obtain ⟨b₂, hfill, hb⟩ := Option.bind_eq_some_iff.1 hb
    cases hb
    exact (ih hfill).trans (nextArm_refillIf hrefill)

instance : ArmedSchedule (SchedulerBatcher S Stmt) Stmt where
  new body := ⟨ArmedSchedule.new Stmt body, []⟩
  passesArm := ArmedSchedule.passesArm S Stmt
  Owns := Owns
  owns_new body := ⟨ArmedSchedule.owns_new body, by simp⟩
  owns_extends owner owner' s hs hext :=
    ⟨ArmedSchedule.owns_extends _ _ _ hs.inner hext, fun item hitem => (hs.batch item hitem).extends hext⟩
  owns_onAdd owner s h e score s' h' hs heq hnew := by
    obtain ⟨⟨score', inner, h''⟩, hinner, heq⟩ := Option.map_eq_some_iff.1 heq
    cases heq
    exact ⟨ArmedSchedule.owns_onAdd _ _ _ _ _ _ _ hs.inner hinner hnew, hs.batch⟩
  owns_onRemove owner s id s' hs heq := by
    obtain ⟨inner, hinner, rfl⟩ := Option.map_eq_some_iff.1 heq
    exact ⟨ArmedSchedule.owns_onRemove _ _ _ _ hs.inner hinner, hs.batch⟩
  owns_chore owner s hs := ⟨ArmedSchedule.owns_chore _ _ hs.inner, hs.batch⟩
  owns_reset owner s h hs := ⟨ArmedSchedule.owns_reset _ _ _ hs.inner, fun _ hitem => by cases hitem⟩
  owns_nextBatch owner s c size h order draws b hs hc hb := by
    obtain ⟨⟨⟨hinner, hcorpus⟩, hbatch⟩, hmembers⟩ := nextBatch_forall
      (J := fun s c => ArmedSchedule.Owns Stmt owner s ∧ FaithfulCorpus.Faithful Stmt c)
      (Q := Hooked owner (ArmedSchedule.passesArm S Stmt))
      (fun s c size h order draws b hJ hb => ArmedSchedule.owns_nextBatch owner s c size h order draws b hJ.1 hJ.2 hb)
      ⟨hs.inner, hc⟩ hs.batch hb
    exact ⟨⟨⟨hinner, hbatch⟩, hcorpus⟩, hmembers⟩
  nextArm_onAdd s h e score s' h' heq := by
    obtain ⟨⟨score', inner, h''⟩, hinner, heq⟩ := Option.map_eq_some_iff.1 heq
    cases heq
    exact ArmedSchedule.nextArm_onAdd _ _ _ _ _ _ hinner
  nextArm_reset s h := ArmedSchedule.nextArm_reset s.innerScheduler h
  nextArm_nextBatch s c size h order draws b hb := by
    obtain ⟨b₁, hrefill, hb⟩ := Option.bind_eq_some_iff.1 hb
    exact (nextArm_fill hb).trans (nextArm_refillIf hrefill)

end SchedulerBatcher

end Lsf.Engine
