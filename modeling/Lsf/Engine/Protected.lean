import Lsf.Engine.DynamicCorpus
import Lsf.Lib.Run
import Lsf.Lib.SelectNth

/-!
# Protected entries

`DynamicCorpus` protects what is in flight, and fills up to 15% of its size with the best scores. The fill is taken from
all entries, those in flight included, so that the quota is met by every choice among ties exactly if it is small or
nothing in flight is among the best (`protectsEnough_iff`).
-/

namespace Lsf.Engine.DynamicCorpus

open Lsf.Core Lsf.Lib

variable {Stmt B Q : Type}

/-- The ids with their scores, in the order of the iteration. -/
def scores (c : DynamicCorpus Stmt B Q) : List (ID × F64) :=
  (c.caps.order.list c.ids).filterMap fun id => (c.index.lookup id).map fun data => (id, data.score)

/-- `(self.size() as f64 * PROTECTED_RATIO) as usize`. -/
def quota (c : DynamicCorpus Stmt B Q) : Nat := c.size * 15 / 100

/-- How many the best scores fill up. -/
def target (c : DynamicCorpus Stmt B Q) : Nat := c.quota - c.inFlight.len

/-- `protected_ids`, for a choice of `select_nth_unstable_by`. -/
def protectedIdsBy (s : SelectNth (Prod.snd : ID × F64 → F64)) (c : DynamicCorpus Stmt B Q) : Finset ID :=
  let protectd := c.inFlight.keys.toFinset
  if c.target = 0 then protectd else
    if c.target < c.scores.length then protectd ∪ ((s.top c.scores c.target).map Prod.fst).toFinset
    else protectd ∪ (c.scores.map Prod.fst).toFinset

theorem protectedIds_eq (c : DynamicCorpus Stmt B Q) : c.protectedIds = c.protectedIdsBy (.sorted Prod.snd) := rfl

variable {c : DynamicCorpus Stmt B Q} {s : SelectNth (Prod.snd : ID × F64 → F64)} {id : ID}

/-! ## The scores -/

theorem mem_scores {p : ID × F64} :
    p ∈ c.scores ↔ ∃ data, c.index.lookup p.1 = some data ∧ p.2 = data.score := by
  unfold scores
  rw [List.mem_filterMap]
  constructor
  · rintro ⟨id, -, hp⟩
    obtain ⟨data, hdata, rfl⟩ := Option.map_eq_some_iff.1 hp
    exact ⟨data, hdata, rfl⟩
  · rintro ⟨data, hdata, hscore⟩
    refine ⟨p.1, (c.caps.order.mem _ _).2 (HashMap.mem_keySet.2 (by rw [hdata]; rfl)), ?_⟩
    rw [hdata, Option.map_some, ← hscore]

theorem map_fst_scores (c : DynamicCorpus Stmt B Q) : c.scores.map Prod.fst = c.caps.order.list c.ids := by
  unfold scores
  rw [List.map_filterMap]
  have hsome : ∀ id ∈ c.caps.order.list c.ids,
      ((c.index.lookup id).map fun data => (id, data.score)).map Prod.fst = some id := by
    intro id hid
    obtain ⟨data, hdata⟩ := Option.isSome_iff_exists.1 (HashMap.mem_keySet.1 ((c.caps.order.mem _ _).1 hid))
    rw [hdata]
    rfl
  rw [List.filterMap_congr hsome, List.filterMap_some]

theorem nodup_scores (c : DynamicCorpus Stmt B Q) : (c.scores.map Prod.fst).Nodup := by
  rw [map_fst_scores]
  exact c.caps.order.nodup _

theorem length_scores (c : DynamicCorpus Stmt B Q) : c.scores.length = c.size := by
  rw [← List.length_map (f := Prod.fst), ← List.toFinset_card_of_nodup (nodup_scores c), map_fst_scores]
  have hids : (c.caps.order.list c.ids).toFinset = c.ids := by
    ext id
    rw [List.mem_toFinset, c.caps.order.mem]
  rw [hids]
  exact HashMap.card_keySet c.index

theorem target_lt (h : c.target ≠ 0) : c.target < c.scores.length := by
  rw [length_scores]
  unfold target quota at *
  omega

/-! ## The best scores -/

/-- The ids of the best scores. -/
def topIds (s : SelectNth (Prod.snd : ID × F64 → F64)) (c : DynamicCorpus Stmt B Q) : Finset ID :=
  ((s.top c.scores c.target).map Prod.fst).toFinset

theorem protectedIdsBy_of_target (h : c.target = 0) : c.protectedIdsBy s = c.inFlight.keys.toFinset := if_pos h

theorem protectedIdsBy_eq (h : c.target ≠ 0) : c.protectedIdsBy s = c.inFlight.keys.toFinset ∪ c.topIds s := by
  unfold protectedIdsBy topIds
  simp only [h, target_lt h, if_true, if_false]

theorem mem_topIds : id ∈ c.topIds s ↔ ∃ x, (id, x) ∈ s.top c.scores c.target := by
  unfold topIds
  rw [List.mem_toFinset, List.mem_map]
  constructor
  · rintro ⟨p, hp, rfl⟩
    exact ⟨p.2, hp⟩
  · rintro ⟨x, hx⟩
    exact ⟨_, hx, rfl⟩

theorem mem_topIds_of_scores {x : F64} (hx : (id, x) ∈ c.scores) :
    id ∈ c.topIds s ↔ (id, x) ∈ s.top c.scores c.target := by
  rw [mem_topIds]
  constructor
  · rintro ⟨y, hy⟩
    obtain ⟨data, hdata, rfl⟩ := mem_scores.1 hx
    obtain ⟨data', hdata', rfl⟩ := mem_scores.1 (s.mem_of_mem_top hy)
    rw [hdata] at hdata'
    cases hdata'
    exact hy
  · intro h
    exact ⟨x, h⟩

theorem card_topIds (h : c.target ≠ 0) : (c.topIds s).card = c.target := by
  have hnodup : ((s.top c.scores c.target).map Prod.fst).Nodup := by
    have hperm := (s.perm c.scores (c.scores.length - c.target)).map Prod.fst
    exact (hperm.nodup_iff.2 (nodup_scores c)).sublist ((List.drop_sublist _ _).map _)
  unfold topIds
  rw [List.toFinset_card_of_nodup hnodup, List.length_map, s.length_top (target_lt h).le]

theorem card_inFlight (c : DynamicCorpus Stmt B Q) : c.inFlight.keys.toFinset.card = c.inFlight.len :=
  (List.toFinset_card_of_nodup c.inFlight.nodup).trans (List.length_map _)

/-- The quota is met exactly if the best scores and what is in flight are apart. -/
theorem quota_le_card_iff (h : c.target ≠ 0) :
    c.quota ≤ (c.protectedIdsBy s).card ↔ ∀ id ∈ c.inFlight.keys, id ∉ c.topIds s := by
  have hcard := Finset.card_union_add_card_inter c.inFlight.keys.toFinset (c.topIds s)
  rw [card_inFlight, card_topIds h, ← protectedIdsBy_eq h] at hcard
  have hquota : c.quota = c.inFlight.len + c.target := by
    unfold target at *
    omega
  constructor
  · intro hle id hid htop
    have hmem : id ∈ c.inFlight.keys.toFinset ∩ c.topIds s := Finset.mem_inter.2 ⟨List.mem_toFinset.2 hid, htop⟩
    have hpos := Finset.card_pos.2 ⟨id, hmem⟩
    omega
  · intro hapart
    have hnil : (c.inFlight.keys.toFinset ∩ c.topIds s).card = 0 := by
      rw [Finset.card_eq_zero, Finset.eq_empty_iff_forall_notMem]
      intro id hid
      obtain ⟨hin, htop⟩ := Finset.mem_inter.1 hid
      exact hapart id (List.mem_toFinset.1 hin) htop
    omega

/-! ## The exact condition -/

def scoreOf (c : DynamicCorpus Stmt B Q) (id : ID) : Option F64 := (c.index.lookup id).map EntryData.score

/-- The ids with a greater score. -/
def better (c : DynamicCorpus Stmt B Q) (id : ID) : Finset ID :=
  c.ids.filter fun j => ∃ x ∈ c.scoreOf id, ∃ y ∈ c.scoreOf j, x < y

/-- What is in flight fills the quota, or each entry in flight is beaten by as many as are filled up. -/
def FlightBeaten (c : DynamicCorpus Stmt B Q) : Prop :=
  c.quota ≤ c.inFlight.len ∨ ∀ id ∈ c.inFlight.keys, c.target ≤ (c.better id).card

instance (c : DynamicCorpus Stmt B Q) : Decidable c.FlightBeaten := inferInstanceAs (Decidable (_ ∨ _))

theorem card_better {x : F64} (hx : (id, x) ∈ c.scores) :
    (c.better id).card = c.scores.countP fun p => x < p.2 := by
  obtain ⟨data, hdata, rfl⟩ := mem_scores.1 hx
  have hbetter : c.better id = ((c.scores.filter fun p => data.score < p.2).map Prod.fst).toFinset := by
    ext j
    unfold better scoreOf
    rw [Finset.mem_filter, hdata, List.mem_toFinset, List.mem_map]
    constructor
    · rintro ⟨-, x, hx, y, hy, hlt⟩
      cases hx
      obtain ⟨data', hdata', rfl⟩ := Option.map_eq_some_iff.1 hy
      exact ⟨(j, data'.score), List.mem_filter.2 ⟨mem_scores.2 ⟨data', hdata', rfl⟩, decide_eq_true hlt⟩, rfl⟩
    · rintro ⟨p, hp, rfl⟩
      obtain ⟨hp, hlt⟩ := List.mem_filter.1 hp
      obtain ⟨data', hdata', hscore⟩ := mem_scores.1 hp
      refine ⟨HashMap.mem_keySet.2 (by rw [hdata']; rfl), _, rfl, p.2, ?_, of_decide_eq_true hlt⟩
      rw [hdata', hscore]
      rfl
  rw [hbetter, List.toFinset_card_of_nodup ((nodup_scores c).sublist (List.filter_sublist.map _)), List.length_map,
    List.countP_eq_length_filter]

/-- What a corpus owes to those who rely on its protected ids. -/
structure ProtectsEnough (c : DynamicCorpus Stmt B Q) (protectd : Finset ID) : Prop where
  inFlight : ∀ id ∈ c.inFlight.keys, id ∈ protectd
  subset : protectd ⊆ c.ids
  enough : c.size * 15 / 100 ≤ protectd.card
  best : ∀ id ∉ protectd, ∀ id' ∈ protectd, id' ∉ c.inFlight.keys →
    ∀ x ∈ c.scoreOf id, ∀ x' ∈ c.scoreOf id', ¬x' < x

theorem exists_mem_scores (h : id ∈ c.ids) : ∃ x, (id, x) ∈ c.scores := by
  obtain ⟨data, hdata⟩ := Option.isSome_iff_exists.1 (HashMap.mem_keySet.1 h)
  exact ⟨data.score, mem_scores.2 ⟨data, hdata, rfl⟩⟩

/-- An entry is among the best scores of no choice exactly if as many as are filled up beat it. -/
theorem forall_notMem_topIds_iff (h : c.target ≠ 0) (hid : id ∈ c.ids) :
    (∀ s, id ∉ c.topIds s) ↔ c.target ≤ (c.better id).card := by
  obtain ⟨x, hx⟩ := exists_mem_scores hid
  simp only [mem_topIds_of_scores hx]
  rw [SelectNth.forall_notMem_top_iff hx (Nat.pos_of_ne_zero h) (target_lt h).le, card_better hx]

/-- Every choice meets the quota exactly if what is in flight is beaten. -/
theorem forall_quota_le_iff (h : ∀ id ∈ c.inFlight.keys, id ∈ c.ids) :
    (∀ s, c.quota ≤ (c.protectedIdsBy s).card) ↔ c.FlightBeaten := by
  by_cases htarget : c.target = 0
  · have hle : c.quota ≤ c.inFlight.len := by
      unfold target at htarget
      omega
    refine iff_of_true (fun s => ?_) (.inl hle)
    rw [protectedIdsBy_of_target htarget, card_inFlight]
    exact hle
  · have hlt : ¬c.quota ≤ c.inFlight.len := by
      unfold target at htarget
      omega
    simp only [quota_le_card_iff htarget, FlightBeaten, hlt, false_or]
    rw [forall_comm]
    refine forall_congr' fun id => ?_
    rw [forall_comm]
    exact forall_congr' fun hid => forall_notMem_topIds_iff htarget (h id hid)

/-- Whatever is in flight, only entries are protected, and the best scores among the others. -/
theorem protects (h : ∀ id ∈ c.inFlight.keys, id ∈ c.ids) (s : SelectNth (Prod.snd : ID × F64 → F64)) :
    (∀ id ∈ c.inFlight.keys, id ∈ c.protectedIdsBy s) ∧ c.protectedIdsBy s ⊆ c.ids ∧
      ∀ id ∉ c.protectedIdsBy s, ∀ id' ∈ c.protectedIdsBy s, id' ∉ c.inFlight.keys →
        ∀ x ∈ c.scoreOf id, ∀ x' ∈ c.scoreOf id', ¬x' < x := by
  by_cases htarget : c.target = 0
  · rw [protectedIdsBy_of_target htarget]
    refine ⟨fun id hid => List.mem_toFinset.2 hid, fun id hid => h id (List.mem_toFinset.1 hid), ?_⟩
    intro id _ id' hid' hno
    exact absurd (List.mem_toFinset.1 hid') hno
  · rw [protectedIdsBy_eq htarget]
    refine ⟨fun id hid => Finset.mem_union_left _ (List.mem_toFinset.2 hid), fun id hid => ?_, ?_⟩
    · rcases Finset.mem_union.1 hid with hid | hid
      · exact h id (List.mem_toFinset.1 hid)
      · obtain ⟨x, hx⟩ := mem_topIds.1 hid
        obtain ⟨data, hdata, -⟩ := mem_scores.1 (s.mem_of_mem_top hx)
        exact HashMap.mem_keySet.2 (by rw [hdata]; rfl)
    · intro id hid id' hid' hno x hx x' hx'
      have htop : id' ∈ c.topIds s :=
        (Finset.mem_union.1 hid').resolve_left fun hin => hno (List.mem_toFinset.1 hin)
      have hmem : ∀ {j y}, y ∈ c.scoreOf j → (j, y) ∈ c.scores := by
        intro j y hy
        obtain ⟨data, hdata, rfl⟩ := Option.map_eq_some_iff.1 hy
        exact mem_scores.2 ⟨data, hdata, rfl⟩
      have hout : (id, x) ∉ s.top c.scores c.target := fun hin =>
        hid (Finset.mem_union_right _ ((mem_topIds_of_scores (hmem hx)).2 hin))
      have hin : (id', x') ∈ s.top c.scores c.target := (mem_topIds_of_scores (hmem hx')).1 htop
      exact not_lt.2 (s.key_le_of_notMem_top (hmem hx) hout hin (Nat.pos_of_ne_zero htarget) (target_lt htarget).le)

/-- **Exactly when enough entries are protected**, whatever the selection does with ties: the quota is filled by what is
in flight, or the best scores are not. -/
theorem protectsEnough_iff (h : ∀ id ∈ c.inFlight.keys, id ∈ c.ids) :
    (∀ s, ProtectsEnough c (c.protectedIdsBy s)) ↔ c.FlightBeaten := by
  rw [← forall_quota_le_iff h]
  constructor
  · intro hall s
    exact (hall s).enough
  · intro hquota s
    obtain ⟨hflight, hsub, hbest⟩ := protects h s
    exact ⟨hflight, hsub, hquota s, hbest⟩

/-! ## A run -/

/-- An entry of a given score. -/
def plainEntry (n : Nat) : CorpusEntry Nat := ⟨⟨⟨n.toUInt32⟩, [], [n]⟩, .default⟩

/-- A seed stays in flight, and thirteen entries leave it when they are scored twice. -/
def seedInFlight : List (CorpusOp Nat) :=
  (List.range 13).map (fun n => .insert (plainEntry n) (.fin n)) ++ [.insert (plainEntry 13) .posInf] ++
    (List.range 13).map (fun n => .update ⟨n.toUInt32⟩ (.fin n)) ++
    (List.range 13).map (fun n => .update ⟨n.toUInt32⟩ (.fin n))

/-- A corpus in memory, before it is filled. -/
def plainCorpus : DynamicCorpus Nat (InMemory (AST Nat)) (ListQueue ID F64.Reverse) := new (.source (.sorted ID)) .new

/-- Two entries, both in flight. -/
theorem protectsEnough_iff_two :
    ∃ c, run CorpusOp.step plainCorpus [.insert (plainEntry 1) (.fin 1), .insert (plainEntry 2) .posInf] = some c ∧
      c.inFlight.keys = [⟨1⟩, ⟨2⟩] ∧ ((∀ s, ProtectsEnough c (c.protectedIdsBy s)) ↔ c.FlightBeaten) := by
  refine ⟨_, rfl, by decide, protectsEnough_iff ?_⟩
  decide

/-- The seed is the best entry, so that it counts twice: one entry is protected, where two should be. -/
theorem not_protectsEnough_seedInFlight :
    ∃ c, run CorpusOp.step plainCorpus seedInFlight = some c ∧ (∀ id ∈ c.inFlight.keys, id ∈ c.ids) ∧
      ¬∀ s, ProtectsEnough c (c.protectedIdsBy s) := by
  have hrun : (run CorpusOp.step plainCorpus seedInFlight).map
      (fun c => (decide (∀ id ∈ c.inFlight.keys, id ∈ c.ids), decide c.FlightBeaten)) = some (true, false) := by
    decide +kernel
  obtain ⟨c, hrun, hc⟩ := Option.map_eq_some_iff.1 hrun
  obtain ⟨hin, hno⟩ := Prod.mk.inj hc
  refine ⟨c, hrun, of_decide_eq_true hin, fun hall => ?_⟩
  exact of_decide_eq_false hno ((forall_quota_le_iff (of_decide_eq_true hin)).1 fun s => (hall s).enough)

end Lsf.Engine.DynamicCorpus
