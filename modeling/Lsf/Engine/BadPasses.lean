import Lsf.Engine.Exact
import Lsf.Engine.Generations

/-!
# Culling on schedule

A pass of the minimizer is bad for an entry that owns no edge, is not protected by the corpus and is not in the
diversity window. Along every run of a session in which nothing is cleared and each id is inserted at most once, an
entry goes at the bad pass that is one too many, from the corpus and from the scheduler, and at no other step
(`culled_on_schedule`). The invariant is that the rotation counts are the numbers of bad passes, from zero on
(`OnSchedule`).
-/

namespace Lsf.Engine

open Lsf.Core Lsf.Lib Lsf.Cov Lsf.Feedback

/-! ## Counts -/

namespace GreedyCoverage

/-- The counts are kept from zero on: the next count of an entry is the number of its bad passes so far. -/
theorem toNat_nextCount {n : Option UInt8} {b : Nat} (hn : n.map UInt8.toNat = if 0 < b then some (b - 1) else none)
    (hb : b ≤ cullAfter.toNat) : (nextCount n).toNat = b := by
  have hcull : cullAfter.toNat = 5 := rfl
  rw [hcull] at hb
  unfold nextCount
  cases n with
  | none =>
    split at hn
    · cases hn
    · simp only [Option.map_none, Option.getD_none, UInt8.toNat_zero]
      omega
  | some n =>
    split at hn
    · have hval : n.toNat = b - 1 := Option.some.inj hn
      simp only [Option.map_some, Option.getD_some, UInt8.toNat_add, UInt8.reduceToNat]
      omega
    · cases hn

end GreedyCoverage

/-! ## Passes -/

namespace RawEngine

variable {C S M Stmt : Type} [CorpusHandler C Stmt] [Schedule S Stmt]

/-- The entries that a pass would be bad for: outside `best_edges`, `protected_ids` and the diversity window. -/
def bad (Stmt : Type) [CorpusHandler C Stmt] [Schedule S Stmt] (e : RawEngine C S M) : Finset ID :=
  e.minimizer.badEntries (e.resize Stmt).corpus

variable [LawfulCorpus C]

theorem mem_bad {e : RawEngine C S M} {id : ID} : id ∈ e.bad Stmt ↔ id ∈ CorpusHandler.ids e.corpus ∧
    id ∉ e.minimizer.bestEdges.getBestEntries ∧ id ∉ CorpusHandler.protectedIds (CorpusHandler.resize e.corpus) ∧
    id ∉ e.minimizer.diversity.entries := by
  have hids : CorpusHandler.ids (e.resize Stmt).corpus = CorpusHandler.ids e.corpus := LawfulCorpus.ids_resize _
  unfold bad GreedyCoverage.badEntries GreedyCoverage.protectd
  rw [Finset.mem_sdiff, hids]
  simp only [Finset.mem_union, List.mem_toFinset, not_or, and_assoc]
  rfl

/-- **`chore`, id by id**: a pass counts the bad entries, and those that were counted often enough go. -/
theorem chore_counts {e e' : RawEngine C S M} {order : HashOrder ID} (h : e.chore Stmt order = some e') (id : ID) :
    e'.minimizer.gcRotation.lookup id = (if e.minimizes Stmt ∧ id ∈ e.bad Stmt then
        GreedyCoverage.keptCount (e.minimizer.gcRotation.lookup id) else e.minimizer.gcRotation.lookup id) ∧
      (id ∈ CorpusHandler.ids e'.corpus ↔ id ∈ CorpusHandler.ids e.corpus ∧ (e.minimizes Stmt ∧ id ∈ e.bad Stmt →
        GreedyCoverage.nextCount (e.minimizer.gcRotation.lookup id) < cullAfter)) := by
  rw [chore_eq] at h
  split at h
  · rename_i hdue
    obtain ⟨⟨m, c, s⟩, hminimize, h⟩ := Option.bind_eq_some_iff.1 h
    cases h
    obtain ⟨-, -, hcounts, hids⟩ := GreedyCoverage.minimize_counts hminimize
    have hresize : CorpusHandler.ids (e.resize Stmt).corpus = CorpusHandler.ids e.corpus := LawfulCorpus.ids_resize _
    rw [hresize] at hids
    simp only [hdue, true_and]
    exact ⟨hcounts id, hids id⟩
  · rename_i hdue
    cases h
    have hresize : CorpusHandler.ids (e.resize Stmt).corpus = CorpusHandler.ids e.corpus := LawfulCorpus.ids_resize _
    rw [hresize]
    have hno : ¬(e.minimizes Stmt = true ∧ id ∈ e.bad Stmt) := fun h => hdue h.1
    rw [if_neg hno]
    exact ⟨rfl, by simp [hno]⟩

end RawEngine

/-! ## Runs -/

/-- A session, the ids that were inserted so far, and the number of passes that were bad for each id. -/
structure PassRun (C S M : Type) where
  session : Session C S M
  inserted : List ID
  badPasses : ID → Nat

namespace PassRun

variable {C S M Stmt : Type} [CorpusHandler C Stmt] [Schedule S Stmt] [MutationStrategy M Stmt] [Hasher Stmt]
  [FloatFns ℚ]

def start (s : Session C S M) : PassRun C S M := ⟨s, [], fun _ => 0⟩

/-- The entries that a step is a bad pass for. -/
def badFor (s : Session C S M) : Op M Stmt → Finset ID
  | .chore _ => if s.engine.minimizes Stmt then s.engine.bad Stmt else ∅
  | _ => ∅

def step (r : PassRun C S M) (op : Op M Stmt) : Option (PassRun C S M) :=
  (r.session.step op).map fun s =>
    ⟨s, r.inserted ++ r.session.inserts op, fun id => r.badPasses id + if id ∈ badFor r.session op then 1 else 0⟩

/-- Nothing is cleared, and what is inserted was never inserted before. -/
def InsertsOnce (r : PassRun C S M) : Op M Stmt → Prop
  | .clear => False
  | op => (r.session.inserts op).Nodup ∧ ∀ id ∈ r.session.inserts op, id ∉ r.inserted

instance (r : PassRun C S M) : ∀ op : Op M Stmt, Decidable (InsertsOnce r op)
  | .clear => isFalse id
  | .recv | .write _ _ | .returnToken _ | .commitTestResult _ _ _ | .commitGeneration _ | .populate _
  | .mutateBatch _ _ _ _ | .snapshot _ | .chore _ | .clearStrategies | .addStrategy _ | .addMabBody _ =>
    inferInstanceAs (Decidable (_ ∧ _))

/-! ## The counts are the bad passes -/

variable [LawfulCorpus C] [LawfulSchedule S Stmt] [ExactSchedule S Stmt] {r r' : PassRun C S M} {op : Op M Stmt}

/-- **The counts are the bad passes**, from zero on, and the scheduler is in step with the corpus. -/
structure OnSchedule (Stmt : Type) [CorpusHandler C Stmt] [Schedule S Stmt] [LawfulCorpus C] [LawfulSchedule S Stmt]
    [ExactSchedule S Stmt] (r : PassRun C S M) : Prop where
  valid : LawfulSchedule.Valid Stmt r.session.engine.scheduler
  keys : ExactSchedule.keys Stmt r.session.engine.scheduler = CorpusHandler.ids r.session.engine.corpus
  inserted : ∀ id ∈ CorpusHandler.ids r.session.engine.corpus, id ∈ r.inserted
  fresh : ∀ id ∉ r.inserted, r.badPasses id = 0
  counts : ∀ id, (r.session.engine.minimizer.gcRotation.lookup id).map UInt8.toNat =
    if id ∈ CorpusHandler.ids r.session.engine.corpus ∧ 0 < r.badPasses id then some (r.badPasses id - 1) else none
  bound : ∀ id ∈ CorpusHandler.ids r.session.engine.corpus, r.badPasses id ≤ cullAfter.toNat

omit [MutationStrategy M Stmt] [Hasher Stmt] [FloatFns ℚ] in
theorem onSchedule_start {s : Session C S M} (hv : LawfulSchedule.Valid Stmt s.engine.scheduler)
    (hkeys : ExactSchedule.keys Stmt s.engine.scheduler = CorpusHandler.ids s.engine.corpus)
    (hids : CorpusHandler.ids s.engine.corpus = ∅) (hrotation : s.engine.minimizer.gcRotation = ∅) :
    OnSchedule Stmt (start s) where
  valid := hv
  keys := hkeys
  inserted id hid := by simp [start, hids] at hid
  fresh _ _ := rfl
  counts id := by simp [start, hids, hrotation]
  bound _ _ := Nat.zero_le _

omit [MutationStrategy M Stmt] [Hasher Stmt] [FloatFns ℚ] in
/-- The next count of an entry is the number of its bad passes so far. -/
theorem OnSchedule.toNat_nextCount (h : OnSchedule Stmt r) {id : ID}
    (hid : id ∈ CorpusHandler.ids r.session.engine.corpus) :
    (GreedyCoverage.nextCount (r.session.engine.minimizer.gcRotation.lookup id)).toNat = r.badPasses id := by
  have hcount := h.counts id
  simp only [hid, true_and] at hcount
  exact GreedyCoverage.toNat_nextCount hcount (h.bound id hid)

omit [MutationStrategy M Stmt] in
theorem OnSchedule.adds (h : OnSchedule Stmt r) {s' : Session C S M}
    (hadds : RawEngine.Adds Stmt (r.session.inserts op).toFinset r.session.engine s'.engine)
    (honce : ∀ id ∈ r.session.inserts op, id ∉ r.inserted) :
    OnSchedule Stmt (⟨s', r.inserted ++ r.session.inserts op, r.badPasses⟩ : PassRun C S M) where
  valid := hadds.valid
  keys := by rw [hadds.keys, hadds.ids, h.keys]
  inserted id hid := by
    rw [hadds.ids, Finset.mem_union, List.mem_toFinset] at hid
    exact List.mem_append.2 (hid.imp_left (h.inserted id))
  fresh id hid := h.fresh id fun hin => hid (List.mem_append_left _ hin)
  counts id := by
    rw [hadds.gcRotation, h.counts, hadds.ids]
    by_cases hnew : id ∈ r.session.inserts op
    · have hzero := h.fresh id (honce id hnew)
      simp [hzero]
    · simp [hnew]
  bound id hid := by
    rw [hadds.ids, Finset.mem_union, List.mem_toFinset] at hid
    rcases hid with hid | hid
    · exact h.bound id hid
    · rw [h.fresh id (honce id hid)]
      exact Nat.zero_le _

omit [MutationStrategy M Stmt] [Hasher Stmt] [FloatFns ℚ] [LawfulCorpus C] [LawfulSchedule S Stmt] [ExactSchedule S Stmt] in
theorem mem_badFor_chore {s : Session C S M} {order : HashOrder ID} {id : ID} :
    id ∈ badFor s (.chore order : Op M Stmt) ↔ s.engine.minimizes Stmt ∧ id ∈ s.engine.bad Stmt := by
  show id ∈ (if s.engine.minimizes Stmt then s.engine.bad Stmt else ∅) ↔ _
  split <;> simp_all

omit [MutationStrategy M Stmt] [Hasher Stmt] [FloatFns ℚ] [LawfulCorpus C] [LawfulSchedule S Stmt]
  [ExactSchedule S Stmt] in
theorem badFor_eq_empty {s : Session C S M} (hop : ¬∃ order, op = .chore order) : badFor s op = ∅ := by
  cases op with
  | chore order => exact absurd ⟨order, rfl⟩ hop
  | _ => rfl

omit [MutationStrategy M Stmt] [LawfulCorpus C] [LawfulSchedule S Stmt] [ExactSchedule S Stmt] in
theorem InsertsOnce.fresh (h : InsertsOnce r op) : ∀ id ∈ r.session.inserts op, id ∉ r.inserted := by
  cases op with
  | clear => exact h.elim
  | _ => exact h.2

omit [MutationStrategy M Stmt] [Hasher Stmt] [FloatFns ℚ] in
/-- An entry goes in a `chore` exactly if that is its bad pass too many. -/
theorem OnSchedule.mem_ids_chore (h : OnSchedule Stmt r) {order : HashOrder ID} {e' : RawEngine C S M}
    (hchore : r.session.engine.chore Stmt order = some e') (id : ID) :
    id ∈ CorpusHandler.ids e'.corpus ↔ id ∈ CorpusHandler.ids r.session.engine.corpus ∧
      (id ∈ badFor r.session (.chore order : Op M Stmt) → r.badPasses id < cullAfter.toNat) := by
  rw [(RawEngine.chore_counts hchore id).2, mem_badFor_chore]
  refine and_congr_right fun hid => ?_
  rw [UInt8.lt_iff_toNat_lt, h.toNat_nextCount hid]

omit [MutationStrategy M Stmt] [Hasher Stmt] [FloatFns ℚ] in
theorem OnSchedule.chore (h : OnSchedule Stmt r) {order : HashOrder ID} {e' : RawEngine C S M}
    (hchore : r.session.engine.chore Stmt order = some e') :
    OnSchedule Stmt (⟨{ r.session with engine := e' }, r.inserted,
      fun id => r.badPasses id + if id ∈ badFor r.session (.chore order : Op M Stmt) then 1 else 0⟩ :
        PassRun C S M) where
  valid := by
    obtain ⟨e₁, heq, hswept⟩ := RawEngine.chore_spec order h.valid
    obtain rfl : e₁ = e' := Option.some.inj (heq.symm.trans hchore)
    exact hswept.valid
  keys := RawEngine.keys_chore h.keys hchore
  inserted id hid := h.inserted id ((h.mem_ids_chore hchore id).1 hid).1
  fresh id hid := by
    have hno : id ∉ badFor r.session (.chore order : Op M Stmt) := by
      intro hbad
      exact hid (h.inserted id (RawEngine.mem_bad.1 (mem_badFor_chore.1 hbad).2).1)
    simp only [hno, if_false, Nat.add_zero]
    exact h.fresh id hid
  counts id := by
    have hmem : id ∈ badFor r.session (.chore order : Op M Stmt) ↔
        r.session.engine.minimizes Stmt ∧ id ∈ r.session.engine.bad Stmt := mem_badFor_chore
    simp only [(RawEngine.chore_counts hchore id).1, h.mem_ids_chore hchore id, ← hmem]
    by_cases hbad : id ∈ badFor r.session (.chore order : Op M Stmt)
    · have hid := (RawEngine.mem_bad.1 (mem_badFor_chore.1 hbad).2).1
      have hnext := h.toNat_nextCount hid
      simp only [hbad, if_true, hid, true_and, true_imp_iff, GreedyCoverage.keptCount]
      -- the count is what the bad passes were; the entry goes, or has one more
      split
      · rename_i hge
        have hlt : ¬r.badPasses id < cullAfter.toNat := by
          rw [← hnext, ← UInt8.lt_iff_toNat_lt]
          exact UInt8.not_lt.2 hge
        simp [hlt]
      · rename_i hge
        have hlt : r.badPasses id < cullAfter.toNat := by
          rw [← hnext, ← UInt8.lt_iff_toNat_lt]
          exact UInt8.not_le.1 hge
        simp [hlt, hnext]
    · simp [hbad, h.counts]
  bound id hid := by
    obtain ⟨hin, hlt⟩ := (h.mem_ids_chore hchore id).1 hid
    have hle := h.bound id hin
    dsimp only
    split
    · rename_i hbad
      exact hlt hbad
    · exact hle

/-- **One step keeps the schedule.** -/
theorem OnSchedule.step (h : OnSchedule Stmt r) (honce : InsertsOnce r op) (hs : r.step op = some r') :
    OnSchedule Stmt r' := by
  obtain ⟨s', hstep, rfl⟩ := Option.map_eq_some_iff.1 hs
  by_cases hop : ∃ order, op = .chore order
  · obtain ⟨order, rfl⟩ := hop
    obtain ⟨e', hchore, rfl⟩ := Option.map_eq_some_iff.1 hstep
    have hnone : r.session.inserts (.chore order : Op M Stmt) = [] := rfl
    rw [hnone, List.append_nil]
    exact h.chore hchore
  · rcases Session.step_adds h.valid hstep with hchore | rfl | hadds
    · exact absurd hchore hop
    · exact honce.elim
    · simp only [badFor_eq_empty hop, Finset.notMem_empty, if_false, Nat.add_zero]
      exact h.adds hadds honce.fresh

/-- **An entry goes at its last bad pass**, and at no other step. -/
theorem OnSchedule.removed_iff (h : OnSchedule Stmt r) (honce : InsertsOnce r op) (hs : r.step op = some r') {id : ID}
    (hid : id ∈ CorpusHandler.ids r.session.engine.corpus) :
    id ∉ CorpusHandler.ids r'.session.engine.corpus ↔
      id ∈ badFor r.session op ∧ r'.badPasses id = cullAfter.toNat + 1 := by
  obtain ⟨s', hstep, rfl⟩ := Option.map_eq_some_iff.1 hs
  by_cases hop : ∃ order, op = .chore order
  · obtain ⟨order, rfl⟩ := hop
    obtain ⟨e', hchore, rfl⟩ := Option.map_eq_some_iff.1 hstep
    have hbound := h.bound id hid
    rw [h.mem_ids_chore hchore id]
    simp only [hid, true_and]
    by_cases hbad : id ∈ badFor r.session (.chore order : Op M Stmt)
    · simp only [hbad, true_imp_iff, true_and, if_true]
      omega
    · simp [hbad]
  · rcases Session.step_adds h.valid hstep with hchore | rfl | hadds
    · exact absurd hchore hop
    · exact honce.elim
    · have hstays : id ∈ CorpusHandler.ids s'.engine.corpus := by
        rw [hadds.ids]
        exact Finset.mem_union_left _ hid
      simp [badFor_eq_empty hop, hstays]

end PassRun

namespace PassRun

variable {C M Stmt : Type} [CorpusHandler C Stmt] [LawfulCorpus C] [MutationStrategy M Stmt] [Hasher Stmt]
  [FloatFns ℚ]

/-- **Culling on schedule.** Take any run of an engine over any corpus in which nothing is cleared and each id is
inserted at most once. The rotation has the entries of the corpus with a bad pass, under one less than the number of
these; and at the next step an entry goes, from the corpus and from the scheduler, exactly if it is a bad pass for the
entry, and the one after `cullAfter` of them. -/
theorem culled_on_schedule (nWorkers maxEdges : Nat) (body : BodyRef) {corpusHandler : C} (strategies : List M)
    (mabBodies : List BodyRef) (bandits : Bandits) (hids : CorpusHandler.ids corpusHandler = ∅)
    {ops : List (Op M Stmt)} {r : PassRun C FastProbabilisticMABScheduler M}
    (honce : AllSteps step InsertsOnce (start (Session.new nWorkers maxEdges (FastProbabilisticMABScheduler.new body)
      corpusHandler strategies mabBodies bandits)) ops)
    (hrun : run step (start (Session.new nWorkers maxEdges (FastProbabilisticMABScheduler.new body) corpusHandler
      strategies mabBodies bandits)) ops = some r) :
    (∀ id, (r.session.engine.minimizer.gcRotation.lookup id).map UInt8.toNat =
      if id ∈ CorpusHandler.ids r.session.engine.corpus ∧ 1 ≤ r.badPasses id then some (r.badPasses id - 1) else none) ∧
    ∀ op r', InsertsOnce r op → r.step op = some r' → ∀ id ∈ CorpusHandler.ids r.session.engine.corpus,
      (id ∉ CorpusHandler.ids r'.session.engine.corpus ↔
        id ∈ badFor r.session op ∧ r'.badPasses id = cullAfter.toNat + 1) ∧
      id ∈ r.session.engine.scheduler.entries.keys ∧
      (id ∉ r'.session.engine.scheduler.entries.keys ↔ id ∉ CorpusHandler.ids r'.session.engine.corpus) := by
  have hstart : OnSchedule Stmt (start (Session.new nWorkers maxEdges (FastProbabilisticMABScheduler.new body)
      corpusHandler strategies mabBodies bandits : Session C FastProbabilisticMABScheduler M)) :=
    onSchedule_start trivial hids.symm hids rfl
  have hend : OnSchedule Stmt r := run_invariant (fun _ _ _ h hop hs => h.step hop hs) hstart honce hrun
  have hkeys : r.session.engine.scheduler.entries.keys.toFinset = CorpusHandler.ids r.session.engine.corpus := hend.keys
  refine ⟨hend.counts, fun op r' hop hs id hid => ⟨hend.removed_iff hop hs hid, ?_, ?_⟩⟩
  · rw [← List.mem_toFinset, hkeys]
    exact hid
  · have hkeys' : r'.session.engine.scheduler.entries.keys.toFinset = CorpusHandler.ids r'.session.engine.corpus :=
      (hend.step hop hs).keys
    rw [← List.mem_toFinset, hkeys']

end PassRun

/-! ## A run in which a generation goes -/

namespace PassRun

section Bookkeeping

variable {C S M Stmt : Type} [CorpusHandler C Stmt] [Schedule S Stmt] [MutationStrategy M Stmt] [Hasher Stmt]
  [FloatFns ℚ] {r : PassRun C S M} {ops : List (Op M Stmt)}

/-- The bookkeeping holds nothing up. -/
theorem exists_step_of_session {op : Op M Stmt} {s : Session C S M} (hs : r.session.step op = some s) :
    ∃ r', step r op = some r' ∧ r'.session = s := by
  unfold step
  rw [hs]
  exact ⟨_, rfl, rfl⟩

theorem exists_run_of_session {s : Session C S M} (hrun : run Session.step r.session ops = some s) :
    ∃ r', run step r ops = some r' ∧ r'.session = s := by
  induction ops generalizing r with
  | nil => exact ⟨r, rfl, Option.some.inj hrun⟩
  | cons op ops ih =>
    obtain ⟨s₁, hs, hrun⟩ := run_cons_eq_some.1 hrun
    obtain ⟨r₁, hr₁, rfl⟩ := exists_step_of_session hs
    obtain ⟨r', hr', hend⟩ := ih hrun
    exact ⟨r', run_cons_eq_some.2 ⟨r₁, hr₁, hr'⟩, hend⟩

/-- Operations whose ids are known beforehand, and differ. -/
theorem insertsOnce_of_nodup (ids : Op M Stmt → List ID)
    (hids : ∀ op ∈ ops, op ≠ .clear ∧ ∀ s : Session C S M, s.inserts op = ids op)
    (hnodup : (r.inserted ++ ops.flatMap ids).Nodup) : AllSteps step InsertsOnce r ops := by
  induction ops generalizing r with
  | nil => trivial
  | cons op ops ih =>
    obtain ⟨hclear, hknown⟩ := hids op List.mem_cons_self
    rw [List.flatMap_cons, ← List.append_assoc] at hnodup
    have hfirst := (List.nodup_append.1 hnodup).1
    refine ⟨?_, fun r' hr' => ?_⟩
    · have honce : (r.session.inserts op).Nodup ∧ ∀ id ∈ r.session.inserts op, id ∉ r.inserted := by
        rw [hknown]
        obtain ⟨-, hnew, hdisjoint⟩ := List.nodup_append.1 hfirst
        exact ⟨hnew, fun id hid hin => hdisjoint id hin id hid rfl⟩
      cases op with
      | clear => exact absurd rfl hclear
      | _ => exact honce
    · obtain ⟨s, -, rfl⟩ := Option.map_eq_some_iff.1 hr'
      refine ih (fun op hop => hids op (List.mem_cons_of_mem _ hop)) ?_
      rw [hknown]
      exact hnodup

end Bookkeeping

attribute [local instance] FloatFns.tangent Hasher.mul

/-- Six generations of seeds, with a `chore` between any two of them. -/
def sixGenerations : List (Op NOOP Nat) := Session.generations (.sorted ID) doubling 5

def seedIds : Op NOOP Nat → List ID
  | .populate seedGens => seedGens.flatten.map CorpusEntry.id
  | _ => []

theorem nodup_sixGenerations : (sixGenerations.flatMap seedIds).Nodup := by
  have hall : sixGenerations.flatMap seedIds = (List.range 6).flatMap fun k => (doubling k).map CorpusEntry.id := by
    simp [sixGenerations, Session.generations, seedIds, List.range_succ]
  rw [hall, List.nodup_flatMap]
  constructor
  · intro k hk
    exact nodup_doubling (by simpa [Nat.lt_succ_iff] using hk)
  · refine List.pairwise_lt_range.imp_of_mem fun {i j} _ hj hlt id hid hid' => ?_
    have hj : j ≤ 5 := by simpa [Nat.lt_succ_iff] using hj
    have hle := ((mem_doublingIds hj).1 (List.mem_toFinset.2 hid')).1
    have hlt' := ((mem_doublingIds (by omega)).1 (List.mem_toFinset.2 hid)).2
    have hpow : 2 ^ (i + 1) ≤ 2 ^ j := Nat.pow_le_pow_right (by omega) hlt
    omega

theorem insertsOnce_sixGenerations (r : PassRun (InMemory (CorpusEntry Nat)) FastProbabilisticMABScheduler NOOP)
    (hnil : r.inserted = []) : AllSteps step InsertsOnce r sixGenerations := by
  refine insertsOnce_of_nodup seedIds (fun op hop => ?_) ?_
  · rcases List.mem_cons.1 hop with rfl | hop
    · exact ⟨by simp, fun _ => rfl⟩
    · obtain ⟨k, -, hop⟩ := List.mem_flatMap.1 hop
      rcases List.mem_pair.1 hop with rfl | rfl <;> exact ⟨by simp, fun _ => rfl⟩
  · rw [hnil, List.nil_append]
    exact nodup_sixGenerations

/-- The first generation goes at its sixth pass, and no earlier. -/
theorem culled_on_schedule_sixGenerations :
    ∃ r r' : PassRun (InMemory (CorpusEntry Nat)) FastProbabilisticMABScheduler NOOP,
      run step (start (.new 1 1 (.new 0) .new [] [0] .new)) sixGenerations = some r ∧
        step r (.chore (.sorted ID) : Op NOOP Nat) = some r' ∧
          ∀ id ∈ doublingIds 0, id ∈ CorpusHandler.ids r.session.engine.corpus ∧
            id ∉ CorpusHandler.ids r'.session.engine.corpus ∧ r'.badPasses id = 6 ∧
              id ∉ r'.session.engine.scheduler.entries.keys := by
  have hA : Generations ∅ ∅ (joined ∅) 5 :=
    generations_joined (Finset.empty_subset _) (fun _ h => by cases h) (fun _ h => by cases h)
      (Finset.disjoint_empty_left _) (by simp)
  have hids : (∅ : Finset ID) ∪ doublingIds 0 = ∅ ∪ joined ∅ 0 := by
    rw [joined_zero, ← Finset.union_assoc, Finset.union_self]
  obtain ⟨e, hrun, hready⟩ := Session.exists_run_generations
    (s := (.new 1 1 (.new 0) .new [] [0] .new : MemSession NOOP Nat)) hA (.sorted ID) doubling (joined_succ ∅)
    rfl hids (fun _ => rfl) rfl le_rfl
  obtain ⟨r, hr, hsession⟩ := exists_run_of_session
    (r := start (.new 1 1 (.new 0) .new [] [0] .new : MemSession NOOP Nat)) hrun
  obtain ⟨e', hchore, houtline⟩ := Session.exists_step_chore (.sorted ID) r.session
  obtain ⟨r', hr', hsession'⟩ := exists_step_of_session hchore
  have hengine : r.session.engine = e := congrArg Session.engine hsession
  have hengine' : r'.session.engine = e' := congrArg Session.engine hsession'
  rw [hengine] at houtline
  refine ⟨r, r', hr, hr', ?_⟩
  intro id hid
  have hfirst : id ∈ joined ∅ 0 := by
    rw [joined_zero]
    exact Finset.mem_union_right _ hid
  obtain ⟨hthere, hgone⟩ := hready.goes hA le_rfl rfl hfirst
  have hin : id ∈ CorpusHandler.ids r.session.engine.corpus := hengine ▸ hthere
  have hout : id ∉ CorpusHandler.ids r'.session.engine.corpus := by
    rw [hengine']
    have hids' : CorpusHandler.ids e'.corpus = e.outline.chore.ids := congrArg Outline.ids houtline
    rwa [hids']
  obtain ⟨hgoes, -, hkeys⟩ := (culled_on_schedule 1 1 0 [] [0] .new rfl (insertsOnce_sixGenerations _ rfl) hr).2
    (.chore (.sorted ID)) r' ⟨List.nodup_nil, fun _ h => by cases h⟩ hr' id hin
  exact ⟨hin, hout, (hgoes.1 hout).2, hkeys.2 hout⟩

end PassRun

end Lsf.Engine
