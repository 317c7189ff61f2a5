import Lsf.Engine.Pedigree
import Lsf.Engine.Session
import Lsf.Mutate.Lineage

/-!
# The entries of a campaign

`main` clears the engine, runs its seeds and enters the loop, which asks for batches and has tasks execute the entries.
`Campaign` follows the entries on their way: from `ID::next` through the stash and a task into the corpus, or out. As long
as the counter of `ID::next` has not wrapped around, an entry is executed once and committed at most once, under an id
that the corpus does not have, and its parents are older entries that were accepted before (`genealogy`). Seeds are
inserted once more under the same ids, by `populate`, but the engine is cleared between that and the first commit.
-/

namespace Lsf.Tester

open Lsf.Core Lsf.Lib Lsf.Cov Lsf.Feedback Lsf.Engine Lsf.Mutate

/-- The engine with its tokens, and the entries that the loop and its tasks have. `allotted` counts the calls of
`ID::next`; the ids of what was executed and of what was accepted are kept in order. -/
structure Campaign (C S M Stmt : Type) where
  session : Session C S M
  allotted : Nat
  flight : List (Entry Stmt)
  tested : List ID
  accepted : List ID

/-- What the driver does; a task has the token `i` and the entry `j`. An entry that is not executed any more is dropped,
and some ids are never seen again, as those of seeds from a directory that could not be read to its end. -/
inductive CampaignOp (M Stmt : Type) where
  | seed (asts : List (AST Stmt)) (strategies : List M) (order : HashOrder ID)
  | mutateBatch (batchSize : Nat) (order : HashOrder ID) (draws : List Draw)
  | recv
  | write (i : Nat) (map : List UInt8)
  | commitTestResult (i j : Nat) (metadata : Meta)
  | reject (i j : Nat) (reason : RejectionReason) (metadata : Meta)
  | drop (j : Nat)
  | nextId
  | chore (order : HashOrder ID)

namespace Campaign

variable {C S M Stmt : Type}

/-- The counter of `ID::next`. -/
def currentId (s : Campaign C S M Stmt) : UInt32 := UInt32.ofNat s.allotted

/-- The entries that a generator makes of its queries. -/
def obtainSeeds (currentId : UInt32) : List (AST Stmt) → List (CorpusEntry Stmt)
  | [] => []
  | ast :: asts =>
    let (id, currentId) := ID.next currentId
    (⟨id, [], ast⟩ : RawEntry Stmt).intoCorpusEntry .default :: obtainSeeds currentId asts

section Step

variable [CorpusHandler C Stmt] [Schedule S Stmt] [MutationStrategy M Stmt] [Hasher Stmt] [FloatFns ℚ]

/-- The seeds with the strategies of the loop: the engine is cleared before and after, the snapshot is to be executed. -/
def seed (e : RawEngine C S M) (seeds : List (CorpusEntry Stmt)) (strategies : List M) (order : HashOrder ID) :
    Option (List (CorpusEntry Stmt) × RawEngine C S M) := do
  let e ← (e.clear Stmt).populate [seeds]
  let (snapshot, e) := (strategies.foldl .addStrategy e.clearStrategies).snapshot order
  some (snapshot, e.clear Stmt)

/-- The ids that a batch takes, one for each of its entries. -/
def taken (e : RawEngine C S M) (batchSize : Nat) (order : HashOrder ID) (draws : List Draw) : Nat :=
  if batchSize = 0 then 0 else
    (Schedule.nextBatch e.scheduler e.corpus batchSize e.bandits order draws).elim 0
      fun b : Batch S C Stmt => b.members.length

def step (s : Campaign C S M Stmt) : CampaignOp M Stmt → Option (Campaign C S M Stmt)
  | .seed asts strategies order => do
    let (snapshot, e) ← seed s.session.engine (obtainSeeds s.currentId asts) strategies order
    some { s with
      session := { s.session with engine := e }
      allotted := s.allotted + asts.length
      flight := s.flight ++ snapshot.map fun entry => .new entry.raw }
  | .mutateBatch batchSize order draws => do
    let (generation, e) ← s.session.engine.mutateBatch batchSize order draws s.currentId
    some { s with
      session := { s.session with engine := e }
      allotted := s.allotted + taken s.session.engine batchSize order draws
      flight := s.flight ++ generation }
  | .recv => (s.session.step (.recv : Op M Stmt)).map fun session => { s with session := session }
  | .write i map => (s.session.step (.write i map : Op M Stmt)).map fun session => { s with session := session }
  | .commitTestResult i j metadata => do
    let entry ← s.flight[j]?
    let token ← s.session.out[i]?
    let (outcome, e) ← s.session.engine.commitTestResult entry metadata token
    some { s with
      session := ⟨e, s.session.out.eraseIdx i, s.session.commits ++ [⟨entry.entry.id, token.asEdgeMap⟩]⟩
      flight := s.flight.eraseIdx j
      tested := s.tested ++ [entry.entry.id]
      accepted := s.accepted ++ RawEngine.acceptedId outcome entry.entry.id }
  | .reject i j reason metadata => do
    let entry ← s.flight[j]?
    let session ← s.session.step (.returnToken i : Op M Stmt)
    let bandits := (session.engine.bandits.fireRuleHooks entry (.rejected reason) metadata).2
    some { s with
      session := { session with engine := { session.engine with bandits := bandits } }
      flight := s.flight.eraseIdx j
      tested := s.tested ++ [entry.entry.id] }
  | .drop j => some { s with flight := s.flight.eraseIdx j }
  | .nextId => some { s with allotted := s.allotted + 1 }
  | .chore order => (s.session.step (.chore order : Op M Stmt)).map fun session => { s with session := session }

/-- `main` has cleared the engine, and `n` ids are used up. -/
def start (Stmt : Type) [CorpusHandler C Stmt] [Schedule S Stmt] (session : Session C S M) (n : Nat) :
    Campaign C S M Stmt :=
  ⟨{ session with engine := session.engine.clear Stmt }, n, [], [], []⟩

end Step

/-! ## New ids -/

section Ids

variable {n count : Nat} {id : ID}

theorem toNat_ofNat_of_lt_le {k : Nat} (hn : n ≤ 2 ^ 32) (hk : k < n) : (UInt32.ofNat k).toNat = k :=
  UInt32.toNat_ofNat_of_lt' (hk.trans_le hn)

theorem toNat_mem_nextIds (hn : n + count ≤ 2 ^ 32) (hid : id ∈ nextIds n count) :
    n ≤ id.raw.toNat ∧ id.raw.toNat < n + count := by
  obtain ⟨k, hk, rfl⟩ := List.mem_map.1 hid
  obtain ⟨hle, hlt⟩ := List.mem_range'_1.1 hk
  rw [toNat_ofNat_of_lt_le hn hlt]
  exact ⟨hle, hlt⟩

theorem nodup_nextIds (hn : n + count ≤ 2 ^ 32) : (nextIds n count).Nodup := by
  refine List.Nodup.map_on (fun k hk k' hk' heq => ?_) List.nodup_range'
  obtain ⟨-, hlt⟩ := List.mem_range'_1.1 hk
  obtain ⟨-, hlt'⟩ := List.mem_range'_1.1 hk'
  have hraw : (UInt32.ofNat k).toNat = (UInt32.ofNat k').toNat := congrArg (fun i : ID => i.raw.toNat) heq
  rw [toNat_ofNat_of_lt_le hn hlt, toNat_ofNat_of_lt_le hn hlt'] at hraw
  exact hraw

/-- The seeds have the next ids and no parents. -/
theorem obtainSeeds_spec (asts : List (AST Stmt)) :
    (obtainSeeds (UInt32.ofNat n) asts).map CorpusEntry.id = nextIds n asts.length ∧
      ∀ entry ∈ obtainSeeds (UInt32.ofNat n) asts, entry.raw.parents = [] := by
  induction asts generalizing n with
  | nil => exact ⟨rfl, List.forall_mem_nil _⟩
  | cons ast asts ih =>
    have hnext : UInt32.ofNat n + 1 = UInt32.ofNat (n + 1) := by rw [UInt32.ofNat_add]; rfl
    obtain ⟨hids, hparents⟩ := ih (n := n + 1)
    rw [← hnext] at hids hparents
    refine ⟨?_, List.forall_mem_cons.2 ⟨rfl, hparents⟩⟩
    rw [nextIds, List.length_cons, List.range'_succ, List.map_cons]
    exact congrArg _ hids

end Ids

/-! ## The genealogy -/

/-- The parents were accepted, and are older. -/
def Lineage (accepted : List ID) (id : ID) (parents : List ID) : Prop := ∀ p ∈ parents, p ∈ accepted ∧ p < id

theorem Lineage.mono {accepted accepted' : List ID} {id : ID} {parents : List ID} (h : Lineage accepted id parents)
    (hsub : accepted ⊆ accepted') : Lineage accepted' id parents :=
  fun p hp => ⟨hsub (h p hp).1, (h p hp).2⟩

/-- The ids of the entries in flight. -/
def flightIds (s : Campaign C S M Stmt) : List ID := s.flight.map fun entry => entry.entry.id

section Dated

variable [CorpusHandler C Stmt] [CountedCorpus C] [FaithfulCorpus C] [PedigreeCorpus C] [Schedule S Stmt]
  [SourcedSchedule S Stmt]

/-- Ids are used once, entries have a lineage, and the corpus and its scheduler have accepted ids only. -/
structure Dated (s : Campaign C S M Stmt) : Prop where
  ids : (s.tested ++ s.flightIds).Nodup
  allotted : ∀ id ∈ s.tested ++ s.flightIds, id.raw.toNat < s.allotted
  accepted : s.accepted.Sublist s.tested
  flight : ∀ entry ∈ s.flight, Lineage s.accepted entry.entry.id entry.entry.parents
  engine : Pedigreed Stmt (· ∈ s.accepted) (Lineage s.accepted) s.session.engine.corpus s.session.engine.scheduler

theorem dated_start {session : Session C S M} (hc : FaithfulCorpus.Faithful Stmt session.engine.corpus) (n : Nat) :
    Dated (start Stmt session n) where
  ids := List.nodup_nil
  allotted := List.forall_mem_nil _
  accepted := List.Sublist.refl _
  flight := List.forall_mem_nil _
  engine := {
    faithful := FaithfulCorpus.faithful_clear _ hc
    ids := fun id hid => by
      change id ∈ CorpusHandler.ids (CorpusHandler.clear session.engine.corpus) at hid
      rw [LawfulCorpus.ids_clear] at hid
      exact absurd hid (Finset.notMem_empty _)
    parents := PedigreeCorpus.holds_clear _ _
    waits := SourcedSchedule.waits_reset _ _ _ }

variable {s s' : Campaign C S M Stmt}

/-- New entries have new ids, each its own, and accepted parents. -/
theorem Dated.depart (h : Dated s) {count : Nat} {entries : List (Entry Stmt)} {session : Session C S M}
    (hn : s.allotted + count ≤ 2 ^ 32)
    (hids : (entries.map fun entry => entry.entry.id).Nodup)
    (hnew : ∀ entry ∈ entries, entry.entry.id ∈ nextIds s.allotted count)
    (hparents : ∀ entry ∈ entries, ∀ p ∈ entry.entry.parents, p ∈ s.accepted)
    (hengine : Pedigreed Stmt (· ∈ s.accepted) (Lineage s.accepted) session.engine.corpus session.engine.scheduler) :
    Dated { s with session := session, allotted := s.allotted + count, flight := s.flight ++ entries } := by
  have hbound : ∀ entry ∈ entries, s.allotted ≤ entry.entry.id.raw.toNat ∧
      entry.entry.id.raw.toNat < s.allotted + count := fun entry hentry => toNat_mem_nextIds hn (hnew entry hentry)
  have hflight : ∀ l : List ID, l ++ (s.flight ++ entries).map (fun entry => entry.entry.id) =
      (l ++ s.flightIds) ++ entries.map fun entry => entry.entry.id := by
    intro l
    rw [List.map_append, List.append_assoc]
    rfl
  refine ⟨?_, ?_, h.accepted, ?_, hengine⟩
  · show (s.tested ++ (s.flight ++ entries).map fun entry => entry.entry.id).Nodup
    rw [hflight]
    refine h.ids.append hids fun id hold hid => ?_
    obtain ⟨entry, hentry, rfl⟩ := List.mem_map.1 hid
    have hlt := h.allotted _ hold
    have hle := (hbound entry hentry).1
    omega
  · intro id hid
    change id ∈ s.tested ++ (s.flight ++ entries).map fun entry => entry.entry.id at hid
    show id.raw.toNat < s.allotted + count
    rw [hflight] at hid
    rcases List.mem_append.1 hid with hid | hid
    · have hlt := h.allotted id hid
      omega
    · obtain ⟨entry, hentry, rfl⟩ := List.mem_map.1 hid
      exact (hbound entry hentry).2
  · intro entry hentry
    rcases List.mem_append.1 hentry with hentry | hentry
    · exact h.flight entry hentry
    · intro p hp
      have hmem := hparents entry hentry p hp
      have hlt := h.allotted p (List.mem_append_left _ (h.accepted.subset hmem))
      have hle := (hbound entry hentry).1
      exact ⟨hmem, show p.raw.toNat < entry.entry.id.raw.toNat by omega⟩

/-- An entry that was executed leaves the flight, accepted or not. -/
theorem Dated.arrive (h : Dated s) {j : Nat} {entry : Entry Stmt} {more : List ID} {session : Session C S M}
    (hj : s.flight[j]? = some entry) (hmore : more.Sublist [entry.entry.id])
    (hengine : Pedigreed Stmt (· ∈ s.accepted ++ more) (Lineage (s.accepted ++ more)) session.engine.corpus
      session.engine.scheduler) :
    Dated { s with
      session := session
      flight := s.flight.eraseIdx j
      tested := s.tested ++ [entry.entry.id]
      accepted := s.accepted ++ more } := by
  have hperm : (s.tested ++ [entry.entry.id] ++ (s.flight.eraseIdx j).map fun entry => entry.entry.id).Perm
      (s.tested ++ s.flightIds) := by
    obtain ⟨hlt, rfl⟩ := List.getElem?_eq_some_iff.1 hj
    rw [List.append_assoc]
    exact ((List.getElem_cons_eraseIdx_perm hlt).map fun entry : Entry Stmt => entry.entry.id).append_left _
  refine ⟨hperm.nodup_iff.2 h.ids, fun id hid => h.allotted id (hperm.mem_iff.1 hid), h.accepted.append hmore, ?_, hengine⟩
  intro entry' hentry
  exact (h.flight entry' (List.mem_of_mem_eraseIdx hentry)).mono (List.subset_append_left _ _)

end Dated

/-! ## Every campaign -/

section Runs

variable {H : Type} [BinaryHeap H RuleItem] [BinaryHeap.LawfulBinaryHeap H (SchedueldItem.score (T := Nat))]
  [FloatFns ℚ] [FloatExp ℚ] [Sqlparser Stmt] [Hasher Stmt] [CorpusHandler C Stmt] [CountedCorpus C] [FaithfulCorpus C]
  [PedigreeCorpus C] [Schedule S Stmt] [SourcedSchedule S Stmt]

omit [FloatFns ℚ] [FloatExp ℚ] in
theorem foldl_addStrategy (strategies : List M) (e : RawEngine C S M) :
    (strategies.foldl .addStrategy e).corpus = e.corpus ∧ (strategies.foldl .addStrategy e).scheduler = e.scheduler := by
  induction strategies generalizing e with
  | nil => exact ⟨rfl, rfl⟩
  | cons strategy strategies ih => exact ih (e.addStrategy strategy)

omit [FloatFns ℚ] [FloatExp ℚ] [Sqlparser Stmt] [Hasher Stmt] in
/-- The snapshot has seeds, each at most once, and the engine is empty again. -/
theorem seed_spec {known : ID → Prop} {P : ID → List ID → Prop} {e e' : RawEngine C S M}
    {seeds snapshot : List (CorpusEntry Stmt)} {strategies : List M} {order : HashOrder ID}
    (he : Pedigreed Stmt known P e.corpus e.scheduler) (hseeds : ∀ entry ∈ seeds, entry.raw.parents = [])
    (h : seed e seeds strategies order = some (snapshot, e')) :
    (snapshot.map CorpusEntry.id).Nodup ∧
      (∀ entry ∈ snapshot, entry.id ∈ seeds.map CorpusEntry.id ∧ entry.raw.parents = []) ∧
      Pedigreed Stmt known P e'.corpus e'.scheduler := by
  obtain ⟨e₁, hpopulate, h⟩ := Option.bind_eq_some_iff.1 h
  cases h
  have hpopulated : Pedigreed Stmt (· ∈ seeds.map CorpusEntry.id) (fun _ parents => parents = []) e₁.corpus
      e₁.scheduler := by
    refine RawEngine.pedigreed_foldlM_addEntry (e := e.clear Stmt) (he.clear _) (fun entry hentry => ?_) hpopulate
    rw [List.flatten_singleton] at hentry
    exact ⟨List.mem_map_of_mem hentry, hseeds entry hentry⟩
  obtain ⟨hcorpus, hscheduler⟩ := foldl_addStrategy strategies e₁.clearStrategies
  change _ = e₁.corpus at hcorpus
  change _ = e₁.scheduler at hscheduler
  have hbefore : Pedigreed Stmt (· ∈ seeds.map CorpusEntry.id) (fun _ parents => parents = [])
      (strategies.foldl RawEngine.addStrategy e₁.clearStrategies).corpus
      (strategies.foldl RawEngine.addStrategy e₁.clearStrategies).scheduler := by
    rw [hcorpus, hscheduler]
    exact hpopulated
  refine ⟨(getAll_spec hbefore.faithful).nodup (order.nodup _), fun entry hentry => ?_, ?_⟩
  · exact hbefore.got (got_getAll entry hentry)
  · exact (hbefore.reads (reads_getAll _ _)).clear _

omit [Hasher Stmt] in
/-- A batch takes the next ids for its children, whose parents are known. -/
theorem mutateBatch_spec {known : ID → Prop} {P : ID → List ID → Prop} {e e' : RawEngine C S (Planted H)} {n batchSize : Nat}
    {order : HashOrder ID} {draws : List Draw} {children : List (Entry Stmt)}
    (he : Pedigreed Stmt known P e.corpus e.scheduler)
    (h : e.mutateBatch batchSize order draws (UInt32.ofNat n) = some (children, e')) :
    (children.map fun child => child.entry.id).Sublist (nextIds n (taken e batchSize order draws)) ∧
      (∀ child ∈ children, ∀ p ∈ child.entry.parents, known p) ∧ Pedigreed Stmt known P e'.corpus e'.scheduler := by
  unfold RawEngine.mutateBatch at h
  unfold taken
  split at h
  · cases h
    exact ⟨List.nil_sublist _, List.forall_mem_nil _, he⟩
  · rename_i hsize
    obtain ⟨b, hb, h⟩ := Option.bind_eq_some_iff.1 h
    obtain ⟨⟨generation, σ⟩, hmutate, h⟩ := Option.bind_eq_some_iff.1 h
    cases h
    obtain ⟨he', hmembers⟩ := he.nextBatch hb
    obtain ⟨-, hids, hborn⟩ := mutateEntries_born (n := n) rfl hmutate
    rw [if_neg hsize, hb]
    refine ⟨hids, fun child hchild p hp => ?_, he'⟩
    obtain ⟨k, entry, -, -, hentry, hchild⟩ := hborn child hchild
    obtain ⟨more, hmore, hparents⟩ := hchild.parents
    rw [hparents] at hp
    rcases List.mem_cons.1 hp with rfl | hp
    · exact hmembers entry hentry
    · obtain ⟨other, hother, rfl⟩ := hmore p hp
      exact hmembers other hother

variable {s s' : Campaign C S (Planted H) Stmt}

/-- **One step of a campaign**, while there are ids left. -/
theorem dated_step {op : CampaignOp (Planted H) Stmt} (h : Dated s) (hs : s.step op = some s')
    (hn : s'.allotted ≤ 2 ^ 32) : Dated s' := by
  cases op with
  | seed asts strategies order =>
    obtain ⟨⟨snapshot, e⟩, hseed, hs⟩ := Option.bind_eq_some_iff.1 hs
    cases hs
    obtain ⟨hids, hseeds⟩ := obtainSeeds_spec (n := s.allotted) asts
    obtain ⟨hnodup, hsnapshot, hengine⟩ := seed_spec h.engine hseeds hseed
    refine h.depart hn ?_ ?_ ?_ hengine
    · rw [List.map_map]
      exact hnodup
    · intro entry hentry
      obtain ⟨seed, hseed, rfl⟩ := List.mem_map.1 hentry
      rw [← hids]
      exact (hsnapshot seed hseed).1
    · intro entry hentry p hp
      obtain ⟨seed, hseed, rfl⟩ := List.mem_map.1 hentry
      change p ∈ seed.raw.parents at hp
      rw [(hsnapshot seed hseed).2] at hp
      cases hp
  | mutateBatch batchSize order draws =>
    obtain ⟨⟨generation, e⟩, hbatch, hs⟩ := Option.bind_eq_some_iff.1 hs
    cases hs
    obtain ⟨hids, hparents, hengine⟩ := mutateBatch_spec h.engine hbatch
    refine h.depart hn (hids.nodup (nodup_nextIds hn)) (fun entry hentry => ?_) hparents hengine
    exact hids.subset (List.mem_map_of_mem hentry)
  | recv =>
    obtain ⟨session, hsession, rfl⟩ := Option.map_eq_some_iff.1 hs
    obtain ⟨⟨token, q⟩, -, hsession⟩ := Option.bind_eq_some_iff.1 hsession
    cases hsession
    exact ⟨h.ids, h.allotted, h.accepted, h.flight, h.engine⟩
  | write i map =>
    obtain ⟨session, hsession, rfl⟩ := Option.map_eq_some_iff.1 hs
    obtain ⟨token, -, hsession⟩ := Option.bind_eq_some_iff.1 hsession
    split at hsession
    · cases hsession
      exact ⟨h.ids, h.allotted, h.accepted, h.flight, h.engine⟩
    · cases hsession
  | commitTestResult i j metadata =>
    obtain ⟨entry, hj, hs⟩ := Option.bind_eq_some_iff.1 hs
    obtain ⟨token, -, hs⟩ := Option.bind_eq_some_iff.1 hs
    obtain ⟨⟨outcome, e⟩, hcommit, hs⟩ := Option.bind_eq_some_iff.1 hs
    cases hs
    have hmore : (RawEngine.acceptedId outcome entry.entry.id).Sublist [entry.entry.id] := by
      cases outcome with
      | rejected r => exact List.nil_sublist _
      | _ => exact List.Sublist.refl _
    have hgrow : s.accepted ⊆ s.accepted ++ RawEngine.acceptedId outcome entry.entry.id := List.subset_append_left _ _
    refine h.arrive hj hmore (RawEngine.pedigreed_commitTestResult ?_ ?_ ?_ hcommit)
    · exact h.engine.mono (fun _ hid => hgrow hid) fun _ _ hP => hP.mono hgrow
    · exact fun id hid => List.mem_append_right _ hid
    · exact (h.flight entry (List.mem_of_getElem? hj)).mono hgrow
  | reject i j reason metadata =>
    obtain ⟨entry, hj, hs⟩ := Option.bind_eq_some_iff.1 hs
    obtain ⟨session, hsession, hs⟩ := Option.bind_eq_some_iff.1 hs
    cases hs
    obtain ⟨token, -, hsession⟩ := Option.bind_eq_some_iff.1 hsession
    obtain ⟨e, hreturn, hsession⟩ := Option.bind_eq_some_iff.1 hsession
    cases hsession
    obtain ⟨q, -, rfl⟩ := Option.map_eq_some_iff.1 hreturn
    have hsame : Pedigreed Stmt (· ∈ s.accepted ++ []) (Lineage (s.accepted ++ [])) s.session.engine.corpus
        s.session.engine.scheduler := by
      rw [List.append_nil]
      exact h.engine
    have hend := h.arrive hj (List.nil_sublist _) hsame
    rw [List.append_nil] at hend
    exact ⟨hend.ids, hend.allotted, hend.accepted, hend.flight, hend.engine⟩
  | drop j =>
    cases hs
    have hsub : (s.tested ++ (s.flight.eraseIdx j).map fun entry => entry.entry.id).Sublist (s.tested ++ s.flightIds) :=
      (List.Sublist.refl _).append ((List.eraseIdx_sublist _ _).map _)
    exact ⟨hsub.nodup h.ids, fun id hid => h.allotted id (hsub.subset hid), h.accepted,
      fun entry hentry => h.flight entry (List.mem_of_mem_eraseIdx hentry), h.engine⟩
  | nextId =>
    cases hs
    exact ⟨h.ids, fun id hid => (h.allotted id hid).trans (Nat.lt_succ_self _), h.accepted, h.flight, h.engine⟩
  | chore order =>
    obtain ⟨session, hsession, rfl⟩ := Option.map_eq_some_iff.1 hs
    obtain ⟨e, hchore, rfl⟩ := Option.map_eq_some_iff.1 hsession
    exact ⟨h.ids, h.allotted, h.accepted, h.flight, RawEngine.pedigreed_chore h.engine hchore⟩

omit [BinaryHeap.LawfulBinaryHeap H SchedueldItem.score] [CountedCorpus C] [FaithfulCorpus C] [PedigreeCorpus C]
  [SourcedSchedule S Stmt] in
theorem allotted_step {op : CampaignOp (Planted H) Stmt} (hs : s.step op = some s') : s.allotted ≤ s'.allotted := by
  cases op with
  | seed asts strategies order =>
    obtain ⟨r, -, hs⟩ := Option.bind_eq_some_iff.1 hs
    cases hs
    exact Nat.le_add_right _ _
  | mutateBatch batchSize order draws =>
    obtain ⟨r, -, hs⟩ := Option.bind_eq_some_iff.1 hs
    cases hs
    exact Nat.le_add_right _ _
  | recv | write i map | chore order =>
    obtain ⟨session, -, rfl⟩ := Option.map_eq_some_iff.1 hs
    exact le_rfl
  | commitTestResult i j metadata =>
    obtain ⟨entry, -, hs⟩ := Option.bind_eq_some_iff.1 hs
    obtain ⟨token, -, hs⟩ := Option.bind_eq_some_iff.1 hs
    obtain ⟨r, -, hs⟩ := Option.bind_eq_some_iff.1 hs
    cases hs
    exact le_rfl
  | reject i j reason metadata =>
    obtain ⟨entry, -, hs⟩ := Option.bind_eq_some_iff.1 hs
    obtain ⟨session, -, hs⟩ := Option.bind_eq_some_iff.1 hs
    cases hs
    exact le_rfl
  | drop j =>
    cases hs
    exact le_rfl
  | nextId =>
    cases hs
    exact Nat.le_succ _

/-- While there are ids left, every campaign is dated. -/
theorem dated_run {ops : List (CampaignOp (Planted H) Stmt)} (h : Dated s) (hrun : run step s ops = some s')
    (hn : s'.allotted ≤ 2 ^ 32) : Dated s' := by
  refine run_invariant_of_forall (I := fun s : Campaign C S (Planted H) Stmt => s.allotted ≤ 2 ^ 32 → Dated s)
    (fun s op s' hI hs hn => ?_) (fun _ => h) hrun hn
  exact dated_step (hI ((allotted_step hs).trans hn)) hs hn

/-- **The genealogy of a campaign**, while there are ids left: no entry is executed twice, no id is committed twice, and
none of those to come is in the corpus; the parents of every entry were accepted, and are older than it. -/
theorem genealogy {session : Session C S (Planted H)} {n : Nat} {ops : List (CampaignOp (Planted H) Stmt)}
    (hc : FaithfulCorpus.Faithful Stmt session.engine.corpus) (hrun : run step (start Stmt session n) ops = some s)
    (hn : s.allotted ≤ 2 ^ 32) :
    (s.tested ++ s.flightIds).Nodup ∧ s.accepted.Sublist s.tested ∧
      (∀ id ∈ CorpusHandler.ids s.session.engine.corpus, id ∈ s.accepted ∧ id ∉ s.flightIds) ∧
      (∀ entry ∈ s.flight, ∀ p ∈ entry.entry.parents, p ∈ s.accepted ∧ p < entry.entry.id) ∧
      ∀ entry, Got s.session.engine.corpus entry → ∀ p ∈ entry.parents, p ∈ s.accepted ∧ p < entry.id := by
  have hdated := dated_run (dated_start hc n) hrun hn
  refine ⟨hdated.ids, hdated.accepted, fun id hid => ?_, hdated.flight, fun entry hgot => (hdated.engine.got hgot).2⟩
  have haccepted := hdated.engine.ids id hid
  exact ⟨haccepted, (List.nodup_append'.1 hdated.ids).2.2 (hdated.accepted.subset haccepted)⟩

end Runs

/-! ## One seed and its child -/

section OneSplice

open CreditRun

attribute [local instance] FloatFns.tangent FloatExp.tangent Sqlparser.plain Hasher.zero

/-- One seed is executed and accepted, and spliced with itself. -/
def oneSplice : List (CampaignOp (Planted RuleHeap) Plain) :=
  [.seed [[.commit]] [⟨.leaf (.spliceIn ⟨0⟩), fun _ => ⟨[]⟩, []⟩] (.sorted ID), .recv, .write 0 [1],
    .commitTestResult 0 0 ⟨false, true, 1000, 0, 1⟩, .mutateBatch 1 (.sorted ID) (List.replicate 8 .zero)]

theorem genealogy_oneSplice :
    ∃ s : Campaign PlainCorpus FastProbabilisticMABScheduler (Planted RuleHeap) Plain,
      run step (start Plain (.new 1 1 (.new 0) .new [] [0] .new) 0) oneSplice = some s ∧
        (s.flight.map fun entry => entry.entry.parents) = [[⟨0⟩, ⟨0⟩]] ∧ (s.tested ++ s.flightIds).Nodup ∧
        ∀ entry ∈ s.flight, ∀ p ∈ entry.entry.parents, p ∈ s.accepted ∧ p < entry.entry.id := by
  have hparents : (run step (start Plain (.new 1 1 (.new 0) .new [] [0] .new) 0 :
      Campaign PlainCorpus FastProbabilisticMABScheduler (Planted RuleHeap) Plain) oneSplice).map
        (fun s => (s.allotted, s.flight.map fun entry => entry.entry.parents)) = some (2, [[⟨0⟩, ⟨0⟩]]) := by
    decide +kernel
  obtain ⟨s, hrun, hs⟩ := Option.map_eq_some_iff.1 hparents
  obtain ⟨hallotted, hflight⟩ := Prod.mk.inj hs
  obtain ⟨hids, -, -, hlineage, -⟩ := genealogy faithful_plainCorpus hrun (by rw [hallotted]; norm_num)
  exact ⟨s, hrun, hflight, hids, hlineage⟩

end OneSplice

end Campaign

end Lsf.Tester
