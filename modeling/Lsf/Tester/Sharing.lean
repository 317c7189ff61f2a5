import Mathlib.Algebra.Order.Group.Multiset
import Mathlib.Data.Multiset.MapFold
import Mathlib.Tactic.Abel
import Lsf.Lib.WorkQueue
import Lsf.Tester.Oracle

/-!
# Oracles that share their memory

The workers of `tester/oracle.py` share `seen_signatures` and `total_bugs`. A worker handles an item in two pieces, the
lookup of its key and the verdict; where the verdict needs the reference it waits for the answer in between, and the
others go on. One that is not interrupted does what `handle` does (`exists_run_handle`). The directory of the reports is
empty at the start: over a file of an earlier run `open` raises `FileExistsError`, and that report is dropped. In whatever
order the pieces come (`dedup`):

- the files are numbered one after the other, so that none of them exists when it is opened;
- no two items with one key are examined, and no two reports share a key;
- every item that was taken has its key in common with one that was examined, is waited for, or has failed;
- what was examined and is a bug is reported, save for logic bugs whose structure was seen.
-/

namespace Lsf.Tester

open Lsf.Lib

section Shared

variable [Unicode] [Md5]

/-- The verdict waits for `oracle_worker.execute(item.query)`. -/
def asksReference (item : TestCapture) : Bool := !isUnconditionalBug item && decide (item.exitCode ≠ some 42)

omit [Unicode] [Md5] in
/-- Without the question the answer does not matter. -/
theorem verdict_of_not_asksReference {item : TestCapture} (h : asksReference item = false) (ref ref' : TestCapture) :
    verdict item ref = verdict item ref' := by
  unfold verdict
  split
  · rfl
  · rename_i hu
    have h42 : item.exitCode = some 42 := by simpa [asksReference, hu] using h
    rw [if_pos h42, if_pos h42]

namespace Oracle

variable {s s' : Oracle} {item ref : TestCapture} {found : Finding}

/-- The two pieces, one after the other. -/
theorem handle_eq (s : Oracle) (item ref : TestCapture) :
    s.handle item ref = ((s.enter item).map fun s => s.conclude item ref).getD s := by
  unfold handle enter
  by_cases hkey : item.key ∈ s.seen
  · rw [if_pos hkey, if_pos (by exact hkey)]
    rfl
  · rw [if_neg hkey, if_neg (by exact hkey)]
    rfl

/-- Without the question any answer will do. -/
theorem conclude_of_not_asksReference (h : asksReference item = false) (s : Oracle) (ref ref' : TestCapture) :
    s.conclude item ref = s.conclude item ref' := by
  unfold conclude
  rw [verdict_of_not_asksReference h ref ref']

theorem enter_eq_some : s.enter item = some s' ↔ item.key ∉ s.seen ∧ s' = { s with seen := item.key :: s.seen } := by
  unfold enter
  split
  · rename_i h
    simp [h]
  · rename_i h
    simp [h, eq_comm]

/-- The numbers of the files are those below the counter, in order. -/
def Consecutive (s : Oracle) : Prop := s.reports.map (fun r => r.filename.number) = List.range s.totalBugs

omit [Unicode] [Md5] in
/-- A file that is written is new. -/
theorem Consecutive.save_eq (h : s.Consecutive) (seen : List Bytes) (item : TestCapture) (found : Finding) :
    Oracle.save { s with seen := seen } item found = ⟨seen, s.totalBugs + 1,
      s.reports ++ [⟨⟨s.totalBugs, found.bugType⟩, found.notes, item.query, found.ref, item⟩]⟩ := by
  have hnew : (⟨s.totalBugs, found.bugType⟩ : Filename) ∉ s.reports.map Report.filename := by
    intro hmem
    obtain ⟨r, hr, heq⟩ := List.mem_map.1 hmem
    have hnumber : r.filename.number ∈ s.reports.map fun r => r.filename.number := List.mem_map_of_mem hr
    rw [h, heq, List.mem_range] at hnumber
    exact lt_irrefl _ hnumber
  simp only [Oracle.save, hnew, if_false]

/-- What the second piece does: nothing, or it writes one report. -/
theorem Consecutive.conclude_cases (h : s.Consecutive) (item ref : TestCapture) :
    (s.conclude item ref = s ∧ ∀ found, verdict item ref = some found →
      found.bugType = .logicBug ∧ item.structureKey ∈ s.seen) ∨
    ∃ found, verdict item ref = some found ∧
      (found.bugType = .logicBug → item.structureKey ∉ s.seen) ∧
      s.conclude item ref = ⟨if found.bugType = .logicBug then item.structureKey :: s.seen else s.seen, s.totalBugs + 1,
        s.reports ++ [⟨⟨s.totalBugs, found.bugType⟩, found.notes, item.query, found.ref, item⟩]⟩ := by
  unfold conclude
  cases hv : verdict item ref with
  | none => exact .inl ⟨rfl, fun found hfound => by cases hfound⟩
  | some found =>
    dsimp only
    by_cases hb : found.bugType = .logicBug
    · rw [if_pos hb]
      by_cases hseen : item.structureKey ∈ s.seen
      · rw [if_pos hseen]
        refine .inl ⟨rfl, fun found' hfound => ?_⟩
        cases hfound
        exact ⟨hb, hseen⟩
      · rw [if_neg hseen, h.save_eq]
        exact .inr ⟨found, rfl, fun _ => hseen, by rw [if_pos hb]⟩
    · rw [if_neg hb, h.save_eq s.seen]
      exact .inr ⟨found, rfl, fun hlogic => absurd hlogic hb, by rw [if_neg hb]⟩

end Oracle

/-! ## The workers -/

/-- The workers, each with the item that it waits with for the reference, if any. The last three are logs: the items that
were taken, those that got a verdict with the answer, and those whose question raised an exception. -/
structure SharedOracles where
  oracle : Oracle
  workers : List (Option TestCapture)
  taken : List TestCapture
  examined : List (TestCapture × TestCapture)
  failed : List TestCapture

/-- What a worker does between two points where it waits. -/
inductive SharedStep where
  | take (j : Nat) (item : TestCapture)
  | answer (j : Nat) (ref : TestCapture)
  | fail (j : Nat)

namespace SharedOracles

def start (nWorkers : Nat) : SharedOracles := ⟨.start, List.replicate nWorkers none, [], [], []⟩

def step (s : SharedOracles) : SharedStep → Option SharedOracles
  | .take j item =>
    if s.workers[j]? = some none then
      let s := { s with taken := s.taken ++ [item] }
      match s.oracle.enter item with
      | none => some s
      | some oracle =>
        if asksReference item then some { s with oracle := oracle, workers := s.workers.set j (some item) }
        -- nobody answers, and no answer is needed
        else some { s with oracle := oracle.conclude item item, examined := s.examined ++ [(item, item)] }
    else none
  | .answer j ref =>
    match s.workers[j]? with
    | some (some item) =>
      some { s with
        oracle := s.oracle.conclude item ref
        workers := s.workers.set j none
        examined := s.examined ++ [(item, ref)] }
    | _ => none
  | .fail j =>
    match s.workers[j]? with
    | some (some item) => some { s with workers := s.workers.set j none, failed := s.failed ++ [item] }
    | _ => none

variable {s s' : SharedOracles} {item ref : TestCapture} {j : Nat}

/-- The items that entered their keys. -/
def owners (s : SharedOracles) : Multiset TestCapture :=
  (s.examined.map Prod.fst : List TestCapture) + (s.workers.filterMap id : List TestCapture) +
    (s.failed : Multiset TestCapture)

/-- The reports of logic bugs. -/
def logicBugs (s : SharedOracles) : List Report := s.oracle.reports.filter fun r => r.filename.bugType = .logicBug

/-- The second piece is among the reports, or is a logic bug of a structure that was seen. -/
def Settled (s : SharedOracles) (p : TestCapture × TestCapture) : Prop :=
  ∀ found, verdict p.1 p.2 = some found →
    (∃ r ∈ s.oracle.reports, r.item = p.1 ∧ r.filename.bugType = found.bugType ∧ r.notes = found.notes ∧
      r.ref = found.ref) ∨
    found.bugType = .logicBug ∧ p.1.structureKey ∈ s.oracle.seen

/-- What holds between the pieces. -/
structure Kept (s : SharedOracles) : Prop where
  consecutive : s.oracle.Consecutive
  nodup : s.oracle.seen.Nodup
  seen : (s.oracle.seen : Multiset Bytes) =
    s.owners.map TestCapture.key + (s.logicBugs.map fun r => r.item.structureKey : List Bytes)
  covered : ∀ item ∈ s.taken, item.key ∈ s.oracle.seen
  items : (s.oracle.reports.map Report.item).Sublist (s.examined.map Prod.fst)
  settled : ∀ p ∈ s.examined, s.Settled p

theorem Settled.mono {p : TestCapture × TestCapture} (h : s.Settled p)
    (hreports : ∀ r ∈ s.oracle.reports, r ∈ s'.oracle.reports) (hseen : ∀ key ∈ s.oracle.seen, key ∈ s'.oracle.seen) :
    s'.Settled p := by
  intro found hfound
  rcases h found hfound with ⟨r, hr, hreport⟩ | ⟨hlogic, hkey⟩
  · exact .inl ⟨r, hreports r hr, hreport⟩
  · exact .inr ⟨hlogic, hseen _ hkey⟩

theorem kept_start (nWorkers : Nat) : Kept (start nWorkers) := by
  refine ⟨rfl, List.nodup_nil, ?_, List.forall_mem_nil _, List.Sublist.refl _, List.forall_mem_nil _⟩
  simp [owners, logicBugs, start, Oracle.start]

/-- An item enters its key, and is examined later. -/
theorem Kept.enter {oracle : Oracle} (h : s.Kept) (henter : s.oracle.enter item = some oracle)
    (horacle : s'.oracle = oracle) (htaken : s'.taken = s.taken ++ [item]) (hexamined : s'.examined = s.examined)
    (howners : s'.owners = item ::ₘ s.owners) : s'.Kept := by
  obtain ⟨hnew, rfl⟩ := Oracle.enter_eq_some.1 henter
  have hbugs : s'.logicBugs = s.logicBugs := by rw [logicBugs, logicBugs, horacle]
  refine ⟨?_, ?_, ?_, fun item' hitem => ?_, ?_, fun p hp => ?_⟩
  · rw [horacle]
    exact h.consecutive
  · rw [horacle]
    exact List.nodup_cons.2 ⟨hnew, h.nodup⟩
  · rw [howners, hbugs, horacle, Multiset.map_cons, Multiset.cons_add, ← h.seen]
    rfl
  · rw [horacle]
    rw [htaken] at hitem
    rcases List.mem_append.1 hitem with hitem | hitem
    · exact List.mem_cons_of_mem _ (h.covered item' hitem)
    · rw [List.mem_singleton.1 hitem]
      exact List.mem_cons_self
  · rw [horacle, hexamined]
    exact h.items
  · rw [hexamined] at hp
    refine (h.settled p hp).mono (fun r hr => ?_) fun key hkey => ?_
    · rw [horacle]
      exact hr
    · rw [horacle]
      exact List.mem_cons_of_mem _ hkey

/-- An item that has entered its key is examined. -/
theorem Kept.examine (h : s.Kept) (horacle : s'.oracle = s.oracle.conclude item ref) (htaken : s'.taken = s.taken)
    (hexamined : s'.examined = s.examined ++ [(item, ref)]) (howners : s'.owners = s.owners) : s'.Kept := by
  rcases h.consecutive.conclude_cases item ref with ⟨hsame, hsettled⟩ | ⟨found, hverdict, hnew, hreport⟩
  · rw [hsame] at horacle
    have hbugs : s'.logicBugs = s.logicBugs := by rw [logicBugs, logicBugs, horacle]
    refine ⟨horacle ▸ h.consecutive, horacle ▸ h.nodup, ?_, fun item hitem => ?_, ?_, fun p hp => ?_⟩
    · rw [howners, hbugs, horacle]
      exact h.seen
    · rw [horacle]
      exact h.covered item (htaken ▸ hitem)
    · rw [horacle, hexamined, List.map_append]
      exact h.items.trans (List.sublist_append_left _ _)
    · rw [hexamined] at hp
      rcases List.mem_append.1 hp with hp | hp
      · exact (h.settled p hp).mono (fun r hr => horacle ▸ hr) fun key hkey => horacle ▸ hkey
      · rw [List.mem_singleton.1 hp]
        intro found hfound
        rw [horacle]
        exact .inr (hsettled found hfound)
  · rw [hreport] at horacle
    have hseen : ∀ key ∈ s.oracle.seen, key ∈ s'.oracle.seen := by
      intro key hkey
      rw [horacle]
      dsimp only
      split
      · exact List.mem_cons_of_mem _ hkey
      · exact hkey
    refine ⟨?_, ?_, ?_, fun item hitem => hseen _ (h.covered item (htaken ▸ hitem)), ?_, fun p hp => ?_⟩
    · have hnumbers := h.consecutive
      unfold Oracle.Consecutive at hnumbers ⊢
      rw [horacle, List.map_append, hnumbers, List.range_succ]
      rfl
    · rw [horacle]
      dsimp only
      split
      · rename_i hlogic
        exact List.nodup_cons.2 ⟨hnew hlogic, h.nodup⟩
      · exact h.nodup
    · rw [howners, logicBugs, horacle, List.filter_append]
      dsimp only
      by_cases hlogic : found.bugType = .logicBug
      · have hone : s.logicBugs = s.oracle.reports.filter fun r => r.filename.bugType = .logicBug := rfl
        rw [if_pos hlogic, ← hone, List.filter_cons_of_pos (by simp [hlogic]), List.filter_nil, List.map_append,
          ← Multiset.coe_add, ← add_assoc, ← h.seen, add_comm]
        rfl
      · rw [if_neg hlogic, List.filter_cons_of_neg (by simp [hlogic]), List.filter_nil, List.append_nil]
        exact h.seen
    · rw [horacle, hexamined, List.map_append, List.map_append]
      exact h.items.append (List.Sublist.refl _)
    · rw [hexamined] at hp
      rcases List.mem_append.1 hp with hp | hp
      · refine (h.settled p hp).mono (fun r hr => ?_) hseen
        rw [horacle]
        exact List.mem_append_left _ hr
      · rw [List.mem_singleton.1 hp]
        intro found' hfound
        obtain rfl := Option.some.inj (hverdict.symm.trans hfound)
        rw [horacle]
        exact .inl ⟨_, List.mem_append_right _ (List.mem_singleton.2 rfl), rfl, rfl, rfl, rfl⟩

/-- The five things that can happen. -/
theorem step_cases {a : SharedStep} (hstep : s.step a = some s') :
    (∃ (j : Nat) (item : TestCapture), s.workers[j]? = some none ∧ s.oracle.enter item = none ∧
      s' = { s with taken := s.taken ++ [item] }) ∨
    (∃ (j : Nat) (item : TestCapture) (oracle : Oracle), s.workers[j]? = some none ∧ s.oracle.enter item = some oracle ∧
      s' = { s with oracle := oracle, workers := s.workers.set j (some item), taken := s.taken ++ [item] }) ∨
    (∃ (j : Nat) (item : TestCapture) (oracle : Oracle), s.workers[j]? = some none ∧ s.oracle.enter item = some oracle ∧
      s' = { s with
        oracle := oracle.conclude item item
        taken := s.taken ++ [item]
        examined := s.examined ++ [(item, item)] }) ∨
    (∃ (j : Nat) (item ref : TestCapture), s.workers[j]? = some (some item) ∧
      s' = { s with
        oracle := s.oracle.conclude item ref
        workers := s.workers.set j none
        examined := s.examined ++ [(item, ref)] }) ∨
    (∃ (j : Nat) (item : TestCapture), s.workers[j]? = some (some item) ∧
      s' = { s with workers := s.workers.set j none, failed := s.failed ++ [item] }) := by
  cases a with
  | take j item =>
    simp only [step] at hstep
    split at hstep
    · rename_i hidle
      split at hstep
      · rename_i henter
        cases hstep
        exact .inl ⟨j, item, hidle, henter, rfl⟩
      · rename_i oracle henter
        split at hstep
        · cases hstep
          exact .inr (.inl ⟨j, item, oracle, hidle, henter, rfl⟩)
        · cases hstep
          exact .inr (.inr (.inl ⟨j, item, oracle, hidle, henter, rfl⟩))
    · cases hstep
  | answer j ref =>
    simp only [step] at hstep
    split at hstep
    · rename_i item hbusy
      cases hstep
      exact .inr (.inr (.inr (.inl ⟨j, item, ref, hbusy, rfl⟩)))
    · cases hstep
  | fail j =>
    simp only [step] at hstep
    split at hstep
    · rename_i item hbusy
      cases hstep
      exact .inr (.inr (.inr (.inr ⟨j, item, hbusy, rfl⟩)))
    · cases hstep

/-- **A worker that nobody interrupts** does what `handle` does, whether or not it has to ask for the reference. -/
theorem exists_run_handle (hidle : s.workers[j]? = some none) (item ref : TestCapture) :
    ∃ as s', run step s as = some s' ∧ s'.oracle = s.oracle.handle item ref ∧ s'.workers = s.workers ∧
      s'.taken = s.taken ++ [item] := by
  rw [Oracle.handle_eq]
  obtain ⟨hlt, hnone⟩ := List.getElem?_eq_some_iff.1 hidle
  cases henter : s.oracle.enter item with
  | none =>
    refine ⟨[.take j item], { s with taken := s.taken ++ [item] }, ?_, rfl, rfl, rfl⟩
    simp [run, step, hidle, henter]
  | some oracle =>
    cases hask : asksReference item with
    | false =>
      refine ⟨[.take j item], { s with
        oracle := oracle.conclude item item
        taken := s.taken ++ [item]
        examined := s.examined ++ [(item, item)] }, ?_, Oracle.conclude_of_not_asksReference hask oracle item ref, rfl,
        rfl⟩
      simp [run, step, hidle, henter, hask]
    | true =>
      refine ⟨[.take j item, .answer j ref], { s with
        oracle := oracle.conclude item ref
        taken := s.taken ++ [item]
        examined := s.examined ++ [(item, ref)] }, ?_, rfl, rfl, rfl⟩
      have hown : (s.workers.set j (some item))[j]? = some (some item) := List.getElem?_set_self hlt
      have hback : s.workers.set j none = s.workers := hnone ▸ List.set_getElem_self hlt
      simp [run, step, hidle, henter, hask, hown, hback]

/-- An item whose key was seen is covered already. -/
theorem Kept.mem_of_seen (h : s.Kept) {key : Bytes} (hkey : key ∈ s.oracle.seen) :
    key ∈ s.owners.map TestCapture.key ∨ ∃ r ∈ s.logicBugs, r.item.structureKey = key := by
  rw [← Multiset.mem_coe, h.seen, Multiset.mem_add, Multiset.mem_coe, List.mem_map] at hkey
  exact hkey

/-- One piece keeps it. -/
theorem Kept.step {a : SharedStep} (h : s.Kept) (hstep : s.step a = some s') : s'.Kept := by
  obtain ⟨j, item, hidle, henter, rfl⟩ | ⟨j, item, oracle, hidle, henter, rfl⟩ | ⟨j, item, oracle, hidle, henter, rfl⟩ |
    ⟨j, item, ref, hbusy, rfl⟩ | ⟨j, item, hbusy, rfl⟩ := step_cases hstep
  · refine ⟨h.consecutive, h.nodup, h.seen, fun item' hitem => ?_, h.items, fun p hp => h.settled p hp⟩
    rcases List.mem_append.1 hitem with hitem | hitem
    · exact h.covered item' hitem
    · rw [List.mem_singleton.1 hitem]
      by_contra hnew
      rw [Oracle.enter_eq_some.2 ⟨hnew, rfl⟩] at henter
      cases henter
  · obtain ⟨rest, hworkers, hset⟩ := exists_filterMap_rest id hidle
    refine h.enter henter rfl rfl rfl ?_
    unfold owners
    rw [hset, hworkers]
    simp
  · -- for the moment, as if it had failed
    refine Kept.examine (s := { s with oracle := oracle, taken := s.taken ++ [item], failed := s.failed ++ [item] })
      (h.enter henter rfl rfl rfl ?_) rfl rfl rfl ?_
    · unfold owners
      rw [← Multiset.coe_add, Multiset.coe_singleton, ← Multiset.singleton_add]
      abel
    · unfold owners
      rw [List.map_append, List.map_singleton, ← Multiset.coe_add, ← Multiset.coe_add, Multiset.coe_singleton]
      abel
  · obtain ⟨rest, hworkers, hset⟩ := exists_filterMap_rest id hbusy
    refine h.examine rfl rfl rfl ?_
    unfold owners
    rw [hset, hworkers, List.map_append, List.map_singleton, ← Multiset.coe_add]
    simp only [id, Option.toList, Multiset.coe_nil, Multiset.coe_singleton]
    abel
  · obtain ⟨rest, hworkers, hset⟩ := exists_filterMap_rest id hbusy
    have howners : owners { s with workers := s.workers.set j none, failed := s.failed ++ [item] } = s.owners := by
      unfold owners
      rw [hset, hworkers, ← Multiset.coe_add]
      simp only [id, Option.toList, Multiset.coe_nil, Multiset.coe_singleton]
      abel
    exact ⟨h.consecutive, h.nodup, by rw [howners]; exact h.seen, h.covered, h.items, fun p hp => h.settled p hp⟩

/-- **What the oracles report together, in whatever order they go on.** The files have the numbers from zero on, so that
each is new. The keys of the items that were examined, are waited for or have failed, and the keys of the structures of
reported logic bugs, are all different: nothing is examined twice, and no two reports share a key. Every item that was
taken has one of these keys; and every bug that was examined is reported, or is a logic bug of a structure with one of
these keys. -/
theorem dedup {nWorkers : Nat} {as : List SharedStep} (hrun : run step (start nWorkers) as = some s) :
    s.oracle.reports.map (fun r => r.filename.number) = List.range s.oracle.totalBugs ∧
      (s.owners.map TestCapture.key + (s.logicBugs.map fun r => r.item.structureKey : List Bytes)).Nodup ∧
      (s.oracle.reports.map Report.item).Sublist (s.examined.map Prod.fst) ∧
      (∀ item ∈ s.taken, item.key ∈ s.owners.map TestCapture.key ∨
        ∃ r ∈ s.logicBugs, r.item.structureKey = item.key) ∧
      ∀ p ∈ s.examined, ∀ found, verdict p.1 p.2 = some found →
        (∃ r ∈ s.oracle.reports, r.item = p.1 ∧ r.filename.bugType = found.bugType ∧ r.notes = found.notes ∧
          r.ref = found.ref) ∨
        found.bugType = .logicBug ∧ (p.1.structureKey ∈ s.owners.map TestCapture.key ∨
          ∃ r ∈ s.logicBugs, r.item.structureKey = p.1.structureKey) := by
  have hkept : s.Kept := run_invariant_of_forall (fun _ _ _ hs hstep => hs.step hstep) (kept_start nWorkers) hrun
  refine ⟨hkept.consecutive, ?_, hkept.items, fun item hitem => hkept.mem_of_seen (hkept.covered item hitem),
    fun p hp found hfound => (hkept.settled p hp found hfound).imp_right (And.imp_right hkept.mem_of_seen)⟩
  rw [← hkept.seen]
  exact Multiset.coe_nodup.2 hkept.nodup

end SharedOracles

end Shared

section Twice

attribute [local instance] Unicode.ascii

attribute [local instance] Md5.sample

/-- A query that fails in the target. -/
def failing : TestCapture := ⟨[], [], some 1, "select a from t"⟩

/-- Two workers get it before the reference, which does not fail, has answered: one report. -/
theorem dedup_twice : ∃ s : SharedOracles, s.taken = [failing, failing] ∧
    s.oracle.reports.map (fun r => r.filename.number) = [0] := by
  have hrun : run SharedOracles.step (.start 2)
      [.take 0 failing, .take 1 failing, .answer 0 ⟨[], [], some 0, "select a from t"⟩] = some _ := rfl
  exact ⟨_, rfl, (SharedOracles.dedup hrun).1⟩

end Twice

end Lsf.Tester
