import Lsf.Engine.Exact
import Lsf.Engine.Sourcing

/-!
# Known ids and parents

`Pedigreed` says of a corpus and its scheduler that they have known ids only, and of the entries that their ids and
parents have a property. The operations of an engine keep this, an entry that is added has to have it, and what a batch
or a snapshot hands out has it.
-/

namespace Lsf.Engine

open Lsf.Core Lsf.Lib Lsf.Cov Lsf.Feedback

section Pedigreed

variable {C S Stmt : Type} [CorpusHandler C Stmt] [CountedCorpus C] [FaithfulCorpus C] [PedigreeCorpus C]
  [Schedule S Stmt] [SourcedSchedule S Stmt]

/-- The ids of the corpus are known, and those that wait in the scheduler; the ids and parents of the entries have `P`. -/
structure Pedigreed (Stmt : Type) [CorpusHandler C Stmt] [CountedCorpus C] [FaithfulCorpus C] [PedigreeCorpus C]
    [Schedule S Stmt] [SourcedSchedule S Stmt] (known : ID → Prop) (P : ID → List ID → Prop) (c : C) (s : S) : Prop where
  faithful : FaithfulCorpus.Faithful Stmt c
  ids : ∀ id ∈ CorpusHandler.ids c, known id
  parents : PedigreeCorpus.Holds Stmt P c
  waits : SourcedSchedule.Waits (fun entry : RawEntry Stmt => known entry.id) s

namespace Pedigreed

variable {known known' : ID → Prop} {P P' : ID → List ID → Prop} {c c' : C} {s s' : S}

theorem mono (h : Pedigreed Stmt known P c s) (hknown : ∀ id, known id → known' id)
    (hP : ∀ id parents, P id parents → P' id parents) : Pedigreed Stmt known' P' c s where
  faithful := h.faithful
  ids id hid := hknown id (h.ids id hid)
  parents := PedigreeCorpus.holds_mono _ _ _ hP h.parents
  waits := SourcedSchedule.waits_mono _ _ _ (fun entry => hknown entry.id) h.waits

theorem reads (h : Pedigreed Stmt known P c s) (hreads : Reads c c') : Pedigreed Stmt known P c' s where
  faithful := hreads.keeps (fun _ _ h => FaithfulCorpus.faithful_get _ _ h)
    (fun _ _ _ h => FaithfulCorpus.faithful_update _ _ _ h) h.faithful
  ids := by
    rw [RawEngine.ids_of_reads hreads]
    exact h.ids
  parents := hreads.holds h.parents
  waits := h.waits

/-- What can be got is known, and has the property. -/
theorem got (h : Pedigreed Stmt known P c s) {entry : RawEntry Stmt} (hgot : Got c entry) :
    known entry.id ∧ P entry.id entry.parents :=
  ⟨h.ids _ (hgot.id_mem h.faithful), hgot.holds h.parents⟩

/-- What a batch hands out is known. -/
theorem nextBatch (h : Pedigreed Stmt known P c s) {size : Nat} {bandits : Bandits} {order : HashOrder ID}
    {draws : List Draw} {b : Batch S C Stmt} (hb : Schedule.nextBatch s c size bandits order draws = some b) :
    Pedigreed Stmt known P b.corpus b.scheduler ∧ ∀ m ∈ b.members, known m.entry.id := by
  obtain ⟨⟨hwaits, hreads⟩, hmembers⟩ := SourcedSchedule.nextBatch_spec (fun entry => known entry.id) s c size bandits
    order draws b (fun _ hgot => (h.got hgot).1) h.waits hb
  have hread := h.reads hreads
  exact ⟨⟨hread.faithful, hread.ids, hread.parents, hwaits⟩, hmembers⟩

theorem insert (h : Pedigreed Stmt known P c s) {entry : CorpusEntry Stmt} {bandits bandits' : Bandits}
    {score score' : F64} (hknown : known entry.id) (hP : P entry.id entry.raw.parents)
    (hadd : Schedule.onAdd s bandits entry = some (score, s', bandits')) :
    Pedigreed Stmt known P (CorpusHandler.insert c entry score') s' where
  faithful := FaithfulCorpus.faithful_insert _ _ _ h.faithful
  ids := by
    rw [LawfulCorpus.ids_insert]
    exact (Finset.forall_mem_insert _ _ _).2 ⟨hknown, h.ids⟩
  parents := PedigreeCorpus.holds_insert _ _ _ _ h.parents hP
  waits := SourcedSchedule.waits_onAdd _ _ _ _ _ _ _ h.waits hadd

theorem remove (h : Pedigreed Stmt known P c s) {id : ID} (hremove : Schedule.onRemove Stmt s id = some s') :
    Pedigreed Stmt known P (CorpusHandler.remove c id) s' where
  faithful := FaithfulCorpus.faithful_remove _ _ h.faithful
  ids := by
    rw [LawfulCorpus.ids_remove]
    exact fun id' hid => h.ids id' (Finset.mem_of_mem_erase hid)
  parents := PedigreeCorpus.holds_remove _ _ _ h.parents
  waits := SourcedSchedule.waits_onRemove _ _ _ _ h.waits hremove

theorem resize (h : Pedigreed Stmt known P c s) :
    Pedigreed Stmt known P (CorpusHandler.resize c) (Schedule.chore Stmt s) where
  faithful := FaithfulCorpus.faithful_resize _ h.faithful
  ids := by
    rw [LawfulCorpus.ids_resize]
    exact h.ids
  parents := PedigreeCorpus.holds_resize _ _ h.parents
  waits := SourcedSchedule.waits_chore _ _ h.waits

/-- An engine that is cleared knows nothing, whatever it knew. -/
theorem clear (h : Pedigreed Stmt known P c s) (bandits : Bandits) :
    Pedigreed Stmt known' P' (CorpusHandler.clear c) (Schedule.reset Stmt s bandits).1 where
  faithful := FaithfulCorpus.faithful_clear _ h.faithful
  ids := by
    rw [LawfulCorpus.ids_clear]
    exact fun _ hid => absurd hid (Finset.notMem_empty _)
  parents := PedigreeCorpus.holds_clear _ _
  waits := SourcedSchedule.waits_reset _ _ _

end Pedigreed

end Pedigreed

/-! ## The engine -/

namespace RawEngine

variable {C S M Stmt : Type} [CorpusHandler C Stmt] [CountedCorpus C] [FaithfulCorpus C] [PedigreeCorpus C]
  [Schedule S Stmt] [SourcedSchedule S Stmt] {known : ID → Prop} {P : ID → List ID → Prop} {e e' : RawEngine C S M}

theorem pedigreed_foldlM_addEntry {score : F64 → F64} {entries : List (CorpusEntry Stmt)}
    (h : Pedigreed Stmt known P e.corpus e.scheduler)
    (hentries : ∀ entry ∈ entries, known entry.id ∧ P entry.id entry.raw.parents)
    (hadd : entries.foldlM (addEntry score) e = some e') : Pedigreed Stmt known P e'.corpus e'.scheduler := by
  induction entries generalizing e with
  | nil =>
    cases hadd
    exact h
  | cons entry entries ih =>
    rw [List.foldlM_cons] at hadd
    obtain ⟨e₁, hentry, hadd⟩ := Option.bind_eq_some_iff.1 hadd
    obtain ⟨⟨s, scheduler, bandits⟩, honAdd, hentry⟩ := Option.bind_eq_some_iff.1 hentry
    cases hentry
    obtain ⟨hknown, hP⟩ := hentries entry List.mem_cons_self
    exact ih (h.insert hknown hP honAdd) (fun e he => hentries e (List.mem_cons_of_mem _ he)) hadd

/-- A result that is accepted is inserted, one that is rejected changes nothing here. -/
theorem pedigreed_commitTestResult [Hasher Stmt] [FloatFns ℚ] {rawEntry : Entry Stmt} {metadata : Meta}
    {shmem : IPCToken} {outcome : TestOutcome} (h : Pedigreed Stmt known P e.corpus e.scheduler)
    (hknown : ∀ id ∈ acceptedId outcome rawEntry.entry.id, known id) (hP : P rawEntry.entry.id rawEntry.entry.parents)
    (hcommit : e.commitTestResult rawEntry metadata shmem = some (outcome, e')) :
    Pedigreed Stmt known P e'.corpus e'.scheduler := by
  obtain ⟨⟨found, edgeMap, q⟩, -, hcommit⟩ := Option.bind_eq_some_iff.1 hcommit
  obtain ⟨⟨accepted, minimizer⟩, -, hcommit⟩ := Option.bind_eq_some_iff.1 hcommit
  simp only [conclude] at hcommit
  split at hcommit
  · cases hcommit
    exact h
  · rename_i hno
    obtain ⟨e₁, hadd, heq⟩ := Option.map_eq_some_iff.1 hcommit
    cases heq
    refine pedigreed_foldlM_addEntry ?_ (fun entry hentry => ?_) hadd
    · exact h
    cases List.mem_singleton.1 hentry
    refine ⟨hknown _ ?_, hP⟩
    cases outcome with
    | rejected r => exact absurd rfl (hno r)
    | _ => exact List.mem_singleton_self _

theorem pedigreed_chore {order : HashOrder ID} (h : Pedigreed Stmt known P e.corpus e.scheduler)
    (hchore : e.chore Stmt order = some e') : Pedigreed Stmt known P e'.corpus e'.scheduler := by
  have hresize : Pedigreed Stmt known P (e.resize Stmt).corpus (e.resize Stmt).scheduler := h.resize
  rw [chore_eq] at hchore
  split at hchore
  · obtain ⟨⟨m, c, s⟩, hminimize, hchore⟩ := Option.bind_eq_some_iff.1 hchore
    cases hchore
    exact GreedyCoverage.minimize_keeps (P := Pedigreed Stmt known P) (fun _ _ _ _ h hremove => h.remove hremove)
      hresize hminimize
  · cases hchore
    exact hresize

end RawEngine

/-- A snapshot has each entry once, and only entries that can be got. -/
theorem getAll_spec {C Stmt : Type} [CorpusHandler C Stmt] [FaithfulCorpus C] {c : C} {ids : List ID}
    (hc : FaithfulCorpus.Faithful Stmt c) : ((getAll c ids).1.map CorpusEntry.id).Sublist ids := by
  induction ids generalizing c with
  | nil => exact List.Sublist.refl _
  | cons id ids ih =>
    have hrest := ih (FaithfulCorpus.faithful_get _ id hc)
    show (((CorpusHandler.get c id).1.toList ++ (getAll (CorpusHandler.get c id).2 ids).1).map CorpusEntry.id).Sublist _
    cases hget : (CorpusHandler.get c id).1 with
    | none => exact hrest.cons _
    | some e =>
      have hid : e.id = id := FaithfulCorpus.get_id c id e hc hget
      exact hid ▸ hrest.cons_cons _

end Lsf.Engine
