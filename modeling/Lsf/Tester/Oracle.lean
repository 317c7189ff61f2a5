import Lsf.Lib.Run
import Lsf.Tester.Signature

/-!
# The oracle

`oracle_worker` of `tester/oracle.py`. One step handles one captured run of the program under test, with the capture
that the reference gives for its query: the capture is passed over if its key is among the seen ones; else it gets a
verdict, and a bug is written to a file of its own.

- what one step does: `handle_of_seen`, `handle_of_none`, `handle_of_bug`, `handle_of_logicBug`;
- the files of a run have different names, and only keys of handled items are seen (`numbered_of_run`,
  `entered_of_run`);
- no first sighting is dropped, exactly as long as no new logic bug has a query that is its own structural signature
  (`allSteps_reported_iff`): the two keys of such a bug are one (`not_reported_lowercase`).
-/

namespace Lsf.Tester

open Lsf.Lib

/-! ## Captures -/

/-- `TestCapture`, without the running time. -/
structure TestCapture where
  stdout : Bytes
  stderr : Bytes
  exitCode : Option Int
  query : String
deriving DecidableEq

/-- `EXPECTED_SQL_STDERR_PATTERNS`. -/
def expectedSqlStderrPatterns : List Bytes :=
  ["Parse error", "syntax error", "no such table", "no such column", "no such function", "no such module",
    "no such index", "ambiguous column name", "table already exists", "duplicate column name",
    "cannot open value of type", "no tables specified", "UNIQUE constraint failed", "NOT NULL constraint failed",
    "CHECK constraint failed", "FOREIGN KEY constraint failed", "too many levels of trigger",
    "string or blob too big", "too many columns", "too many terms in compound SELECT",
    "too many attached databases", "interrupted", "unable to open database", "disk I/O error",
    "database is locked", "out of memory", "Runtime error", "Error: "].map ascii

/-- `UNCONDITIONAL_BUG_PATTERNS`. -/
def unconditionalBugPatterns : List Bytes :=
  ["AddressSanitizer", "LeakSanitizer", "UndefinedBehaviorSanitizer", "Assertion failed", "DEADLYSIGNAL", "ERROR:",
    "Segmentation fault", "SIGABRT", "SIGSEGV", "heap-buffer-overflow", "stack-buffer-overflow", "use-after-free",
    "double-free"].map ascii

/-- `INTERESTING_UNILATERAL_PATTERNS`. -/
def interestingUnilateralPatterns : List Bytes :=
  ["internal error", "database disk image is malformed", "misuse of aggregate", "misuse of window function",
    "database corruption", "index corruption"].map ascii

/-- `stderr_matches_any`. -/
def stderrMatchesAny (stderr : Bytes) (patterns : List Bytes) : Bool := patterns.any fun p => decide (p <:+: stderr)

/-- `is_expected_error`. -/
def isExpectedError (capture : TestCapture) : Bool := stderrMatchesAny capture.stderr expectedSqlStderrPatterns

/-- `is_unconditional_bug`. -/
def isUnconditionalBug (capture : TestCapture) : Bool := stderrMatchesAny capture.stderr unconditionalBugPatterns

/-- `is_interesting_unilateral`. -/
def isInterestingUnilateral (capture : TestCapture) : Bool :=
  stderrMatchesAny capture.stderr interestingUnilateralPatterns

/-- `text in query`. -/
def occursIn (text : String) (query : String) : Bool := decide (text.toList <:+: query.toList)

/-! ## The verdict -/

inductive BugType where
  | memsafety
  | internalError
  | crashOrError
  | divergence
  | logicBug
deriving DecidableEq, Repr

/-- `item.exit_code` in a text. -/
def exitText : Option Int → String
  | none => "None"
  | some code => toString code

/-- What is found to be wrong, if anything: the type of bug, the notes, and the reference's capture where it was asked
for. -/
structure Finding where
  bugType : BugType
  notes : String
  ref : Option TestCapture

/-- The verdict of `oracle_worker` on `item`, where the reference answers `ref`. -/
def verdict (item ref : TestCapture) : Option Finding :=
  if isUnconditionalBug item then some ⟨.memsafety, "", none⟩
  else if item.exitCode = some 42 then none
  else if isInterestingUnilateral item then
    if !isInterestingUnilateral ref then
      some ⟨.internalError, "Reference did not produce an internal/corrupt error.", some ref⟩
    else none
  else if item.exitCode ≠ some 0 then
    if ref.exitCode = some 0 then
      some ⟨.crashOrError, "Reference exited 0; target exited " ++ exitText item.exitCode ++ ".", some ref⟩
    else if isExpectedError item && isExpectedError ref then none
    else if firstLine (normalizeOutput item.stderr) ≠ firstLine (normalizeOutput ref.stderr) then
      some ⟨.divergence, "Both errored, but with different messages (after normalization).", some ref⟩
    else none
  else if ref.exitCode = some 42 then none
  else if ref.exitCode ≠ some 0 then
    some ⟨.divergence, "Target exited 0 but reference exited " ++ exitText ref.exitCode ++ ".", some ref⟩
  else if occursIn "random" item.query || occursIn "PRIMARY KEY" item.query || occursIn "ANALYZE" item.query ||
      isExpectedError ref then none
  else if normalizeOutput ref.stdout ≠ normalizeOutput item.stdout then
    some ⟨.logicBug, "Same exit code (0) but stdout differs (after normalization).", some ref⟩
  else none

/-- The target and the reference both exit with 0 and print different things, about a query that is not excluded. -/
def IsLogicBug (item ref : TestCapture) : Prop :=
  isUnconditionalBug item = false ∧ isInterestingUnilateral item = false ∧ item.exitCode = some 0 ∧
    ref.exitCode = some 0 ∧
    (occursIn "random" item.query || occursIn "PRIMARY KEY" item.query || occursIn "ANALYZE" item.query ||
      isExpectedError ref) = false ∧
    normalizeOutput ref.stdout ≠ normalizeOutput item.stdout

instance (item ref : TestCapture) : Decidable (IsLogicBug item ref) := by
  unfold IsLogicBug
  infer_instance

theorem IsLogicBug.exists_verdict {item ref : TestCapture} (h : IsLogicBug item ref) :
    ∃ found, verdict item ref = some found ∧ found.bugType = .logicBug := by
  obtain ⟨hu, hi, h0, hr, hq, hout⟩ := h
  have hv : ∃ notes, verdict item ref = some ⟨.logicBug, notes, some ref⟩ := by
    unfold verdict
    rw [if_neg (by simp [hu]), if_neg (by simp [h0]), if_neg (by simp [hi]), if_neg (by simp [h0]),
      if_neg (by simp [hr]), if_neg (by simp [hr]), if_neg (by rw [hq]; exact Bool.false_ne_true), if_pos hout]
    exact ⟨_, rfl⟩
  obtain ⟨notes, hv⟩ := hv
  exact ⟨_, hv, rfl⟩

theorem bugType_eq_logicBug {item ref : TestCapture} {found : Finding} (h : verdict item ref = some found) :
    found.bugType = .logicBug ↔ IsLogicBug item ref := by
  constructor
  · intro hb
    unfold verdict at h
    split_ifs at h with hu h42 hi hni h0 hr0 he hl hr42 hr hq hout <;> cases h <;> try cases hb
    exact ⟨by simpa using hu, by simpa using hi, not_not.1 h0, not_not.1 hr, by simpa using hq, hout⟩
  · intro hl
    obtain ⟨found', h', hb⟩ := hl.exists_verdict
    rw [h] at h'
    cases h'
    exact hb

/-! ## The keys -/

/-- A hash with `hexdigest` as in `hashlib.md5`; different inputs have different digests. -/
class Md5 where
  hexdigest : ByteArray → Bytes
  injective : Function.Injective hexdigest

section Digest

variable [Md5]

/-- The signature of a capture: its normalised stderr and the hash of a query. -/
def signature (item : TestCapture) (query : String) : Bytes :=
  normalizeOutput item.stderr ++ ascii "|" ++ Md5.hexdigest query.toUTF8

theorem signature_inj {item : TestCapture} {query query' : String} :
    signature item query = signature item query' ↔ query = query' := by
  refine ⟨fun h => ?_, fun h => h ▸ rfl⟩
  exact String.toByteArray_inj.1 (Md5.injective (List.append_cancel_left h))

end Digest

section Steps

variable [Unicode] [Md5]

/-- `get_structural_signature(item.query)`. -/
def TestCapture.structure (item : TestCapture) : String := String.ofList (structuralSignature item.query.toList)

/-- The query whose hash is looked up first. -/
def TestCapture.firstQuery (item : TestCapture) : String :=
  if item.exitCode = some 42 then item.structure else item.query

/-! ## One step -/

/-- `docker_out/crashes/bug_{number}_{bugType}.txt`. -/
structure Filename where
  number : Nat
  bugType : BugType
deriving DecidableEq

/-- What is written to a file. -/
structure Report where
  filename : Filename
  notes : String
  query : String
  ref : Option TestCapture
  item : TestCapture

/-- `seen_signatures`, `total_bugs` and the files that have been written. -/
structure Oracle where
  seen : List Bytes
  totalBugs : Nat
  reports : List Report

def Oracle.start : Oracle := ⟨[], 0, []⟩

/-- Writing the report; a file that exists is left as it is. -/
def Oracle.save (s : Oracle) (item : TestCapture) (found : Finding) : Oracle :=
  let filename := ⟨s.totalBugs, found.bugType⟩
  let s := { s with totalBugs := s.totalBugs + 1 }
  if filename ∈ s.reports.map Report.filename then s
  else { s with reports := s.reports ++ [⟨filename, found.notes, item.query, found.ref, item⟩] }

/-- `oracle_worker` on one item, where the reference answers `ref`. -/
def Oracle.handle (s : Oracle) (item ref : TestCapture) : Oracle :=
  let key := signature item item.firstQuery
  if key ∈ s.seen then s
  else
    let s := { s with seen := key :: s.seen }
    match verdict item ref with
    | none => s
    | some found =>
      if found.bugType = .logicBug then
        let key := signature item item.structure
        if key ∈ s.seen then s
        else Oracle.save { s with seen := key :: s.seen } item found
      else s.save item found

/-- The key that is looked up first. -/
def TestCapture.key (item : TestCapture) : Bytes := signature item item.firstQuery

/-- The key of a logic bug. -/
def TestCapture.structureKey (item : TestCapture) : Bytes := signature item item.structure

/-- The first piece of it: the key is entered if it is new. -/
def Oracle.enter (s : Oracle) (item : TestCapture) : Option Oracle :=
  if item.key ∈ s.seen then none else some { s with seen := item.key :: s.seen }

/-- The second piece, when the reference has answered. -/
def Oracle.conclude (s : Oracle) (item ref : TestCapture) : Oracle :=
  match verdict item ref with
  | none => s
  | some found =>
    if found.bugType = .logicBug then
      if item.structureKey ∈ s.seen then s
      else Oracle.save { s with seen := item.structureKey :: s.seen } item found
    else s.save item found

/-- Items with the reference's answers, one after the other. -/
def Oracle.step (s : Oracle) (item : TestCapture × TestCapture) : Option Oracle := some (s.handle item.1 item.2)

namespace Oracle

variable {s s' : Oracle} {item ref : TestCapture} {found : Finding}

theorem handle_of_seen (h : signature item item.firstQuery ∈ s.seen) : s.handle item ref = s := by
  simp only [handle, h, if_true]

theorem handle_of_none (h : signature item item.firstQuery ∉ s.seen) (hv : verdict item ref = none) :
    s.handle item ref = { s with seen := signature item item.firstQuery :: s.seen } := by
  simp only [handle, h, if_false, hv]

theorem handle_of_bug (h : signature item item.firstQuery ∉ s.seen) (hv : verdict item ref = some found)
    (hb : found.bugType ≠ .logicBug) :
    s.handle item ref = save { s with seen := signature item item.firstQuery :: s.seen } item found := by
  simp only [handle, h, if_false, hv, hb]

theorem handle_of_logicBug (h : signature item item.firstQuery ∉ s.seen) (hv : verdict item ref = some found)
    (hb : found.bugType = .logicBug) : s.handle item ref =
      if signature item item.structure ∈ signature item item.firstQuery :: s.seen then
        { s with seen := signature item item.firstQuery :: s.seen }
      else
        save { s with seen := signature item item.structure :: signature item item.firstQuery :: s.seen }
          item found := by
  simp only [handle, h, if_false, hv, hb, if_true]

/-! ## The files -/

/-- The numbers in use are below the counter. -/
def Numbered (s : Oracle) : Prop := ∀ r ∈ s.reports, r.filename.number < s.totalBugs

omit [Unicode] [Md5] in
/-- With the numbers below the counter the file does not exist yet. -/
theorem Numbered.save (h : s.Numbered) (seen : List Bytes) (item : TestCapture) (found : Finding) :
    (Oracle.save { s with seen := seen } item found).Numbered ∧
      (Oracle.save { s with seen := seen } item found).reports =
        s.reports ++ [⟨⟨s.totalBugs, found.bugType⟩, found.notes, item.query, found.ref, item⟩] := by
  have hnew : (⟨s.totalBugs, found.bugType⟩ : Filename) ∉ s.reports.map Report.filename := by
    intro hmem
    obtain ⟨r, hr, heq⟩ := List.mem_map.1 hmem
    have := h r hr
    simp [heq] at this
  simp only [Oracle.save, hnew, if_false]
  refine ⟨fun r hr => ?_, trivial⟩
  rcases List.mem_append.1 hr with hr | hr
  · exact Nat.lt_succ_of_lt (h r hr)
  · rw [List.mem_singleton.1 hr]
    exact Nat.lt_succ_self _

/-- What a step leaves: the files as they were, or one more. -/
theorem handle_cases (s : Oracle) (item ref : TestCapture) :
    (∃ seen, s.handle item ref = { s with seen := seen }) ∨
      ∃ seen found, s.handle item ref = save { s with seen := seen } item found := by
  by_cases hkey : signature item item.firstQuery ∈ s.seen
  · exact .inl ⟨s.seen, handle_of_seen hkey⟩
  · cases hv : verdict item ref with
    | none => exact .inl ⟨_, handle_of_none hkey hv⟩
    | some found =>
      by_cases hb : found.bugType = .logicBug
      · rw [handle_of_logicBug hkey hv hb]
        split
        · exact .inl ⟨_, rfl⟩
        · exact .inr ⟨_, found, rfl⟩
      · exact .inr ⟨_, found, handle_of_bug hkey hv hb⟩

theorem Numbered.handle (h : s.Numbered) (item ref : TestCapture) : (s.handle item ref).Numbered := by
  rcases handle_cases s item ref with ⟨seen, heq⟩ | ⟨seen, found, heq⟩
  · rw [heq]
    exact h
  · rw [heq]
    exact (h.save seen item found).1

theorem Numbered.step (h : s.Numbered) {i : TestCapture × TestCapture} (hs : s.step i = some s') : s'.Numbered := by
  cases hs
  exact h.handle i.1 i.2

/-! ## First sightings -/

/-- The keys under which an item is looked up: its signature, and for a logic bug that of its structure. -/
def keys (item ref : TestCapture) : List Bytes :=
  signature item item.firstQuery :: if IsLogicBug item ref then [signature item item.structure] else []

/-- A bug none of whose keys was seen before is reported, once. -/
def Reported (s : Oracle) (i : TestCapture × TestCapture) : Prop :=
  ∀ found, verdict i.1 i.2 = some found → (∀ key ∈ keys i.1 i.2, key ∉ s.seen) →
    ∃ r, (s.handle i.1 i.2).reports = s.reports ++ [r] ∧ r.item = i.1 ∧ r.filename.bugType = found.bugType

/-- A logic bug that was not seen before, whose query is its own structural signature. -/
def SelfCollides (s : Oracle) (i : TestCapture × TestCapture) : Prop :=
  IsLogicBug i.1 i.2 ∧ i.1.structure = i.1.query ∧ signature i.1 i.1.query ∉ s.seen

/-- A step enters keys of its item only. -/
theorem entered_of_handle {key : Bytes} (h : key ∈ (s.handle item ref).seen) : key ∈ s.seen ∨ key ∈ keys item ref := by
  by_cases hkey : signature item item.firstQuery ∈ s.seen
  · rw [handle_of_seen hkey] at h
    exact .inl h
  · cases hv : verdict item ref with
    | none =>
      rw [handle_of_none hkey hv] at h
      rcases List.mem_cons.1 h with rfl | h
      · exact .inr (by simp [keys])
      · exact .inl h
    | some found =>
      have hsave : ∀ seen, (save { s with seen := seen } item found).seen = seen := by
        intro seen
        simp only [save]
        split <;> rfl
      by_cases hb : found.bugType = .logicBug
      · have hl := (bugType_eq_logicBug hv).1 hb
        rw [handle_of_logicBug hkey hv hb] at h
        split at h
        · rcases List.mem_cons.1 h with rfl | h
          · exact .inr (by simp [keys])
          · exact .inl h
        · rw [hsave] at h
          simp only [List.mem_cons] at h
          rcases h with rfl | rfl | h
          · exact .inr (by simp [keys, hl])
          · exact .inr (by simp [keys])
          · exact .inl h
      · rw [handle_of_bug hkey hv hb, hsave] at h
        rcases List.mem_cons.1 h with rfl | h
        · exact .inr (by simp [keys])
        · exact .inl h

omit [Md5] in
theorem firstQuery_of_logicBug (h : IsLogicBug item ref) : item.firstQuery = item.query := by
  have h0 := h.2.2.1
  simp [TestCapture.firstQuery, h0]

theorem not_reported_of_selfCollides {i : TestCapture × TestCapture} (h : SelfCollides s i) : ¬Reported s i := by
  obtain ⟨hl, hstr, hnew⟩ := h
  intro hrep
  obtain ⟨found, hv, hb⟩ := hl.exists_verdict
  have hfirst := firstQuery_of_logicBug hl
  have hkeys : ∀ key ∈ keys i.1 i.2, key ∉ s.seen := by
    intro key hkey
    rw [keys, if_pos hl, hstr, hfirst] at hkey
    have : key = signature i.1 i.1.query := by simpa using hkey
    rw [this]
    exact hnew
  obtain ⟨r, hr, -⟩ := hrep found hv hkeys
  rw [handle_of_logicBug (by rwa [hfirst]) hv hb, if_pos (by simp [hstr, hfirst])] at hr
  simp at hr

theorem reported_of_not_selfCollides {i : TestCapture × TestCapture} (hs : s.Numbered) (h : ¬SelfCollides s i) :
    Reported s i := by
  intro found hv hnew
  have hfirst : signature i.1 i.1.firstQuery ∉ s.seen := hnew _ (by simp [keys])
  by_cases hb : found.bugType = .logicBug
  · have hl := (bugType_eq_logicBug hv).1 hb
    have hsecond : signature i.1 i.1.structure ∉ s.seen := hnew _ (by simp [keys, hl])
    have hne : signature i.1 i.1.structure ≠ signature i.1 i.1.firstQuery := by
      intro heq
      have hq := firstQuery_of_logicBug hl
      rw [hq, signature_inj] at heq
      rw [hq] at hfirst
      exact h ⟨hl, heq, hfirst⟩
    rw [handle_of_logicBug hfirst hv hb, if_neg (by simp [hne, hsecond])]
    exact ⟨_, (hs.save _ i.1 found).2, rfl, rfl⟩
  · rw [handle_of_bug hfirst hv hb]
    exact ⟨_, (hs.save _ i.1 found).2, rfl, rfl⟩

/-- **First sightings.** In a run every bug whose keys are new is reported once, exactly as long as no new logic bug
has a query that is its own structural signature. -/
theorem allSteps_reported_iff (items : List (TestCapture × TestCapture)) :
    AllSteps Oracle.step Reported .start items ↔ AllSteps Oracle.step (fun s i => ¬SelfCollides s i) .start items := by
  have hstart : Oracle.start.Numbered := by
    intro r hr
    cases hr
  refine allSteps_congr (fun s i s' hs hstep => hs.step hstep) (fun s i hs => ?_) hstart
  constructor
  · intro hrep hself
    exact not_reported_of_selfCollides hself hrep
  · intro hself
    exact reported_of_not_selfCollides hs hself

/-- The keys that have been seen at the end of a run are keys of handled items. -/
theorem entered_of_run {items : List (TestCapture × TestCapture)} (h : run Oracle.step s items = some s') {key : Bytes}
    (hkey : key ∈ s'.seen) : key ∈ s.seen ∨ ∃ i ∈ items, key ∈ keys i.1 i.2 := by
  induction items generalizing s with
  | nil =>
    cases h
    exact .inl hkey
  | cons i items ih =>
    obtain ⟨s₁, h₁, hrun⟩ := run_cons_eq_some.1 h
    cases h₁
    rcases ih hrun with hmem | ⟨j, hj, hmem⟩
    · rcases entered_of_handle hmem with hmem | hmem
      · exact .inl hmem
      · exact .inr ⟨i, by simp, hmem⟩
    · exact .inr ⟨j, by simp [hj], hmem⟩

end Oracle

end Steps

/-! ## A query in lower case -/

section Lowercase

attribute [local instance] Unicode.ascii

/-- A hash that has MD5's digest of `select a from t`, and is long elsewhere. -/
@[reducible] def Md5.sample : Md5 where
  hexdigest input :=
    if input.data = "select a from t".toUTF8.data then ascii "6ac00d0c56ec7a0f460b801d1ac030cb"
    else List.replicate 33 48 ++ input.data.toList
  injective := by
    have hlong : ∀ bytes : Bytes, ascii "6ac00d0c56ec7a0f460b801d1ac030cb" ≠ List.replicate 33 48 ++ bytes := by
      intro bytes h
      have hlen := congrArg List.length h
      have h32 : (ascii "6ac00d0c56ec7a0f460b801d1ac030cb").length = 32 := by decide
      rw [h32] at hlen
      simp at hlen
    intro a b h
    simp only at h
    split_ifs at h with ha hb hb
    · exact ByteArray.ext (ha.trans hb.symm)
    · exact absurd h (hlong _)
    · exact absurd h.symm (hlong _)
    · exact ByteArray.ext (Array.toList_inj.1 (List.append_cancel_left h))

attribute [local instance] Md5.sample

/-- The target and the reference print different rows for `select a from t`; nothing was seen before, and nothing is
reported. -/
theorem not_reported_lowercase :
    ¬AllSteps Oracle.step Oracle.Reported .start
      [(⟨ascii "1", [], some 0, "select a from t"⟩, ⟨ascii "2", [], some 0, "select a from t"⟩)] := by
  intro h
  refine Oracle.not_reported_of_selfCollides ⟨by decide +kernel, ?_, by simp [Oracle.start]⟩ h.1
  have hstr : structuralSignature "select a from t".toList = "select a from t".toList := by decide +kernel
  rw [TestCapture.structure, hstr, String.ofList_toList]

end Lowercase

end Lsf.Tester
