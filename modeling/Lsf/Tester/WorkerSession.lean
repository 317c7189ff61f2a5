import Lsf.Tester.Exec
import Lsf.Tester.Sharing

/-!
# The sessions of a worker

`SQLiteWorker` of `tester/persistent_worker.py` over many queries. A process serves one query after the other; in between
it is told to open a new database and to print a marker, up to which both pipes are read. Every fiftieth time it is
killed instead, and the working directory is then left as it is. The directory is left as it is, too, when the command
cannot be written, as to a process that has just exited; the exception then leaves `execute` in place of the capture.
Processes can always be started, and files can always be removed.

- a process gets fifty queries at most, and a query finds files of an earlier one only directly after a kill of that kind
  or after such an exception (`lifetimes`);
- what the oracle makes of the captures is what it makes of those of processes that serve one query each, if both print
  the same for a query (`session_agrees`).
-/

namespace Lsf.Tester

open Lsf.Lib

/-! ## The worker -/

/-- The bytes of a stream. -/
def allBytes (stream : List (Nat × Bytes)) : Bytes := (stream.map Prod.snd).flatten

/-- What is unread on the pipes of a process. -/
structure Pipes where
  stdout : Bytes
  stderr : Bytes
deriving DecidableEq

/-- A query, with what becomes of it:
- whether the process of the query before has exited, and that is known (`returncode`), when the query comes;
- the error of the command that is written for it, if there is one, and whether the process is known to have exited after
  the error;
- what the process prints for it, with the times, and when it exits, if it does;
- the files that are in the working directory afterwards;
- the error of the command that is written for the reset, if there is one, what the process prints for the reset with a
  number, and when it exits during the reset, if it does. -/
structure Call (F : Type) where
  query : String
  timeout : Nat
  execTime : Nat
  exited : Bool
  stdinError : Option String
  exitKnown : Bool
  stdout : List (Nat × Bytes)
  stderr : List (Nat × Bytes)
  exit : Option (Nat × Int)
  files : List F → List F
  resetError : Option String
  resetStdout : Nat → List (Nat × Bytes)
  resetStderr : Nat → List (Nat × Bytes)
  resetExit : Option Nat

/-- `SQLiteWorker` between two queries: what is unread of its process, if it has one that is not known to have exited, the
counter of the resets and the files in the working directory; `served` counts the queries of the process. -/
structure SQLiteWorker (F : Type) where
  proc : Option Pipes
  resetCounter : Nat
  workdir : List F
  served : Nat

/-- `f"__RESET_{epoch}__"` -/
def marker (epoch : Nat) : Bytes := ascii "__RESET_" ++ ascii (toString epoch) ++ ascii "__"

/-- The timeout of a reset, in nanoseconds. -/
def resetTimeout : Nat := 500000000

namespace SQLiteWorker

variable {F : Type}

def new : SQLiteWorker F := ⟨none, 0, [], 0⟩

end SQLiteWorker

section Calls

variable {F : Type}

/-- The process as it meets the query, with what was left unread in front. -/
def Call.process (c : Call F) (pipes : Pipes) : Process :=
  ⟨(0, pipes.stdout) :: c.stdout, (0, pipes.stderr) :: c.stderr, c.exit, c.stdinError⟩

/-- What is unread after both markers, or after the ends of the pipes; a process that does not answer in time is killed. -/
def Call.readMarkers (limit : Nat) (c : Call F) (epoch : Nat) (pipes : Pipes) : Option Pipes :=
  match readUntilSentinel limit c.resetExit ((0, pipes.stderr) :: c.resetStderr epoch) (marker epoch),
    readUntilSentinel limit c.resetExit ((0, pipes.stdout) :: c.resetStdout epoch) (marker epoch) with
  | some (t₁, stderrBytes, _), some (t₂, stdoutBytes, _) =>
    if max t₁ t₂ < resetTimeout then
      some ⟨(pipes.stdout ++ allBytes (c.resetStdout epoch)).drop stdoutBytes.length,
        (pipes.stderr ++ allBytes (c.resetStderr epoch)).drop stderrBytes.length⟩
    else none
  | _, _ => none

namespace SQLiteWorker

/-- `reset`, with the exception that it raises. It ends before the files are removed where it raises one, and where it
kills the process of its own accord. -/
def reset (limit : Nat) (c : Call F) (w : SQLiteWorker F) : Option String × SQLiteWorker F :=
  match w.proc with
  | none => (none, { w with workdir := [] })
  | some pipes =>
    let epoch := w.resetCounter
    let w := { w with resetCounter := epoch + 1 }
    if epoch % 50 = 0 then (none, { w with proc := none })
    else
      match c.resetError with
      | some e => (some e, w)
      | none => (none, { w with proc := c.readMarkers limit epoch pipes, workdir := [] })

/-- The place of the next query among those of its process. -/
def ordinal (w : SQLiteWorker F) : Nat := (if w.proc.isSome then w.served else 0) + 1

/-- What `execute` leaves of the process: after an error of its command the process is kept, and nothing was read. -/
def afterQuery (limit : Nat) (c : Call F) (pipes : Pipes) : Option Pipes :=
  match c.stdinError with
  | some _ => if c.exitKnown then none else some ⟨pipes.stdout ++ allBytes c.stdout, pipes.stderr ++ allBytes c.stderr⟩
  | none =>
    let capture := Tester.execute limit (c.process pipes) c.query c.timeout c.execTime
    if capture.isHangOrCrash = none then
      some ⟨(pipes.stdout ++ allBytes c.stdout).drop capture.stdout.length,
        (pipes.stderr ++ allBytes c.stderr).drop capture.stderr.length⟩
    else none

/-- The worker as the query finds it: a process that has exited is as good as none. -/
def onQuery (c : Call F) (w : SQLiteWorker F) : SQLiteWorker F := if c.exited then { w with proc := none } else w

/-- The body of `execute`, with the capture and the worker that it leaves. -/
def query (limit : Nat) (c : Call F) (w : SQLiteWorker F) : WorkerCapture × SQLiteWorker F :=
  let w := w.onQuery c
  -- `_start` makes a process where there is none
  let pipes := w.proc.getD ⟨[], []⟩
  (Tester.execute limit (c.process pipes) c.query c.timeout c.execTime,
    { w with proc := afterQuery limit c pipes, workdir := c.files w.workdir, served := w.ordinal })

/-- `execute`, with the `reset` in its `finally`, whose exception takes the place of the capture. -/
def execute (limit : Nat) (w : SQLiteWorker F) (c : Call F) : Except String WorkerCapture × SQLiteWorker F :=
  let (capture, w) := query limit c w
  let (raised, w) := reset limit c w
  (raised.elim (.ok capture) .error, w)

/-- One query after the other. -/
def session (limit : Nat) : SQLiteWorker F → List (Call F) → List (Except String WorkerCapture) × SQLiteWorker F
  | w, [] => ([], w)
  | w, c :: cs =>
    let (capture, w) := w.execute limit c
    let (captures, w) := session limit w cs
    (capture :: captures, w)

/-! ## Lifetimes -/

/-- How long the process is in use. -/
def Tended (w : SQLiteWorker F) : Prop :=
  w.proc.isSome = true → 0 < w.resetCounter ∧ w.served ≤ (w.resetCounter - 1) % 50

theorem tended_new : (new : SQLiteWorker F).Tended := fun h => absurd h Bool.false_ne_true

theorem Tended.ordinal_le {w : SQLiteWorker F} (h : w.Tended) : w.ordinal ≤ 50 := by
  unfold ordinal
  split
  · rename_i hsome
    have hserved := (h hsome).2
    omega
  · omega

/-- Where a reset is not one of those that kill, the query was not the last one that the process gets. -/
theorem Tended.ordinal_le_mod {w : SQLiteWorker F} (h : w.Tended) (hne : w.resetCounter % 50 ≠ 0) :
    w.ordinal ≤ w.resetCounter % 50 := by
  unfold ordinal
  split
  · rename_i hsome
    have hserved := h hsome
    omega
  · omega

/-- What a reset leaves: a process that it does not kill is counted, and where files are left, it has killed the process of
its own accord or raised an exception. -/
theorem reset_spec (limit : Nat) (c : Call F) (w : SQLiteWorker F) :
    ((reset limit c w).2.proc.isSome = true → w.resetCounter % 50 ≠ 0 ∧
      (reset limit c w).2.resetCounter = w.resetCounter + 1 ∧ (reset limit c w).2.served = w.served) ∧
    ((reset limit c w).2.workdir ≠ [] → (∃ e, (reset limit c w).1 = some e) ∨
      ((reset limit c w).2.proc = none ∧ (reset limit c w).2.resetCounter % 50 = 1)) := by
  unfold reset
  split
  · rename_i hnone
    refine ⟨fun hsome => ?_, fun hne => absurd rfl hne⟩
    rw [hnone] at hsome
    cases hsome
  · dsimp only
    split
    · rename_i hepoch
      refine ⟨fun hsome => absurd hsome Bool.false_ne_true, fun _ => .inr ⟨rfl, ?_⟩⟩
      dsimp only
      omega
    · rename_i hepoch
      split
      · exact ⟨fun _ => ⟨hepoch, rfl, rfl⟩, fun _ => .inl ⟨_, rfl⟩⟩
      · exact ⟨fun _ => ⟨hepoch, rfl, rfl⟩, fun hne => absurd rfl hne⟩

theorem Tended.onQuery {w : SQLiteWorker F} (h : w.Tended) (c : Call F) : (w.onQuery c).Tended := by
  unfold SQLiteWorker.onQuery
  split
  · exact fun hsome => absurd hsome Bool.false_ne_true
  · exact h

theorem Tended.execute {w : SQLiteWorker F} (h : w.Tended) (limit : Nat) (c : Call F) :
    (w.execute limit c).2.Tended := by
  intro hsome
  obtain ⟨hepoch, hcounter, hserved⟩ := (reset_spec limit c (query limit c w).2).1 hsome
  have hordinal : (w.onQuery c).ordinal ≤ (query limit c w).2.resetCounter % 50 := (h.onQuery c).ordinal_le_mod hepoch
  change 0 < (reset limit c (query limit c w).2).2.resetCounter ∧
    (reset limit c (query limit c w).2).2.served ≤ ((reset limit c (query limit c w).2).2.resetCounter - 1) % 50
  rw [hcounter, hserved]
  exact ⟨Nat.succ_pos _, hordinal⟩

theorem Tended.session {w : SQLiteWorker F} (h : w.Tended) (limit : Nat) (cs : List (Call F)) :
    (SQLiteWorker.session limit w cs).2.Tended := by
  induction cs generalizing w with
  | nil => exact h
  | cons c cs ih => exact ih (h.execute limit c)

/-- When files are left: after an exception, and after a kill of the worker's own accord. -/
def Leaves (last : Option (Except String WorkerCapture)) (w : SQLiteWorker F) : Prop :=
  (∃ e, last = some (.error e)) ∨ (w.proc = none ∧ w.resetCounter % 50 = 1)

theorem leaves_execute {limit : Nat} {w : SQLiteWorker F} {c : Call F} (hne : (w.execute limit c).2.workdir ≠ []) :
    Leaves (some (w.execute limit c).1) (w.execute limit c).2 := by
  refine ((reset_spec limit c (query limit c w).2).2 hne).imp_left ?_
  rintro ⟨e, he⟩
  refine ⟨e, ?_⟩
  unfold SQLiteWorker.execute
  dsimp only
  rw [he]
  rfl

theorem leaves_session {limit : Nat} {cs : List (Call F)} {w : SQLiteWorker F} {last : Option (Except String WorkerCapture)}
    (hw : w.workdir ≠ [] → Leaves last w) (hne : (session limit w cs).2.workdir ≠ []) :
    Leaves ((session limit w cs).1.getLast?.or last) (session limit w cs).2 := by
  induction cs generalizing w last with
  | nil => exact hw hne
  | cons c cs ih =>
    have hlast : (session limit w (c :: cs)).1.getLast?.or last =
        (session limit (w.execute limit c).2 cs).1.getLast?.or (some (w.execute limit c).1) := by
      show ((w.execute limit c).1 :: (session limit (w.execute limit c).2 cs).1).getLast?.or last = _
      rw [List.getLast?_cons]
      cases (session limit (w.execute limit c).2 cs).1.getLast? <;> rfl
    rw [hlast]
    exact ih leaves_execute hne

/-- **The life of a process and of its files.** Whatever the processes do: a query is among the first fifty of its
process, and where it finds files, either the query before has ended with an exception, or the worker has just killed a
process after a reset whose number is a multiple of fifty (as after its first query). -/
theorem lifetimes (limit : Nat) (cs : List (Call F)) :
    (session limit new cs).2.ordinal ≤ 50 ∧
      ((session limit new cs).2.workdir ≠ [] → (∃ e, (session limit new cs).1.getLast? = some (.error e)) ∨
        ((session limit new cs).2.proc = none ∧ (session limit new cs).2.resetCounter % 50 = 1)) := by
  refine ⟨(tended_new.session limit cs).ordinal_le, fun hne => ?_⟩
  have hleaves : Leaves ((session limit new cs).1.getLast?.or none) (session limit new cs).2 :=
    leaves_session (fun hne => absurd rfl hne) hne
  rwa [Option.or_none] at hleaves

/-- A query that leaves a file, while its process is about to exit: neither the query nor the reset can be written. -/
def brokenPipe : Call Nat where
  query := "SELECT 1"
  timeout := 1000000000
  execTime := 3
  exited := false
  stdinError := some "Connection lost"
  exitKnown := false
  stdout := []
  stderr := []
  exit := some (0, 139)
  files := fun files => 1 :: files
  resetError := some "Connection lost"
  resetStdout _ := []
  resetStderr _ := []
  resetExit := none

/-- The second query ends with an exception, and its file stays although nothing was killed. -/
example : (session defaultLimit new [brokenPipe, brokenPipe]).1.getLast? = some (.error "Connection lost") ∧
    (session defaultLimit new [brokenPipe, brokenPipe]).2 = ⟨some ⟨[], []⟩, 2, [1, 1], 1⟩ := by
  exact ⟨rfl, rfl⟩

end SQLiteWorker

/-! ## Something in front -/

/-- A capture with something in front of both outputs. -/
def WorkerCapture.after (lead : Bytes) (capture : WorkerCapture) : WorkerCapture :=
  if capture.isHangOrCrash = some .hang then capture
  else { capture with stdout := lead ++ capture.stdout, stderr := lead ++ capture.stderr }

/-- The reader gives what is in front along with the rest. -/
theorem readUntilSentinel_lead {limit : Nat} {lead sentinel : Bytes} (hsep : sentinel ≠ [])
    (hlead : ∀ b ∈ lead, b ∉ sentinel) (eof : Option Nat) {stream : List (Nat × Bytes)}
    (hshort : lead.length + (allBytes stream).length ≤ limit) :
    readUntilSentinel limit eof ((0, lead) :: stream) sentinel =
      (readUntilSentinel limit eof ((0, []) :: stream) sentinel).map fun r => (r.1, lead ++ r.2.1, r.2.2) := by
  have hfirst : ∀ lead : Bytes, readuntil limit sentinel eof ((0, lead) :: stream) [] 0 0 =
      readuntil limit sentinel eof stream lead 0 0 := by
    intro lead
    have hlook : look limit sentinel ([] : Bytes) 0 = .inr 0 := by
      unfold look
      rw [if_neg]
      have hpos := List.length_pos_iff.2 hsep
      rw [List.length_nil]
      omega
    simp only [readuntil, hlook, List.nil_append, Nat.max_self]
  unfold readUntilSentinel
  have hpast : Past sentinel (lead ++ []) 0 := past_zero _ _
  have hread : readuntil limit sentinel eof stream (lead ++ []) 0 0 =
      (readuntil limit sentinel eof stream [] 0 0).map fun r => (r.1, r.2.after lead) :=
    readuntil_lead hsep hlead eof stream (by simpa [allBytes] using hshort) (past_zero sentinel []) hpast
  rw [List.append_nil] at hread
  rw [hfirst, hfirst, hread]
  cases readuntil limit sentinel eof stream [] 0 0 with
  | none => rfl
  | some r =>
    obtain ⟨t, result⟩ := r
    cases result with
    | found chunk => rfl
    | incompleteRead received => rfl
    | limitOverrun consumed buffer =>
      simp only [Option.map_some, ReadUntil.after, List.take_length_add_append]

/-- The worker gives what was in front along with the rest. -/
theorem execute_lead {limit : Nat} {lead : Bytes} (hout : ∀ b ∈ lead, b ∉ stdoutSentinel)
    (herr : ∀ b ∈ lead, b ∉ stderrSentinel) {c : Call F} (hstdin : c.stdinError = none)
    (hstdout : lead.length + (allBytes c.stdout).length ≤ limit)
    (hstderr : lead.length + (allBytes c.stderr).length ≤ limit) :
    execute limit (c.process ⟨lead, lead⟩) c.query c.timeout c.execTime =
      (execute limit (c.process ⟨[], []⟩) c.query c.timeout c.execTime).after lead := by
  have h₁ := readUntilSentinel_lead stdoutSentinel_ne_nil hout (c.exit.map Prod.fst) hstdout
  have h₂ := readUntilSentinel_lead stderrSentinel_ne_nil herr (c.exit.map Prod.fst) hstderr
  have hhang : (hangCapture c.query c.execTime).after lead = hangCapture c.query c.execTime := if_pos rfl
  have hcrash : ∀ out err exitCode, (⟨⟨out, err, exitCode, c.query⟩, c.execTime, some .crash⟩ : WorkerCapture).after lead =
      ⟨⟨lead ++ out, lead ++ err, exitCode, c.query⟩, c.execTime, some .crash⟩ :=
    fun _ _ _ => if_neg (show some Mark.crash ≠ some .hang by decide)
  have hlives : ∀ out err exitCode, (⟨⟨out, err, exitCode, c.query⟩, c.execTime, none⟩ : WorkerCapture).after lead =
      ⟨⟨lead ++ out, lead ++ err, exitCode, c.query⟩, c.execTime, none⟩ :=
    fun _ _ _ => if_neg (show (none : Option Mark) ≠ some .hang by decide)
  unfold execute Call.process
  dsimp only
  rw [hstdin, h₁, h₂]
  dsimp only
  cases readUntilSentinel limit (c.exit.map Prod.fst) ((0, []) :: c.stdout) stdoutSentinel with
  | none => exact hhang.symm
  | some r₁ =>
    cases readUntilSentinel limit (c.exit.map Prod.fst) ((0, []) :: c.stderr) stderrSentinel with
    | none => exact hhang.symm
    | some r₂ =>
      obtain ⟨t₁, out, ok₁⟩ := r₁
      obtain ⟨t₂, err, ok₂⟩ := r₂
      simp only [Option.map_some, Process.returncode]
      split
      · split
        · split
          · exact (hcrash _ _ _).symm
          · exact hhang.symm
        · split
          · exact (hcrash _ _ _).symm
          · exact (hlives _ _ _).symm
      · exact hhang.symm

/-! ## Orderly queries -/

/-- The line break that is left after a sentinel or a marker was read. -/
def lineBreak : Bytes := [10]

theorem lineBreak_not_mem : (10 : UInt8) ∉ stdoutSentinel ∧ (10 : UInt8) ∉ stderrSentinel := by decide

/-- What the process prints for a reset, after what was left unread: nothing but the marker in a line, and in time. -/
structure Answers (limit epoch : Nat) (unread : Bytes) (stream : List (Nat × Bytes)) : Prop where
  fits : Fits limit (marker epoch) unread
  printed : allBytes stream = marker epoch ++ lineBreak
  inTime : ∀ chunk ∈ stream, chunk.1 < resetTimeout

/-- The capture of the query in a process of its own. -/
def Call.alone (limit : Nat) (c : Call F) : WorkerCapture :=
  execute limit (c.process ⟨[], []⟩) c.query c.timeout c.execTime

/-- What is unread then. -/
def Call.unread (limit : Nat) (c : Call F) : Pipes :=
  ⟨(allBytes c.stdout).drop (c.alone limit).stdout.length, (allBytes c.stderr).drop (c.alone limit).stderr.length⟩

/-- A query that the process takes, whose outputs have room in the readers, and after which the process takes and answers
the reset. -/
structure Orderly (limit : Nat) (c : Call F) : Prop where
  stdinError : c.stdinError = none
  resetError : c.resetError = none
  stdout : (allBytes c.stdout).length < limit
  stderr : (allBytes c.stderr).length < limit
  answers : (c.alone limit).isHangOrCrash = none → ∀ epoch,
    Answers limit epoch (c.unread limit).stdout (c.resetStdout epoch) ∧
      Answers limit epoch (c.unread limit).stderr (c.resetStderr epoch)

theorem marker_ne_nil (epoch : Nat) : marker epoch ≠ [] := by
  have hne : ascii "__RESET_" ≠ [] := by decide
  unfold marker
  simp [hne]

/-- After the answer the line break is unread. -/
theorem Answers.exists_read {limit epoch : Nat} {unread : Bytes} {stream : List (Nat × Bytes)}
    (h : Answers limit epoch unread stream) (eof : Option Nat) : ∃ t < resetTimeout, ∃ bytes ok,
      readUntilSentinel limit eof ((0, unread) :: stream) (marker epoch) = some (t, bytes, ok) ∧
        (unread ++ allBytes stream).drop bytes.length = lineBreak := by
  have hemits : Emits ((0, unread) :: stream) (marker epoch) resetTimeout unread := by
    refine ⟨(0, unread) :: stream, [], lineBreak, (List.append_nil _).symm, ?_, ?_⟩
    · have hprinted := h.printed
      rw [allBytes] at hprinted
      rw [List.map_cons, List.flatten_cons, hprinted, List.append_assoc]
    · exact List.forall_mem_cons.2 ⟨show 0 < resetTimeout by decide, h.inTime⟩
  obtain ⟨t, ht, bytes, ok, hread, hfits, -⟩ := readUntilSentinel_of_emits limit eof (marker_ne_nil epoch) hemits
  obtain ⟨rfl, -⟩ := hfits.2 h.fits
  refine ⟨t, ht, _, ok, hread, ?_⟩
  rw [h.printed, ← List.append_assoc, List.drop_left]

/-- The reset leaves the line breaks unread. -/
theorem readMarkers_of_answers {limit epoch : Nat} {c : Call F} {pipes : Pipes}
    (hout : Answers limit epoch pipes.stdout (c.resetStdout epoch))
    (herr : Answers limit epoch pipes.stderr (c.resetStderr epoch)) :
    c.readMarkers limit epoch pipes = some ⟨lineBreak, lineBreak⟩ := by
  obtain ⟨t₁, ht₁, err, ok₁, herr, hunread₁⟩ := herr.exists_read c.resetExit
  obtain ⟨t₂, ht₂, out, ok₂, hout, hunread₂⟩ := hout.exists_read c.resetExit
  unfold Call.readMarkers
  rw [herr, hout]
  dsimp only
  rw [if_pos (max_lt ht₁ ht₂), hunread₁, hunread₂]

/-! ## What is the same -/

theorem normalizeOutput_lineBreak (output : Bytes) : normalizeOutput (lineBreak ++ output) = normalizeOutput output := by
  have hstrip : strip (lineBreak ++ output) = strip output := by
    unfold strip lineBreak
    rw [List.cons_append, List.nil_append, List.dropWhile_cons_of_pos (by decide)]
  unfold normalizeOutput
  rw [hstrip]

/-- No pattern begins with a line break. -/
theorem stderrMatchesAny_lineBreak {patterns : List Bytes} (h : ∀ p ∈ patterns, p ≠ [] ∧ p.head? ≠ some 10)
    (stderr : Bytes) : stderrMatchesAny (lineBreak ++ stderr) patterns = stderrMatchesAny stderr patterns := by
  have hmatch : ∀ p ∈ patterns, (p <:+: lineBreak ++ stderr ↔ p <:+: stderr) := by
    intro p hp
    obtain ⟨hne, hhead⟩ := h p hp
    obtain ⟨b, rest, rfl⟩ := List.exists_cons_of_ne_nil hne
    rw [lineBreak, List.singleton_append, List.infix_cons_iff, List.cons_prefix_cons]
    refine or_iff_right fun hpre => hhead ?_
    rw [hpre.1]
    rfl
  rw [Bool.eq_iff_iff, stderrMatchesAny, stderrMatchesAny, List.any_eq_true, List.any_eq_true]
  refine exists_congr fun p => and_congr_right fun hp => ?_
  rw [decide_eq_true_eq, decide_eq_true_eq]
  exact hmatch p hp

/-- Captures that the oracle and the loop do not tell apart. -/
structure Agrees (capture capture' : WorkerCapture) : Prop where
  exitCode : capture.exitCode = capture'.exitCode
  query : capture.query = capture'.query
  execTime : capture.execTime = capture'.execTime
  isHangOrCrash : capture.isHangOrCrash = capture'.isHangOrCrash
  stdout : normalizeOutput capture.stdout = normalizeOutput capture'.stdout
  stderr : normalizeOutput capture.stderr = normalizeOutput capture'.stderr
  expected : isExpectedError capture.toTestCapture = isExpectedError capture'.toTestCapture
  unconditional : isUnconditionalBug capture.toTestCapture = isUnconditionalBug capture'.toTestCapture
  unilateral : isInterestingUnilateral capture.toTestCapture = isInterestingUnilateral capture'.toTestCapture

theorem Agrees.refl (capture : WorkerCapture) : Agrees capture capture := ⟨rfl, rfl, rfl, rfl, rfl, rfl, rfl, rfl, rfl⟩

theorem agrees_after {lead : Bytes} (h : lead = [] ∨ lead = lineBreak) (capture : WorkerCapture) :
    Agrees (capture.after lead) capture := by
  unfold WorkerCapture.after
  split
  · exact .refl capture
  · rcases h with rfl | rfl
    · exact .refl capture
    · refine ⟨rfl, rfl, rfl, rfl, normalizeOutput_lineBreak _, normalizeOutput_lineBreak _, ?_, ?_, ?_⟩
      · exact stderrMatchesAny_lineBreak (by decide) _
      · exact stderrMatchesAny_lineBreak (by decide) _
      · exact stderrMatchesAny_lineBreak (by decide) _

section Verdicts

variable {item item' ref ref' : WorkerCapture}

theorem Agrees.route (h : Agrees item item') : route item = route item' := by
  have hhang : isHang item = isHang item' := by rw [isHang, isHang, h.exitCode, h.isHangOrCrash]
  have hcrash : isCrash item = isCrash item' := by
    rw [isCrash, isCrash, hhang, h.exitCode, h.isHangOrCrash, h.unconditional]
  have hsyntax : isSyntaxErr item = isSyntaxErr item' := by rw [isSyntaxErr, isSyntaxErr, hcrash, hhang, h.expected]
  rw [Tester.route, Tester.route, hcrash, hhang, hsyntax]

/-- The type of the bug and the notes. -/
theorem Agrees.verdict (h : Agrees item item') (h' : Agrees ref ref') :
    (verdict item.toTestCapture ref.toTestCapture).map (fun found => (found.bugType, found.notes)) =
      (verdict item'.toTestCapture ref'.toTestCapture).map fun found => (found.bugType, found.notes) := by
  unfold Tester.verdict
  rw [h.unconditional, h.exitCode, h.unilateral, h'.unilateral, h'.exitCode, h.expected, h'.expected, h.stderr, h'.stderr,
    h.query, h.stdout, h'.stdout]
  split_ifs <;> rfl

theorem Agrees.key [Unicode] [Md5] (h : Agrees item item') : item.toTestCapture.key = item'.toTestCapture.key := by
  have hquery : item.toTestCapture.firstQuery = item'.toTestCapture.firstQuery := by
    rw [TestCapture.firstQuery, TestCapture.firstQuery, TestCapture.structure, TestCapture.structure, h.exitCode, h.query]
  rw [TestCapture.key, TestCapture.key, signature, signature, hquery, h.stderr]

end Verdicts

/-! ## Sessions -/

/-- What a query may find: no process, or one with line breaks unread. -/
def Tidy (w : SQLiteWorker F) : Prop := w.proc = none ∨ w.proc = some ⟨lineBreak, lineBreak⟩

theorem tidy_reset_of_none {limit : Nat} {c : Call F} {w : SQLiteWorker F} (h : w.proc = none) :
    (w.reset limit c).1 = none ∧ Tidy (w.reset limit c).2 := by
  unfold SQLiteWorker.reset
  rw [h]
  exact ⟨rfl, .inl rfl⟩

theorem tidy_reset_of_some {limit : Nat} {c : Call F} {w : SQLiteWorker F} {pipes : Pipes} (h : w.proc = some pipes)
    (herror : c.resetError = none) (hanswers : ∀ epoch, Answers limit epoch pipes.stdout (c.resetStdout epoch) ∧
      Answers limit epoch pipes.stderr (c.resetStderr epoch)) :
    (w.reset limit c).1 = none ∧ Tidy (w.reset limit c).2 := by
  obtain ⟨hout, herr⟩ := hanswers w.resetCounter
  unfold SQLiteWorker.reset
  rw [h, herror]
  dsimp only
  split
  · exact ⟨rfl, .inl rfl⟩
  · exact ⟨rfl, .inr (readMarkers_of_answers hout herr)⟩

theorem Tidy.onQuery {w : SQLiteWorker F} (h : Tidy w) (c : Call F) : Tidy (w.onQuery c) := by
  unfold SQLiteWorker.onQuery
  split
  · exact .inl rfl
  · exact h

theorem Tidy.getD {w : SQLiteWorker F} (h : Tidy w) :
    ∃ lead, (lead = [] ∨ lead = lineBreak) ∧ w.proc.getD ⟨[], []⟩ = ⟨lead, lead⟩ := by
  rcases h with hnone | hsome
  · exact ⟨[], .inl rfl, by rw [hnone]; rfl⟩
  · exact ⟨lineBreak, .inr rfl, by rw [hsome]; rfl⟩

/-- An orderly query, with what an earlier one has left. -/
theorem Orderly.execute_lead {limit : Nat} {c : Call F} (h : Orderly limit c) {lead : Bytes}
    (hlead : lead = [] ∨ lead = lineBreak) :
    Tester.execute limit (c.process ⟨lead, lead⟩) c.query c.timeout c.execTime = (c.alone limit).after lead := by
  have hlength : lead.length ≤ 1 := by rcases hlead with rfl | rfl <;> decide
  have hbreak : ∀ b ∈ lead, b = 10 := by
    rcases hlead with rfl | rfl
    · simp
    · simp [lineBreak]
  have hout : ∀ b ∈ lead, b ∉ stdoutSentinel := by
    intro b hb
    rw [hbreak b hb]
    exact lineBreak_not_mem.1
  have herr : ∀ b ∈ lead, b ∉ stderrSentinel := by
    intro b hb
    rw [hbreak b hb]
    exact lineBreak_not_mem.2
  have hstdout := h.stdout
  have hstderr := h.stderr
  exact Tester.execute_lead hout herr h.stdinError (by omega) (by omega)

/-- The process is kept if the query had no mark, and what an earlier one has left is read. -/
theorem Orderly.afterQuery {limit : Nat} {c : Call F} (h : Orderly limit c) {lead : Bytes}
    (hlead : lead = [] ∨ lead = lineBreak) : SQLiteWorker.afterQuery limit c ⟨lead, lead⟩ =
      if (c.alone limit).isHangOrCrash = none then some (c.unread limit) else none := by
  have hmark := (agrees_after hlead (c.alone limit)).isHangOrCrash
  unfold SQLiteWorker.afterQuery
  rw [h.stdinError]
  dsimp only
  rw [h.execute_lead hlead, hmark]
  refine if_ctx_congr Iff.rfl (fun hnone => congrArg some ?_) fun _ => rfl
  have hafter : (c.alone limit).after lead =
      { c.alone limit with stdout := lead ++ (c.alone limit).stdout, stderr := lead ++ (c.alone limit).stderr } := by
    refine if_neg ?_
    rw [hnone]
    decide
  have hdrop : ∀ all bytes : Bytes, (lead ++ all).drop (lead ++ bytes).length = all.drop bytes.length := by
    intro all bytes
    rw [List.length_append, ← List.drop_drop, List.drop_left]
  rw [hafter]
  dsimp only
  rw [hdrop, hdrop]
  rfl

/-- An orderly query has a capture, and the next one finds the worker tidy. -/
theorem Orderly.execute {limit : Nat} {c : Call F} (h : Orderly limit c) {w : SQLiteWorker F} (hw : Tidy w) :
    (∃ capture, (w.execute limit c).1 = .ok capture ∧ Agrees capture (c.alone limit)) ∧ Tidy (w.execute limit c).2 := by
  obtain ⟨lead, hlead, hpipes⟩ := (hw.onQuery c).getD
  have hproc : (SQLiteWorker.query limit c w).2.proc = SQLiteWorker.afterQuery limit c ⟨lead, lead⟩ :=
    congrArg (SQLiteWorker.afterQuery limit c) hpipes
  have hcapture : (SQLiteWorker.query limit c w).1 = (c.alone limit).after lead :=
    (congrArg (fun pipes => Tester.execute limit (c.process pipes) c.query c.timeout c.execTime) hpipes).trans
      (h.execute_lead hlead)
  rw [h.afterQuery hlead] at hproc
  have hreset : ((SQLiteWorker.query limit c w).2.reset limit c).1 = none ∧
      Tidy ((SQLiteWorker.query limit c w).2.reset limit c).2 := by
    split at hproc
    · rename_i hnone
      exact tidy_reset_of_some hproc h.resetError (h.answers hnone)
    · exact tidy_reset_of_none hproc
  refine ⟨⟨_, ?_, agrees_after hlead (c.alone limit)⟩, hreset.2⟩
  unfold SQLiteWorker.execute
  dsimp only
  rw [hreset.1, hcapture]
  rfl

theorem Orderly.session {limit : Nat} {cs : List (Call F)} (h : ∀ c ∈ cs, Orderly limit c) {w : SQLiteWorker F}
    (hw : Tidy w) {i : Nat} {c : Call F} (hc : cs[i]? = some c) :
    ∃ capture, (SQLiteWorker.session limit w cs).1[i]? = some (.ok capture) ∧ Agrees capture (c.alone limit) := by
  induction cs generalizing w i with
  | nil => cases hc
  | cons first cs ih =>
    obtain ⟨⟨capture, hcapture, hagrees⟩, htidy⟩ := (h first List.mem_cons_self).execute hw
    cases i with
    | zero =>
      cases hc
      exact ⟨capture, congrArg some hcapture, hagrees⟩
    | succ i => exact ih (fun c hc => h c (List.mem_cons_of_mem _ hc)) htidy hc

/-- **A worker that lives on and one that starts a process for each query are told apart by nobody.** In sessions of
orderly queries, whatever came before: there is a capture of each query, the loop takes the same route with it, the oracle
looks the same key up, and it comes to the same verdict with the same notes. -/
theorem session_agrees [Unicode] [Md5] {limit : Nat} {cs rs : List (Call F)} (hcs : ∀ c ∈ cs, Orderly limit c)
    (hrs : ∀ r ∈ rs, Orderly limit r) {i j : Nat} {c r : Call F} (hc : cs[i]? = some c) (hr : rs[j]? = some r) :
    ∃ item ref : WorkerCapture, (SQLiteWorker.session limit .new cs).1[i]? = some (.ok item) ∧
      (SQLiteWorker.session limit .new rs).1[j]? = some (.ok ref) ∧ route item = route (c.alone limit) ∧
      item.toTestCapture.key = (c.alone limit).toTestCapture.key ∧
      (verdict item.toTestCapture ref.toTestCapture).map (fun found => (found.bugType, found.notes)) =
        (verdict (c.alone limit).toTestCapture (r.alone limit).toTestCapture).map fun found =>
          (found.bugType, found.notes) := by
  obtain ⟨item, hitem, hagrees⟩ := Orderly.session (w := .new) hcs (.inl rfl) hc
  obtain ⟨ref, href, hagrees'⟩ := Orderly.session (w := .new) hrs (.inl rfl) hr
  exact ⟨item, ref, hitem, href, hagrees.route, hagrees.key, hagrees.verdict hagrees'⟩

/-- A query for one row, after which the process answers every reset. -/
def oneRow : Call Nat where
  query := "SELECT 1"
  timeout := 1000000000
  execTime := 3
  exited := false
  stdinError := none
  exitKnown := false
  stdout := [(1, ascii "1\n__STD"), (2, ascii "OUT_EOQ__\n")]
  stderr := [(1, ascii "__STDERR_EOQ__\n")]
  exit := none
  files := id
  resetError := none
  resetStdout epoch := [(1, marker epoch ++ lineBreak)]
  resetStderr epoch := [(1, marker epoch ++ lineBreak)]
  resetExit := none

/-- The marker does not begin in the line break. -/
theorem answers_oneRow (epoch : Nat) : Answers defaultLimit epoch lineBreak [(1, marker epoch ++ lineBreak)] := by
  refine ⟨⟨by decide, fun hinfix => ?_⟩, by simp [allBytes],
    List.forall_mem_singleton.2 (show 1 < resetTimeout by decide)⟩
  have hpos := List.length_pos_iff.2 (marker_ne_nil epoch)
  have heq := hinfix.eq_of_length (by rw [lineBreak, List.singleton_append, List.length_cons, List.length_dropLast]; omega)
  have hhead := congrArg List.head? heq
  have hfirst : (marker epoch).head? = some 95 := rfl
  have hbreak : (lineBreak ++ (marker epoch).dropLast).head? = some 10 := rfl
  rw [hfirst, hbreak] at hhead
  exact absurd hhead (by decide)

theorem orderly_oneRow : Orderly defaultLimit oneRow := by
  refine ⟨rfl, rfl, by decide, by decide, fun _ epoch => ?_⟩
  have hunread : oneRow.unread defaultLimit = ⟨lineBreak, lineBreak⟩ := by decide
  rw [hunread]
  exact ⟨answers_oneRow epoch, answers_oneRow epoch⟩

section Rows

attribute [local instance] Unicode.ascii

attribute [local instance] Md5.sample

/-- The third capture has a line break in front, which makes no difference. -/
theorem session_agrees_oneRow : ∃ item : WorkerCapture,
    (SQLiteWorker.session defaultLimit .new [oneRow, oneRow, oneRow]).1[2]? = some (.ok item) ∧
      item.stdout = ascii "\n1\n__STDOUT_EOQ__" ∧ route item = route (oneRow.alone defaultLimit) := by
  have hall : ∀ c ∈ [oneRow, oneRow, oneRow], Orderly defaultLimit c := by
    simp [orderly_oneRow]
  have hsession : (SQLiteWorker.session defaultLimit .new [oneRow, oneRow, oneRow]).1[2]? = some (.ok _) := rfl
  obtain ⟨item, ref, hitem, -, hroute, -⟩ := session_agrees (i := 2) (j := 2) hall hall rfl rfl
  obtain rfl := Except.ok.inj (Option.some.inj (hsession.symm.trans hitem))
  exact ⟨_, hitem, by decide, hroute⟩

end Rows

end Calls

end Lsf.Tester
