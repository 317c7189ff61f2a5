import Lsf.Lib.StreamReader
import Lsf.Tester.Oracle

/-!
# The worker

`SQLiteWorker.execute` of `tester/persistent_worker.py`: a query is sent to a process that lives on, and both of its
pipes are read up to a sentinel. A read without a sentinel is taken for the death of the process. A stream that is longer
than the limit of the reader gives no sentinel either, so that the worker waits in vain for the process to end and
reports a hang: what a living process prints is returned exactly if both streams fit the reader (`execute_eq_iff`).
-/

namespace Lsf.Tester

open Lsf.Lib

/-! ## Captures and processes -/

/-- What is written to `is_hang_or_crash`. -/
inductive Mark where
  | crash
  | hang
deriving DecidableEq, Repr

def Mark.text : Mark → String
  | .crash => "CRASH"
  | .hang => "HANG"

/-- A `TestCapture` with the running time and the mark. -/
structure WorkerCapture extends TestCapture where
  execTime : Nat
  isHangOrCrash : Option Mark
deriving DecidableEq

/-- A process as its worker meets it: the chunks on its pipes, each with the time of its arrival; when and with what the
process exits, if it does; and the error that writing to it raises, if any. -/
structure Process where
  stdout : List (Nat × Bytes)
  stderr : List (Nat × Bytes)
  exit : Option (Nat × Int)
  stdinError : Option String

def stdoutSentinel : Bytes := ascii "__STDOUT_EOQ__"

def stderrSentinel : Bytes := ascii "__STDERR_EOQ__"

/-- The limit of the readers of a subprocess, in bytes. -/
def defaultLimit : Nat := 65536

/-- `asyncio.wait_for(self.proc.wait(), 0.2)`, in nanoseconds. -/
def exitTimeout : Nat := 200000000

/-! ## Execution -/

/-- `_read_until_sentinel`: the data, and whether the sentinel was found. -/
def readUntilSentinel (limit : Nat) (eof : Option Nat) (stream : List (Nat × Bytes)) (sentinel : Bytes) :
    Option (Nat × Bytes × Bool) :=
  (readuntil limit sentinel eof stream [] 0 0).map fun (t, result) =>
    match result with
    | .found data => (t, data, true)
    | .incompleteRead received => (t, received, false)
    | .limitOverrun consumed buffer => (t, buffer.take consumed, false)

/-- The capture of a time-out. -/
def hangCapture (query : String) (execTime : Nat) : WorkerCapture where
  stdout := []
  stderr := ascii "EXECUTION TIMEOUT EXCEEDED"
  exitCode := some 42
  query := query
  execTime := execTime
  isHangOrCrash := some .hang

/-- The exit code, if the process has exited by then. -/
def Process.returncode (p : Process) (now : Nat) : Option Int :=
  p.exit.bind fun (t, exitCode) => if t ≤ now then some exitCode else none

/-- `execute`, where the clock shows `execTime` in the end. -/
def execute (limit : Nat) (p : Process) (query : String) (timeout execTime : Nat) : WorkerCapture :=
  match p.stdinError with
  | some e => ⟨⟨[], ("\npython Exception: " ++ e).toUTF8.data.toList, some (-1), query⟩, execTime, some .crash⟩
  | none =>
    let eof := p.exit.map Prod.fst
    match readUntilSentinel limit eof p.stdout stdoutSentinel, readUntilSentinel limit eof p.stderr stderrSentinel with
    | some (t₁, stdoutBytes, stdoutOk), some (t₂, stderrBytes, stderrOk) =>
      -- `gather` ends with the later of the two
      let now := max t₁ t₂
      if now < timeout then
        if !stdoutOk || !stderrOk then
          match p.returncode (now + exitTimeout) with
          | some exitCode => ⟨⟨stdoutBytes, stderrBytes, some exitCode, query⟩, execTime, some .crash⟩
          | none => hangCapture query execTime
        else
          match p.returncode now with
          | some exitCode => ⟨⟨stdoutBytes, stderrBytes, some exitCode, query⟩, execTime, some .crash⟩
          | none => ⟨⟨stdoutBytes, stderrBytes, some 0, query⟩, execTime, none⟩
      else hangCapture query execTime
    | _, _ => hangCapture query execTime

/-- A hang is always reported with the same words. -/
theorem execute_of_hang {limit timeout execTime : Nat} {p : Process} {query : String}
    (h : (execute limit p query timeout execTime).isHangOrCrash = some .hang) :
    execute limit p query timeout execTime = hangCapture query execTime := by
  unfold execute at h ⊢
  split at h
  · cases h
  · dsimp only at h ⊢
    split at h
    · split at h
      · rename_i hnow
        rw [if_pos hnow]
        split at h
        · rename_i hok
          rw [if_pos hok]
          split at h
          · cases h
          · rfl
        · split at h <;> cases h
      · rename_i hnow
        rw [if_neg hnow]
    · rfl

/-! ## Living processes -/

/-- The data and the sentinel arrive before the deadline, in any chunks, and then anything. -/
def Emits (stream : List (Nat × Bytes)) (sentinel : Bytes) (deadline : Nat) (data : Bytes) : Prop :=
  ∃ before after tail, stream = before ++ after ∧ (before.map Prod.snd).flatten = data ++ sentinel ++ tail ∧
    ∀ c ∈ before, c.1 < deadline

/-- The data is not longer than the limit, and no sentinel comes about before its end. -/
def Fits (limit : Nat) (sentinel data : Bytes) : Prop :=
  data.length ≤ limit ∧ ¬sentinel <:+: data ++ sentinel.dropLast

theorem stdoutSentinel_ne_nil : stdoutSentinel ≠ [] := by decide

theorem stderrSentinel_ne_nil : stderrSentinel ≠ [] := by decide

/-- What the reader makes of data and its sentinel. -/
theorem readUntilSentinel_of_emits (limit : Nat) (eof : Option Nat) {stream : List (Nat × Bytes)}
    {sentinel data : Bytes} {deadline : Nat} (hsep : sentinel ≠ []) (h : Emits stream sentinel deadline data) :
    ∃ t < deadline, ∃ bytes ok, readUntilSentinel limit eof stream sentinel = some (t, bytes, ok) ∧
      (bytes = data ++ sentinel ∧ ok = true ↔ Fits limit sentinel data) ∧
      (limit < data.length → ¬sentinel <:+: data ++ sentinel.dropLast → ok = false) := by
  obtain ⟨before, after, tail, rfl, hwhole, hbefore⟩ := h
  have hnow : 0 < deadline := by
    cases before with
    | nil =>
      have hnil := (List.append_eq_nil_iff.1 (List.append_eq_nil_iff.1 hwhole.symm).1).2
      exact absurd hnil hsep
    | cons c before => exact Nat.zero_lt_of_lt (hbefore c List.mem_cons_self)
  obtain ⟨t, ht, result, hread, hfound, hover⟩ := readuntil_data hsep limit eof before after hbefore hnow hwhole
  unfold readUntilSentinel
  rw [hread, Option.map_some]
  cases result with
  | found chunk =>
    rw [ReadUntil.found.injEq] at hfound
    refine ⟨t, ht, chunk, true, rfl, (and_iff_left rfl).trans hfound, fun hlong hdata => ?_⟩
    obtain ⟨_, _, hresult⟩ := hover hlong hdata
    cases hresult
  | incompleteRead received =>
    have hnot : ¬Fits limit sentinel data := fun h => nomatch hfound.2 h
    exact ⟨t, ht, received, false, rfl, iff_of_false (fun h => Bool.false_ne_true h.2) hnot, fun _ _ => rfl⟩
  | limitOverrun consumed buffer =>
    have hnot : ¬Fits limit sentinel data := fun h => nomatch hfound.2 h
    exact ⟨t, ht, buffer.take consumed, false, rfl, iff_of_false (fun h => Bool.false_ne_true h.2) hnot, fun _ _ => rfl⟩

variable {p : Process} {limit timeout : Nat} {dataOut dataErr : Bytes}

/-- A living process that printed in time: both reads succeed, or a hang is reported. -/
theorem execute_alive (halive : p.exit = none) (hstdin : p.stdinError = none) {eof : Option Nat} (heof : eof = none)
    {t₁ t₂ : Nat} {bytes₁ bytes₂ : Bytes} {ok₁ ok₂ : Bool} (ht₁ : t₁ < timeout) (ht₂ : t₂ < timeout)
    (h₁ : readUntilSentinel limit eof p.stdout stdoutSentinel = some (t₁, bytes₁, ok₁))
    (h₂ : readUntilSentinel limit eof p.stderr stderrSentinel = some (t₂, bytes₂, ok₂)) (query : String)
    (execTime : Nat) : execute limit p query timeout execTime =
      if ok₁ = true ∧ ok₂ = true then ⟨⟨bytes₁, bytes₂, some 0, query⟩, execTime, none⟩
      else hangCapture query execTime := by
  subst heof
  unfold execute
  simp only [hstdin, halive, Option.map_none, h₁, h₂, Process.returncode, Option.bind_none]
  rw [if_pos (max_lt ht₁ ht₂)]
  cases ok₁ <;> cases ok₂ <;> rfl

/-- **What a living process prints in time is returned** exactly if both streams fit the reader. -/
theorem execute_eq_iff (halive : p.exit = none) (hstdin : p.stdinError = none)
    (hout : Emits p.stdout stdoutSentinel timeout dataOut) (herr : Emits p.stderr stderrSentinel timeout dataErr)
    (query : String) (execTime : Nat) :
    execute limit p query timeout execTime =
        ⟨⟨dataOut ++ stdoutSentinel, dataErr ++ stderrSentinel, some 0, query⟩, execTime, none⟩ ↔
      Fits limit stdoutSentinel dataOut ∧ Fits limit stderrSentinel dataErr := by
  obtain ⟨t₁, ht₁, bytes₁, ok₁, h₁, hfits₁, -⟩ := readUntilSentinel_of_emits limit none stdoutSentinel_ne_nil hout
  obtain ⟨t₂, ht₂, bytes₂, ok₂, h₂, hfits₂, -⟩ := readUntilSentinel_of_emits limit none stderrSentinel_ne_nil herr
  rw [execute_alive halive hstdin rfl ht₁ ht₂ h₁ h₂, ← hfits₁, ← hfits₂]
  split
  · rename_i hok
    simp [hok.1, hok.2]
  · rename_i hok
    refine iff_of_false (fun heq => ?_) fun h => hok ⟨h.1.2, h.2.2⟩
    have hmark := congrArg WorkerCapture.isHangOrCrash heq
    cases hmark

/-- A process that prints a short row in two chunks. -/
theorem execute_eq_iff_row :
    execute defaultLimit ⟨[(1, ascii "1\n__STD"), (2, ascii "OUT_EOQ__\n")], [(1, stderrSentinel)], none, none⟩ "SELECT 1"
        1000000000 3 = ⟨⟨ascii "1\n" ++ stdoutSentinel, [] ++ stderrSentinel, some 0, "SELECT 1"⟩, 3, none⟩ ↔
      Fits defaultLimit stdoutSentinel (ascii "1\n") ∧ Fits defaultLimit stderrSentinel [] :=
  execute_eq_iff rfl rfl ⟨[(1, ascii "1\n__STD"), (2, ascii "OUT_EOQ__\n")], [], ascii "\n", rfl, by decide, by decide⟩
    ⟨[(1, stderrSentinel)], [], [], rfl, by decide, by decide⟩ _ _

/-! ## A long output -/

/-- Data of one byte that is not the first of the separator brings about no separator. -/
theorem not_infix_replicate {sep : Bytes} {a b : UInt8} {rest : Bytes} (hsep : sep = b :: rest) (hab : a ≠ b)
    (n : Nat) :
    ¬sep <:+: List.replicate n a ++ sep.dropLast := by
  rintro ⟨u, v, huv⟩
  have hlen := congrArg List.length huv
  have hget := congrArg (·[u.length]?) huv
  subst hsep
  simp only [List.length_append, List.length_replicate, List.length_dropLast, List.length_cons] at hlen
  have hu : u.length < n := by omega
  have hleft : (u ++ (b :: rest) ++ v)[u.length]? = some b := by simp
  have hright : (List.replicate n a ++ (b :: rest).dropLast)[u.length]? = some a := by
    rw [List.getElem?_append_left (by simpa using hu), List.getElem?_replicate_of_lt hu]
  rw [hleft, hright] at hget
  exact hab (Option.some.inj hget).symm

/-- A living process that prints some data at once. -/
def printing (data : Bytes) : Process where
  stdout := [(1, data ++ stdoutSentinel)]
  stderr := [(1, stderrSentinel)]
  exit := none
  stdinError := none

theorem emits_printing (data : Bytes) {deadline : Nat} (h : 1 < deadline) :
    Emits (printing data).stdout stdoutSentinel deadline data ∧ Emits (printing data).stderr stderrSentinel deadline [] :=
  ⟨⟨(printing data).stdout, [], [], rfl, by simp [printing], by simpa [printing] using h⟩,
    ⟨(printing data).stderr, [], [], rfl, by simp [printing], by simpa [printing] using h⟩⟩

/-- Data that is only too long is reported as a hang. -/
theorem execute_printing {data : Bytes} (hlong : limit < data.length)
    (hdata : ¬stdoutSentinel <:+: data ++ stdoutSentinel.dropLast) (h : 1 < timeout) (query : String) (execTime : Nat) :
    execute limit (printing data) query timeout execTime = hangCapture query execTime := by
  obtain ⟨hout, herr⟩ := emits_printing data h
  obtain ⟨t₁, ht₁, bytes₁, ok₁, h₁, -, hover⟩ := readUntilSentinel_of_emits limit none stdoutSentinel_ne_nil hout
  obtain ⟨t₂, ht₂, bytes₂, ok₂, h₂, -, -⟩ := readUntilSentinel_of_emits limit none stderrSentinel_ne_nil herr
  have hok : ok₁ = false := hover hlong hdata
  rw [execute_alive rfl rfl rfl ht₁ ht₂ h₁ h₂, if_neg fun h => Bool.false_ne_true (hok.symm.trans h.1)]

/-- **A long output is a hang**: a living process that printed one byte more than the reader takes, and both sentinels,
long before the deadline. -/
theorem long_output_hangs :
    Emits (printing (List.replicate 65537 97)).stdout stdoutSentinel 1000000000 (List.replicate 65537 97) ∧
      Emits (printing (List.replicate 65537 97)).stderr stderrSentinel 1000000000 [] ∧
      ¬stdoutSentinel <:+: List.replicate 65537 97 ∧
      execute defaultLimit (printing (List.replicate 65537 97)) "SELECT" 1000000000 1 = hangCapture "SELECT" 1 ∧
      (hangCapture "SELECT" 1).exitCode = some 42 ∧ (hangCapture "SELECT" 1).isHangOrCrash = some .hang := by
  have hdata : ¬stdoutSentinel <:+: List.replicate 65537 97 ++ stdoutSentinel.dropLast :=
    not_infix_replicate (b := 95) rfl (by decide) 65537
  have hlong : defaultLimit < (List.replicate 65537 (97 : UInt8)).length := by
    rw [List.length_replicate]
    decide
  obtain ⟨hout, herr⟩ := emits_printing (List.replicate 65537 97) (by decide : 1 < 1000000000)
  exact ⟨hout, herr, fun h => hdata (h.trans (List.prefix_append _ _).isInfix),
    execute_printing hlong hdata (by decide) _ _, rfl, rfl⟩

end Lsf.Tester
