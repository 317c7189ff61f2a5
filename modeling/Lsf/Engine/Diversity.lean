import Lsf.Engine.Minimizer
import Lsf.Lib.Run
import Mathlib.Data.List.DropRight

/-!
# The diversity window

The two queues of `DiversityEscape` against the history of the calls of `try_insert`: together they are the most recent
accepted calls, side by side, and their hashes are far from each other (`Window`).
-/

namespace Lsf.Engine

open Lsf.Core Lsf.Lib

/-- A list that is filled at one end and evicted at the other keeps its last elements. -/
theorem rtake_concat_of_full {α : Type} (l : List α) (x : α) (n : Nat) :
    (l ++ [x]).rtake (n + 1) = (if n + 1 ≤ (l.rtake (n + 1)).length then (l.rtake (n + 1)).tail else l.rtake (n + 1)) ++
      [x] := by
  rw [List.rtake_concat_succ]
  unfold List.rtake
  congr 1
  split
  · rename_i hfull
    rw [List.length_drop] at hfull
    rw [List.tail_drop]
    congr 1
    omega
  · rename_i hroom
    rw [List.length_drop] at hroom
    congr 1
    omega

namespace DiversityEscape

variable {Stmt : Type} [Hasher Stmt]

/-- A call of `try_insert`, with what it answers. -/
def call (d : DiversityEscape) (c : ID × AST Stmt) : Bool × DiversityEscape := d.tryInsert c.1 c.2

/-- The calls that are accepted, in their order. -/
def accepted (d : DiversityEscape) : List (ID × AST Stmt) → List (ID × AST Stmt)
  | [] => []
  | c :: calls => if (d.call c).1 then c :: accepted (d.call c).2 calls else accepted (d.call c).2 calls

/-- The queues are the last accepted calls, and no two of them are close. -/
structure Window (past : List (ID × AST Stmt)) (d : DiversityEscape) : Prop where
  hashes : d.hashes = (past.rtake maxDiversityWindow).map fun c => simhashStream c.2
  entries : d.entries = (past.rtake maxDiversityWindow).map Prod.fst
  far : d.hashes.Pairwise fun h h' => minDist ≤ hammingDistance h h'

theorem Window.new : Window ([] : List (ID × AST Stmt)) DiversityEscape.new where
  hashes := by rw [List.rtake_nil]; rfl
  entries := by rw [List.rtake_nil]; rfl
  far := .nil

variable {d : DiversityEscape} {past : List (ID × AST Stmt)} {c : ID × AST Stmt}

theorem tooSimilar_iff {ast : AST Stmt} :
    d.tooSimilar ast = true ↔ ∃ h ∈ d.hashes, hammingDistance h (simhashStream ast) < minDist := by
  simp [tooSimilar]

/-- A rejected call changes nothing. -/
theorem call_of_tooSimilar (h : d.tooSimilar c.2) : d.call c = (false, d) := if_pos h

/-- **An accepted call** goes in at one end, and evicts at the other once the window is full. -/
theorem Window.accept (h : Window past d) (hfar : d.tooSimilar c.2 = false) :
    (d.call c).1 = true ∧ Window (past ++ [c]) (d.call c).2 := by
  have hcall : d.call c = (true, ⟨(if d.hashes.length ≥ maxDiversityWindow then d.hashes.tail else d.hashes) ++
      [simhashStream c.2],
      (if d.hashes.length ≥ maxDiversityWindow then d.entries.tail else d.entries) ++ [c.1]⟩) := by
    unfold call tryInsert
    rw [hfar]
    simp only [Bool.false_eq_true, if_false]
    split <;> rfl
  have hlen : d.hashes.length = (past.rtake maxDiversityWindow).length := by rw [h.hashes, List.length_map]
  have hlast := rtake_concat_of_full past c (maxDiversityWindow - 1)
  change (past ++ [c]).rtake maxDiversityWindow =
    (if maxDiversityWindow ≤ (past.rtake maxDiversityWindow).length then (past.rtake maxDiversityWindow).tail
      else past.rtake maxDiversityWindow) ++ [c] at hlast
  rw [hcall]
  refine ⟨rfl, ?_, ?_, ?_⟩
  · rw [hlast, ← hlen, h.hashes]
    split <;> simp
  · rw [hlast, ← hlen, h.entries]
    split <;> simp
  · rw [List.pairwise_append]
    have hsub : (if d.hashes.length ≥ maxDiversityWindow then d.hashes.tail else d.hashes).Sublist d.hashes := by
      split
      · exact List.tail_sublist _
      · exact List.Sublist.refl _
    refine ⟨h.far.sublist hsub, List.pairwise_singleton _ _, fun x hx y hy => ?_⟩
    rw [List.mem_singleton.1 hy]
    by_contra hlt
    have hclose : d.tooSimilar c.2 = true := tooSimilar_iff.2 ⟨x, hsub.subset hx, not_le.1 hlt⟩
    rw [hfar] at hclose
    cases hclose

/-- **Every sequence of calls** leaves the window of its accepted calls. -/
theorem Window.after (h : Window past d) (calls : List (ID × AST Stmt)) :
    Window (past ++ d.accepted calls) (Lib.after call d calls) := by
  induction calls generalizing d past with
  | nil => simpa [accepted, Lib.after] using h
  | cons c calls ih =>
    unfold accepted Lib.after
    by_cases hsim : d.tooSimilar c.2 = true
    · rw [call_of_tooSimilar hsim]
      exact ih h
    · obtain ⟨hok, hwindow⟩ := h.accept (Bool.eq_false_iff.2 hsim)
      rw [hok, if_pos rfl]
      have hend := ih hwindow
      rwa [List.append_assoc, List.singleton_append] at hend

/-- What the window owes to those who ask it. -/
structure WellFormed (past : List (ID × AST Stmt)) (d : DiversityEscape) : Prop extends Window past d where
  length : d.hashes.length = d.entries.length
  bounded : d.hashes.length ≤ maxDiversityWindow
  refused_iff : ∀ id (ast : AST Stmt),
    (d.tryInsert id ast).1 = false ↔ ∃ h ∈ d.hashes, hammingDistance h (simhashStream ast) < minDist
  unchanged : ∀ id (ast : AST Stmt), (d.tryInsert id ast).1 = false → (d.tryInsert id ast).2 = d

theorem Window.wellFormed (h : Window past d) : WellFormed past d where
  toWindow := h
  length := by rw [h.hashes, h.entries, List.length_map, List.length_map]
  bounded := by
    rw [h.hashes, List.length_map, List.rtake, List.length_drop]
    omega
  refused_iff id ast := by
    rw [tryInsert_fst, Bool.not_eq_false', tooSimilar_iff]
  unchanged id ast hno := by
    rw [tryInsert_fst, Bool.not_eq_false'] at hno
    exact congrArg Prod.snd (call_of_tooSimilar (c := (id, ast)) hno)

/-- **The diversity window is well formed** after any sequence of calls: the two queues are the ids and the hashes of
the last `maxDiversityWindow` accepted calls, and the hashes are pairwise far. The next call is refused exactly if its
hash is close to one of them, and then nothing changes. -/
theorem diversityWindow_wellFormed (calls : List (ID × AST Stmt)) :
    WellFormed (new.accepted calls) (Lib.after call new calls) :=
  (Window.new.after calls).wellFormed

end DiversityEscape

end Lsf.Engine
