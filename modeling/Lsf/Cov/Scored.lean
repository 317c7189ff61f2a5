import Lsf.Core.Entry
import Lsf.Core.F64
import Mathlib.Algebra.Order.Field.Rat
import Mathlib.Data.Nat.Log
import Mathlib.Data.Rat.Floor
import Mathlib.Data.Finset.Basic

/-!
# Scored edges

`ScoredEdges` keeps for every edge the entry of least score that hit it. `updateIfBest` offers an entry to the edges
it hit; each edge takes it over exactly if it improves on what is stored there (`updateIfBest_spec`).
-/

namespace Lsf.Cov

open Lsf.Core

structure ScoredEntry where
  id : ID
  score : Nat
  deriving DecidableEq, Repr

structure ScoredEdges where
  bestEntries : List (Option ScoredEntry)
  deriving DecidableEq, Repr

/-- The largest `u32`. -/
def u32Max : Nat := 2 ^ 32 - 1

/-- The test in `update_if_best`. -/
def improves (score : Nat) (currentBest : Option ScoredEntry) : Bool := currentBest.elim true fun best => score < best.score

namespace ScoredEdges

def new (maxEdges : Nat) : ScoredEdges := ⟨List.replicate maxEdges none⟩

def getBestEntries (s : ScoredEdges) : Finset ID := (s.bestEntries.filterMap fun o => o.map ScoredEntry.id).toFinset

/-- The owner of an edge. -/
def owner (s : ScoredEdges) (e : Nat) : Option ScoredEntry := (s.bestEntries[e]?).join

theorem mem_getBestEntries {s : ScoredEdges} {e : Nat} {o : ScoredEntry} (h : s.owner e = some o) :
    o.id ∈ s.getBestEntries := by
  unfold getBestEntries
  rw [List.mem_toFinset, List.mem_filterMap]
  exact ⟨some o, List.mem_of_getElem? (Option.join_eq_some_iff.1 h), rfl⟩

section Score

variable [FloatFns ℚ]

/-- `(n as f64).ln_1p().ceil() as u32`; NaN becomes zero. -/
def logCeil (n : Nat) : Nat := min ⌈(FloatFns.ln1p (n : ℚ)).getD 0⌉₊ u32Max

/-- The score of an entry; the logarithm of zero and a division by zero panic. -/
def scoreOf (queryLen hitEdgesLen : Nat) (execTimeNs : UInt32) : Option Nat :=
  if execTimeNs = 0 ∨ logCeil hitEdgesLen = 0 then none else
    some (min (Nat.log 10 execTimeNs.toNat * (queryLen % 2 ^ 32)) u32Max / logCeil hitEdgesLen)

/-- The loop over the edges; an edge out of range panics. -/
def offer (id : ID) (score : Nat) : List Nat → List (Option ScoredEntry) → Option (Bool × List (Option ScoredEntry))
  | [], best => some (false, best)
  | e :: es, best => do
    let currentBest ← best[e]?
    if improves score currentBest then do
      let (_, best) ← offer id score es (best.set e (some ⟨id, score⟩))
      some (true, best)
    else offer id score es best

def updateIfBest (s : ScoredEdges) (id : ID) (queryLen hitEdgesLen : Nat) (execTimeNs : UInt32) (hitEdges : List Nat) :
    Option (Bool × ScoredEdges) := do
  let score ← scoreOf queryLen hitEdgesLen execTimeNs
  let (isBestAnywhere, best) ← offer id score hitEdges s.bestEntries
  some (isBestAnywhere, ⟨best⟩)

theorem logCeil_pos [LawfulLog] {n : Nat} (h : 0 < n) : 0 < logCeil n := by
  obtain ⟨x, hx, hpos⟩ := LawfulLog.ln1p_pos n h
  unfold logCeil
  rw [hx]
  exact lt_min (Nat.ceil_pos.2 hpos) (by decide)

/-- An entry that ran for some time and hit something has a score. -/
theorem exists_scoreOf [LawfulLog] {queryLen hitEdgesLen : Nat} {execTimeNs : UInt32} (htime : execTimeNs ≠ 0)
    (hhit : 0 < hitEdgesLen) : ∃ score, scoreOf queryLen hitEdgesLen execTimeNs = some score := by
  have := logCeil_pos hhit
  unfold scoreOf
  exact ⟨_, if_neg (not_or.2 ⟨htime, this.ne'⟩)⟩

end Score

/-! ## What an update does -/

theorem not_improves_self (id : ID) (score : Nat) : improves score (some ⟨id, score⟩) = false := by simp [improves]

/-- **The loop, edge by edge**: an edge that was visited takes the entry over if it improves; and it is the best
somewhere if one of them did. -/
theorem offer_spec (id : ID) (score : Nat) {es : List Nat} {best : List (Option ScoredEntry)}
    (hlt : ∀ e ∈ es, e < best.length) :
    ∃ b best', offer id score es best = some (b, best') ∧ best'.length = best.length ∧
      (∀ e, best'[e]? = (best[e]?).map fun o => if e ∈ es ∧ improves score o then some ⟨id, score⟩ else o) ∧
      (b = true ↔ ∃ e ∈ es, ∃ o, best[e]? = some o ∧ improves score o) := by
  induction es generalizing best with
  | nil => exact ⟨false, best, rfl, rfl, by simp, by simp⟩
  | cons e es ih =>
    obtain ⟨o, he⟩ : ∃ o, best[e]? = some o := ⟨_, List.getElem?_eq_getElem (hlt e (by simp))⟩
    unfold offer
    simp only [he, Option.bind_eq_bind, Option.bind_some]
    split
    · rename_i himp
      obtain ⟨b, best', hoffer, hlen, hbest, -⟩ := @ih (best.set e (some ⟨id, score⟩))
        (by simpa using fun e' he' => hlt e' (by simp [he']))
      refine ⟨true, best', by simp [hoffer], by simpa using hlen, fun e' => ?_, by simpa using .inl ⟨_, he, himp⟩⟩
      rw [hbest, List.getElem?_set]
      by_cases heq : e = e'
      · subst heq
        rw [if_pos rfl, if_pos (hlt e (by simp)), he]
        simp [himp, not_improves_self]
      · simp [heq, Ne.symm heq]
    · rename_i himp
      obtain ⟨b, best', hoffer, hlen, hbest, hb⟩ := @ih best fun e' he' => hlt e' (by simp [he'])
      refine ⟨b, best', hoffer, hlen, fun e' => ?_, ?_⟩
      · rw [hbest]
        by_cases heq : e' = e
        · subst heq
          simp [he, himp]
        · simp [heq]
      · rw [hb]
        simp [he, himp]

/-- What an update did to the owners, and what it answered. -/
structure Offered (s : ScoredEdges) (id : ID) (score : Nat) (hitEdges : List Nat) (b : Bool) (s' : ScoredEdges) :
    Prop where
  length : s'.bestEntries.length = s.bestEntries.length
  owner : ∀ e < s.bestEntries.length,
    s'.owner e = if e ∈ hitEdges ∧ improves score (s.owner e) then some ⟨id, score⟩ else s.owner e
  best : b = true ↔ ∃ e ∈ hitEdges, improves score (s.owner e)

theorem getElem?_eq_owner {s : ScoredEdges} {e : Nat} (h : e < s.bestEntries.length) :
    s.bestEntries[e]? = some (s.owner e) := by
  unfold ScoredEdges.owner
  rw [List.getElem?_eq_getElem h]
  rfl

/-- **`update_if_best`** never panics on edges of the table, and every edge takes the better entry. -/
theorem updateIfBest_spec [FloatFns ℚ] [LawfulLog] (s : ScoredEdges) (id : ID) (queryLen : Nat) {execTimeNs : UInt32}
    {hitEdges : List Nat} (htime : execTimeNs ≠ 0) (hne : hitEdges ≠ [])
    (hlt : ∀ e ∈ hitEdges, e < s.bestEntries.length) :
    ∃ score b s', scoreOf queryLen hitEdges.length execTimeNs = some score ∧
      s.updateIfBest id queryLen hitEdges.length execTimeNs hitEdges = some (b, s') ∧
      Offered s id score hitEdges b s' := by
  obtain ⟨score, hscore⟩ : ∃ score, scoreOf queryLen hitEdges.length execTimeNs = some score :=
    exists_scoreOf htime (List.length_pos_iff.2 hne)
  obtain ⟨b, best', hoffer, hlen, hbest, hb⟩ := offer_spec id score hlt
  refine ⟨score, b, ⟨best'⟩, hscore, by simp [updateIfBest, hscore, hoffer], hlen, fun e he => ?_, ?_⟩
  · unfold owner
    rw [hbest e, getElem?_eq_owner he]
    rfl
  · rw [hb]
    refine exists_congr fun e => and_congr_right fun he => ?_
    rw [getElem?_eq_owner (hlt e he)]
    simp

theorem owner_eq_none {s : ScoredEdges} {e : Nat} (h : s.bestEntries.length ≤ e) : s.owner e = none := by
  unfold owner
  rw [List.getElem?_eq_none h]
  rfl

section Offered

variable {s s' : ScoredEdges} {id : ID} {score : Nat} {hitEdges : List Nat} {b : Bool}

/-- An edge that was offered the entry has an owner. -/
theorem Offered.isSome (h : Offered s id score hitEdges b s') {e : Nat} (he : e ∈ hitEdges)
    (hlt : e < s.bestEntries.length) : (s'.owner e).isSome := by
  rw [h.owner e hlt]
  split
  · rfl
  · rename_i hno
    cases ho : s.owner e with
    | some o => rfl
    | none => exact absurd ⟨he, by simp [ho, improves]⟩ hno

/-- An edge that had an owner has one. -/
theorem Offered.isSome_of_isSome (h : Offered s id score hitEdges b s') {e : Nat} (ho : (s.owner e).isSome) :
    (s'.owner e).isSome := by
  have hlt : e < s.bestEntries.length := by
    by_contra hge
    simp [owner_eq_none (not_lt.1 hge)] at ho
  rw [h.owner e hlt]
  split
  · rfl
  · exact ho

/-- An owner was there before, or is the entry, which is then the best somewhere. -/
theorem Offered.owner_eq_some (h : Offered s id score hitEdges b s') {e : Nat} {o : ScoredEntry}
    (ho : s'.owner e = some o) : s.owner e = some o ∨ (e ∈ hitEdges ∧ o.id = id ∧ b = true) := by
  by_cases hlt : e < s.bestEntries.length
  · rw [h.owner e hlt] at ho
    split at ho
    · rename_i himp
      cases ho
      exact .inr ⟨himp.1, rfl, h.best.2 ⟨e, himp⟩⟩
    · exact .inl ho
  · rw [owner_eq_none (by rw [h.length]; omega)] at ho
    cases ho

end Offered

/-- Where nothing improves, nothing changes. -/
theorem Offered.eq_of_not {s s' : ScoredEdges} {id : ID} {score : Nat} {hitEdges : List Nat}
    (h : Offered s id score hitEdges false s') : s' = s := by
  have hno : ¬∃ e ∈ hitEdges, improves score (s.owner e) := fun hex => Bool.noConfusion (h.best.2 hex)
  have hlist : s'.bestEntries = s.bestEntries := by
    refine List.ext_getElem? fun e => ?_
    by_cases he : e < s.bestEntries.length
    · rw [getElem?_eq_owner he, getElem?_eq_owner (h.length ▸ he), h.owner e he, if_neg]
      exact fun hex => hno ⟨e, hex⟩
    · rw [List.getElem?_eq_none (by rw [h.length]; omega), List.getElem?_eq_none (by omega)]
  obtain ⟨best⟩ := s
  obtain ⟨best'⟩ := s'
  exact congrArg ScoredEdges.mk hlist

end ScoredEdges

end Lsf.Cov
