import Lsf.Cov.Scored
import Lsf.Lib.Run

/-!
# The earliest minimum

The table of `ScoredEdges` against the history of the calls of `update_if_best`: every edge holds the entry of the
first call of least score among those that listed it (`Recorded`), and a call answers `true` exactly if some edge is its
own right after it (`Recorded.best_iff`).
-/

namespace Lsf.Cov

open Lsf.Core Lsf.Lib

/-- A call of `update_if_best`, whose length argument is the length of the list. -/
structure Call where
  id : ID
  queryLen : Nat
  execTimeNs : UInt32
  hitEdges : List Nat

/-- The calls that measured a time, on a non-empty list of edges of the table. -/
structure Call.Proper (maxEdges : Nat) (c : Call) : Prop where
  execTimeNs : 1 ≤ c.execTimeNs
  hitEdges : c.hitEdges ≠ []
  inRange : ∀ e ∈ c.hitEdges, e < maxEdges

section History

variable [FloatFns ℚ]

def Call.score (c : Call) : Option Nat := ScoredEdges.scoreOf c.queryLen c.hitEdges.length c.execTimeNs

/-- Call number `i` is the first one of least score among those that listed `e`. -/
def Earliest (calls : List Call) (e i score : Nat) : Prop :=
  ∃ c, calls[i]? = some c ∧ e ∈ c.hitEdges ∧ c.score = some score ∧
    ∀ j c' score', calls[j]? = some c' → e ∈ c'.hitEdges → c'.score = some score' →
      score ≤ score' ∧ (j < i → score < score')

namespace ScoredEdges

def update (s : ScoredEdges) (c : Call) : Option (Bool × ScoredEdges) :=
  s.updateIfBest c.id c.queryLen c.hitEdges.length c.execTimeNs c.hitEdges

def step (s : ScoredEdges) (c : Call) : Option ScoredEdges := (s.update c).map Prod.snd

end ScoredEdges

/-! ## The first of least score -/

variable {calls : List Call} {c : Call} {e i score score' : Nat}

theorem Earliest.lt (h : Earliest calls e i score) : i < calls.length := by
  obtain ⟨c, hc, -⟩ := h
  exact (List.getElem?_eq_some_iff.1 hc).1

omit [FloatFns ℚ] in
theorem getElem?_append_singleton {c' : Call} {j : Nat} (h : (calls ++ [c])[j]? = some c') :
    calls[j]? = some c' ∨ (j = calls.length ∧ c' = c) := by
  by_cases hlt : j < calls.length
  · rw [List.getElem?_append_left hlt] at h
    exact .inl h
  · rw [List.getElem?_append_right (not_lt.1 hlt), List.getElem?_singleton] at h
    split at h
    · cases h
      exact .inr ⟨by omega, rfl⟩
    · cases h

/-- A call that does not beat the earliest one leaves it. -/
theorem Earliest.append (h : Earliest calls e i score)
    (hc : ∀ score', c.score = some score' → e ∈ c.hitEdges → score ≤ score') : Earliest (calls ++ [c]) e i score := by
  have hlt := h.lt
  obtain ⟨d, hd, hmem, hscore, hleast⟩ := h
  refine ⟨d, by rw [List.getElem?_append_left hlt, hd], hmem, hscore, fun j c' score' hj hmem' hscore' => ?_⟩
  rcases getElem?_append_singleton hj with hj | ⟨rfl, rfl⟩
  · exact hleast j c' score' hj hmem' hscore'
  · exact ⟨hc score' hscore' hmem', by omega⟩

/-- A call is the earliest one when it has just beaten all that listed the edge. -/
theorem earliest_last (hmem : e ∈ c.hitEdges) (hscore : c.score = some score)
    (hbeats : ∀ c' ∈ calls, ∀ score', e ∈ c'.hitEdges → c'.score = some score' → score < score') :
    Earliest (calls ++ [c]) e calls.length score := by
  refine ⟨c, by simp, hmem, hscore, fun j c' score' hj hmem' hscore' => ?_⟩
  rcases getElem?_append_singleton hj with hj | ⟨rfl, rfl⟩
  · have hlt := hbeats c' (List.mem_of_getElem? hj) score' hmem' hscore'
    exact ⟨hlt.le, fun _ => hlt⟩
  · obtain rfl : score = score' := by simpa [hscore] using hscore'
    exact ⟨le_rfl, by omega⟩

/-- Of two earliest calls, neither comes after the other. -/
theorem Earliest.unique {j : Nat} (h : Earliest calls e i score) (h' : Earliest calls e j score') :
    i = j ∧ score = score' := by
  obtain ⟨c, hc, hmem, hscore, hleast⟩ := h
  obtain ⟨c', hc', hmem', hscore', hleast'⟩ := h'
  have h₁ := hleast j c' score' hc' hmem' hscore'
  have h₂ := hleast' i c score hc hmem hscore
  omega

/-! ## The table records the history -/

/-- An edge holds the entry of the earliest call. -/
structure Recorded (maxEdges : Nat) (calls : List Call) (s : ScoredEdges) : Prop where
  length : s.bestEntries.length = maxEdges
  unlisted : ∀ e, s.owner e = none → ∀ c ∈ calls, e ∉ c.hitEdges
  earliest : ∀ e o, s.owner e = some o → ∃ i c, calls[i]? = some c ∧ o.id = c.id ∧ Earliest calls e i o.score

theorem recorded_new (maxEdges : Nat) : Recorded maxEdges [] (ScoredEdges.new maxEdges) where
  length := List.length_replicate
  unlisted := by simp
  earliest e o h := by
    unfold ScoredEdges.new ScoredEdges.owner at h
    rw [List.getElem?_replicate] at h
    split at h <;> cases h

variable {maxEdges : Nat} {s : ScoredEdges}

/-- The calls that listed an edge score no better than its owner. -/
theorem Recorded.owner_le (h : Recorded maxEdges calls s) {o : ScoredEntry} (ho : s.owner e = some o) {c' : Call}
    (hc' : c' ∈ calls) (hmem : e ∈ c'.hitEdges) (hscore : c'.score = some score') : o.score ≤ score' := by
  obtain ⟨j, hj⟩ := List.mem_iff_getElem?.1 hc'
  obtain ⟨i, d, -, -, -, -, -, -, hleast⟩ := h.earliest e o ho
  exact (hleast j c' score' hj hmem hscore).1

theorem Recorded.owner_eq_none_iff (h : Recorded maxEdges calls s) :
    s.owner e = none ↔ ∀ c ∈ calls, e ∉ c.hitEdges := by
  refine ⟨h.unlisted e, fun hno => ?_⟩
  by_contra hne
  obtain ⟨o, ho⟩ := Option.ne_none_iff_exists'.1 hne
  obtain ⟨i, c, -, -, d, hd, hmem, -⟩ := h.earliest e o ho
  exact hno d (List.mem_of_getElem? hd) hmem

theorem Recorded.owner_eq_some_iff (h : Recorded maxEdges calls s) {o : ScoredEntry} :
    s.owner e = some o ↔ ∃ i c, calls[i]? = some c ∧ o.id = c.id ∧ Earliest calls e i o.score := by
  refine ⟨h.earliest e o, ?_⟩
  rintro ⟨i, c, hc, hid, hear⟩
  cases ho : s.owner e with
  | none =>
    obtain ⟨d, hd, hmem, -⟩ := hear
    exact absurd hmem (h.unlisted e ho d (List.mem_of_getElem? hd))
  | some o' =>
    obtain ⟨j, c', hc', hid', hear'⟩ := h.earliest e o' ho
    obtain ⟨rfl, hscore⟩ := hear.unique hear'
    rw [hc] at hc'
    cases hc'
    cases o
    cases o'
    simp_all

/-- An offer that improves an edge makes its call the earliest one there. -/
theorem Recorded.earliest_of_improves (h : Recorded maxEdges calls s) (hmem : e ∈ c.hitEdges)
    (hscore : c.score = some score) (himp : improves score (s.owner e)) :
    Earliest (calls ++ [c]) e calls.length score := by
  refine earliest_last hmem hscore fun c' hc' score' hmem' hscore' => ?_
  cases ho : s.owner e with
  | none => exact absurd hmem' (h.unlisted e ho c' hc')
  | some o =>
    have hlt : score < o.score := by simpa [improves, ho] using himp
    exact lt_of_lt_of_le hlt (h.owner_le ho hc' hmem' hscore')

/-- An offer that does not improve an edge leaves its earliest call. -/
theorem Recorded.earliest_of_not_improves (h : Recorded maxEdges calls s) {o : ScoredEntry} (ho : s.owner e = some o)
    (hno : ¬(e ∈ c.hitEdges ∧ improves score (s.owner e))) (hscore : c.score = some score) :
    ∃ i d, (calls ++ [c])[i]? = some d ∧ o.id = d.id ∧ Earliest (calls ++ [c]) e i o.score := by
  obtain ⟨i, d, hd, hid, hear⟩ := h.earliest e o ho
  refine ⟨i, d, by rw [List.getElem?_append_left hear.lt, hd], hid, hear.append fun score' hscore' hmem => ?_⟩
  rw [hscore] at hscore'
  cases hscore'
  by_contra hlt
  exact hno ⟨hmem, by simpa [improves, ho] using hlt⟩

/-- **One call keeps the record.** -/
theorem Recorded.update {score : Nat} {b : Bool} {s' : ScoredEdges} (h : Recorded maxEdges calls s)
    (hc : c.Proper maxEdges) (hscore : c.score = some score)
    (hoffered : ScoredEdges.Offered s c.id score c.hitEdges b s') : Recorded maxEdges (calls ++ [c]) s' where
  length := hoffered.length.trans h.length
  unlisted e ho c' hc' hmem := by
    have hnone : s.owner e = none := by
      by_contra hne
      exact absurd (hoffered.isSome_of_isSome (Option.isSome_iff_ne_none.2 hne)) (by simp [ho])
    rcases List.mem_append.1 hc' with hc' | hc'
    · exact h.unlisted e hnone c' hc' hmem
    · obtain rfl := List.mem_singleton.1 hc'
      exact absurd (hoffered.isSome hmem (h.length ▸ hc.inRange e hmem)) (by simp [ho])
  earliest e o ho := by
    by_cases hlt : e < s.bestEntries.length
    · rw [hoffered.owner e hlt] at ho
      split at ho
      · rename_i himp
        cases ho
        exact ⟨calls.length, c, by simp, rfl, h.earliest_of_improves himp.1 hscore himp.2⟩
      · rename_i hno
        exact h.earliest_of_not_improves ho hno hscore
    · rw [ScoredEdges.owner_eq_none (by rw [hoffered.length]; omega)] at ho
      cases ho

/-- **The answer of a call**: an edge it listed is its own right after it. -/
theorem Recorded.best_iff {score : Nat} {b : Bool} {s' : ScoredEdges} (h : Recorded maxEdges calls s)
    (hscore : c.score = some score) (hoffered : ScoredEdges.Offered s c.id score c.hitEdges b s') :
    b = true ↔ ∃ e ∈ c.hitEdges, ∃ score, Earliest (calls ++ [c]) e calls.length score := by
  rw [hoffered.best]
  constructor
  · rintro ⟨e, hmem, himp⟩
    exact ⟨e, hmem, score, h.earliest_of_improves hmem hscore himp⟩
  · rintro ⟨e, hmem, score', hear⟩
    refine ⟨e, hmem, ?_⟩
    by_contra hno
    cases ho : s.owner e with
    | none => exact hno (by simp [ho, improves])
    | some o =>
      -- the owner would still be the earliest call, and it came before
      obtain ⟨i, d, -, -, hold⟩ := h.earliest e o ho
      have hkept : Earliest (calls ++ [c]) e i o.score := hold.append fun τ hτ _ => by
        rw [hscore] at hτ
        cases hτ
        simpa [improves, ho] using hno
      have hlt := hold.lt
      have heq := (hear.unique hkept).1
      omega

omit [FloatFns ℚ] in
/-- Scores never increase. -/
theorem owner_score_le {score : Nat} {b : Bool} {s' : ScoredEdges}
    (hoffered : ScoredEdges.Offered s c.id score c.hitEdges b s') {o : ScoredEntry} (ho : s.owner e = some o) :
    ∃ o', s'.owner e = some o' ∧ o'.score ≤ o.score := by
  have hlt : e < s.bestEntries.length := by
    by_contra hge
    rw [ScoredEdges.owner_eq_none (not_lt.1 hge)] at ho
    cases ho
  rw [hoffered.owner e hlt]
  split
  · rename_i himp
    refine ⟨_, rfl, ?_⟩
    have : score < o.score := by simpa [improves, ho] using himp.2
    exact this.le
  · exact ⟨o, ho, le_rfl⟩

variable [LawfulLog]

/-- A proper call is carried out; what it offered is `Offered`. -/
theorem exists_update (hlen : s.bestEntries.length = maxEdges) (hc : c.Proper maxEdges) :
    ∃ score b s', c.score = some score ∧ s.update c = some (b, s') ∧
      ScoredEdges.Offered s c.id score c.hitEdges b s' :=
  ScoredEdges.updateIfBest_spec s c.id c.queryLen (fun h => by simpa [h] using hc.execTimeNs) hc.hitEdges
    fun e he => hlen ▸ hc.inRange e he

/-- **Every sequence of calls** is carried out, and recorded. -/
theorem run_recorded (hcalls : ∀ c ∈ calls, c.Proper maxEdges) :
    ∃ s, run ScoredEdges.step (ScoredEdges.new maxEdges) calls = some s ∧ Recorded maxEdges calls s := by
  induction calls using List.reverseRecOn with
  | nil => exact ⟨_, rfl, recorded_new maxEdges⟩
  | append_singleton calls c ih =>
    obtain ⟨s, hrun, hrec⟩ := ih fun c' hc' => hcalls c' (List.mem_append_left _ hc')
    have hc : c.Proper maxEdges := hcalls c (by simp)
    obtain ⟨score, b, s', hscore, hupdate, hoffered⟩ := exists_update hrec.length hc
    refine ⟨s', ?_, hrec.update hc hscore hoffered⟩
    rw [run_append, hrun]
    simp [run_cons, ScoredEdges.step, hupdate]

/-- **`ScoredEdges` keeps the earliest minimum.** Any sequence of calls is carried out. An edge has no owner exactly if
no call listed it, and otherwise it holds the id and the score of the first call of least score among those that did.
The next call never raises a score, and it answers `true` exactly if it then owns an edge that it listed. -/
theorem scoredEdges_keeps_the_earliest (maxEdges : Nat) (calls : List Call)
    (hcalls : ∀ c ∈ calls, c.Proper maxEdges) :
    ∃ s, run ScoredEdges.step (ScoredEdges.new maxEdges) calls = some s ∧ s.bestEntries.length = maxEdges ∧
      (∀ e < maxEdges, (s.bestEntries[e]? = some none ↔ ∀ c ∈ calls, e ∉ c.hitEdges) ∧
        ∀ o, s.bestEntries[e]? = some (some o) ↔
          ∃ i c, calls[i]? = some c ∧ o.id = c.id ∧ Earliest calls e i o.score) ∧
      ∀ c : Call, c.Proper maxEdges → ∃ b s', s.update c = some (b, s') ∧
        (b = true ↔ ∃ e ∈ c.hitEdges, ∃ score, Earliest (calls ++ [c]) e calls.length score) ∧
        ∀ e o, s.owner e = some o → ∃ o', s'.owner e = some o' ∧ o'.score ≤ o.score := by
  obtain ⟨s, hrun, hrec⟩ := run_recorded hcalls
  refine ⟨s, hrun, hrec.length, fun e he => ?_, fun c hc => ?_⟩
  · rw [ScoredEdges.getElem?_eq_owner (hrec.length ▸ he)]
    simp only [Option.some.injEq]
    exact ⟨hrec.owner_eq_none_iff, fun o => hrec.owner_eq_some_iff⟩
  · obtain ⟨score, b, s', hscore, hupdate, hoffered⟩ := exists_update hrec.length hc
    exact ⟨b, s', hupdate, hrec.best_iff hscore hoffered, fun e o ho => owner_score_le hoffered ho⟩

end History

section Witness

attribute [local instance] FloatFns.tangent LawfulLog.tangent

/-- Two calls for one edge. -/
theorem scoredEdges_keeps_the_earliest_two :
    ∃ s, run ScoredEdges.step (ScoredEdges.new 2) [⟨⟨1⟩, 3, 1000, [0]⟩, ⟨⟨2⟩, 3, 1000, [1, 0]⟩] = some s ∧
      s.bestEntries.length = 2 ∧ s.bestEntries[0]? ≠ some none ∧
      ∀ o, s.bestEntries[1]? = some (some o) → o.id = ⟨2⟩ := by
  obtain ⟨s, hrun, hlen, hedges, -⟩ :=
    scoredEdges_keeps_the_earliest 2 [⟨⟨1⟩, 3, 1000, [0]⟩, ⟨⟨2⟩, 3, 1000, [1, 0]⟩] (by
      simp only [List.forall_mem_cons, List.not_mem_nil, false_imp_iff, implies_true, and_true]
      exact ⟨⟨by decide, by simp, by simp⟩, ⟨by decide, by simp, by simp⟩⟩)
  refine ⟨s, hrun, hlen, fun hnone => ?_, fun o ho => ?_⟩
  · simpa using ((hedges 0 (by omega)).1.1 hnone)
  · obtain ⟨i, c, hc, hid, d, hd, hmem, -⟩ := ((hedges 1 (by omega)).2 o).1 ho
    match i with
    | 0 =>
      cases hd
      simp at hmem
    | 1 =>
      cases hc
      exact hid
    | i + 2 => simp at hc

end Witness

end Lsf.Cov
