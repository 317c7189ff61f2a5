import Mathlib.Data.List.Infix
import Mathlib.Data.Nat.Find

/-!
# Reading a stream up to a separator

`StreamReader.readuntil` of asyncio. Chunks arrive one after the other, each at its time, and after each of them the
reader looks for the separator, from an offset below which it cannot begin any more. The read fails if the separator
begins, or can only begin, beyond a limit. How the stream is cut into chunks does not matter (`readuntil_of_first`): what
is read is the stream up to the first separator, if that one begins within the limit. And what was left in front of the
stream by an earlier read comes with it, and changes nothing else (`readuntil_lead`).
-/

namespace Lsf.Lib

variable {α : Type*}

/-! ## Looking for a separator -/

/-- The separator stands at place `i`. -/
def StandsAt (sep buf : List α) (i : Nat) : Prop := sep <+: buf.drop i

instance [DecidableEq α] (sep buf : List α) (i : Nat) : Decidable (StandsAt sep buf i) :=
  inferInstanceAs (Decidable (_ <+: _))

/-- `buf.find(sep, offset)`. -/
def findFrom [DecidableEq α] (sep buf : List α) (offset : Nat) : Option Nat :=
  (List.range' offset (buf.length + 1 - sep.length - offset)).find? fun i => decide (StandsAt sep buf i)

section Places

variable {sep buf tail : List α} {i f offset : Nat}

theorem StandsAt.add_length_le (h : StandsAt sep buf i) (hsep : sep ≠ []) : i + sep.length ≤ buf.length := by
  have hle := h.length_le
  have hpos := List.length_pos_iff.2 hsep
  rw [List.length_drop] at hle
  omega

/-- What stands within a buffer stands in every longer one, and conversely. -/
theorem standsAt_append (h : i + sep.length ≤ buf.length) : StandsAt sep (buf ++ tail) i ↔ StandsAt sep buf i := by
  unfold StandsAt
  rw [List.drop_append_of_le_length (by omega)]
  constructor
  · intro hpre
    refine List.prefix_of_prefix_length_le hpre (List.prefix_append _ _) ?_
    rw [List.length_drop]
    omega
  · exact fun hpre => hpre.trans (List.prefix_append _ _)

/-- The first separator comes after the data exactly if the data, with a beginning of the separator, holds none. -/
theorem first_eq_length_iff {data tail : List α} (hsep : sep ≠ []) (hle : f ≤ data.length)
    (hat : StandsAt sep (data ++ sep ++ tail) f) (hfirst : ∀ j < f, ¬StandsAt sep (data ++ sep ++ tail) j) :
    f = data.length ↔ ¬sep <:+: data ++ sep.dropLast := by
  have hpos := List.length_pos_iff.2 hsep
  have hlen : (data ++ sep.dropLast).length = data.length + sep.length - 1 := by
    rw [List.length_append, List.length_dropLast]
    omega
  have hwhole : data ++ sep ++ tail = (data ++ sep.dropLast) ++ ([sep.getLast hsep] ++ tail) := by
    conv_lhs => rw [← List.dropLast_append_getLast hsep]
    simp only [List.append_assoc]
  constructor
  · rintro rfl ⟨u, v, huv⟩
    have hstand : StandsAt sep (data ++ sep.dropLast) u.length := by
      unfold StandsAt
      rw [← huv, List.append_assoc, List.drop_left]
      exact List.prefix_append _ _
    have hu := hstand.add_length_le hsep
    refine hfirst u.length (by omega) ?_
    rw [hwhole]
    exact (standsAt_append hu).2 hstand
  · intro hnot
    by_contra hne
    rw [hwhole] at hat
    have hstand := (standsAt_append (by omega)).1 hat
    exact hnot (hstand.isInfix.trans (List.drop_suffix _ _).isInfix)

variable [DecidableEq α]

/-- The separator after the data, or an earlier one that the data begins. -/
theorem exists_first (sep data tail : List α) : ∃ f ≤ data.length, StandsAt sep (data ++ sep ++ tail) f ∧
    ∀ j < f, ¬StandsAt sep (data ++ sep ++ tail) j := by
  have hend : StandsAt sep (data ++ sep ++ tail) data.length := by
    unfold StandsAt
    rw [List.append_assoc, List.drop_left]
    exact List.prefix_append _ _
  have hex : ∃ j, StandsAt sep (data ++ sep ++ tail) j := ⟨_, hend⟩
  exact ⟨Nat.find hex, Nat.find_min' hex hend, Nat.find_spec hex, fun j hj => Nat.find_min hex hj⟩

/-- The first place of the separator is found, from any offset up to it. -/
theorem findFrom_of_first (hsep : sep ≠ []) (hat : StandsAt sep buf f) (hfirst : ∀ j < f, ¬StandsAt sep buf j)
    (hle : offset ≤ f) : findFrom sep buf offset = some f := by
  have hlen := hat.add_length_le hsep
  unfold findFrom
  rw [List.find?_range'_eq_some]
  refine ⟨decide_eq_true hat, List.mem_range'_1.2 ⟨hle, by omega⟩, fun j _ hj => ?_⟩
  simpa using hfirst j hj

theorem findFrom_eq_none (h : ∀ j, ¬StandsAt sep buf j) : findFrom sep buf offset = none := by
  unfold findFrom
  rw [List.find?_range'_eq_none]
  intro j _ _
  simpa using h j

end Places

/-! ## Reading -/

/-- What comes of a read: the data with the separator, what there was at the end of the stream, or the number of bytes
that are known to be before the separator, with the buffer as it is left. -/
inductive ReadUntil (α : Type*) where
  | found (chunk : List α)
  | incompleteRead (received : List α)
  | limitOverrun (consumed : Nat) (buffer : List α)

section Reading

variable [DecidableEq α] (limit : Nat) (sep : List α)

/-- One look at the buffer: a result, or the offset for the next look. -/
def look (buf : List α) (offset : Nat) : ReadUntil α ⊕ Nat :=
  if offset + sep.length ≤ buf.length then
    match findFrom sep buf offset with
    | some isep => .inl (if isep > limit then .limitOverrun isep buf else .found (buf.take (isep + sep.length)))
    | none =>
      let offset := buf.length + 1 - sep.length
      if offset > limit then .inl (.limitOverrun offset buf) else .inr offset
  else .inr offset

/-- `readuntil` at time `now`, with the chunks to come and the time at which the stream ends, if it does; `none` is a
read that never returns. -/
def readuntil (eof : Option Nat) : List (Nat × List α) → List α → Nat → Nat → Option (Nat × ReadUntil α)
  | [], buf, offset, now =>
    match look limit sep buf offset with
    | .inl result => some (now, result)
    | .inr _ => eof.map fun t => (max now t, .incompleteRead buf)
  | (t, chunk) :: chunks, buf, offset, now =>
    match look limit sep buf offset with
    | .inl result => some (now, result)
    | .inr offset => readuntil eof chunks (buf ++ chunk) offset (max now t)

end Reading

section Spec

variable [DecidableEq α] {limit : Nat} {sep whole : List α} {f : Nat}

/-- A look at the beginning of a stream whose first separator is at `f`: it settles the read, or leaves an offset that
is not beyond `f`, and then the separator is not in the buffer yet. -/
theorem look_spec (hsep : sep ≠ []) (hat : StandsAt sep whole f) (hfirst : ∀ j < f, ¬StandsAt sep whole j)
    {buf rest : List α} (hwhole : buf ++ rest = whole) {offset : Nat} (hle : offset ≤ f) :
    (f ≤ limit ∧ look limit sep buf offset = .inl (.found (whole.take (f + sep.length)))) ∨
      (limit < f ∧ ∃ consumed, look limit sep buf offset = .inl (.limitOverrun consumed buf)) ∨
        ∃ offset' ≤ f, look limit sep buf offset = .inr offset' ∧ rest ≠ [] := by
  subst hwhole
  by_cases hin : f + sep.length ≤ buf.length
  · -- the first separator is in the buffer
    have hat' : StandsAt sep buf f := (standsAt_append hin).1 hat
    have hfirst' : ∀ j < f, ¬StandsAt sep buf j := fun j hj hjat =>
      hfirst j hj ((standsAt_append (hjat.add_length_le hsep)).2 hjat)
    unfold look
    rw [if_pos (by omega), findFrom_of_first hsep hat' hfirst' hle]
    dsimp only
    by_cases hlim : limit < f
    · rw [if_pos hlim]
      exact .inr (.inl ⟨hlim, f, rfl⟩)
    · rw [if_neg hlim, List.take_append_of_le_length hin]
      exact .inl ⟨not_lt.1 hlim, rfl⟩
  · have hnot : ∀ j, ¬StandsAt sep buf j := by
      intro j hj
      have hjlen := hj.add_length_le hsep
      exact hfirst j (by omega) ((standsAt_append hjlen).2 hj)
    have hrest : rest ≠ [] := by
      rintro rfl
      have hlen := hat.add_length_le hsep
      rw [List.append_nil] at hlen
      exact hin hlen
    unfold look
    by_cases hlong : offset + sep.length ≤ buf.length
    · rw [if_pos hlong, findFrom_eq_none hnot]
      dsimp only
      by_cases hlim : limit < buf.length + 1 - sep.length
      · rw [if_pos hlim]
        exact .inr (.inl ⟨by omega, _, rfl⟩)
      · rw [if_neg hlim]
        exact .inr (.inr ⟨_, by omega, rfl, hrest⟩)
    · rw [if_neg hlong]
      exact .inr (.inr ⟨offset, hle, rfl, hrest⟩)

theorem readuntil_of_look {eof : Option Nat} (chunks : List (Nat × List α)) {buf : List α} {offset now : Nat}
    {result : ReadUntil α} (h : look limit sep buf offset = .inl result) :
    readuntil limit sep eof chunks buf offset now = some (now, result) := by
  cases chunks with
  | nil => simp only [readuntil, h]
  | cons c chunks => simp only [readuntil, h]

/-- **Chunks do not matter**: from a stream whose first separator is at `f`, and whose chunks up to it come before a
deadline, the data and the separator are read before the deadline if `f` is within the limit; else the limit is overrun
before the deadline. -/
theorem readuntil_of_first (hsep : sep ≠ []) (hat : StandsAt sep whole f) (hfirst : ∀ j < f, ¬StandsAt sep whole j)
    (eof : Option Nat) {deadline : Nat} (before after : List (Nat × List α)) (hbefore : ∀ c ∈ before, c.1 < deadline)
    {buf : List α} (hwhole : buf ++ (before.map Prod.snd).flatten = whole) {offset now : Nat} (hle : offset ≤ f)
    (hnow : now < deadline) :
    ∃ t < deadline, ∃ result, readuntil limit sep eof (before ++ after) buf offset now = some (t, result) ∧
      ((f ≤ limit ∧ result = .found (whole.take (f + sep.length))) ∨
        (limit < f ∧ ∃ consumed buffer, result = .limitOverrun consumed buffer)) := by
  induction before generalizing buf offset now with
  | nil =>
    rcases look_spec hsep hat hfirst hwhole hle with ⟨hlim, hlook⟩ | ⟨hlim, consumed, hlook⟩ | h
    · exact ⟨now, hnow, _, readuntil_of_look _ hlook, .inl ⟨hlim, rfl⟩⟩
    · exact ⟨now, hnow, _, readuntil_of_look _ hlook, .inr ⟨hlim, consumed, buf, rfl⟩⟩
    · obtain ⟨_, -, -, hrest⟩ := h
      exact absurd rfl hrest
  | cons c before ih =>
    obtain ⟨t, chunk⟩ := c
    rcases look_spec hsep hat hfirst hwhole hle with ⟨hlim, hlook⟩ | ⟨hlim, consumed, hlook⟩ | h
    · exact ⟨now, hnow, _, readuntil_of_look _ hlook, .inl ⟨hlim, rfl⟩⟩
    · exact ⟨now, hnow, _, readuntil_of_look _ hlook, .inr ⟨hlim, consumed, buf, rfl⟩⟩
    · obtain ⟨offset', hle', hlook, -⟩ := h
      have hnow' : max now t < deadline := max_lt hnow (hbefore _ List.mem_cons_self)
      have hwhole' : (buf ++ chunk) ++ (before.map Prod.snd).flatten = whole := by
        rw [List.append_assoc]
        exact hwhole
      obtain ⟨t', ht', result, hread, hresult⟩ :=
        ih (fun c hc => hbefore c (.tail _ hc)) hwhole' hle' hnow'
      refine ⟨t', ht', result, ?_, hresult⟩
      rw [← hread, List.cons_append]
      simp only [readuntil, hlook]

/-- **Reading data up to its separator**: all of it comes, in time, exactly if it is not longer than the limit and does
not bring a separator about earlier; data that is only too long overruns the limit. -/
theorem readuntil_data (hsep : sep ≠ []) (limit : Nat) (eof : Option Nat) {deadline : Nat}
    (before after : List (Nat × List α)) (hbefore : ∀ c ∈ before, c.1 < deadline) (hnow : 0 < deadline)
    {data tail : List α} (hwhole : (before.map Prod.snd).flatten = data ++ sep ++ tail) :
    ∃ t < deadline, ∃ result, readuntil limit sep eof (before ++ after) [] 0 0 = some (t, result) ∧
      (result = .found (data ++ sep) ↔ data.length ≤ limit ∧ ¬sep <:+: data ++ sep.dropLast) ∧
      (limit < data.length → ¬sep <:+: data ++ sep.dropLast →
        ∃ consumed buffer, result = .limitOverrun consumed buffer) := by
  obtain ⟨f, hle, hat, hfirst⟩ := exists_first sep data tail
  obtain ⟨t, ht, result, hread, hresult⟩ := readuntil_of_first hsep hat hfirst eof before after hbefore
    ((List.nil_append _).trans hwhole) (Nat.zero_le f) hnow
  have hend := first_eq_length_iff hsep hle hat hfirst
  refine ⟨t, ht, result, hread, ?_, fun hlong hdata => ?_⟩
  · rcases hresult with ⟨hlim, rfl⟩ | ⟨hlim, consumed, buffer, rfl⟩
    · have hchunk : (data ++ sep ++ tail).take (f + sep.length) = data ++ sep ↔ f = data.length := by
        constructor
        · intro heq
          have hlen := congrArg List.length heq
          have hin := hat.add_length_le hsep
          rw [List.length_take, Nat.min_eq_left hin, List.length_append] at hlen
          omega
        · rintro rfl
          exact List.take_left' List.length_append
      rw [ReadUntil.found.injEq, hchunk, ← hend]
      exact ⟨fun heq => ⟨heq ▸ hlim, heq⟩, And.right⟩
    · exact iff_of_false nofun fun h => by omega
  · rcases hresult with ⟨hlim, -⟩ | ⟨-, hover⟩
    · have heq := hend.2 hdata
      omega
    · exact hover

end Spec

/-! ## Something in front -/

section Lead

variable {sep buf lead : List α} {limit offset : Nat}

/-- What was put in front, as far as the result goes. -/
def ReadUntil.after (lead : List α) : ReadUntil α → ReadUntil α
  | .found chunk => .found (lead ++ chunk)
  | .incompleteRead received => .incompleteRead (lead ++ received)
  | .limitOverrun consumed buffer => .limitOverrun (lead.length + consumed) (lead ++ buffer)

/-- No separator begins below the offset, whatever is still to come. -/
def Past (sep buf : List α) (offset : Nat) : Prop := ∀ rest, ∀ j < offset, ¬StandsAt sep (buf ++ rest) j

theorem past_zero (sep buf : List α) : Past sep buf 0 := fun _ _ h => absurd h (Nat.not_lt_zero _)

theorem Past.append (h : Past sep buf offset) (chunk : List α) : Past sep (buf ++ chunk) offset := by
  intro rest j hj
  rw [List.append_assoc]
  exact h (chunk ++ rest) j hj

/-- What shares nothing with the separator shifts its places. -/
theorem standsAt_lead (lead : List α) (i : Nat) : StandsAt sep (lead ++ buf) (lead.length + i) ↔ StandsAt sep buf i := by
  have hdrop : (lead ++ buf).drop (lead.length + i) = buf.drop i := by
    rw [← List.drop_drop, List.drop_left]
  rw [StandsAt, hdrop, StandsAt]

theorem not_standsAt_lead (hsep : sep ≠ []) (hlead : ∀ x ∈ lead, x ∉ sep) {j : Nat} (hj : j < lead.length) :
    ¬StandsAt sep (lead ++ buf) j := by
  intro hat
  obtain ⟨x, rest, rfl⟩ := List.exists_cons_of_ne_nil hsep
  unfold StandsAt at hat
  rw [List.drop_append_of_le_length hj.le, List.drop_eq_getElem_cons hj, List.cons_append, List.cons_prefix_cons] at hat
  exact hlead _ (List.getElem_mem hj) (by rw [← hat.1]; exact List.mem_cons_self)

variable [DecidableEq α]

/-- A look at a buffer with a separator in it. -/
theorem look_found (hsep : sep ≠ []) (hshort : buf.length ≤ limit) (hpast : Past sep buf offset) {f : Nat}
    (hat : StandsAt sep buf f) (hfirst : ∀ j < f, ¬StandsAt sep buf j) :
    look limit sep buf offset = .inl (.found (buf.take (f + sep.length))) := by
  have hlen := hat.add_length_le hsep
  have hle : offset ≤ f := by
    by_contra hlt
    have hnot := hpast [] f (not_le.1 hlt)
    rw [List.append_nil] at hnot
    exact hnot hat
  unfold look
  rw [if_pos (by omega), findFrom_of_first hsep hat hfirst hle]
  dsimp only
  rw [if_neg (by omega)]

/-- A look at a buffer without one. -/
theorem look_none (hshort : buf.length ≤ limit) (hpast : Past sep buf offset) (hsep : sep ≠ [])
    (hnone : ∀ j, ¬StandsAt sep buf j) : ∃ offset', look limit sep buf offset = .inr offset' ∧ Past sep buf offset' := by
  have hpos := List.length_pos_iff.2 hsep
  unfold look
  split
  · rename_i hlong
    rw [findFrom_eq_none hnone]
    dsimp only
    rw [if_neg (by omega)]
    refine ⟨_, rfl, fun rest j hj hat => hnone j ?_⟩
    exact (standsAt_append (by omega)).1 hat
  · exact ⟨offset, rfl, hpast⟩

/-- The look sees the same with something in front. -/
theorem look_lead {offset' : Nat} (hsep : sep ≠ []) (hlead : ∀ x ∈ lead, x ∉ sep)
    (hshort : lead.length + buf.length ≤ limit) (hpast : Past sep buf offset) (hpast' : Past sep (lead ++ buf) offset') :
    (∃ chunk, look limit sep buf offset = .inl (.found chunk) ∧
      look limit sep (lead ++ buf) offset' = .inl (.found (lead ++ chunk))) ∨
    ∃ o o', look limit sep buf offset = .inr o ∧ look limit sep (lead ++ buf) offset' = .inr o' ∧ Past sep buf o ∧
      Past sep (lead ++ buf) o' := by
  have hbuf : buf.length ≤ limit := by omega
  have hboth : (lead ++ buf).length ≤ limit := by rwa [List.length_append]
  by_cases hex : ∃ j, StandsAt sep buf j
  · have hat := Nat.find_spec hex
    have hfirst : ∀ j < Nat.find hex, ¬StandsAt sep buf j := fun j hj => Nat.find_min hex hj
    have hfirst' : ∀ j < lead.length + Nat.find hex, ¬StandsAt sep (lead ++ buf) j := by
      intro j hj
      by_cases hlt : j < lead.length
      · exact not_standsAt_lead hsep hlead hlt
      · obtain ⟨i, rfl⟩ := Nat.exists_eq_add_of_le (not_lt.1 hlt)
        rw [standsAt_lead]
        exact hfirst i (by omega)
    refine .inl ⟨_, look_found hsep hbuf hpast hat hfirst, ?_⟩
    rw [look_found hsep hboth hpast' ((standsAt_lead lead _).2 hat) hfirst', Nat.add_assoc, List.take_length_add_append]
  · have hnone : ∀ j, ¬StandsAt sep buf j := fun j hj => hex ⟨j, hj⟩
    have hnone' : ∀ j, ¬StandsAt sep (lead ++ buf) j := by
      intro j
      by_cases hlt : j < lead.length
      · exact not_standsAt_lead hsep hlead hlt
      · obtain ⟨i, rfl⟩ := Nat.exists_eq_add_of_le (not_lt.1 hlt)
        rw [standsAt_lead]
        exact hnone i
    obtain ⟨o, hlook, ho⟩ := look_none hbuf hpast hsep hnone
    obtain ⟨o', hlook', ho'⟩ := look_none hboth hpast' hsep hnone'
    exact .inr ⟨o, o', hlook, hlook', ho, ho'⟩

/-- **What is in front of the data comes with it**: as long as the reader has room for both, and the separator has
nothing of it. -/
theorem readuntil_lead (hsep : sep ≠ []) (hlead : ∀ x ∈ lead, x ∉ sep) (eof : Option Nat)
    (chunks : List (Nat × List α)) {buf : List α} {offset offset' now : Nat}
    (hshort : lead.length + buf.length + (chunks.map Prod.snd).flatten.length ≤ limit)
    (hpast : Past sep buf offset) (hpast' : Past sep (lead ++ buf) offset') :
    readuntil limit sep eof chunks (lead ++ buf) offset' now =
      (readuntil limit sep eof chunks buf offset now).map fun r => (r.1, r.2.after lead) := by
  induction chunks generalizing buf offset offset' now with
  | nil =>
    have hroom : lead.length + buf.length ≤ limit := by simpa using hshort
    rcases look_lead hsep hlead hroom hpast hpast' with ⟨chunk, hlook, hlook'⟩ | ⟨o, o', hlook, hlook', -, -⟩
    · rw [readuntil_of_look _ hlook, readuntil_of_look _ hlook']
      rfl
    · simp only [readuntil, hlook, hlook', Option.map_map]
      rfl
  | cons c chunks ih =>
    obtain ⟨t, chunk⟩ := c
    simp only [List.map_cons, List.flatten_cons, List.length_append] at hshort
    have hroom : lead.length + buf.length ≤ limit := by omega
    rcases look_lead hsep hlead hroom hpast hpast' with ⟨found, hlook, hlook'⟩ | ⟨o, o', hlook, hlook', ho, ho'⟩
    · rw [readuntil_of_look _ hlook, readuntil_of_look _ hlook']
      rfl
    · simp only [readuntil, hlook, hlook']
      rw [List.append_assoc]
      refine ih (by rw [List.length_append]; omega) (ho.append chunk) ?_
      rw [← List.append_assoc]
      exact ho'.append chunk

end Lead

end Lsf.Lib
