import Lsf.Core.Entry
import Mathlib.Data.List.Range
import Mathlib.Data.List.GetD
import Mathlib.Data.Finset.Card
import Mathlib.Tactic.Tauto
import Mathlib.Tactic.ByContra

/-!
# The coverage map

`EdgeMap` holds one byte per edge. `update` merges the map of a run into it, eight bytes at a time with a byte-wise
tail, and returns the edges the run hit (`all`) and those among them that no earlier run had hit (`new`).
-/

namespace Lsf.Cov

/-- The raw bytes of a coverage map, as a run leaves them behind. -/
abbrev EdgeMapView := List UInt8

structure EdgesFound where
  new : List Nat
  all : List Nat
  deriving DecidableEq, Repr

structure EdgeMap where
  rawMap : List UInt8
  totalFound : Nat
  deriving DecidableEq, Repr

def EdgeMap.new (maxEdges : Nat) : EdgeMap := ⟨List.replicate maxEdges 0, 0⟩

/-! ## The merge -/

/-- `u64::from_ne_bytes` on a little-endian machine. -/
def fromNeBytes : List UInt8 → Nat
  | [] => 0
  | b :: bs => b.toNat + 256 * fromNeBytes bs

/-- `chunks_exact`: the full chunks of length `n`, without the remainder. -/
def chunksExact (n : Nat) : Nat → List UInt8 → List (List UInt8)
  | 0, _ => []
  | k + 1, bs => bs.take n :: chunksExact n k (bs.drop n)

/-- One byte of the loop bodies: `idx` is recorded when their byte is set, and ours is set when it was not. -/
def mergeByte (idx : Nat) (their our : UInt8) (found : EdgesFound) : UInt8 × EdgesFound :=
  if their > 0 then
    if our = 0 then (1, ⟨found.new ++ [idx], found.all ++ [idx]⟩) else (our, ⟨found.new, found.all ++ [idx]⟩)
  else (our, found)

/-- The byte-wise loop over two runs of bytes that start at index `idx`. -/
def mergeBytes : Nat → List UInt8 → List UInt8 → EdgesFound → List UInt8 × EdgesFound
  | idx, t :: their, o :: our, found =>
    let (o', found) := mergeByte idx t o found
    let (our', found) := mergeBytes (idx + 1) their our found
    (o' :: our', found)
  | _, _, our, found => (our, found)

/-- The loop over the chunks: a chunk of theirs that is the zero word is skipped. -/
def mergeChunks : Nat → List (List UInt8) → List (List UInt8) → EdgesFound → List (List UInt8) × EdgesFound
  | chunkIdx, t :: their, o :: our, found =>
    let (o', found) := if fromNeBytes t = 0 then (o, found) else mergeBytes (chunkIdx * 8) t o found
    let (our', found) := mergeChunks (chunkIdx + 1) their our found
    (o' :: our', found)
  | _, _, our, found => (our, found)

/-- `EdgeMap::update`; `none` is the failed assertion on the sizes. -/
def EdgeMap.update (m : EdgeMap) (other : EdgeMapView) : Option (EdgesFound × EdgeMap) :=
  if m.rawMap.length ≠ other.length then none else
    let theirChunks := chunksExact 8 (other.length / 8) other
    let ourChunks := chunksExact 8 (m.rawMap.length / 8) m.rawMap
    let (ourChunks, found) := mergeChunks 0 theirChunks ourChunks ⟨[], []⟩
    let chunkLen := m.rawMap.length / 8 * 8
    let (tail, found) := mergeBytes chunkLen (other.drop chunkLen) (m.rawMap.drop chunkLen) found
    some (found, ⟨ourChunks.flatten ++ tail, if found.new.isEmpty then m.totalFound else m.totalFound + found.new.length⟩)

/-! ## The merge, byte by byte -/

/-- Our byte after their byte was merged. -/
def mark (their our : UInt8) : UInt8 := if their > 0 ∧ our = 0 then 1 else our

/-- The indices of the set bytes; the first byte has index `idx`. -/
def hitsFrom : Nat → EdgeMapView → List Nat
  | _, [] => []
  | idx, t :: their => if t > 0 then idx :: hitsFrom (idx + 1) their else hitsFrom (idx + 1) their

/-- The indices of their set bytes that are zero on our side. -/
def freshFrom : Nat → EdgeMapView → List UInt8 → List Nat
  | idx, t :: their, o :: our =>
    if t > 0 ∧ o = 0 then idx :: freshFrom (idx + 1) their our else freshFrom (idx + 1) their our
  | _, _, _ => []

theorem hitsFrom_append (idx : Nat) (a b : EdgeMapView) :
    hitsFrom idx (a ++ b) = hitsFrom idx a ++ hitsFrom (idx + a.length) b := by
  induction a generalizing idx with
  | nil => simp [hitsFrom]
  | cons t a ih =>
    have hidx : idx + 1 + a.length = idx + (t :: a).length := by simp only [List.length_cons]; omega
    simp only [List.cons_append, hitsFrom, ih, hidx]
    split <;> simp

theorem freshFrom_append {a b : EdgeMapView} {a' b' : List UInt8} (h : a.length = a'.length) (idx : Nat) :
    freshFrom idx (a ++ b) (a' ++ b') = freshFrom idx a a' ++ freshFrom (idx + a.length) b b' := by
  induction a generalizing a' idx with
  | nil =>
    obtain rfl := List.length_eq_zero_iff.1 h.symm
    simp [freshFrom]
  | cons t a ih =>
    obtain ⟨o, a', rfl⟩ := List.exists_cons_of_length_eq_add_one h.symm
    have hidx : idx + 1 + a.length = idx + (t :: a).length := by simp only [List.length_cons]; omega
    simp only [List.cons_append, freshFrom, ih (Nat.succ.inj h), hidx]
    split <;> simp

/-- The byte-wise loop computes the byte-wise merge. -/
theorem mergeBytes_eq {their our : List UInt8} (h : their.length = our.length) (idx : Nat) (found : EdgesFound) :
    mergeBytes idx their our found = (List.zipWith mark their our,
      ⟨found.new ++ freshFrom idx their our, found.all ++ hitsFrom idx their⟩) := by
  induction their generalizing our idx found with
  | nil =>
    obtain rfl := List.length_eq_zero_iff.1 h.symm
    simp [mergeBytes, freshFrom, hitsFrom]
  | cons t their ih =>
    obtain ⟨o, our, rfl⟩ := List.exists_cons_of_length_eq_add_one h.symm
    simp only [mergeBytes, mergeByte, List.zipWith_cons_cons, mark, freshFrom, hitsFrom]
    by_cases ht : t > 0
    · by_cases ho : o = 0
      · simp [ht, ho, ih (Nat.succ.inj h)]
      · simp [ht, ho, ih (Nat.succ.inj h)]
    · simp [ht, ih (Nat.succ.inj h)]

theorem fromNeBytes_eq_zero {bs : List UInt8} (h : fromNeBytes bs = 0) : ∀ b ∈ bs, b = 0 := by
  induction bs with
  | nil => simp
  | cons b bs ih =>
    simp only [fromNeBytes, Nat.add_eq_zero_iff, Nat.mul_eq_zero] at h
    intro c hc
    rcases List.mem_cons.1 hc with rfl | hc
    · exact UInt8.toNat_inj.1 h.1
    · exact ih (by omega) c hc

/-- A chunk that is the zero word has nothing to merge: the loop may skip it. -/
theorem merge_zero {their our : List UInt8} (hlen : their.length = our.length) (hz : ∀ b ∈ their, b = 0) (idx : Nat) :
    List.zipWith mark their our = our ∧ freshFrom idx their our = [] ∧ hitsFrom idx their = [] := by
  induction their generalizing our idx with
  | nil =>
    obtain rfl := List.length_eq_zero_iff.1 hlen.symm
    simp [freshFrom, hitsFrom]
  | cons t their ih =>
    obtain ⟨o, our, rfl⟩ := List.exists_cons_of_length_eq_add_one hlen.symm
    obtain rfl : t = 0 := hz t (by simp)
    obtain ⟨h₁, h₂, h₃⟩ := ih (Nat.succ.inj hlen) (fun b hb => hz b (by simp [hb])) (idx + 1)
    simp [mark, freshFrom, hitsFrom, h₁, h₂, h₃]

/-- The loop over the chunks computes the byte-wise merge of what the chunks hold. -/
theorem mergeChunks_eq {their our : List (List UInt8)} (hlen : their.length = our.length)
    (ht : ∀ c ∈ their, c.length = 8) (ho : ∀ c ∈ our, c.length = 8) (chunkIdx : Nat) (found : EdgesFound) :
    (mergeChunks chunkIdx their our found).1.flatten = List.zipWith mark their.flatten our.flatten ∧
    (mergeChunks chunkIdx their our found).2 =
      ⟨found.new ++ freshFrom (chunkIdx * 8) their.flatten our.flatten,
        found.all ++ hitsFrom (chunkIdx * 8) their.flatten⟩ := by
  induction their generalizing our chunkIdx found with
  | nil =>
    obtain rfl := List.length_eq_zero_iff.1 hlen.symm
    simp [mergeChunks, freshFrom, hitsFrom]
  | cons t their ih =>
    obtain ⟨o, our, rfl⟩ := List.exists_cons_of_length_eq_add_one hlen.symm
    have htl : t.length = 8 := ht t (by simp)
    have hto : t.length = o.length := by rw [htl, ho o (by simp)]
    have hidx : (chunkIdx + 1) * 8 = chunkIdx * 8 + t.length := by omega
    have ih := @ih our (Nat.succ.inj hlen) (fun c hc => ht c (by simp [hc])) (fun c hc => ho c (by simp [hc]))
      (chunkIdx + 1)
    simp only [List.flatten_cons, hitsFrom_append, freshFrom_append hto, List.zipWith_append hto, ← hidx]
    by_cases hz : fromNeBytes t = 0
    · obtain ⟨h₁, h₂, h₃⟩ := merge_zero hto (fromNeBytes_eq_zero hz) (chunkIdx * 8)
      simp [mergeChunks, hz, h₁, h₂, h₃, ih]
    · simp [mergeChunks, hz, mergeBytes_eq hto, ih, List.append_assoc]

theorem flatten_chunksExact (n k : Nat) (bs : List UInt8) : (chunksExact n k bs).flatten = bs.take (k * n) := by
  induction k generalizing bs with
  | zero => simp [chunksExact]
  | succ k ih =>
    rw [chunksExact, List.flatten_cons, ih, show (k + 1) * n = n + k * n by rw [Nat.succ_mul, Nat.add_comm],
      List.take_add]

theorem length_chunksExact (n k : Nat) (bs : List UInt8) : (chunksExact n k bs).length = k := by
  induction k generalizing bs with
  | zero => rfl
  | succ k ih => simp [chunksExact, ih]

theorem length_of_mem_chunksExact {n k : Nat} {bs : List UInt8} (h : k * n ≤ bs.length) :
    ∀ c ∈ chunksExact n k bs, c.length = n := by
  induction k generalizing bs with
  | zero => simp [chunksExact]
  | succ k ih =>
    rw [Nat.succ_mul] at h
    intro c hc
    rcases List.mem_cons.1 hc with rfl | hc
    · rw [List.length_take]; omega
    · exact ih (by rw [List.length_drop]; omega) c hc

/-- **The word-at-a-time merge is the byte-wise one**: the chunks and the tail partition the indices. -/
theorem update_eq {m : EdgeMap} {other : EdgeMapView} (h : m.rawMap.length = other.length) :
    m.update other = some (⟨freshFrom 0 other m.rawMap, hitsFrom 0 other⟩,
      ⟨List.zipWith mark other m.rawMap, m.totalFound + (freshFrom 0 other m.rawMap).length⟩) := by
  have hk : other.length / 8 * 8 ≤ other.length := Nat.div_mul_le_self _ _
  have hk' : other.length / 8 * 8 ≤ m.rawMap.length := by omega
  have htake : (other.take (other.length / 8 * 8)).length = (m.rawMap.take (other.length / 8 * 8)).length := by
    simp [h]
  have hdrop : (other.drop (other.length / 8 * 8)).length = (m.rawMap.drop (other.length / 8 * 8)).length := by
    simp [h]
  -- both maps split into their chunks and their tails
  have hhit := hitsFrom_append 0 (other.take (other.length / 8 * 8)) (other.drop (other.length / 8 * 8))
  have hfresh := @freshFrom_append _ (other.drop (other.length / 8 * 8)) _ (m.rawMap.drop (other.length / 8 * 8)) htake 0
  have hmark : List.zipWith mark (_ ++ other.drop (other.length / 8 * 8)) (_ ++ m.rawMap.drop (other.length / 8 * 8)) = _ :=
    List.zipWith_append htake
  simp only [List.take_append_drop, List.length_take, Nat.min_eq_left hk, Nat.zero_add] at hhit hfresh hmark
  obtain ⟨h₁, h₂⟩ := mergeChunks_eq (by rw [length_chunksExact, length_chunksExact])
    (length_of_mem_chunksExact hk) (length_of_mem_chunksExact hk') 0 ⟨[], []⟩
  rw [flatten_chunksExact, flatten_chunksExact] at h₁ h₂
  simp only [EdgeMap.update, h, ne_eq, not_true_eq_false, if_false, h₁, h₂, mergeBytes_eq hdrop, List.nil_append,
    Nat.zero_mul, ← hhit, ← hfresh, ← hmark]
  congr 3
  cases freshFrom 0 other m.rawMap <;> rfl

/-! ## What one merge does -/

theorem mem_hitsFrom {idx e : Nat} {v : EdgeMapView} : e ∈ hitsFrom idx v ↔ idx ≤ e ∧ v.getD (e - idx) 0 ≠ 0 := by
  induction v generalizing idx with
  | nil => simp [hitsFrom]
  | cons t v ih =>
    have hmem : e ∈ hitsFrom idx (t :: v) ↔ (t ≠ 0 ∧ e = idx) ∨ e ∈ hitsFrom (idx + 1) v := by
      simp only [hitsFrom, gt_iff_lt, UInt8.pos_iff_ne_zero]
      split <;> simp_all
    rw [hmem, ih]
    rcases Nat.lt_trichotomy e idx with h | rfl | h
    · simp only [show ¬idx ≤ e by omega, show ¬idx + 1 ≤ e by omega, show e ≠ idx by omega, and_false, false_and,
        or_false]
    · simp
    · obtain ⟨d, rfl⟩ := Nat.exists_eq_add_of_lt h
      have h₁ : idx + d + 1 - (idx + 1) = d := by omega
      have h₂ : idx + d + 1 - idx = d + 1 := by omega
      simp only [h₁, h₂, List.getD_cons_succ, show idx + d + 1 ≠ idx by omega, and_false, false_or]
      exact and_congr_left fun _ => ⟨fun _ => by omega, fun _ => by omega⟩

theorem mem_freshFrom {idx e : Nat} {v : EdgeMapView} {our : List UInt8} (h : v.length = our.length) :
    e ∈ freshFrom idx v our ↔ e ∈ hitsFrom idx v ∧ our.getD (e - idx) 0 = 0 := by
  induction v generalizing our idx with
  | nil => simp [freshFrom, hitsFrom]
  | cons t v ih =>
    obtain ⟨o, our, rfl⟩ := List.exists_cons_of_length_eq_add_one h.symm
    have hmem : e ∈ freshFrom idx (t :: v) (o :: our) ↔ ((t ≠ 0 ∧ o = 0) ∧ e = idx) ∨ e ∈ freshFrom (idx + 1) v our := by
      simp only [freshFrom, gt_iff_lt, UInt8.pos_iff_ne_zero]
      split <;> simp_all
    rw [hmem, ih (Nat.succ.inj h), mem_hitsFrom, mem_hitsFrom]
    rcases Nat.lt_trichotomy e idx with h | rfl | h
    · simp only [show ¬idx ≤ e by omega, show ¬idx + 1 ≤ e by omega, show e ≠ idx by omega, and_false, false_and,
        or_false]
    · simp
    · obtain ⟨d, rfl⟩ := Nat.exists_eq_add_of_lt h
      have h₁ : idx + d + 1 - (idx + 1) = d := by omega
      have h₂ : idx + d + 1 - idx = d + 1 := by omega
      simp only [h₁, h₂, List.getD_cons_succ, show idx + d + 1 ≠ idx by omega, and_false, false_or]
      exact and_congr_left fun _ => and_congr_left fun _ => ⟨fun _ => by omega, fun _ => by omega⟩

theorem freshFrom_sublist (idx : Nat) (v : EdgeMapView) (our : List UInt8) :
    (freshFrom idx v our).Sublist (hitsFrom idx v) := by
  induction v generalizing our idx with
  | nil => simp [freshFrom]
  | cons t v ih =>
    cases our with
    | nil => simp [freshFrom]
    | cons o our =>
      simp only [freshFrom, hitsFrom]
      by_cases ht : t > 0
      · by_cases ho : o = 0
        · simpa [ht, ho] using ih (idx + 1) our
        · simpa [ht, ho] using (ih (idx + 1) our).cons idx
      · simpa [ht] using ih (idx + 1) our

theorem pairwise_hitsFrom (idx : Nat) (v : EdgeMapView) : (hitsFrom idx v).Pairwise (· < ·) := by
  induction v generalizing idx with
  | nil => simp [hitsFrom]
  | cons t v ih =>
    simp only [hitsFrom]
    split
    · exact List.pairwise_cons.2 ⟨fun e he => (mem_hitsFrom.1 he).1, ih (idx + 1)⟩
    · exact ih (idx + 1)

theorem getD_zipWith_mark {v our : List UInt8} (h : v.length = our.length) (e : Nat) :
    (List.zipWith mark v our).getD e 0 = mark (v.getD e 0) (our.getD e 0) := by
  simp only [List.getD_eq_getElem?_getD, List.getElem?_zipWith]
  by_cases he : e < v.length
  · simp [List.getElem?_eq_getElem he, List.getElem?_eq_getElem (h ▸ he)]
  · simp [List.getElem?_eq_none (Nat.le_of_not_lt he), List.getElem?_eq_none (Nat.le_of_not_lt (h ▸ he)), mark]

theorem mark_ne_zero {t o : UInt8} : mark t o ≠ 0 ↔ t ≠ 0 ∨ o ≠ 0 := by
  simp only [mark, gt_iff_lt, UInt8.pos_iff_ne_zero]
  split <;> simp_all

/-- What an update tells and leaves behind: `all` lists the set bytes in ascending order, `new` those of them that were
zero so far, and afterwards exactly these and the old ones are set. -/
structure Updated (m : EdgeMap) (other : EdgeMapView) (found : EdgesFound) (m' : EdgeMap) : Prop where
  allAscending : found.all.Pairwise (· < ·)
  newSublist : found.new.Sublist found.all
  mem_all : ∀ e, e ∈ found.all ↔ other.getD e 0 ≠ 0
  mem_new : ∀ e, e ∈ found.new ↔ other.getD e 0 ≠ 0 ∧ m.rawMap.getD e 0 = 0
  length : m'.rawMap.length = m.rawMap.length
  byte : ∀ e, m'.rawMap.getD e 0 = mark (other.getD e 0) (m.rawMap.getD e 0)
  total : m'.totalFound = m.totalFound + found.new.length

/-- On a view of the map's size the update returns, and does what `Updated` says. -/
theorem update_spec {m : EdgeMap} {other : EdgeMapView} (h : m.rawMap.length = other.length) :
    ∃ found m', m.update other = some (found, m') ∧ Updated m other found m' := by
  refine ⟨_, _, update_eq h, ⟨pairwise_hitsFrom 0 other, freshFrom_sublist 0 other _, ?_, ?_, ?_, ?_, rfl⟩⟩
  · intro e; simp [mem_hitsFrom]
  · intro e; simp [mem_freshFrom h.symm, mem_hitsFrom]
  · simp [h]
  · exact getD_zipWith_mark h.symm

theorem update_length {m m' : EdgeMap} {other : EdgeMapView} {found : EdgesFound}
    (h : m.update other = some (found, m')) : m.rawMap.length = other.length := by
  by_contra hne
  simp [EdgeMap.update, hne] at h

/-- The converse: an update that returns was given a view of the map's size. -/
theorem updated_of_eq {m m' : EdgeMap} {other : EdgeMapView} {found : EdgesFound}
    (h : m.update other = some (found, m')) : Updated m other found m' := by
  obtain ⟨found', m'', heq, hu⟩ := update_spec (update_length h)
  obtain ⟨rfl, rfl⟩ := Prod.mk.inj (Option.some.inj (heq.symm.trans h))
  exact hu

namespace Updated

variable {m m' : EdgeMap} {other : EdgeMapView} {found : EdgesFound}

theorem allNodup (h : Updated m other found m') : found.all.Nodup := h.allAscending.imp fun hlt => Nat.ne_of_lt hlt

theorem newNodup (h : Updated m other found m') : found.new.Nodup := h.newSublist.nodup h.allNodup

theorem mem_all_lt (h : Updated m other found m') (hlen : m.rawMap.length = other.length) {e : Nat}
    (he : e ∈ found.all) : e < m.rawMap.length := by
  by_contra hge
  refine (h.mem_all e).1 he ?_
  rw [List.getD_eq_getElem?_getD, List.getElem?_eq_none (by omega)]
  rfl

/-- Every edge of the run has been seen afterwards, and what was seen stays seen. -/
theorem seen_iff (h : Updated m other found m') (e : Nat) :
    m'.rawMap.getD e 0 ≠ 0 ↔ e ∈ found.all ∨ m.rawMap.getD e 0 ≠ 0 := by
  rw [h.byte, mark_ne_zero, h.mem_all]

/-- An update without new edges leaves the map as it was. -/
theorem eq_of_new_eq_nil (h : Updated m other found m') (hlen : m.rawMap.length = other.length)
    (hnew : found.new = []) : m' = m := by
  have hraw : m'.rawMap = m.rawMap := by
    refine List.ext_getElem h.length fun e h₁ h₂ => ?_
    have hb := h.byte e
    rw [List.getD_eq_getElem _ _ h₁, List.getD_eq_getElem _ _ h₂] at hb
    rw [hb, mark, if_neg]
    rintro ⟨ht, ho⟩
    have : e ∈ found.new := (h.mem_new e).2 ⟨UInt8.pos_iff_ne_zero.1 ht, by rw [List.getD_eq_getElem _ _ h₂]; exact ho⟩
    simp [hnew] at this
  have htotal : m'.totalFound = m.totalFound := by rw [h.total, hnew]; rfl
  cases m; cases m'
  simp_all

end Updated

/-! ## Sets of edges -/

/-- The edges that a view has set. -/
def hits (view : EdgeMapView) : Finset Nat := (Finset.range view.length).filter fun e => view.getD e 0 ≠ 0

/-- Those of them that the map has not seen. -/
def EdgeMap.unseen (m : EdgeMap) (view : EdgeMapView) : Finset Nat :=
  (hits view).filter fun e => m.rawMap.getD e 0 = 0

theorem mem_hits {view : EdgeMapView} {e : Nat} : e ∈ hits view ↔ view.getD e 0 ≠ 0 := by
  unfold hits
  rw [Finset.mem_filter, Finset.mem_range, and_iff_right_iff_imp]
  intro h
  by_contra hge
  exact h (by rw [List.getD_eq_getElem?_getD, List.getElem?_eq_none (not_lt.1 hge)]; rfl)

theorem mem_unseen {m : EdgeMap} {view : EdgeMapView} {e : Nat} :
    e ∈ m.unseen view ↔ e ∈ hits view ∧ m.rawMap.getD e 0 = 0 := Finset.mem_filter

namespace Updated

variable {m m' : EdgeMap} {other : EdgeMapView} {found : EdgesFound}

theorem mem_all_iff (h : Updated m other found m') {e : Nat} : e ∈ found.all ↔ e ∈ hits other := by
  rw [h.mem_all, mem_hits]

theorem length_all (h : Updated m other found m') : found.all.length = (hits other).card := by
  rw [← List.toFinset_card_of_nodup h.allNodup]
  exact congrArg _ (Finset.ext fun e => by rw [List.mem_toFinset, h.mem_all_iff])

theorem length_new (h : Updated m other found m') : found.new.length = (m.unseen other).card := by
  rw [← List.toFinset_card_of_nodup h.newNodup]
  exact congrArg _ (Finset.ext fun e => by rw [List.mem_toFinset, h.mem_new, mem_unseen, mem_hits])

end Updated

/-! ## Runs of merges -/

/-- The maps of `views`, merged one after the other. -/
def updateAll : EdgeMap → List EdgeMapView → Option (List EdgesFound × EdgeMap)
  | m, [] => some ([], m)
  | m, v :: vs => do
    let (found, m) ← m.update v
    let (founds, m) ← updateAll m vs
    some (found :: founds, m)

/-- The edges some view has set. -/
def seen (n : Nat) (views : List EdgeMapView) : Finset Nat :=
  (Finset.range n).filter fun e => ∃ v ∈ views, v.getD e 0 ≠ 0

/-- The map after `views`: the stored bytes and the counter as functions of the history. -/
structure Records (n : Nat) (views : List EdgeMapView) (m : EdgeMap) : Prop where
  length : m.rawMap.length = n
  byte : ∀ e, m.rawMap.getD e 0 = if e ∈ seen n views then 1 else 0
  total : m.totalFound = (seen n views).card

theorem records_new (n : Nat) : Records n [] (EdgeMap.new n) := by
  refine ⟨by simp [EdgeMap.new], fun e => ?_, by simp [EdgeMap.new, seen]⟩
  simp [EdgeMap.new, seen, List.getD_eq_getElem?_getD, List.getElem?_replicate]
  split <;> rfl

/-- The history determines the map. -/
theorem Records.unique {n : Nat} {views views' : List EdgeMapView} {m m' : EdgeMap} (h : Records n views m)
    (h' : Records n views' m') (hseen : seen n views = seen n views') : m = m' := by
  have hraw : m.rawMap = m'.rawMap := by
    refine List.ext_getElem (h.length.trans h'.length.symm) fun e h₁ h₂ => ?_
    have hb := (h.byte e).trans ((hseen ▸ h'.byte e).symm)
    rwa [List.getD_eq_getElem _ _ h₁, List.getD_eq_getElem _ _ h₂] at hb
  have htotal : m.totalFound = m'.totalFound := by rw [h.total, h'.total, hseen]
  cases m; cases m'
  simp_all

theorem seen_snoc {n : Nat} {views : List EdgeMapView} {v : EdgeMapView} {e : Nat} :
    e ∈ seen n (views ++ [v]) ↔ e ∈ seen n views ∨ (e < n ∧ v.getD e 0 ≠ 0) := by
  simp only [seen, Finset.mem_filter, Finset.mem_range, List.mem_append, List.mem_singleton]
  constructor
  · rintro ⟨he, w, hw | rfl, hne⟩
    · exact .inl ⟨he, w, hw, hne⟩
    · exact .inr ⟨he, hne⟩
  · rintro (⟨he, w, hw, hne⟩ | ⟨he, hne⟩)
    · exact ⟨he, w, .inl hw, hne⟩
    · exact ⟨he, v, .inr rfl, hne⟩

section Step

variable {n : Nat} {views : List EdgeMapView} {v : EdgeMapView} {m m' : EdgeMap} {found : EdgesFound}

/-- `new` holds the edges of this view that no earlier one had. -/
theorem Records.mem_new (h : Records n views m) (hv : v.length = n) (hu : Updated m v found m') (e : Nat) :
    e ∈ found.new ↔ e ∈ seen n (views ++ [v]) ∧ e ∉ seen n views := by
  have hlt : v.getD e 0 ≠ 0 → e < n := fun hne => by
    by_contra hge
    exact hne (by rw [List.getD_eq_getElem?_getD, List.getElem?_eq_none (by omega)]; rfl)
  rw [hu.mem_new, h.byte, seen_snoc]
  by_cases hs : e ∈ seen n views
  · simp [hs]
  · simp only [hs, if_false, and_true, false_or, not_false_eq_true]
    exact ⟨fun hne => ⟨hlt hne, hne⟩, And.right⟩

/-- One merge appends its view to the history. -/
theorem Records.step (h : Records n views m) (hv : v.length = n) (hu : Updated m v found m') :
    Records n (views ++ [v]) m' := by
  refine ⟨hu.length.trans h.length, fun e => ?_, ?_⟩
  · rw [hu.byte, h.byte]
    by_cases hs : e ∈ seen n views
    · simp [hs, seen_snoc, mark]
    · have hnew := h.mem_new hv hu e
      rw [hu.mem_new, h.byte] at hnew
      by_cases hv0 : v.getD e 0 = 0 <;> simp_all [mark, UInt8.pos_iff_ne_zero]
  · have hunion : seen n (views ++ [v]) = seen n views ∪ found.new.toFinset := by
      ext e
      rw [Finset.mem_union, List.mem_toFinset, h.mem_new hv hu]
      have := @seen_snoc n views v e
      tauto
    have hdisj : Disjoint (seen n views) found.new.toFinset :=
      Finset.disjoint_left.2 fun e he hn => ((h.mem_new hv hu e).1 (List.mem_toFinset.1 hn)).2 he
    rw [hu.total, h.total, hunion, Finset.card_union_of_disjoint hdisj, List.toFinset_card_of_nodup hu.newNodup]

end Step

/-- The run lemma: the answers and the map of a run of merges, after the history `past`. -/
theorem updateAll_spec {n : Nat} : ∀ (views past : List EdgeMapView) (m : EdgeMap), Records n past m →
    (∀ v ∈ views, v.length = n) → ∃ founds m', updateAll m views = some (founds, m') ∧
      Records n (past ++ views) m' ∧ founds.length = views.length ∧
      (∀ i v f, views[i]? = some v → founds[i]? = some f →
        f.all.Pairwise (· < ·) ∧ (∀ e, e ∈ f.all ↔ v.getD e 0 ≠ 0) ∧
        ∀ e, e ∈ f.new ↔ e ∈ f.all ∧ e ∉ seen n (past ++ views.take i)) ∧
      (founds.flatMap EdgesFound.new).Nodup ∧ ∀ e ∈ founds.flatMap EdgesFound.new, e ∉ seen n past
  | [], past, m, h, _ => ⟨[], m, rfl, by simpa using h, rfl, by simp, by simp, by simp⟩
  | v :: views, past, m, h, hlen => by
    have hv : v.length = n := hlen v (by simp)
    obtain ⟨found, m₁, hupd, hu⟩ := update_spec (h.length.trans hv.symm)
    have h₁ := h.step hv hu
    obtain ⟨founds, m₂, hrest, h₂, hlength, hans, hnodup, hfresh⟩ :=
      updateAll_spec views (past ++ [v]) m₁ h₁ fun w hw => hlen w (by simp [hw])
    refine ⟨found :: founds, m₂, by simp [updateAll, hupd, hrest], by simpa using h₂, by simp [hlength], ?_, ?_, ?_⟩
    · intro i w f hw hf
      cases i with
      | zero =>
        obtain rfl := Option.some.inj hw
        obtain rfl := Option.some.inj hf
        refine ⟨hu.allAscending, hu.mem_all, fun e => ?_⟩
        rw [hu.mem_new, hu.mem_all, h.byte]
        simp
      | succ i => simpa using hans i w f (by simpa using hw) (by simpa using hf)
    · rw [List.flatMap_cons, List.nodup_append']
      refine ⟨hu.newNodup, hnodup, fun e he hrest => hfresh e hrest ?_⟩
      exact ((h.mem_new hv hu e).1 he).1
    · intro e he
      rw [List.flatMap_cons, List.mem_append] at he
      rcases he with he | he
      · exact ((h.mem_new hv hu e).1 he).2
      · exact fun hs => hfresh e he (seen_snoc.2 (.inl hs))

theorem seen_perm {n : Nat} {views views' : List EdgeMapView} (h : views'.Perm views) :
    seen n views' = seen n views := by
  ext e
  simp [seen, h.mem_iff]

/-- **The merge over whole runs.** Every update lists exactly the set bytes of its view, in ascending order, and as new
those that no earlier view had; no edge is new twice; the counter is the number of edges seen; and the order of the views
does not matter for the final map. -/
theorem update_run_exact (n : Nat) (views : List EdgeMapView) (hlen : ∀ v ∈ views, v.length = n) :
    ∃ founds m, updateAll (EdgeMap.new n) views = some (founds, m) ∧ founds.length = views.length ∧
      (∀ i v f, views[i]? = some v → founds[i]? = some f →
        f.all.Pairwise (· < ·) ∧ (∀ e, e ∈ f.all ↔ v.getD e 0 ≠ 0) ∧
        ∀ e, e ∈ f.new ↔ e ∈ f.all ∧ ∀ w ∈ views.take i, w.getD e 0 = 0) ∧
      (∀ e, (founds.flatMap EdgesFound.new).count e ≤ 1) ∧
      m.totalFound = ((Finset.range n).filter fun e => ∃ v ∈ views, v.getD e 0 ≠ 0).card ∧ m.totalFound ≤ n ∧
      ∀ views', views'.Perm views → ∃ founds', updateAll (EdgeMap.new n) views' = some (founds', m) := by
  obtain ⟨founds, m, hrun, hrec, hlength, hans, hnodup, -⟩ :=
    updateAll_spec views [] (EdgeMap.new n) (records_new n) hlen
  simp only [List.nil_append] at hrec hans
  refine ⟨founds, m, hrun, hlength, ?_, fun e => List.nodup_iff_count_le_one.1 hnodup e, hrec.total, ?_, ?_⟩
  · intro i v f hv hf
    obtain ⟨hasc, hall, hnew⟩ := hans i v f hv hf
    refine ⟨hasc, hall, fun e => (hnew e).trans (and_congr_right fun he => ?_)⟩
    have hvn : v.length = n := hlen v (List.mem_of_getElem? hv)
    have hen : e < n := by
      by_contra hge
      refine (hall e).1 he ?_
      rw [List.getD_eq_getElem?_getD, List.getElem?_eq_none (by omega)]
      rfl
    simp [seen, hen]
  · rw [hrec.total]
    exact (Finset.card_filter_le _ _).trans (by simp)
  · intro views' hperm
    obtain ⟨founds', m', hrun', hrec', -⟩ :=
      updateAll_spec views' [] (EdgeMap.new n) (records_new n) fun v hv => hlen v (hperm.mem_iff.1 hv)
    rw [List.nil_append] at hrec'
    exact ⟨founds', hrec'.unique hrec (seen_perm hperm) ▸ hrun'⟩

/-- Two maps of nine bytes: a word and a tail. -/
theorem update_run_exact_nine :
    ∃ founds m, updateAll (EdgeMap.new 9) [[0, 3, 0, 0, 0, 0, 0, 0, 1], [0, 1, 7, 0, 0, 0, 0, 0, 0]] = some (founds, m) ∧
      m.totalFound = 3 := by
  obtain ⟨founds, m, hrun, -, -, -, htotal, -⟩ :=
    update_run_exact 9 [[0, 3, 0, 0, 0, 0, 0, 0, 1], [0, 1, 7, 0, 0, 0, 0, 0, 0]] (by decide)
  exact ⟨founds, m, hrun, htotal.trans (by decide)⟩

end Lsf.Cov
