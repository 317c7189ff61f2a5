import Lsf.Cov.Bitmap
import Lsf.Cov.Scored
import Lsf.Engine.Retaining
import Lsf.Engine.Schedule
import Lsf.Lib.Buckets

/-!
# The minimizer

`DiversityEscape` accepts ASTs that are far from the last ones it accepted, by the distance of their hashes.
`GreedyCoverage` accepts an entry that is diverse or the best one for some edge (`onAdd_spec`), and `minimize` culls
entries that have been neither, nor protected, for some passes: it removes no other id (`minimize_spec`).
-/

namespace Lsf.Engine

open Lsf.Core Lsf.Lib Lsf.Cov Lsf.Feedback

/-! ## Diversity -/

def saturatingAdd (w : Int) : Int := min (w + 1) (2 ^ 31 - 1)

def saturatingSub (w : Int) : Int := max (w - 1) (-2 ^ 31)

section Simhash

variable {Stmt : Type} [Hasher Stmt]

/-- One feature votes on every bit. -/
def vote (weights : List Int) (feature : Stmt) : List Int :=
  weights.mapIdx fun i w => if (Hasher.hash feature).toNat.testBit i then saturatingAdd w else saturatingSub w

def simhashStream (words : AST Stmt) : UInt64 :=
  (words.foldl vote (List.replicate 64 0)).zipIdx.foldl
    (fun (simhash : UInt64) (w : Int × Nat) => if w.1 > 0 then simhash ||| (1 <<< UInt64.ofNat w.2) else simhash) 0

def hammingDistance (x y : UInt64) : Nat := (List.range 64).countP fun i => (x ^^^ y).toNat.testBit i

def maxDiversityWindow : Nat := 2048
def minDist : Nat := 20

structure DiversityEscape where
  hashes : List UInt64
  entries : List ID
  deriving DecidableEq, Repr

namespace DiversityEscape

def new : DiversityEscape := ⟨[], []⟩

/-- The AST is within `minDist` of a hash in the window. -/
def tooSimilar (d : DiversityEscape) (ast : AST Stmt) : Bool :=
  d.hashes.any fun h => hammingDistance h (simhashStream ast) < minDist

def tryInsert (d : DiversityEscape) (id : ID) (ast : AST Stmt) : Bool × DiversityEscape :=
  if d.tooSimilar ast then (false, d) else
    let d := if d.hashes.length ≥ maxDiversityWindow then ⟨d.hashes.tail, d.entries.tail⟩ else d
    (true, ⟨d.hashes ++ [simhashStream ast], d.entries ++ [id]⟩)

theorem tryInsert_fst (d : DiversityEscape) (id : ID) (ast : AST Stmt) :
    (d.tryInsert id ast).1 = !d.tooSimilar ast := by
  unfold tryInsert
  split <;> simp_all

end DiversityEscape

end Simhash

/-! ## Greedy coverage -/

def cullAfter : UInt8 := 5

structure GreedyCoverage where
  bestEdges : ScoredEdges
  diversity : DiversityEscape
  gcRotation : HashMap ID UInt8

namespace GreedyCoverage

def new (maxEdges : Nat) : GreedyCoverage := ⟨.new maxEdges, .new, ∅⟩

def reset (m : GreedyCoverage) : GreedyCoverage :=
  { m with
    bestEdges := ⟨m.bestEdges.bestEntries.map fun _ => none⟩
    diversity := ⟨[], []⟩ }

@[simp] theorem length_reset (m : GreedyCoverage) :
    m.reset.bestEdges.bestEntries.length = m.bestEdges.bestEntries.length := List.length_map _

@[simp] theorem owner_reset (m : GreedyCoverage) (e : Nat) : m.reset.bestEdges.owner e = none := by
  unfold reset ScoredEdges.owner
  rw [List.getElem?_map]
  cases m.bestEdges.bestEntries[e]? <;> rfl

@[simp] theorem owner_new (maxEdges e : Nat) : (new maxEdges).bestEdges.owner e = none := by
  unfold new ScoredEdges.new ScoredEdges.owner
  rw [List.getElem?_replicate]
  split <;> rfl

section OnAdd

variable {Stmt : Type} [Hasher Stmt] [FloatFns ℚ]

def onAdd (m : GreedyCoverage) (entry : RawEntry Stmt) (metadata : Meta) (found : EdgesFound) :
    Option (TestOutcome × GreedyCoverage) :=
  let (isDiverse, diversity) := m.diversity.tryInsert entry.id entry.ast
  let m := { m with diversity := diversity }
  if !isDiverse ∧ found.all.isEmpty then some (.rejected .bad, m) else
    if !found.all.isEmpty then do
      let (isBest, bestEdges) ← m.bestEdges.updateIfBest entry.id entry.ast.length found.all.length
        metadata.execTime found.all
      let m := { m with bestEdges := bestEdges }
      if !isBest ∧ !isDiverse then some (.rejected .bad, m) else
        if metadata.newCovNodes > 0 then some (.accepted (.covIncrease metadata.newCovNodes), m) else
          some (.accepted .isDiverse, m)
    else some (.accepted .isDiverse, m)

/-- The entry has a score that improves on the owner of one of its edges. -/
def Improves (m : GreedyCoverage) (entry : RawEntry Stmt) (metadata : Meta) (found : EdgesFound) : Prop :=
  ∃ score, ScoredEdges.scoreOf entry.ast.length found.all.length metadata.execTime = some score ∧
    ∃ e ∈ found.all, improves score (m.bestEdges.owner e)

variable [LawfulLog] {m : GreedyCoverage} {entry : RawEntry Stmt} {metadata : Meta} {found : EdgesFound}

/-- What `on_add` decided, and what it left behind. -/
structure Judged (m : GreedyCoverage) (entry : RawEntry Stmt) (metadata : Meta) (found : EdgesFound)
    (outcome : TestOutcome) (m' : GreedyCoverage) : Prop where
  judged : (∃ r, outcome = .rejected r) ∨ ∃ a, outcome = .accepted a
  rejected_iff : (∃ r, outcome = .rejected r) ↔ m.diversity.tooSimilar entry.ast ∧ ¬m.Improves entry metadata found
  unchanged : (∃ r, outcome = .rejected r) → m' = m
  covIncrease : m.Improves entry metadata found → 0 < metadata.newCovNodes →
    outcome = .accepted (.covIncrease metadata.newCovNodes)
  length : m'.bestEdges.bestEntries.length = m.bestEdges.bestEntries.length
  owned : ∀ e, e ∈ found.all ∨ (m.bestEdges.owner e).isSome → (m'.bestEdges.owner e).isSome
  owner : ∀ e o, m'.bestEdges.owner e = some o →
    m.bestEdges.owner e = some o ∨ (e ∈ found.all ∧ o.id = entry.id ∧ ∃ a, outcome = .accepted a)

omit [LawfulLog] in
/-- A rejection that changes nothing. -/
theorem judged_rejected (hsim : m.diversity.tooSimilar entry.ast) (hno : ¬m.Improves entry metadata found)
    (howned : ∀ e ∈ found.all, (m.bestEdges.owner e).isSome) :
    Judged m entry metadata found (.rejected .bad) m where
  judged := .inl ⟨_, rfl⟩
  rejected_iff := ⟨fun _ => ⟨hsim, hno⟩, fun _ => ⟨_, rfl⟩⟩
  unchanged _ := rfl
  covIncrease himp := absurd himp hno
  length := rfl
  owned e he := he.elim (howned e) fun ho => ho
  owner _ _ ho := .inl ho

omit [LawfulLog] in
/-- An entry without edges is judged by its AST alone. -/
theorem onAdd_of_nil (hnil : found.all = []) :
    ∃ outcome m', m.onAdd entry metadata found = some (outcome, m') ∧ Judged m entry metadata found outcome m' := by
  have hno : ¬m.Improves entry metadata found := by
    rintro ⟨score, -, e, he, -⟩
    simp [hnil] at he
  by_cases hsim : m.diversity.tooSimilar entry.ast
  · refine ⟨.rejected .bad, m, ?_, judged_rejected hsim hno (by simp [hnil])⟩
    simp [onAdd, DiversityEscape.tryInsert, hsim, hnil]
  · refine ⟨.accepted .isDiverse, { m with diversity := (m.diversity.tryInsert entry.id entry.ast).2 }, ?_, ?_⟩
    · simp [onAdd, DiversityEscape.tryInsert, hsim, hnil]
    · exact ⟨.inr ⟨_, rfl⟩, by simp [hsim], by simp, fun h => absurd h hno, rfl, by simp [hnil], fun _ _ ho => .inl ho⟩

omit [Hasher Stmt] [LawfulLog] in
/-- What `update_if_best` answers. -/
theorem improves_iff {score : Nat} {b : Bool} {best' : ScoredEdges}
    (hscore : ScoredEdges.scoreOf entry.ast.length found.all.length metadata.execTime = some score)
    (hoffered : ScoredEdges.Offered m.bestEdges entry.id score found.all b best') :
    m.Improves entry metadata found ↔ b = true := by
  rw [hoffered.best]
  constructor
  · rintro ⟨score', hscore', hex⟩
    rw [hscore] at hscore'
    cases hscore'
    exact hex
  · intro hex
    exact ⟨score, hscore, hex⟩

/-- **`on_add`** never panics on edges of the table; it rejects exactly what is neither diverse nor an improvement, and
then nothing has changed. -/
theorem onAdd_spec (htime : found.all ≠ [] → metadata.execTime ≠ 0)
    (hlt : ∀ e ∈ found.all, e < m.bestEdges.bestEntries.length) :
    ∃ outcome m', m.onAdd entry metadata found = some (outcome, m') ∧ Judged m entry metadata found outcome m' := by
  by_cases hnil : found.all = []
  · exact onAdd_of_nil hnil
  obtain ⟨score, b, best', hscore, hupdate, hoffered⟩ :=
    ScoredEdges.updateIfBest_spec m.bestEdges entry.id entry.ast.length (htime hnil) hnil hlt
  have himp := improves_iff hscore hoffered
  have howned : ∀ e, e ∈ found.all ∨ (m.bestEdges.owner e).isSome → (best'.owner e).isSome := by
    rintro e (he | ho)
    · exact hoffered.isSome he (hlt e he)
    · exact hoffered.isSome_of_isSome ho
  by_cases hrej : m.diversity.tooSimilar entry.ast ∧ b = false
  · obtain ⟨hsim, rfl⟩ := hrej
    obtain rfl := hoffered.eq_of_not
    refine ⟨.rejected .bad, m, ?_, judged_rejected hsim (by simp [himp]) fun e he => howned e (.inl he)⟩
    simp [onAdd, DiversityEscape.tryInsert, hsim, hnil, hupdate]
  · refine ⟨.accepted (if metadata.newCovNodes > 0 then .covIncrease metadata.newCovNodes else .isDiverse),
      { m with diversity := (m.diversity.tryInsert entry.id entry.ast).2, bestEdges := best' }, ?_, ?_⟩
    · have hkeep : ¬(b = false ∧ m.diversity.tooSimilar entry.ast = true) := fun h => hrej h.symm
      simp only [onAdd, DiversityEscape.tryInsert_fst]
      simp [hnil, hupdate, hkeep]
      split <;> rfl
    · refine ⟨.inr ⟨_, rfl⟩, ⟨by simp, fun h => ?_⟩, by simp, fun _ hpos => by rw [if_pos hpos], hoffered.length, howned,
        fun e o ho => ?_⟩
      · exact absurd ⟨h.1, by simpa [himp] using h.2⟩ hrej
      · rcases hoffered.owner_eq_some ho with ho | ⟨he, hid, -⟩
        · exact .inl ho
        · exact .inr ⟨he, hid, _, rfl⟩

omit [LawfulLog] in
/-- An entry that hit something is only judged if it took time. -/
theorem execTime_ne_zero {outcome : TestOutcome} {m' : GreedyCoverage}
    (h : m.onAdd entry metadata found = some (outcome, m')) (hne : found.all ≠ []) : metadata.execTime ≠ 0 := by
  intro hzero
  simp [onAdd, ScoredEdges.updateIfBest, ScoredEdges.scoreOf, hne, hzero] at h

end OnAdd

section Minimize

variable {C S Stmt : Type} [CorpusHandler C Stmt] [Schedule S Stmt]

/-- What `minimize` changes. -/
abbrev Cull (C S : Type) := HashMap ID UInt8 × C × S

/-- One bad entry: it is counted, and removed when it was counted often enough. -/
def cull (Stmt : Type) [CorpusHandler C Stmt] [Schedule S Stmt] : Cull C S → ID → Option (Cull C S)
  | (rotation, corpus, scheduler), id =>
    let n := ((rotation.lookup id).map (· + 1)).getD 0
    if n ≥ cullAfter then do
      let scheduler ← Schedule.onRemove Stmt scheduler id
      some (rotation.erase id, CorpusHandler.remove corpus id, scheduler)
    else some (rotation.insert id n, corpus, scheduler)

/-- The entries that no pass touches. -/
def protectd (m : GreedyCoverage) (corpus : C) : Finset ID :=
  m.bestEdges.getBestEntries ∪ CorpusHandler.protectedIds corpus ∪ m.diversity.entries.toFinset

def minimize (Stmt : Type) [CorpusHandler C Stmt] [Schedule S Stmt] (m : GreedyCoverage) (order : HashOrder ID)
    (corpus : C) (scheduler : S) : Option (GreedyCoverage × C × S) := do
  let bad := order.list (CorpusHandler.ids corpus \ m.protectd corpus)
  let (rotation, corpus, scheduler) ← bad.foldlM (cull Stmt) (m.gcRotation, corpus, scheduler)
  some ({ m with gcRotation := rotation }, corpus, scheduler)

/-- What a removal from both keeps, a pass keeps. -/
theorem minimize_keeps {P : C → S → Prop} {m m' : GreedyCoverage} {order : HashOrder ID} {corpus corpus' : C}
    {scheduler scheduler' : S}
    (hremove : ∀ c s id s', P c s → Schedule.onRemove Stmt s id = some s' → P (CorpusHandler.remove c id) s')
    (h : P corpus scheduler) (heq : m.minimize Stmt order corpus scheduler = some (m', corpus', scheduler')) :
    P corpus' scheduler' := by
  obtain ⟨⟨rotation, c, s⟩, hfold, hend⟩ := Option.bind_eq_some_iff.1 heq
  cases hend
  clear heq
  generalize order.list (CorpusHandler.ids corpus \ m.protectd corpus) = bad at hfold
  generalize m.gcRotation = counts at hfold
  induction bad generalizing counts corpus scheduler with
  | nil =>
    cases hfold
    exact h
  | cons id bad ih =>
    rw [List.foldlM_cons] at hfold
    obtain ⟨⟨counts₁, corpus₁, scheduler₁⟩, hcull, hfold⟩ := Option.bind_eq_some_iff.1 hfold
    refine ih ?_ _ hfold
    simp only [cull] at hcull
    split at hcull
    · obtain ⟨s', hs', hcull⟩ := Option.bind_eq_some_iff.1 hcull
      cases hcull
      exact hremove _ _ _ _ h hs'
    · cases hcull
      exact h

section Laws

variable [LawfulSchedule S Stmt]

/-- Removing ids that are not in `keep` leads from one corpus to the other. -/
inductive Culled (keep : Finset ID) (c : C) : C → Prop where
  | refl : Culled keep c c
  | remove (id : ID) (hid : id ∉ keep) {c' : C} : Culled keep c c' → Culled keep c (CorpusHandler.remove c' id)

theorem cull_spec {keep : Finset ID} {c corpus : C} (rotation : HashMap ID UInt8) {scheduler : S} {id : ID}
    (hid : id ∉ keep) (hcorpus : Culled keep c corpus) (hvalid : LawfulSchedule.Valid Stmt scheduler) :
    ∃ rotation' corpus' scheduler', cull Stmt (rotation, corpus, scheduler) id = some (rotation', corpus', scheduler') ∧
      Culled keep c corpus' ∧ LawfulSchedule.Valid Stmt scheduler' := by
  simp only [cull]
  split
  · obtain ⟨scheduler', heq, hvalid'⟩ := LawfulSchedule.onRemove_spec (T := Stmt) scheduler id hvalid
    exact ⟨_, _, scheduler', by rw [heq]; rfl, .remove id hid hcorpus, hvalid'⟩
  · exact ⟨_, _, _, rfl, hcorpus, hvalid⟩

theorem foldlM_cull_spec {keep : Finset ID} {c corpus : C} {bad : List ID} (rotation : HashMap ID UInt8) {scheduler : S}
    (hbad : ∀ id ∈ bad, id ∉ keep) (hcorpus : Culled keep c corpus) (hvalid : LawfulSchedule.Valid Stmt scheduler) :
    ∃ rotation' corpus' scheduler',
      bad.foldlM (cull Stmt) (rotation, corpus, scheduler) = some (rotation', corpus', scheduler') ∧
      Culled keep c corpus' ∧ LawfulSchedule.Valid Stmt scheduler' := by
  induction bad generalizing rotation corpus scheduler with
  | nil => exact ⟨_, _, _, rfl, hcorpus, hvalid⟩
  | cons id bad ih =>
    obtain ⟨rotation₁, corpus₁, scheduler₁, hcull, hcorpus₁, hvalid₁⟩ :=
      cull_spec rotation (hbad id (by simp)) hcorpus hvalid
    obtain ⟨rotation', corpus', scheduler', hrest, hend⟩ :=
      ih rotation₁ (fun id' h => hbad id' (by simp [h])) hcorpus₁ hvalid₁
    refine ⟨rotation', corpus', scheduler', ?_, hend⟩
    rw [List.foldlM_cons, hcull]
    exact hrest

/-- **`minimize`** never panics, and removes nothing that is protected. -/
theorem minimize_spec (m : GreedyCoverage) (order : HashOrder ID) (corpus : C) {scheduler : S}
    (hvalid : LawfulSchedule.Valid Stmt scheduler) :
    ∃ m' corpus' scheduler', m.minimize Stmt order corpus scheduler = some (m', corpus', scheduler') ∧
      m'.bestEdges = m.bestEdges ∧ m'.diversity = m.diversity ∧ Culled (m.protectd corpus) corpus corpus' ∧
      LawfulSchedule.Valid Stmt scheduler' := by
  have hbad : ∀ id ∈ order.list (CorpusHandler.ids corpus \ m.protectd corpus), id ∉ m.protectd corpus := by
    intro id hid
    exact (Finset.mem_sdiff.1 ((order.mem _ _).1 hid)).2
  obtain ⟨rotation', corpus', scheduler', hfold, hcorpus', hvalid'⟩ :=
    foldlM_cull_spec m.gcRotation hbad (Culled.refl (c := corpus)) hvalid
  refine ⟨{ m with gcRotation := rotation' }, corpus', scheduler', ?_, rfl, rfl, hcorpus', hvalid'⟩
  simp only [minimize, hfold]
  rfl

end Laws

/-- Protected ids stay. -/
theorem Culled.mem_ids [LawfulCorpus C] {keep : Finset ID} {c c' : C} (h : Culled keep c c') {id : ID} (hid : id ∈ keep)
    (hmem : id ∈ CorpusHandler.ids c) : id ∈ CorpusHandler.ids c' := by
  induction h with
  | refl => exact hmem
  | remove id' hid' _ ih =>
    rw [LawfulCorpus.ids_remove, Finset.mem_erase]
    exact ⟨fun heq => hid' (heq ▸ hid), ih⟩

theorem Culled.intact [RetainingCorpus C] {keep : Finset ID} {c c' : C} (h : Culled keep c c')
    (hc : RetainingCorpus.Intact Stmt c) : RetainingCorpus.Intact Stmt c' := by
  induction h with
  | refl => exact hc
  | remove id _ _ ih => exact RetainingCorpus.intact_remove _ id ih

/-- Owners are protected. -/
theorem owner_mem_protectd {m : GreedyCoverage} {corpus : C} {e : Nat} {o : ScoredEntry}
    (h : m.bestEdges.owner e = some o) : o.id ∈ m.protectd corpus := by
  unfold protectd
  simp [ScoredEdges.mem_getBestEntries h]

end Minimize

end GreedyCoverage

end Lsf.Engine
