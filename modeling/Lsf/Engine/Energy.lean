import Lsf.Engine.Batching
import Lsf.Engine.OneBatch
import Lsf.Lib.Pool
import Mathlib.Data.Stream.Init

/-!
# The energy of a batcher

`SchedulerBatcher` gives each entry of its inner scheduler an energy and hands it out until this is used up. The energy is
the rounded logarithm of a score that is bounded on both sides, so that it is never zero, and the batch is a pool of
energy (`Ledger`). Over any calls the books balance (`books_balance`), and if the inner scheduler always has something to
give, every call comes to an end with as many entries as it was asked for (`energy_accounted`).
-/

namespace Lsf.Engine

open Lsf.Core Lsf.Lib Lsf.Feedback

namespace SchedulerBatcher

variable {S C Stmt : Type} [CorpusHandler C Stmt] [Schedule S Stmt] [FloatFns ℚ] {s : SchedulerBatcher S Stmt} {c : C}
  {size n : Nat} {h : Bandits} {order : HashOrder ID} {draws : List Draw} {b : Batch (SchedulerBatcher S Stmt) C Stmt}

/-! ## Initial energies -/

omit [FloatFns ℚ] in
/-- A score between the bounds is rounded up to one, two or three. -/
theorem scoreFactor_bounds {score : ℚ} (hmin : minWeight ℚ ≤ score) (hmax : score ≤ maxWeight ℚ) :
    1 ≤ scoreFactor (min score (10 ^ 20)) ∧ scoreFactor (min score (10 ^ 20)) ≤ 3 := by
  unfold minWeight at hmin
  unfold maxWeight at hmax
  have hcap : min score (10 ^ 20) = score := min_eq_left (hmax.trans (by norm_num))
  rw [hcap]
  unfold scoreFactor
  constructor
  · apply Nat.clog_pos (by omega)
    have hlt : 1 < ⌈1 + score⌉₊ := Nat.lt_ceil.2 (by push_cast; linarith)
    omega
  · apply Nat.clog_le_of_le_pow
    apply Nat.ceil_le.2
    push_cast
    linarith

theorem calculatePersistence_bounds (h : Bandits) (entry : TestableEntry (RawEntry Stmt)) :
    basePersistence ≤ (calculatePersistence h entry).1 ∧ (calculatePersistence h entry).1 ≤ 3 * basePersistence := by
  unfold calculatePersistence
  split
  · rename_i hook hhook
    have hbounds := scoreFactor_bounds (h.minWeight_le_calculateScore hook) (h.calculateScore_le_maxWeight hook)
    show basePersistence ≤ basePersistence * _ ∧ basePersistence * _ ≤ _
    unfold basePersistence
    omega
  · show basePersistence ≤ basePersistence ∧ _
    omega

/-- **No entry comes without energy.** -/
theorem alive_energize (h : Bandits) (items : List (TestableEntry (RawEntry Stmt))) : Alive (energize h items).1 := by
  induction items generalizing h with
  | nil => exact fun p hp => absurd hp List.not_mem_nil
  | cons item items ih =>
    intro p hp
    rcases List.mem_cons.1 hp with rfl | hp
    · obtain ⟨hlow, hhigh⟩ := calculatePersistence_bounds h item
      unfold basePersistence at hlow hhigh
      have hfits : (UInt64.ofNat (calculatePersistence h item).1).toNat = (calculatePersistence h item).1 :=
        UInt64.toNat_ofNat_of_lt' (hhigh.trans_lt (by decide))
      show 1 ≤ UInt64.ofNat (calculatePersistence h item).1
      rw [UInt64.le_iff_toNat_le, hfits]
      exact le_trans (by decide) hlow
    · exact ih _ p hp

theorem refillIf_batch {needed : Bool} (hb : s.refillIf needed c size h order draws = some b) :
    ∃ items, b.scheduler.batch = s.batch ++ items ∧ Alive items := by
  unfold refillIf at hb
  split at hb
  · obtain ⟨b', -, hb⟩ := Option.bind_eq_some_iff.1 hb
    cases hb
    exact ⟨_, rfl, alive_energize _ _⟩
  · cases hb
    exact ⟨[], (List.append_nil _).symm, fun p hp => absurd hp List.not_mem_nil⟩

/-! ## What a call does to the batch -/

omit [Schedule S Stmt] [FloatFns ℚ] in
/-- One unit of energy is taken from a place in the window. -/
theorem takeOne_eq (s : SchedulerBatcher S Stmt) (size : Nat) (u : Draw) : s.takeOne size u =
    (u.randomRange (s.batch.length - min s.batch.length size) s.batch.length).bind fun i =>
      (spend s.batch i).map fun (entry, batch) => (entry, { s with batch := batch }) := by
  unfold takeOne spend
  simp [Option.map_bind]

/-- `fill`, with what happens to the batch. -/
def fillTraced (size : Nat) (order : HashOrder ID) : Nat → SchedulerBatcher S Stmt → C → Bandits → List Draw →
    Option (Batch (SchedulerBatcher S Stmt) C Stmt × List (PoolEvent (TestableEntry (RawEntry Stmt))))
  | 0, s, c, h, draws => some (⟨[], s, c, h, draws⟩, [])
  | n + 1, s, c, h, draws => do
    let b ← s.refillIf s.batch.isEmpty c size h order draws
    let (u, draws) ← Draw.next b.draws
    let i ← u.randomRange (b.scheduler.batch.length - min b.scheduler.batch.length size) b.scheduler.batch.length
    let (entry, batch) ← spend b.scheduler.batch i
    let (b', events) ← fillTraced size order n { b.scheduler with batch := batch } b.corpus b.bandits draws
    let refilled := b.scheduler.batch.drop s.batch.length
    some ({ b' with members := entry :: b'.members }, .issue refilled :: .take i :: events)

/-- `next_batch`, with what happens to the batch. -/
def nextBatchTraced (s : SchedulerBatcher S Stmt) (c : C) (size : Nat) (h : Bandits) (order : HashOrder ID)
    (draws : List Draw) :
    Option (Batch (SchedulerBatcher S Stmt) C Stmt × List (PoolEvent (TestableEntry (RawEntry Stmt)))) := do
  let b ← s.refillIf (s.batch.length < size) c size h order draws
  let (b', events) ← fillTraced size order size b.scheduler b.corpus b.bandits b.draws
  some (b', .issue (b.scheduler.batch.drop s.batch.length) :: events)

theorem fillTraced_fst (size n : Nat) (order : HashOrder ID) (s : SchedulerBatcher S Stmt) (c : C) (h : Bandits)
    (draws : List Draw) : (fillTraced size order n s c h draws).map Prod.fst = fill size order n s c h draws := by
  induction n generalizing s c h draws with
  | zero => rfl
  | succ n ih =>
    unfold fillTraced fill
    simp only [Option.bind_eq_bind, Option.map_bind, Function.comp_def, takeOne_eq, Option.bind_assoc, Option.bind_map,
      Option.map_some, ← ih]

theorem nextBatchTraced_fst (s : SchedulerBatcher S Stmt) (c : C) (size : Nat) (h : Bandits) (order : HashOrder ID)
    (draws : List Draw) : (s.nextBatchTraced c size h order draws).map Prod.fst = s.nextBatch c size h order draws := by
  unfold nextBatchTraced nextBatch
  simp only [Option.bind_eq_bind, Option.map_bind, Function.comp_def, Option.map_some, ← fillTraced_fst]
  congr 1
  funext b
  rw [Option.map_eq_bind]
  rfl

/-! ## The ledger of a call -/

section Ledger

variable {events : List (PoolEvent (TestableEntry (RawEntry Stmt)))} {l : Ledger (TestableEntry (RawEntry Stmt))}

theorem exists_books_fill (hl : plain l.pool = s.batch)
    (hb : fillTraced size order n s c h draws = some (b, events)) :
    ∃ l', Ledger.Books l events b.members b.scheduler.batch l' := by
  induction n generalizing s c h draws b events l with
  | zero =>
    cases hb
    exact ⟨l, .nil hl⟩
  | succ n ih =>
    unfold fillTraced at hb
    obtain ⟨b₁, hrefill, hb⟩ := Option.bind_eq_some_iff.1 hb
    obtain ⟨⟨u, rest⟩, -, hb⟩ := Option.bind_eq_some_iff.1 hb
    obtain ⟨i, -, hb⟩ := Option.bind_eq_some_iff.1 hb
    obtain ⟨⟨entry, batch⟩, hspend, hb⟩ := Option.bind_eq_some_iff.1 hb
    obtain ⟨⟨b₂, events₂⟩, hfill, hb⟩ := Option.bind_eq_some_iff.1 hb
    cases hb
    obtain ⟨items, hitems, halive⟩ := refillIf_batch hrefill
    have hpool : plain (l.pool ++ numbered l.issued.length items) = b₁.scheduler.batch := by
      rw [plain_append, plain_numbered, hl, hitems]
    rw [← hpool] at hspend
    unfold plain at hspend
    rw [spend_map] at hspend
    obtain ⟨⟨y, pool⟩, htake, heq⟩ := Option.map_eq_some_iff.1 hspend
    cases heq
    obtain ⟨l', hbooks⟩ := ih (l := { l with
      pool := pool
      issued := l.issued ++ numbered l.issued.length items
      emitted := l.emitted ++ [y] }) rfl hfill
    have hdrop : b₁.scheduler.batch.drop s.batch.length = items := by
      rw [hitems, List.drop_left]
    rw [hdrop]
    exact ⟨l', .issue halive (.take htake hbooks)⟩

/-- **The books of a call.** -/
theorem exists_books (hl : plain l.pool = s.batch) (hb : s.nextBatchTraced c size h order draws = some (b, events)) :
    ∃ l', Ledger.Books l events b.members b.scheduler.batch l' := by
  obtain ⟨b₁, hrefill, hb⟩ := Option.bind_eq_some_iff.1 hb
  obtain ⟨⟨b₂, events₂⟩, hfill, hb⟩ := Option.bind_eq_some_iff.1 hb
  cases hb
  obtain ⟨items, hitems, halive⟩ := refillIf_batch hrefill
  have hpool : plain (l.pool ++ numbered l.issued.length items) = b₁.scheduler.batch := by
    rw [plain_append, plain_numbered, hl, hitems]
  obtain ⟨l', hbooks⟩ := exists_books_fill (l := { l with
    pool := l.pool ++ numbered l.issued.length items
    issued := l.issued ++ numbered l.issued.length items }) hpool hfill
  have hdrop : b₁.scheduler.batch.drop s.batch.length = items := by
    rw [hitems, List.drop_left]
  rw [hdrop]
  exact ⟨l', .issue halive hbooks⟩

end Ledger

/-! ## A call comes to its end -/

/-- Whatever is drawn, the call returns after finitely many draws, and what it returns has `Q`. -/
def Finishes {B : Type} (call : List Draw → Option (Batch B C Stmt)) (Q : Batch B C Stmt → Prop) : Prop :=
  ∀ u : Stream' Draw, ∃ k b, Q b ∧ ∀ rest, call (u.take k ++ rest) = some { b with draws := rest }

/-- From a state with `J` the inner scheduler has at least one entry for every request, and keeps `J`. -/
structure Yielding (J : S → C → Bandits → Prop) : Prop where
  nextBatch : ∀ s c size h order, J s c h → 0 < size →
    Finishes (fun draws => (Schedule.nextBatch s c size h order draws : Option (Batch S C Stmt)))
      fun b => b.members ≠ [] ∧ J b.scheduler b.corpus b.bandits
  calculateScore : ∀ s c h a, J s c h → J s c (h.calculateScore a).2

section Finishes

variable {J : S → C → Bandits → Prop}

theorem Yielding.energize (hJ : Yielding J) {s : S} (hs : J s c h) (items : List (TestableEntry (RawEntry Stmt))) :
    J s c (SchedulerBatcher.energize h items).2 := by
  induction items generalizing h with
  | nil => exact hs
  | cons item items ih =>
    apply ih
    split
    · exact hJ.calculateScore _ _ _ _ hs
    · exact hs

/-- After a refill there is something in the batch. -/
theorem Yielding.refill (hJ : Yielding J) (hs : J s.innerScheduler c h) (size : Nat) (order : HashOrder ID) :
    Finishes (fun draws => s.refill c size h order draws)
      fun b => b.scheduler.batch ≠ [] ∧ J b.scheduler.innerScheduler b.corpus b.bandits := by
  intro u
  have hpos : 0 < min (max size minRefill) maxRefill := by
    unfold minRefill maxRefill
    omega
  obtain ⟨k, b, ⟨hne, hb⟩, hcall⟩ := hJ.nextBatch s.innerScheduler c _ h order hs hpos u
  refine ⟨k, ⟨[], ⟨b.scheduler, s.batch ++ (SchedulerBatcher.energize b.bandits b.members).1⟩, b.corpus,
    (SchedulerBatcher.energize b.bandits b.members).2, b.draws⟩, ⟨?_, hJ.energize hb b.members⟩, fun rest => ?_⟩
  · have hitems : (SchedulerBatcher.energize b.bandits b.members).1 ≠ [] := by
      intro hnil
      apply hne
      rw [← energize_fst b.bandits b.members, hnil, List.map_nil]
    simp [hitems]
  · have hinner := hcall rest
    dsimp only at hinner ⊢
    unfold SchedulerBatcher.refill
    rw [hinner]
    rfl

theorem Yielding.refillIf (hJ : Yielding J) (hs : J s.innerScheduler c h) {needed : Bool}
    (hne : needed = false → s.batch ≠ []) (size : Nat) (order : HashOrder ID) :
    Finishes (fun draws => s.refillIf needed c size h order draws)
      fun b => b.scheduler.batch ≠ [] ∧ J b.scheduler.innerScheduler b.corpus b.bandits := by
  cases needed with
  | false => exact fun u => ⟨0, ⟨[], s, c, h, []⟩, ⟨hne rfl, hs⟩, fun rest => rfl⟩
  | true => exact hJ.refill hs _ order

/-- Each round needs one draw, and those of a refill. -/
theorem Yielding.fill (hJ : Yielding J) (hsize : 0 < size) (order : HashOrder ID) (n : Nat)
    (hs : J s.innerScheduler c h) :
    Finishes (fun draws => SchedulerBatcher.fill size order n s c h draws) fun b => b.members.length = n := by
  induction n generalizing s c h with
  | zero => exact fun u => ⟨0, ⟨[], s, c, h, []⟩, rfl, fun rest => rfl⟩
  | succ n ih =>
    intro u
    have hneeded : s.batch.isEmpty = false → s.batch ≠ [] := fun hfull => List.isEmpty_eq_false_iff.1 hfull
    obtain ⟨k, b, ⟨hne, hb⟩, hrefill⟩ := hJ.refillIf hs hneeded size order u
    obtain ⟨entry, s', htake⟩ := exists_takeOne hsize (List.length_pos_iff.2 hne) (u.drop k).head
    obtain ⟨k', b', hlength, hfill⟩ := ih (s := s') (c := b.corpus) (h := b.bandits)
      (by rw [takeOne_innerScheduler htake]; exact hb) (u.drop k).tail
    refine ⟨k + (k' + 1), { b' with members := entry :: b'.members }, congrArg (· + 1) hlength, fun rest => ?_⟩
    have hdraws : u.take (k + (k' + 1)) ++ rest =
        u.take k ++ ((u.drop k).head :: ((u.drop k).tail.take k' ++ rest)) := by
      rw [Stream'.take_add, Stream'.take_succ, List.append_assoc]
      rfl
    have hfirst := hrefill ((u.drop k).head :: ((u.drop k).tail.take k' ++ rest))
    have hrest := hfill rest
    dsimp only at hfirst hrest ⊢
    unfold SchedulerBatcher.fill
    simp only [hdraws, hfirst, Option.bind_eq_bind, Option.bind_some, Draw.next, htake, hrest]

/-- **Every call comes to its end**, with as many entries as it was asked for. -/
theorem Yielding.finishes (hJ : Yielding J) (hs : J s.innerScheduler c h) (size : Nat) (order : HashOrder ID) :
    Finishes (fun draws => s.nextBatch c size h order draws) fun b => b.members.length = size := by
  intro u
  rcases Nat.eq_zero_or_pos size with rfl | hsize
  · exact ⟨0, ⟨[], s, c, h, []⟩, rfl, fun rest => by simp [SchedulerBatcher.nextBatch, SchedulerBatcher.refillIf,
      SchedulerBatcher.fill]⟩
  · have hneeded : decide (s.batch.length < size) = false → s.batch ≠ [] := by
      intro hle
      rw [decide_eq_false_iff_not] at hle
      rw [← List.length_pos_iff]
      omega
    obtain ⟨k, b, ⟨-, hb⟩, hrefill⟩ := hJ.refillIf hs hneeded size order u
    obtain ⟨k', b', hlength, hfill⟩ := hJ.fill hsize order size hb (u.drop k)
    refine ⟨k + k', b', hlength, fun rest => ?_⟩
    have hfirst := hrefill ((u.drop k).take k' ++ rest)
    dsimp only at hfirst ⊢
    unfold SchedulerBatcher.nextBatch
    rw [Stream'.take_add, List.append_assoc, hfirst]
    exact hfill rest

end Finishes

end SchedulerBatcher

/-! ## Runs -/

/-- A batcher with what has happened to its batch, and what it has handed out, since the start or the last reset. -/
structure BatcherRun (S Stmt : Type) where
  batcher : SchedulerBatcher S Stmt
  events : List (PoolEvent (TestableEntry (RawEntry Stmt)))
  emitted : List (TestableEntry (RawEntry Stmt))

/-- The calls, with any corpus, bandits and draws; `onAdd`, `onRemove` and `chore` change the inner scheduler only. -/
inductive BatcherOp (S C : Type) where
  | nextBatch (c : C) (size : Nat) (h : Bandits) (order : HashOrder ID) (draws : List Draw)
  | others (innerScheduler : S)
  | reset (h : Bandits)

namespace BatcherRun

open SchedulerBatcher

variable {S C Stmt : Type} [CorpusHandler C Stmt] [Schedule S Stmt] [FloatFns ℚ] {r r' : BatcherRun S Stmt}

def new (innerScheduler : S) : BatcherRun S Stmt := ⟨⟨innerScheduler, []⟩, [], []⟩

def step (r : BatcherRun S Stmt) : BatcherOp S C → Option (BatcherRun S Stmt)
  | .nextBatch c size h order draws => do
    let (b, events) ← r.batcher.nextBatchTraced c size h order draws
    some ⟨b.scheduler, r.events ++ events, r.emitted ++ b.members⟩
  | .others innerScheduler => some { r with batcher := { r.batcher with innerScheduler := innerScheduler } }
  | .reset h => some ⟨(Schedule.reset Stmt r.batcher h).1, [], []⟩

/-- When a batch is asked for, the inner scheduler has `J`. -/
def Supplied (J : S → C → Bandits → Prop) (r : BatcherRun S Stmt) : BatcherOp S C → Prop
  | .nextBatch c _ h _ _ => J r.batcher.innerScheduler c h
  | .others _ | .reset _ => True

/-- A call ends whatever is drawn, with exactly as many entries as it was asked for, and the stored energy changes by what
was refilled less that number. -/
def Exact (r : BatcherRun S Stmt) : BatcherOp S C → Prop
  | .nextBatch c size h order draws =>
    Finishes (fun draws => r.batcher.nextBatch c size h order draws) (fun b => b.members.length = size) ∧
      ∀ b events, r.batcher.nextBatchTraced c size h order draws = some (b, events) → b.members.length = size ∧
        totalEnergy b.scheduler.batch + size = totalEnergy r.batcher.batch + (events.map PoolEvent.income).sum
  | .others _ | .reset _ => True

/-- A call that returns gives as many entries as it was asked for, and the stored energy changes by what was refilled less
that number. -/
def Settles (r : BatcherRun S Stmt) : BatcherOp S C → Prop
  | .nextBatch c size h order draws =>
    ∀ b events, r.batcher.nextBatchTraced c size h order draws = some (b, events) → b.members.length = size ∧
      totalEnergy b.scheduler.batch + size = totalEnergy r.batcher.batch + (events.map PoolEvent.income).sum
  | .others _ | .reset _ => True

/-- Everything that happened to the batch is in the books of a ledger, in which at no time an item is stored whose energy
is used up, and no item was emitted more often than the energy that it came with. -/
def Accounted (r : BatcherRun S Stmt) : Prop :=
  ∃ l, Ledger.Books .empty r.events r.emitted r.batcher.batch l ∧
    AllStates Ledger.step (fun l => Alive l.pool) .empty r.events ∧
      ∀ n x energy, ((n, x), energy) ∈ l.issued → (l.emitted.countP fun y => y.1 = n) ≤ energy.toNat

omit [Schedule S Stmt] [FloatFns ℚ] in
theorem accounted_of_books {l : Ledger (TestableEntry (RawEntry Stmt))}
    (h : Ledger.Books .empty r.events r.emitted r.batcher.batch l) : Accounted r :=
  ⟨l, h, h.alive .empty, fun _ _ _ hp => (h.balanced .empty).countP_le hp⟩

theorem Accounted.step {op : BatcherOp S C} (h : Accounted r) (hs : step r op = some r') : Accounted r' := by
  obtain ⟨l, hbooks, -, -⟩ := h
  cases op with
  | nextBatch c size h order draws =>
    obtain ⟨⟨b, events⟩, hb, hs⟩ := Option.bind_eq_some_iff.1 hs
    cases hs
    obtain ⟨l', hcall⟩ := exists_books hbooks.pool hb
    exact accounted_of_books (hbooks.append hcall)
  | others innerScheduler =>
    cases hs
    exact accounted_of_books hbooks
  | reset h =>
    cases hs
    exact accounted_of_books (.nil rfl)

theorem Accounted.settles (h : Accounted r) (op : BatcherOp S C) : Settles r op := by
  obtain ⟨l, hbooks, -, -⟩ := h
  cases op with
  | nextBatch c size h order draws =>
    intro b events hb
    have hcall : r.batcher.nextBatch c size h order draws = some b := by
      rw [← nextBatchTraced_fst, hb]
      rfl
    have hlength := length_nextBatch hcall
    obtain ⟨l', hbooks'⟩ := exists_books hbooks.pool hb
    have hstored := hbooks'.totalEnergy_eq (hbooks.balanced .empty)
    rw [hlength, hbooks.pool] at hstored
    exact ⟨hlength, hstored⟩
  | others innerScheduler => trivial
  | reset h => trivial

/-- **The books balance** over any calls, whatever the inner scheduler gives, for as long as the calls return. -/
theorem books_balance (innerScheduler : S) (ops : List (BatcherOp S C)) :
    AllSteps step Settles (new innerScheduler : BatcherRun S Stmt) ops ∧
      AllStates step Accounted (new innerScheduler : BatcherRun S Stmt) ops := by
  have hnew : Accounted (new innerScheduler : BatcherRun S Stmt) := accounted_of_books (.nil rfl)
  have hops : AllSteps step (fun _ _ => True) (new innerScheduler : BatcherRun S Stmt) ops :=
    allSteps_of_forall fun _ _ _ => trivial
  exact ⟨allSteps_of_invariant (fun _ op h _ => h.settles op) (fun _ _ _ h _ hs => h.step hs) hnew hops,
    allStates_of_invariant (fun _ h => h) (fun _ _ _ h _ hs => h.step hs) hnew hops⟩

theorem Settles.exact {J : S → C → Bandits → Prop} (hJ : Yielding J) {op : BatcherOp S C} (h : Settles r op)
    (hop : Supplied J r op) : Exact r op := by
  cases op with
  | nextBatch c size h' order draws => exact ⟨hJ.finishes hop size order, h⟩
  | others innerScheduler => trivial
  | reset h => trivial

/-- **The energy of a batcher** is accounted for over any calls, as long as the inner scheduler has something to give. -/
theorem energy_accounted {J : S → C → Bandits → Prop} (hJ : Yielding J) (innerScheduler : S) (ops : List (BatcherOp S C))
    (hops : AllSteps step (Supplied J) (new innerScheduler : BatcherRun S Stmt) ops) :
    AllSteps step Exact (new innerScheduler : BatcherRun S Stmt) ops ∧
      AllStates step Accounted (new innerScheduler : BatcherRun S Stmt) ops := by
  obtain ⟨hsettles, haccounted⟩ : AllSteps step Settles (new innerScheduler : BatcherRun S Stmt) ops ∧
      AllStates step Accounted (new innerScheduler : BatcherRun S Stmt) ops := books_balance innerScheduler ops
  refine ⟨allSteps_of_invariant (I := fun _ => True) (fun _ _ _ h => h.1.exact hJ h.2) (fun _ _ _ _ _ _ => trivial)
    trivial (hsettles.and hops), haccounted⟩

end BatcherRun

/-! ## Over a bandit scheduler -/

/-- A stocked `MABScheduler` has something to give for every request, whatever is drawn. -/
theorem MABScheduler.yielding {H C Stmt : Type} [BinaryHeap H (SchedueldItem ID)]
    [BinaryHeap.LawfulBinaryHeap H (SchedueldItem.score (T := ID))] [CorpusHandler C Stmt] [FloatFns ℚ] :
    SchedulerBatcher.Yielding fun (s : MABScheduler H) (c : C) (_ : Bandits) => Stocked s c where
  nextBatch s c size h order hs hsize _ := by
    obtain ⟨b, hb, hne, hstocked⟩ := hs.nextBatch hsize h order []
    exact ⟨0, b, ⟨hne, hstocked⟩, nextBatch_withDraws hb⟩
  calculateScore _ _ _ _ hs := hs

namespace BatcherRun

attribute [local instance] FloatFns.tangent

abbrev ItemHeap := ListHeap (SchedueldItem.score (T := ID))

def seedEntry (n : UInt32) : CorpusEntry Nat := ⟨⟨⟨n⟩, [], []⟩, .default⟩

def twoSeeds : InMemory (CorpusEntry Nat) :=
  [seedEntry 1, seedEntry 2].foldl (fun c entry => CorpusHandler.insert c entry .posInf) .new

/-- A scheduler with an arm for each of the two, and the arms. -/
def twoArms : MABScheduler ItemHeap × Bandits :=
  [seedEntry 1, seedEntry 2].foldl (fun (s, h) entry => (s.onAdd h entry).2) (.new 0, .new)

def call (size : Nat) : BatcherOp (MABScheduler ItemHeap) (InMemory (CorpusEntry Nat)) :=
  .nextBatch twoSeeds size twoArms.2 (.sorted ID) (List.replicate 40 .zero)

theorem stocked_twoSeeds {s : MABScheduler ItemHeap} (hitems : (s.queue.items.map SchedueldItem.item).Perm [⟨1⟩, ⟨2⟩]) :
    MABScheduler.Stocked s twoSeeds where
  distinct := hitems.nodup_iff.2 (by decide)
  stable := MABScheduler.stable_inMemory twoSeeds
  exists_got := by
    obtain ⟨x, hx, hid⟩ := List.mem_map.1 (hitems.mem_iff.2 List.mem_cons_self)
    exact ⟨x, hx, by rw [hid]; rfl⟩

/-- The energy of both arms is used up in the first call, which refills its batch on the way. -/
theorem energy_accounted_twelveThree :
    (AllSteps step Exact (new twoArms.1 : BatcherRun (MABScheduler ItemHeap) Nat) [call 12, call 3] ∧
      AllStates step Accounted (new twoArms.1 : BatcherRun (MABScheduler ItemHeap) Nat) [call 12, call 3]) ∧
    (run step (new twoArms.1 : BatcherRun (MABScheduler ItemHeap) Nat) [call 12, call 3]).map (fun r =>
      (r.emitted.length, (r.events.map PoolEvent.income).filter (0 < ·))) = some (15, [10, 10, 10]) := by
  refine ⟨energy_accounted MABScheduler.yielding twoArms.1 [call 12, call 3] ⟨stocked_twoSeeds (by decide +kernel), ?_⟩,
    by decide +kernel⟩
  intro r hr
  have hkept : (step (new twoArms.1 : BatcherRun (MABScheduler ItemHeap) Nat) (call 12)).all
      (fun r => (r.batcher.innerScheduler.queue.items.map SchedueldItem.item).isPerm [⟨1⟩, ⟨2⟩]) := by
    decide +kernel
  refine ⟨stocked_twoSeeds (List.isPerm_iff.1 ?_), fun _ _ => trivial⟩
  exact (Option.all_eq_true _ _).1 hkept r hr

end BatcherRun

end Lsf.Engine
