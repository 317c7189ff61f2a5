import Lsf.Lib.Maps
import Lsf.Lib.Run
import Mathlib.Algebra.BigOperators.Group.List.Basic
import Mathlib.Data.UInt
import Mathlib.Tactic.Ring

/-!
# Pools of energy

Items come into a pool with some energy each and are taken one unit at a time; with its last unit an item leaves the
pool. A `Ledger` is such a pool with numbered items and a record of what was issued and what was emitted. The books
balance (`Balanced`): whatever weight the items have, what is stored and what was emitted is what was issued. So no item
is emitted more often than it had energy (`Balanced.countP_le`).
-/

namespace Lsf.Lib

variable {T U : Type}

/-- Take one unit of energy from the item at `i`; the last item takes the place of one that leaves. -/
def spend (pool : List (T × UInt64)) (i : Nat) : Option (T × List (T × UInt64)) := do
  let (x, energy) ← pool[i]?
  let energy := energy - 1
  let pool := pool.set i (x, energy)
  some (x, if energy = 0 then swapRemove pool i else pool)

/-- No item of the pool is used up. -/
def Alive (pool : List (T × UInt64)) : Prop := ∀ p ∈ pool, 1 ≤ p.2

/-- The energy in a pool whose items have weights. -/
def weighed (w : T → Nat) (pool : List (T × UInt64)) : Nat := (pool.map fun p => w p.1 * p.2.toNat).sum

/-- The energy in a pool. -/
def totalEnergy (pool : List (T × UInt64)) : Nat := weighed (fun _ => 1) pool

section Pool

variable {w : T → Nat} {pool pool' : List (T × UInt64)} {x : T} {i : Nat}

theorem weighed_append (w : T → Nat) (pool pool' : List (T × UInt64)) :
    weighed w (pool ++ pool') = weighed w pool + weighed w pool' := by
  simp [weighed]

theorem weighed_cons (w : T → Nat) (x : T) (energy : UInt64) (pool : List (T × UInt64)) :
    weighed w ((x, energy) :: pool) = w x * energy.toNat + weighed w pool := by
  simp [weighed]

theorem weighed_perm (h : pool.Perm pool') : weighed w pool = weighed w pool' := (h.map _).sum_eq

/-- What `spend` does, up to the order of the pool. -/
theorem spend_spec (h : spend pool i = some (x, pool')) : ∃ energy rest, pool.Perm ((x, energy) :: rest) ∧
    pool'.Perm (if energy - 1 = 0 then rest else (x, energy - 1) :: rest) := by
  obtain ⟨⟨y, energy⟩, hi, h⟩ := Option.bind_eq_some_iff.1 h
  obtain ⟨hlt, hget⟩ := List.getElem?_eq_some_iff.1 hi
  cases h
  refine ⟨energy, pool.eraseIdx i, ?_, ?_⟩
  · rw [← hget]
    exact (List.getElem_cons_eraseIdx_perm hlt).symm
  · split
    · have hperm := swapRemove_perm (l := pool.set i (x, energy - 1)) (i := i) (by rw [List.length_set]; exact hlt)
      rw [List.eraseIdx_set_eq] at hperm
      exact hperm
    · exact List.set_perm_cons_eraseIdx hlt _

theorem alive_spend (hpool : Alive pool) (h : spend pool i = some (x, pool')) : Alive pool' := by
  obtain ⟨energy, rest, hperm, hperm'⟩ := spend_spec h
  have hrest : Alive rest := fun p hp => hpool p (hperm.mem_iff.2 (List.mem_cons_of_mem _ hp))
  intro p hp
  have hp := hperm'.mem_iff.1 hp
  split at hp
  · exact hrest p hp
  · rename_i hne
    rcases List.mem_cons.1 hp with rfl | hp
    · have hpos := UInt64.pos_iff_ne_zero.2 hne
      rw [UInt64.lt_iff_toNat_lt] at hpos
      exact UInt64.le_iff_toNat_le.2 hpos
    · exact hrest p hp

/-- **One unit is spent.** -/
theorem weighed_spend (hpool : Alive pool) (h : spend pool i = some (x, pool')) :
    weighed w pool' + w x = weighed w pool := by
  obtain ⟨energy, rest, hperm, hperm'⟩ := spend_spec h
  have hle := UInt64.le_iff_toNat_le.1 (hpool _ (hperm.mem_iff.2 List.mem_cons_self))
  have hsub : (energy - 1).toNat = energy.toNat - 1 := UInt64.toNat_sub_of_le _ _ (UInt64.le_iff_toNat_le.2 hle)
  have hone : (1 : UInt64).toNat = 1 := rfl
  obtain ⟨n, hn⟩ := Nat.exists_eq_add_of_le hle
  rw [weighed_perm hperm, weighed_perm hperm', weighed_cons, hn, hone]
  split
  · rename_i hzero
    have hn0 : n = 0 := by
      have hz := congrArg UInt64.toNat hzero
      rw [hsub, hn, hone] at hz
      simpa using hz
    rw [hn0]
    ring
  · rw [weighed_cons, hsub, hn, hone, Nat.add_sub_cancel_left]
    ring

theorem swapRemove_map (f : T → U) (l : List T) (i : Nat) : swapRemove (l.map f) i = (swapRemove l i).map f := by
  unfold swapRemove
  rw [List.getLast?_map]
  cases l.getLast? with
  | none => rfl
  | some last => simp [List.map_set]

/-- Spending does not look at the items. -/
theorem spend_map (f : T → U) (pool : List (T × UInt64)) (i : Nat) :
    spend (pool.map (Prod.map f id)) i =
      (spend pool i).map fun (x, pool') => (f x, pool'.map (Prod.map f id)) := by
  unfold spend
  rw [List.getElem?_map]
  cases hi : pool[i]? with
  | none => rfl
  | some p =>
    have hset : (pool.map (Prod.map f id)).set i (f p.1, p.2 - 1) =
        (pool.set i (p.1, p.2 - 1)).map (Prod.map f id) := by
      rw [List.map_set]
      rfl
    simp only [Option.map_some, Option.bind_eq_bind, Option.bind_some, Prod.map_fst, Prod.map_snd, id_eq, hset]
    by_cases hzero : p.2 - 1 = 0
    · simp only [hzero, if_true, swapRemove_map]
    · simp only [hzero, if_false]

end Pool

/-! ## Ledgers -/

/-- What happens to a pool. -/
inductive PoolEvent (T : Type) where
  | issue (items : List (T × UInt64))
  | take (i : Nat)

/-- The energy that an event brings. -/
def PoolEvent.income : PoolEvent T → Nat
  | .issue items => totalEnergy items
  | .take _ => 0

/-- A pool of numbered items, with all that were issued, and what was emitted. -/
structure Ledger (T : Type) where
  pool : List ((Nat × T) × UInt64)
  issued : List ((Nat × T) × UInt64)
  emitted : List (Nat × T)

/-- The items with numbers from `start` on. -/
def numbered (start : Nat) : List (T × UInt64) → List ((Nat × T) × UInt64)
  | [] => []
  | (x, energy) :: items => ((start, x), energy) :: numbered (start + 1) items

/-- The items without their numbers. -/
def plain (pool : List ((Nat × T) × UInt64)) : List (T × UInt64) := pool.map (Prod.map Prod.snd id)

section Numbers

variable {items : List (T × UInt64)}

@[simp] theorem plain_numbered (start : Nat) (items : List (T × UInt64)) : plain (numbered start items) = items := by
  induction items generalizing start with
  | nil => rfl
  | cons item items ih => exact congrArg (item :: ·) (ih (start + 1))

theorem plain_append (pool pool' : List ((Nat × T) × UInt64)) : plain (pool ++ pool') = plain pool ++ plain pool' :=
  List.map_append

theorem numbers_numbered (start : Nat) (items : List (T × UInt64)) :
    (numbered start items).map (fun p => p.1.1) = List.range' start items.length := by
  induction items generalizing start with
  | nil => rfl
  | cons item items ih => exact congrArg (start :: ·) (ih (start + 1))

theorem weighed_plain (w : T → Nat) (pool : List ((Nat × T) × UInt64)) :
    weighed w (plain pool) = weighed (fun y => w y.2) pool := by
  simp [weighed, plain, Function.comp_def]

theorem alive_plain {pool : List ((Nat × T) × UInt64)} : Alive (plain pool) ↔ Alive pool := by
  unfold Alive plain
  simp only [List.mem_map, forall_exists_index, and_imp, forall_apply_eq_imp_iff₂]
  rfl

/-- The energy of the item with the number `n`. -/
theorem weighed_number {l : List ((Nat × T) × UInt64)} (hl : (l.map fun p => p.1.1).Nodup) {n : Nat} {x : T}
    {energy : UInt64} (hp : ((n, x), energy) ∈ l) :
    weighed (fun y => if y.1 = n then 1 else 0) l = energy.toNat := by
  have hnone : ∀ l : List ((Nat × T) × UInt64), n ∉ l.map (fun p => p.1.1) →
      weighed (fun y => if y.1 = n then 1 else 0) l = 0 := by
    intro l hn
    refine List.sum_eq_zero fun k hk => ?_
    obtain ⟨p, hp, rfl⟩ := List.mem_map.1 hk
    have hne : p.1.1 ≠ n := fun heq => hn (List.mem_map.2 ⟨p, hp, heq⟩)
    simp [hne]
  induction l with
  | nil => cases hp
  | cons p l ih =>
    obtain ⟨y, e⟩ := p
    obtain ⟨hno, hl⟩ := List.nodup_cons.1 hl
    rw [weighed_cons]
    rcases List.mem_cons.1 hp with heq | hp
    · cases heq
      rw [hnone l hno]
      simp
    · have hne : y.1 ≠ n := fun heq => hno (List.mem_map.2 ⟨_, hp, heq.symm⟩)
      rw [ih hl hp, if_neg hne]
      omega

end Numbers

namespace Ledger

def empty : Ledger T := ⟨[], [], []⟩

def step (l : Ledger T) : PoolEvent T → Option (Ledger T)
  | .issue items =>
    let new := numbered l.issued.length items
    some { l with pool := l.pool ++ new, issued := l.issued ++ new }
  | .take i => (spend l.pool i).map fun (x, pool) => { l with pool := pool, emitted := l.emitted ++ [x] }

/-- **The books balance**, for every weight of the items. -/
structure Balanced (l : Ledger T) : Prop where
  alive : Alive l.pool
  numbers : l.issued.map (fun p => p.1.1) = List.range l.issued.length
  law : ∀ w, weighed w l.pool + (l.emitted.map w).sum = weighed w l.issued

/-- Items are issued with energy. -/
def Charged (_ : Ledger T) : PoolEvent T → Prop
  | .issue items => Alive items
  | .take _ => True

variable {l l' : Ledger T}

theorem Balanced.empty : Balanced (empty : Ledger T) := ⟨fun _ hp => absurd hp List.not_mem_nil, rfl, fun _ => rfl⟩

theorem Balanced.step (h : Balanced l) {event : PoolEvent T} (hevent : Charged l event)
    (hs : Ledger.step l event = some l') : Balanced l' := by
  cases event with
  | issue items =>
    cases hs
    refine ⟨fun p hp => ?_, ?_, fun w => ?_⟩
    · rcases List.mem_append.1 hp with hp | hp
      · exact h.alive p hp
      · have hnew : Alive (numbered l.issued.length items) := by
          rw [← alive_plain, plain_numbered]
          exact hevent
        exact hnew p hp
    · have hlength : (numbered l.issued.length items).length = items.length := by
        simpa using congrArg List.length (numbers_numbered l.issued.length items)
      rw [List.map_append, h.numbers, numbers_numbered, List.length_append, hlength, List.range_eq_range',
        List.range_eq_range', ← List.range'_append_1, Nat.zero_add]
    · have hlaw := h.law w
      rw [weighed_append, weighed_append]
      dsimp only
      omega
  | take i =>
    obtain ⟨⟨x, pool⟩, hspend, rfl⟩ := Option.map_eq_some_iff.1 hs
    refine ⟨alive_spend h.alive hspend, h.numbers, fun w => ?_⟩
    have hlaw := h.law w
    have hone := weighed_spend (w := w) h.alive hspend
    dsimp only
    rw [List.map_append, List.sum_append, List.map_singleton, List.sum_singleton]
    omega

/-- **No item is emitted more often than it had energy.** -/
theorem Balanced.countP_le (h : Balanced l) {n : Nat} {x : T} {energy : UInt64} (hp : ((n, x), energy) ∈ l.issued) :
    (l.emitted.countP fun y => y.1 = n) ≤ energy.toNat := by
  have hnodup : (l.issued.map fun p => p.1.1).Nodup := by
    rw [h.numbers]
    exact List.nodup_range
  have hlaw := h.law fun y => if y.1 = n then 1 else 0
  have hcount : (l.emitted.map fun y => if y.1 = n then 1 else 0).sum = l.emitted.countP fun y => y.1 = n := by
    induction l.emitted with
    | nil => rfl
    | cons y ys ih =>
      rw [List.map_cons, List.sum_cons, List.countP_cons, ih, Nat.add_comm]
      simp
  rw [weighed_number hnodup hp, hcount] at hlaw
  omega

/-- What is stored and what was emitted is what was issued. -/
theorem Balanced.total (h : Balanced l) : totalEnergy l.pool + l.emitted.length = totalEnergy l.issued := by
  have hlaw := h.law fun _ => 1
  simpa [totalEnergy] using hlaw

/-- What was issued along the way. -/
theorem issued_run {events : List (PoolEvent T)} (h : run step l events = some l') :
    totalEnergy l'.issued = totalEnergy l.issued + (events.map PoolEvent.income).sum := by
  induction events generalizing l with
  | nil =>
    cases h
    rfl
  | cons event events ih =>
    obtain ⟨l₁, hs, h⟩ := run_cons_eq_some.1 h
    rw [ih h, List.map_cons, List.sum_cons, ← Nat.add_assoc]
    congr 1
    cases event with
    | issue items =>
      cases hs
      have hnew : totalEnergy (numbered l.issued.length items) = totalEnergy items := by
        have hplain := weighed_plain (fun _ => 1) (numbered l.issued.length items)
        rw [plain_numbered] at hplain
        exact hplain.symm
      exact (weighed_append _ _ _).trans (congrArg _ hnew)
    | take i =>
      obtain ⟨⟨x, pool⟩, -, rfl⟩ := Option.map_eq_some_iff.1 hs
      rfl

/-! ### What others see -/

/-- The events lead from one ledger to the other; meanwhile the items `out` are emitted, and `pool` is what is left. -/
structure Books (l : Ledger T) (events : List (PoolEvent T)) (out : List T) (pool : List (T × UInt64))
    (l' : Ledger T) : Prop where
  run : Lib.run step l events = some l'
  charged : ∀ event ∈ events, ∀ l, Charged l event
  pool : plain l'.pool = pool
  emitted : l'.emitted.map Prod.snd = l.emitted.map Prod.snd ++ out

variable {events : List (PoolEvent T)} {out : List T} {pool : List (T × UInt64)}

theorem Books.nil (h : plain l.pool = pool) : Books l [] [] pool l :=
  ⟨rfl, fun _ hevent => absurd hevent List.not_mem_nil, h, (List.append_nil _).symm⟩

theorem Books.issue {items : List (T × UInt64)} (halive : Alive items)
    (h : Books { l with
      pool := l.pool ++ numbered l.issued.length items
      issued := l.issued ++ numbered l.issued.length items } events out pool l') :
    Books l (.issue items :: events) out pool l' where
  run := run_cons_eq_some.2 ⟨_, rfl, h.run⟩
  charged event hevent l := by
    rcases List.mem_cons.1 hevent with rfl | hevent
    · exact halive
    · exact h.charged event hevent l
  pool := h.pool
  emitted := h.emitted

theorem Books.take {i : Nat} {y : Nat × T} {rest : List ((Nat × T) × UInt64)} (hspend : spend l.pool i = some (y, rest))
    (h : Books { l with pool := rest, emitted := l.emitted ++ [y] } events out pool l') :
    Books l (.take i :: events) (y.2 :: out) pool l' where
  run := by
    refine run_cons_eq_some.2 ⟨_, ?_, h.run⟩
    show (spend l.pool i).map _ = _
    rw [hspend]
    rfl
  charged event hevent l := by
    rcases List.mem_cons.1 hevent with rfl | hevent
    · trivial
    · exact h.charged event hevent l
  pool := h.pool
  emitted := by
    rw [h.emitted, List.map_append, List.append_assoc]
    rfl

/-- Books go on. -/
theorem Books.append {events' : List (PoolEvent T)} {out' : List T} {pool' : List (T × UInt64)} {l'' : Ledger T}
    (h : Books l events out pool l') (h' : Books l' events' out' pool' l'') :
    Books l (events ++ events') (out ++ out') pool' l'' where
  run := by
    rw [run_append, h.run]
    exact h'.run
  charged event hevent l := by
    rcases List.mem_append.1 hevent with hevent | hevent
    · exact h.charged event hevent l
    · exact h'.charged event hevent l
  pool := h'.pool
  emitted := by
    rw [h'.emitted, h.emitted, List.append_assoc]

/-- Books that are balanced stay so. -/
theorem Books.balanced (h : Books l events out pool l') (hl : Balanced l) : Balanced l' :=
  run_invariant (fun _ _ _ hb hc hs => hb.step hc hs) hl (allSteps_of_forall fun l event he => h.charged event he l) h.run

/-- All along nothing that is used up stays in the pool. -/
theorem Books.alive (h : Books l events out pool l') (hl : Balanced l) :
    AllStates step (fun l => Alive l.pool) l events :=
  allStates_of_invariant (fun _ hb => hb.alive) (fun _ _ _ hb hc hs => hb.step hc hs) hl
    (allSteps_of_forall fun l event he => h.charged event he l)

/-- **What is left and what came out** is what was there and what was issued. -/
theorem Books.totalEnergy_eq (h : Books l events out pool l') (hl : Balanced l) :
    totalEnergy pool + out.length = totalEnergy (plain l.pool) + (events.map PoolEvent.income).sum := by
  have htotal := hl.total
  have htotal' := (h.balanced hl).total
  have hissued := issued_run h.run
  have hemitted := congrArg List.length h.emitted
  have hstart : totalEnergy (plain l.pool) = totalEnergy l.pool := weighed_plain _ _
  have hend : totalEnergy pool = totalEnergy l'.pool := by
    rw [← h.pool]
    exact weighed_plain _ _
  rw [List.length_map, List.length_append, List.length_map] at hemitted
  omega

end Ledger

end Lsf.Lib
