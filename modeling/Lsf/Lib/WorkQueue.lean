import Mathlib.Data.List.Perm.Basic
import Mathlib.Data.Multiset.AddSub
import Mathlib.Algebra.BigOperators.Group.List.Basic
import Mathlib.Algebra.Order.Ring.Nat

/-!
# Work queues

A queue between producers and consumers that counts what is not done with yet: a producer waits while the queue is full,
a consumer while it is empty, and whoever joins the queue waits until every consumer has said of every item that it is
done. The count is that of the items that wait and of those in hand (`Counted`). The states of the producers and of the
consumers are lists in which a step replaces one (`exists_rest`).
-/

namespace Lsf.Lib

/-- A queue with a bound and with a count of what is not done with; zero is no bound. -/
structure WorkQueue (T : Type*) where
  maxsize : Nat
  items : List T
  unfinishedTasks : Nat

namespace WorkQueue

variable {T : Type*}

def full (q : WorkQueue T) : Bool := 0 < q.maxsize && q.maxsize ≤ q.items.length

/-- `put`, which waits while the queue is full; `put_nowait` raises an exception then. -/
def put (q : WorkQueue T) (x : T) : Option (WorkQueue T) :=
  if q.full then none
  else some { q with items := q.items ++ [x], unfinishedTasks := q.unfinishedTasks + 1 }

/-- `get`, which waits while the queue is empty. -/
def get (q : WorkQueue T) : Option (T × WorkQueue T) :=
  match q.items with
  | [] => none
  | x :: items => some (x, { q with items := items })

/-- `task_done`, which raises an exception if nothing is left to be done. -/
def taskDone (q : WorkQueue T) : Option (WorkQueue T) :=
  if q.unfinishedTasks = 0 then none else some { q with unfinishedTasks := q.unfinishedTasks - 1 }

/-- One after the other. -/
def putAll (q : WorkQueue T) (xs : List T) : Option (WorkQueue T) := xs.foldlM put q

variable {q q' : WorkQueue T} {x : T} {inHand : Nat}

theorem full_iff : q.full = true ↔ 0 < q.maxsize ∧ q.maxsize ≤ q.items.length := by
  simp [full]

theorem put_eq_some :
    q.put x = some q' ↔ q.full = false ∧ q' = ⟨q.maxsize, q.items ++ [x], q.unfinishedTasks + 1⟩ := by
  unfold put
  cases q.full <;> simp [eq_comm]

theorem get_eq_some :
    q.get = some (x, q') ↔ q.items = x :: q'.items ∧ q' = ⟨q.maxsize, q'.items, q.unfinishedTasks⟩ := by
  unfold get
  split
  · rename_i hnil
    simp [hnil]
  · rename_i y items hcons
    rw [hcons, Option.some.injEq, Prod.mk.injEq, List.cons.injEq]
    constructor
    · rintro ⟨rfl, rfl⟩
      exact ⟨⟨rfl, rfl⟩, rfl⟩
    · rintro ⟨⟨rfl, hitems⟩, hq⟩
      exact ⟨rfl, by rw [hq, hitems]⟩

theorem taskDone_eq_some :
    q.taskDone = some q' ↔ 0 < q.unfinishedTasks ∧ q' = ⟨q.maxsize, q.items, q.unfinishedTasks - 1⟩ := by
  unfold taskDone
  split
  · rename_i hzero
    simp [hzero]
  · rename_i hpos
    simp [Nat.pos_of_ne_zero hpos, eq_comm]

/-- Where there is room for all, all can be put. -/
theorem putAll_eq_some (xs : List T) (h : q.maxsize = 0 ∨ q.items.length + xs.length ≤ q.maxsize) :
    q.putAll xs = some ⟨q.maxsize, q.items ++ xs, q.unfinishedTasks + xs.length⟩ := by
  induction xs generalizing q with
  | nil => simp [putAll]
  | cons x xs ih =>
    have hroom : q.full = false := by
      rw [Bool.eq_false_iff, ne_eq, full_iff]
      rw [List.length_cons] at h
      omega
    have hput : q.put x = some ⟨q.maxsize, q.items ++ [x], q.unfinishedTasks + 1⟩ := put_eq_some.2 ⟨hroom, rfl⟩
    rw [putAll, List.foldlM_cons, hput]
    have hrest := ih (q := ⟨q.maxsize, q.items ++ [x], q.unfinishedTasks + 1⟩) (by
      simp only [List.length_append, List.length_cons, List.length_nil] at h ⊢
      omega)
    refine hrest.trans ?_
    simp only [List.append_assoc, List.singleton_append, List.length_cons, Option.some.injEq, mk.injEq, true_and]
    omega

/-! ## What is in hand -/

/-- What is not done with waits in the queue or is in the hands of a consumer. -/
def Counted (q : WorkQueue T) (inHand : Nat) : Prop := q.unfinishedTasks = q.items.length + inHand

theorem Counted.put (h : q.Counted inHand) (hput : q.put x = some q') : q'.Counted inHand := by
  obtain ⟨-, rfl⟩ := put_eq_some.1 hput
  unfold Counted at h ⊢
  simp only [List.length_append, List.length_singleton]
  omega

theorem Counted.get (h : q.Counted inHand) (hget : q.get = some (x, q')) : q'.Counted (inHand + 1) := by
  obtain ⟨hitems, hq⟩ := get_eq_some.1 hget
  unfold Counted at h ⊢
  rw [hitems, List.length_cons] at h
  rw [hq]
  dsimp only
  omega

theorem Counted.taskDone (h : q.Counted (inHand + 1)) (hdone : q.taskDone = some q') : q'.Counted inHand := by
  obtain ⟨-, rfl⟩ := taskDone_eq_some.1 hdone
  unfold Counted at h ⊢
  dsimp only
  omega

/-- A join ends when nothing waits and nothing is in hand. -/
theorem Counted.eq_zero_iff (h : q.Counted inHand) : q.unfinishedTasks = 0 ↔ q.items = [] ∧ inHand = 0 := by
  unfold Counted at h
  rw [h, Nat.add_eq_zero_iff, List.length_eq_zero_iff]

end WorkQueue

/-! ## Steps of one among many -/

section Workers

variable {W : Type*}

/-- The others stay when one is replaced. -/
theorem exists_rest {l : List W} {i : Nat} {w : W} (h : l[i]? = some w) :
    ∃ rest, l.Perm (w :: rest) ∧ ∀ w', (l.set i w').Perm (w' :: rest) := by
  obtain ⟨hi, rfl⟩ := List.getElem?_eq_some_iff.1 h
  refine ⟨l.eraseIdx i, (List.getElem_cons_eraseIdx_perm hi).symm, fun w' => ?_⟩
  have hset : i < (l.set i w').length := by rwa [List.length_set]
  have hperm := (List.getElem_cons_eraseIdx_perm hset).symm
  rwa [List.getElem_set_self, List.eraseIdx_set_eq] at hperm

/-- What all have, when one is replaced. -/
theorem exists_filterMap_rest {B : Type*} {l : List W} {i : Nat} {w : W} (f : W → Option B) (h : l[i]? = some w) :
    ∃ rest : Multiset B, (l.filterMap f : Multiset B) = (f w).toList + rest ∧
      ∀ w', ((l.set i w').filterMap f : Multiset B) = (f w').toList + rest := by
  have hcons : ∀ (v : W) (rest : List W), (v :: rest).filterMap f = (f v).toList ++ rest.filterMap f := by
    intro v rest
    rw [List.filterMap_cons]
    cases f v <;> rfl
  obtain ⟨rest, hperm, hset⟩ := exists_rest h
  refine ⟨rest.filterMap f, ?_, fun w' => ?_⟩
  · rw [Multiset.coe_eq_coe.2 (hperm.filterMap f), hcons, ← Multiset.coe_add]
  · rw [Multiset.coe_eq_coe.2 ((hset w').filterMap f), hcons, ← Multiset.coe_add]

/-- How many have a property, when one is replaced. -/
theorem countP_set {l : List W} {i : Nat} {w : W} (p : W → Bool) (w' : W) (h : l[i]? = some w) :
    (l.set i w').countP p + (p w).toNat = l.countP p + (p w').toNat := by
  obtain ⟨rest, hperm, hset⟩ := exists_rest h
  rw [hperm.countP_eq, (hset w').countP_eq, List.countP_cons, List.countP_cons]
  cases p w <;> cases p w' <;> simp

/-- The weights of all, when one is replaced by a lighter one. -/
theorem sum_map_set_lt {l : List W} {i : Nat} {w : W} (w' : W) {f : W → Nat} (h : l[i]? = some w) {n : Nat}
    (hlt : f w' + n ≤ f w) : ((l.set i w').map f).sum + n ≤ (l.map f).sum := by
  obtain ⟨rest, hperm, hset⟩ := exists_rest h
  rw [(hperm.map f).sum_nat, ((hset w').map f).sum_nat, List.map_cons, List.map_cons, List.sum_cons, List.sum_cons]
  omega

end Workers

end Lsf.Lib
