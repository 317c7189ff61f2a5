import Mathlib.Algebra.Order.Field.Rat
import Mathlib.Data.Rat.Floor
import Mathlib.Tactic.Linarith
import Lsf.Lib.Program

/-!
# Draws

A random source is the sequence of the values it gives, each a point of the unit interval from which the requested
number is formed. An empty range panics (`none`).
-/

namespace Lsf.Core

/-- A point of `[0, 1)`. -/
structure Draw where
  val : ℚ
  nonneg : 0 ≤ val
  lt_one : val < 1

namespace Draw

/-- The least value. -/
def zero : Draw := ⟨0, le_rfl, one_pos⟩

/-- The next value of the source. -/
def next : List Draw → Option (Draw × List Draw)
  | [] => none
  | u :: draws => some (u, draws)

/-- `random_range(lo..hi)` on integers. -/
def randomRange (u : Draw) (lo hi : Nat) : Option Nat :=
  if lo < hi then some (lo + ⌊u.val * (hi - lo : Nat)⌋₊) else none

/-- `random_range(0.0..hi)`. -/
def randomPoint (u : Draw) (hi : ℚ) : Option ℚ := if 0 < hi then some (u.val * hi) else none

/-- `random_bool(p)`, which panics outside the unit interval. -/
def randomBool (u : Draw) (p : ℚ) : Option Bool := if 0 ≤ p ∧ p ≤ 1 then some (decide (u.val < p)) else none

variable {u : Draw}

theorem randomPoint_bounds {hi t : ℚ} (h : u.randomPoint hi = some t) : 0 ≤ t ∧ t < hi := by
  unfold randomPoint at h
  split at h
  · rename_i hpos
    cases h
    exact ⟨mul_nonneg u.nonneg hpos.le, mul_lt_of_lt_one_left hpos u.lt_one⟩
  · cases h

/-- Every point of the range can be drawn. -/
theorem exists_randomPoint {hi t : ℚ} (h0 : 0 ≤ t) (h : t < hi) : ∃ u : Draw, u.randomPoint hi = some t := by
  have hpos : 0 < hi := h0.trans_lt h
  refine ⟨⟨t / hi, div_nonneg h0 hpos.le, (div_lt_one hpos).2 h⟩, ?_⟩
  unfold randomPoint
  rw [if_pos hpos, div_mul_cancel₀ _ hpos.ne']

/-- A number drawn from a range lies in it. -/
theorem exists_randomRange (u : Draw) {lo hi : Nat} (h : lo < hi) :
    ∃ i, u.randomRange lo hi = some i ∧ lo ≤ i ∧ i < hi := by
  refine ⟨_, if_pos h, Nat.le_add_right _ _, ?_⟩
  have hpos : (0 : ℚ) < (hi - lo : Nat) := by
    rw [Nat.cast_pos]
    omega
  have hfloor : ⌊u.val * (hi - lo : Nat)⌋₊ < hi - lo := by
    rw [Nat.floor_lt (mul_nonneg u.nonneg hpos.le)]
    exact mul_lt_of_lt_one_left hpos u.lt_one
  omega

/-- Every number of the range can be drawn. -/
theorem exists_draw {lo hi i : Nat} (hlo : lo ≤ i) (hhi : i < hi) : ∃ u : Draw, u.randomRange lo hi = some i := by
  have hpos : (0 : ℚ) < (hi - lo : Nat) := by
    rw [Nat.cast_pos]
    omega
  have hlt : ((i - lo : Nat) : ℚ) < (hi - lo : Nat) := by
    rw [Nat.cast_lt]
    omega
  refine ⟨⟨(i - lo : Nat) / (hi - lo : Nat), div_nonneg (Nat.cast_nonneg _) hpos.le, (div_lt_one hpos).2 hlt⟩, ?_⟩
  unfold randomRange
  rw [if_pos (by omega), div_mul_cancel₀ _ hpos.ne', Nat.floor_natCast]
  congr 1
  omega

theorem randomRange_eq_none {lo hi : Nat} (h : hi ≤ lo) : u.randomRange lo hi = none := if_neg (not_lt.2 h)

end Draw

/-! ## Programs that draw -/

/-- A program over a random source. -/
abbrev Rng (α : Type) := Lib.Prog (List Draw) α

namespace Rng

/-- `random_range(lo..hi)`. -/
def range (lo hi : Nat) : Rng Nat
  | [] => none
  | u :: draws => (u.randomRange lo hi).map fun i => (i, draws)

/-- `random_bool(p)`. -/
def bool (p : ℚ) : Rng Bool
  | [] => none
  | u :: draws => (u.randomBool p).map fun b => (b, draws)

/-- `fill_bytes`, on `n` bytes. -/
def fillBytes : Nat → Rng (List UInt8)
  | 0 => pure []
  | n + 1 => do
    let byte ← range 0 256
    let bytes ← fillBytes n
    pure (byte.toUInt8 :: bytes)

/-- `while random_bool(p) { len += 1 }`. -/
def extend (p : ℚ) : Nat → Rng Nat
  | _, [] => none
  | len, u :: draws =>
    match u.randomBool p with
    | none => none
    | some true => extend p (len + 1) draws
    | some false => some (len, draws)

/-- One of the elements of a list, `&l[random_range(..l.len())]`. -/
def choose {α : Type} (l : List α) : Rng α := do
  let i ← range 0 l.length
  Lib.Prog.expect l[i]?

end Rng

theorem mem_of_choose {α : Type} (l : List α) {draws : List Draw} :
    Lib.Prog.Ensures (Rng.choose l) draws fun a _ => a ∈ l :=
  Lib.Prog.ensures_then fun _ _ => Lib.Prog.ensures_expect fun _ ha => List.mem_of_getElem? ha

/-! ## Possible answers -/

namespace Rng

variable {α β : Type}

/-- Some draws make the program return `a`, whatever follows them. -/
def Possible (x : Rng α) (a : α) : Prop := ∃ draws, ∀ more, x (draws ++ more) = some (a, more)

theorem possible_pure (a : α) : Possible (pure a) a := ⟨[], fun _ => rfl⟩

theorem Possible.bind {x : Rng α} {f : α → Rng β} {a : α} {b : β} (hx : Possible x a) (hf : Possible (f a) b) :
    Possible (x >>= f) b := by
  obtain ⟨first, hfirst⟩ := hx
  obtain ⟨second, hsecond⟩ := hf
  refine ⟨first ++ second, fun more => ?_⟩
  rw [List.append_assoc, Lib.Prog.bind_apply, hfirst, Option.bind_some, hsecond]

theorem possible_expect {x : Option α} {a : α} (h : x = some a) : Possible (Lib.Prog.expect x) a :=
  ⟨[], fun _ => by rw [h]; rfl⟩

/-- Every number of the range can be drawn. -/
theorem possible_range {lo hi i : Nat} (hlo : lo ≤ i) (hhi : i < hi) : Possible (range lo hi) i := by
  obtain ⟨u, hu⟩ := Draw.exists_draw hlo hhi
  refine ⟨[u], fun more => ?_⟩
  rw [List.singleton_append, range, hu, Option.map_some]

theorem possible_choose {l : List α} {a : α} (h : a ∈ l) : Possible (choose l) a := by
  obtain ⟨i, hi, hget⟩ := List.getElem_of_mem h
  exact (possible_range (Nat.zero_le i) hi).bind (possible_expect (List.getElem?_eq_some_iff.2 ⟨hi, hget⟩))

theorem bool_cons (p : ℚ) (u : Draw) (draws : List Draw) :
    bool p (u :: draws) = (u.randomBool p).map fun b => (b, draws) := rfl

/-- The least draw is a hit if anything is. -/
theorem possible_bool {p : ℚ} (h0 : 0 ≤ p) (h1 : p ≤ 1) : Possible (bool p) (decide (0 < p)) := by
  refine ⟨[Draw.zero], fun more => ?_⟩
  rw [List.singleton_append, bool_cons, Draw.randomBool, if_pos ⟨h0, h1⟩]
  rfl

/-- A hit is possible at every chance above zero. -/
theorem possible_hit {p : ℚ} (h0 : 0 < p) (h1 : p ≤ 1) : Possible (bool p) true := by
  have h := possible_bool h0.le h1
  rwa [decide_eq_true h0] at h

/-- Some draws lead to a panic, whatever follows them. -/
def MayPanic (x : Rng α) : Prop := ∃ draws, ∀ more, x (draws ++ more) = none

theorem MayPanic.bind {x : Rng α} {f : α → Rng β} (hx : MayPanic x) : MayPanic (x >>= f) := by
  obtain ⟨draws, hdraws⟩ := hx
  refine ⟨draws, fun more => ?_⟩
  rw [Lib.Prog.bind_apply, hdraws, Option.bind_none]

theorem Possible.bind_mayPanic {x : Rng α} {f : α → Rng β} {a : α} (hx : Possible x a) (hf : MayPanic (f a)) :
    MayPanic (x >>= f) := by
  obtain ⟨first, hfirst⟩ := hx
  obtain ⟨second, hsecond⟩ := hf
  refine ⟨first ++ second, fun more => ?_⟩
  rw [List.append_assoc, Lib.Prog.bind_apply, hfirst, Option.bind_some, hsecond]

theorem Possible.bind_or {x : Rng α} {f : α → Rng β} {a : α} {b : β} (hx : Possible x a)
    (hf : Possible (f a) b ∨ MayPanic (f a)) : Possible (x >>= f) b ∨ MayPanic (x >>= f) :=
  hf.imp hx.bind hx.bind_mayPanic

/-- Outside the unit interval there is no answer. -/
theorem mayPanic_bool {p : ℚ} (h : ¬(0 ≤ p ∧ p ≤ 1)) : MayPanic (bool p) := by
  refine ⟨[Draw.zero], fun more => ?_⟩
  rw [List.singleton_append, bool_cons, Draw.randomBool, if_neg h]
  rfl

/-- A hit tells that the chance is positive, and a chance. -/
theorem ensures_bool {p : ℚ} {draws : List Draw} :
    Lib.Prog.Ensures (bool p) draws fun hit _ => hit = true → 0 < p ∧ p ≤ 1 := by
  intro hit rest h htrue
  cases draws with
  | nil => cases h
  | cons u draws =>
    rw [bool_cons, Draw.randomBool] at h
    split at h
    · rename_i hunit
      cases h
      exact ⟨u.nonneg.trans_lt (of_decide_eq_true htrue), hunit.2⟩
    · cases h

/-- At chance zero there is never a hit. -/
theorem bool_zero (u : Draw) (draws : List Draw) : bool 0 (u :: draws) = some (false, draws) := by
  rw [bool_cons, Draw.randomBool, if_pos ⟨le_rfl, zero_le_one⟩, decide_eq_false u.nonneg.not_gt]
  rfl

/-- At chance one there is always a hit. -/
theorem bool_one (u : Draw) (draws : List Draw) : bool 1 (u :: draws) = some (true, draws) := by
  rw [bool_cons, Draw.randomBool, if_pos ⟨zero_le_one, le_rfl⟩, decide_eq_true u.lt_one]
  rfl

/-- The only element is chosen. -/
theorem choose_singleton (a : α) (u : Draw) (draws : List Draw) : choose [a] (u :: draws) = some (a, draws) := by
  obtain ⟨i, hi, -, hlt⟩ := u.exists_randomRange (show 0 < [a].length from one_pos)
  obtain rfl : i = 0 := Nat.lt_one_iff.1 hlt
  rw [choose, Lib.Prog.bind_apply, range, hi, Option.map_some, Option.bind_some]
  rfl

/-! ## Enough draws -/

/-- With `n` draws at hand the program returns, and it reads no more of them. -/
def Returns (n : Nat) (x : Rng α) : Prop :=
  ∀ draws, n ≤ draws.length → ∃ a rest, x draws = some (a, rest) ∧ draws.length ≤ rest.length + n

theorem Returns.mono {n m : Nat} {x : Rng α} (h : Returns n x) (hle : n ≤ m) : Returns m x := by
  intro draws hm
  obtain ⟨a, rest, hx, hrest⟩ := h draws (hle.trans hm)
  exact ⟨a, rest, hx, hrest.trans (Nat.add_le_add_left hle _)⟩

theorem returns_pure (n : Nat) (a : α) : Returns n (pure a) := fun draws _ => ⟨a, draws, rfl, Nat.le_add_right _ _⟩

theorem Returns.bind {n m : Nat} {x : Rng α} {f : α → Rng β} (hx : Returns n x) (hf : ∀ a, Returns m (f a)) :
    Returns (n + m) (x >>= f) := by
  intro draws hlen
  obtain ⟨a, rest, ha, hrest⟩ := hx draws (by omega)
  obtain ⟨b, rest', hb, hrest'⟩ := hf a rest (by omega)
  refine ⟨b, rest', ?_, by omega⟩
  rw [Lib.Prog.bind_apply, ha, Option.bind_some, hb]

theorem returns_bool {p : ℚ} (h0 : 0 ≤ p) (h1 : p ≤ 1) : Returns 1 (bool p) := by
  intro draws hlen
  cases draws with
  | nil => cases hlen
  | cons u draws =>
    rw [bool_cons, Draw.randomBool, if_pos ⟨h0, h1⟩]
    exact ⟨_, draws, rfl, le_rfl⟩

theorem returns_choose {l : List α} (h : l ≠ []) : Returns 1 (choose l) := by
  intro draws hlen
  cases draws with
  | nil => cases hlen
  | cons u draws =>
    obtain ⟨i, hi, -, hlt⟩ := u.exists_randomRange (List.length_pos_iff.2 h)
    refine ⟨l[i], draws, ?_, le_rfl⟩
    rw [choose, Lib.Prog.bind_apply, range, hi, Option.map_some, Option.bind_some]
    simp [Lib.Prog.expect, hlt]

end Rng

end Lsf.Core
