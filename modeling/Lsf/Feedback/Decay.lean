import Lsf.Feedback.Mab
import Lsf.Lib.Run
import Mathlib.Algebra.BigOperators.Group.List.Basic
import Mathlib.Analysis.SpecialFunctions.Log.Basic
import Mathlib.Tactic.FieldSimp
import Mathlib.Tactic.LinearCombination
import Mathlib.Tactic.Positivity

/-!
# Lazily rescaled counters as decayed sums

A run of a body with its arms, each arm together with the events it was told of and the number of rescalings it has
followed. `Decaying` is the invariant: the inflation times the rescalings is the inverse of the decay, and so is each
counter to the decayed sum of its events, with the arm's own number of rescalings. An event that comes between a
rescaling of the body and the next scoring of the arm breaks it, since the scoring divides it once more; without such
events a scored counter over the inflation is exactly the decayed sum (`scored_exactly`).
-/

namespace Lsf.Feedback

open Lsf.Core Lsf.Lib

/-- What an arm was told, and when. -/
structure Event (K : Type) where
  tick : Nat
  amount : Counter → K

/-- An arm with its events, and how many rescalings of the body it has followed. -/
structure Tracked (K : Type) where
  arm : MABArm K
  events : List (Event K)
  synced : Nat

/-- A body with its arms, the ticks and rescalings so far, and the arm that was just scored. -/
structure BanditRun (K : Type) where
  body : MABBody K
  arms : List (Tracked K)
  now : Nat
  rescales : Nat
  scored : Option Nat

inductive BanditOp where
  | tick
  | newArm
  | newArmWithPrior (m : Meta)
  | onMutate (i : Nat) (outcome : TestOutcome)
  | onExec (i : Nat) (outcome : TestOutcome) (m : Meta)
  | calculateScore (i : Nat)

variable {K : Type} [Field K]

/-- **The decayed sum** of a counter: every amount, decayed by the ticks since. -/
def Tracked.decayed (x : Tracked K) (now : Nat) (c : Counter) : K :=
  (x.events.map fun e => e.amount c * decayRate K ^ (now - e.tick)).sum

/-! ## One arm -/

namespace Tracked

/-- An arm that has followed `synced` of the `rescales` rescalings at tick `now`. -/
structure InSync (x : Tracked K) (now rescales : Nat) : Prop where
  synced_le : x.synced ≤ rescales
  epoch : x.arm.localEpoch = UInt32.ofNat x.synced
  past : ∀ e ∈ x.events, e.tick ≤ now
  count : ∀ c, x.arm.count c * rescaleFactor K ^ x.synced * decayRate K ^ now = x.decayed now c

variable {x : Tracked K} {now k : Nat}

theorem decayed_succ (h : ∀ e ∈ x.events, e.tick ≤ now) (c : Counter) :
    x.decayed (now + 1) c = x.decayed now c * decayRate K := by
  unfold decayed
  rw [← List.sum_map_mul_right]
  refine congrArg List.sum (List.map_congr_left fun e he => ?_)
  rw [Nat.succ_sub (h e he), pow_succ, mul_assoc]

theorem decayed_snoc (x : Tracked K) (arm : MABArm K) (now : Nat) (amount : Counter → K) (c : Counter) :
    ({ x with arm := arm, events := x.events ++ [⟨now, amount⟩] } : Tracked K).decayed now c
      = x.decayed now c + amount c := by
  simp [decayed]

theorem InSync.tick {k' : Nat} (h : x.InSync now k) (hk : k ≤ k') : x.InSync (now + 1) k' where
  synced_le := h.synced_le.trans hk
  epoch := h.epoch
  past e he := (h.past e he).trans (Nat.le_succ _)
  count c := by
    rw [decayed_succ h.past, ← h.count c, pow_succ]
    ring

/-- An event at an inflation that undoes the decay, on an arm that is in step or for nothing. -/
theorem InSync.event {inflation : K} (hinfl : inflation * rescaleFactor K ^ k * decayRate K ^ now = 1)
    (h : x.InSync now k) {arm : MABArm K} {amount : Counter → K} (hepoch : arm.localEpoch = x.arm.localEpoch)
    (hcount : ∀ c, arm.count c = x.arm.count c + amount c * inflation)
    (hok : (∀ c, amount c = 0) ∨ x.synced = k) :
    InSync { x with arm := arm, events := x.events ++ [⟨now, amount⟩] } now k where
  synced_le := h.synced_le
  epoch := hepoch.trans h.epoch
  past e he := by
    rcases List.mem_append.1 he with he | he
    · exact h.past e he
    · rw [List.mem_singleton.1 he]
  count c := by
    rw [decayed_snoc, ← h.count c]
    show arm.count c * rescaleFactor K ^ x.synced * decayRate K ^ now = _
    rw [hcount c]
    rcases hok with hzero | hsync
    · rw [hzero c]
      ring
    · rw [← hsync] at hinfl
      linear_combination amount c * hinfl

/-- The difference of two epochs that are less than `2 ^ 31` rescalings apart. -/
theorem toInt_epoch_sub {a b : Nat} (h : b ≤ a) (hlt : a - b < 2 ^ 31) :
    ((UInt32.ofNat a).toInt32 - (UInt32.ofNat b).toInt32).toInt = ((a - b : Nat) : Int) := by
  rw [UInt32.toInt32_ofNat', UInt32.toInt32_ofNat', ← Int32.ofNat_sub _ _ h, Int32.toInt_ofNat_of_lt hlt]

/-- What normalization leaves: the counters divided by the rescalings that the arm has missed. -/
theorem normalize_spec {body : MABBody K} (h : x.InSync now k) (hbody : body.normalizationEpoch = UInt32.ofNat k)
    (hlt : k - x.synced < 2 ^ 31) :
    (x.arm.normalize body).localEpoch = UInt32.ofNat k ∧
      ∀ c, (x.arm.normalize body).count c = x.arm.count c / rescaleFactor K ^ (k - x.synced) := by
  have hdiff := toInt_epoch_sub h.synced_le hlt
  rw [← hbody, ← h.epoch] at hdiff
  simp only [MABArm.normalize]
  split
  · refine ⟨hbody, fun c => ?_⟩
    show x.arm.count c / rescaleFactor K ^ _ = _
    rw [hdiff, zpow_natCast]
  · rename_i heq
    rw [not_not.1 heq] at hdiff
    have hzero : k - x.synced = 0 := by
      have : ((k - x.synced : Nat) : Int) = 0 := hdiff.symm
      omega
    have hsame : x.synced = k := by
      have := h.synced_le
      omega
    refine ⟨hsame ▸ h.epoch, fun c => ?_⟩
    rw [hzero, pow_zero, div_one]

end Tracked

/-! ## A run -/

variable [LinearOrder K]

namespace BanditRun

def new (K : Type) [Field K] [LinearOrder K] : BanditRun K := ⟨.new, [], 0, 0, none⟩

/-- One call; the bookkeeping beside it decides nothing. -/
def step [FloatFns K] (s : BanditRun K) : BanditOp → Option (BanditRun K)
  | .tick =>
    let body := s.body.tickBy 1
    some { s with
      body := body
      now := s.now + 1
      rescales := if body.normalizationEpoch = s.body.normalizationEpoch then s.rescales else s.rescales + 1
      scored := none }
  | .newArm => some { s with arms := s.arms ++ [⟨.new s.body, [], s.rescales⟩], scored := none }
  | .newArmWithPrior m =>
    let (body, arm) := MABArm.newWithPrior s.body m
    some { s with
      body := body
      arms := s.arms ++ [⟨arm, [⟨s.now, MABArm.priorAmount m⟩], s.rescales⟩]
      scored := none }
  | .onMutate i outcome => do
    let x ← s.arms[i]?
    let (body, arm) := x.arm.onMutate s.body outcome
    some { s with
      body := body
      arms := s.arms.set i { x with arm := arm, events := x.events ++ [⟨s.now, MABArm.mutateAmount outcome⟩] }
      scored := none }
  | .onExec i outcome m => do
    let x ← s.arms[i]?
    some { s with
      arms := s.arms.set i { x with
        arm := x.arm.onExec s.body outcome m
        events := x.events ++ [⟨s.now, MABArm.execAmount outcome m⟩] }
      scored := none }
  | .calculateScore i => do
    let x ← s.arms[i]?
    some { s with
      arms := s.arms.set i { x with arm := (x.arm.calculateScore s.body).2, synced := s.rescales }
      scored := some i }

/-- The counters of the arm that was just scored are decayed sums. -/
def ScoredExactly (s : BanditRun K) : Prop :=
  ∀ i x, s.scored = some i → s.arms[i]? = some x → ∀ c, x.arm.count c / s.body.currentInflation = x.decayed s.now c

/-- An event that adds something finds its arm in step with the body, and an arm is scored before the difference of the
epochs leaves the range of an `i32`. -/
def InStep (s : BanditRun K) : BanditOp → Prop
  | .onMutate i outcome => ∀ x, s.arms[i]? = some x →
      (∀ c, MABArm.mutateAmount outcome c = (0 : K)) ∨ x.synced = s.rescales
  | .onExec i outcome m => ∀ x, s.arms[i]? = some x →
      (∀ c, MABArm.execAmount outcome m c = (0 : K)) ∨ x.synced = s.rescales
  | .calculateScore i => ∀ x, s.arms[i]? = some x → s.rescales - x.synced < 2 ^ 31
  | _ => True

theorem run_ticks [FloatFns K] (s : BanditRun K) (n : Nat) :
    ∃ t, run step s (List.replicate n .tick) = some t ∧ t.now = s.now + n ∧ t.arms = s.arms := by
  induction n generalizing s with
  | zero => exact ⟨s, rfl, rfl, rfl⟩
  | succ n ih =>
    cases hs : step s .tick with
    | none => cases hs
    | some s' =>
      obtain ⟨t, hrun, hnow, harms⟩ := ih s'
      refine ⟨t, run_cons_eq_some.2 ⟨s', hs, hrun⟩, ?_, ?_⟩
      · cases hs
        rw [hnow]
        show s.now + 1 + n = s.now + (n + 1)
        omega
      · cases hs
        exact harms

/-! ## The invariant -/

/-- **The inflation undoes the decay**, and the counters are inflated decayed sums. -/
structure Decaying (s : BanditRun K) : Prop where
  inflation : s.body.currentInflation * rescaleFactor K ^ s.rescales * decayRate K ^ s.now = 1
  epoch : s.body.normalizationEpoch = UInt32.ofNat s.rescales
  one_le : 1 ≤ s.body.currentInflation
  lt : s.body.currentInflation < rescaleFactor K
  arms : ∀ x ∈ s.arms, x.InSync s.now s.rescales
  scored : ∀ i x, s.scored = some i → s.arms[i]? = some x → x.synced = s.rescales

/-- A tick inflates by the inverse of the decay, and rescales when the inflation has reached the factor. -/
theorem tickBy_one (body : MABBody K) :
    (body.currentInflation / decayRate K < rescaleFactor K
      ∧ (body.tickBy 1).currentInflation = body.currentInflation / decayRate K
      ∧ (body.tickBy 1).normalizationEpoch = body.normalizationEpoch) ∨
    (rescaleFactor K ≤ body.currentInflation / decayRate K
      ∧ (body.tickBy 1).currentInflation = body.currentInflation / decayRate K / rescaleFactor K
      ∧ (body.tickBy 1).normalizationEpoch = body.normalizationEpoch + 1) := by
  have hinfl : body.currentInflation * (1 / decayRate K) ^ (1 : UInt32).toInt32.toInt
      = body.currentInflation / decayRate K := by
    rw [show (1 : UInt32).toInt32.toInt = 1 by decide, zpow_one, mul_one_div]
  unfold MABBody.tickBy MABBody.normalize
  simp only [hinfl]
  split
  · rename_i hge
    exact .inr ⟨hge, rfl, rfl⟩
  · rename_i hlt
    exact .inl ⟨not_le.1 hlt, rfl, rfl⟩

theorem succ_epoch_ne (e : UInt32) : e + 1 ≠ e := by
  intro h
  have := congrArg (· - e) h
  simp at this

/-- The arms of a state in which one of them was replaced. -/
theorem inSync_set {s : BanditRun K} (h : Decaying s) {i : Nat} {x : Tracked K} (hx : x.InSync s.now s.rescales) :
    ∀ y ∈ s.arms.set i x, y.InSync s.now s.rescales := by
  intro y hy
  rcases List.mem_or_eq_of_mem_set hy with hy | rfl
  · exact h.arms y hy
  · exact hx

theorem inSync_snoc {s : BanditRun K} (h : Decaying s) {x : Tracked K} (hx : x.InSync s.now s.rescales) :
    ∀ y ∈ s.arms ++ [x], y.InSync s.now s.rescales := by
  intro y hy
  rcases List.mem_append.1 hy with hy | hy
  · exact h.arms y hy
  · rw [List.mem_singleton.1 hy]
    exact hx

theorem inSync_new {s : BanditRun K} (h : Decaying s) :
    Tracked.InSync ⟨.new s.body, [], s.rescales⟩ s.now s.rescales where
  synced_le := le_rfl
  epoch := h.epoch
  past := by simp
  count c := by simp [MABArm.new, Tracked.decayed]

end BanditRun

/-! ## The constants -/

variable [IsStrictOrderedRing K]

theorem decayRate_pos : 0 < decayRate K := by
  unfold decayRate
  positivity

theorem rescaleFactor_pos : 0 < rescaleFactor K := by
  unfold rescaleFactor
  positivity

theorem one_lt_rescaleFactor : (1 : K) < rescaleFactor K := by
  unfold rescaleFactor
  norm_num

namespace BanditRun

theorem Decaying.new : Decaying (new K) where
  inflation := by simp [BanditRun.new, MABBody.new]
  epoch := rfl
  one_le := le_rfl
  lt := by
    show (1 : K) < 10 ^ 15
    norm_num
  arms := by simp [BanditRun.new]
  scored := by simp [BanditRun.new]

theorem Decaying.scoredExactly {s : BanditRun K} (h : Decaying s) : ScoredExactly s := by
  intro i x hi hx c
  have hsync := h.arms x (List.mem_of_getElem? hx)
  have hpos : s.body.currentInflation ≠ 0 := (zero_lt_one.trans_le h.one_le).ne'
  rw [div_eq_iff hpos, ← hsync.count c, h.scored i x hi hx]
  linear_combination -(x.arm.count c) * h.inflation

theorem inflation_bounds {a : K} (hone : 1 ≤ a) (hlt : a < rescaleFactor K) :
    1 ≤ a / decayRate K ∧ a / decayRate K / rescaleFactor K < rescaleFactor K := by
  unfold decayRate rescaleFactor at *
  constructor
  · rw [le_div_iff₀ (by norm_num)]
    linarith
  · rw [div_div, div_lt_iff₀ (by norm_num)]
    nlinarith

theorem inSync_newWithPrior {s : BanditRun K} (h : Decaying s) (m : Meta) :
    Tracked.InSync ⟨(MABArm.newWithPrior s.body m).2, [⟨s.now, MABArm.priorAmount m⟩], s.rescales⟩
      s.now s.rescales where
  synced_le := le_rfl
  epoch := h.epoch
  past := by simp
  count c := by
    have hone := h.inflation
    simp only [MABArm.newWithPrior, Tracked.decayed, List.map_cons, List.map_nil, List.sum_singleton, Nat.sub_self,
      pow_zero]
    linear_combination MABArm.priorAmount m c * hone

/-- The number of rescalings is decided by the ticks, here one. -/
theorem Decaying.rescales_eq_one {s : BanditRun K} (h : Decaying s) (hge : rescaleFactor K * decayRate K ^ s.now ≤ 1)
    (hlt : 1 < rescaleFactor K ^ 2 * decayRate K ^ s.now) : s.rescales = 1 := by
  have hD : 0 < decayRate K ^ s.now := pow_pos decayRate_pos _
  have hR : (1 : K) ≤ rescaleFactor K := h.one_le.trans h.lt.le
  have hinfl := h.inflation
  rcases Nat.lt_trichotomy s.rescales 1 with h0 | h1 | h2
  · rw [Nat.lt_one_iff.1 h0, pow_zero, mul_one] at hinfl
    have := mul_lt_mul_of_pos_right h.lt hD
    exact absurd hge (not_le.2 (hinfl ▸ this))
  · exact h1
  · have hpow : rescaleFactor K ^ 2 ≤ rescaleFactor K ^ s.rescales := pow_le_pow_right₀ hR h2
    have hle : rescaleFactor K ^ 2 ≤ s.body.currentInflation * rescaleFactor K ^ s.rescales := by
      refine hpow.trans (le_mul_of_one_le_left ?_ h.one_le)
      exact (zero_le_one.trans hR).trans (by simpa using pow_le_pow_right₀ hR h2.le)
    exact absurd (mul_le_mul_of_nonneg_right hle hD.le) (not_le.2 (hinfl ▸ hlt))

theorem one_rescale_bounds {n : Nat} (hlo : 10 ^ 15 * 999 ^ n ≤ 1000 ^ n) (hhi : 1000 ^ n < 10 ^ 30 * 999 ^ n) :
    rescaleFactor K * decayRate K ^ n ≤ 1 ∧ 1 < rescaleFactor K ^ 2 * decayRate K ^ n := by
  have hpos : (0 : K) < 1000 ^ n := pow_pos (by norm_num) _
  unfold rescaleFactor decayRate
  rw [div_pow, ← pow_mul]
  constructor
  · rw [← mul_div_assoc, div_le_one hpos]
    exact_mod_cast hlo
  · rw [← mul_div_assoc, one_lt_div hpos]
    exact_mod_cast hhi

end BanditRun

variable [FloatFns K]

/-- **Scoring catches up.** -/
theorem Tracked.InSync.calculateScore {x : Tracked K} {now k : Nat} {body : MABBody K} (h : x.InSync now k)
    (hbody : body.normalizationEpoch = UInt32.ofNat k) (hlt : k - x.synced < 2 ^ 31) :
    InSync { x with arm := (x.arm.calculateScore body).2, synced := k } now k := by
  obtain ⟨hepoch, hcount⟩ := normalize_spec h hbody hlt
  have hR : rescaleFactor K ≠ 0 := rescaleFactor_pos.ne'
  refine ⟨le_rfl, hepoch, h.past, fun c => ?_⟩
  show (x.arm.normalize body).count c * rescaleFactor K ^ k * decayRate K ^ now = x.decayed now c
  have hpow : rescaleFactor K ^ k = rescaleFactor K ^ (k - x.synced) * rescaleFactor K ^ x.synced := by
    rw [← pow_add, Nat.sub_add_cancel h.synced_le]
  rw [hcount c, ← h.count c, hpow]
  field_simp

namespace BanditRun

theorem Decaying.tick {s s' : BanditRun K} (h : Decaying s) (hs : step s .tick = some s') : Decaying s' := by
  obtain ⟨hone, hlt⟩ := inflation_bounds h.one_le h.lt
  have hD : decayRate K ≠ 0 := decayRate_pos.ne'
  have hR : rescaleFactor K ≠ 0 := rescaleFactor_pos.ne'
  cases hs
  rcases tickBy_one s.body with ⟨hno, hinfl, hepoch⟩ | ⟨hres, hinfl, hepoch⟩
  · simp only [hepoch, if_true]
    refine ⟨?_, hepoch.trans h.epoch, hinfl ▸ hone, hinfl ▸ hno, fun x hx => (h.arms x hx).tick le_rfl, by simp⟩
    show (s.body.tickBy 1).currentInflation * rescaleFactor K ^ s.rescales * decayRate K ^ (s.now + 1) = 1
    rw [hinfl, pow_succ, ← h.inflation]
    field_simp
  · rw [if_neg (hepoch ▸ succ_epoch_ne _)]
    refine ⟨?_, ?_, ?_, hinfl ▸ hlt, fun x hx => (h.arms x hx).tick (Nat.le_succ _), by simp⟩
    · show (s.body.tickBy 1).currentInflation * rescaleFactor K ^ (s.rescales + 1) * decayRate K ^ (s.now + 1) = 1
      rw [hinfl, pow_succ, pow_succ, ← h.inflation]
      field_simp
    · show (s.body.tickBy 1).normalizationEpoch = UInt32.ofNat (s.rescales + 1)
      rw [hepoch, h.epoch, UInt32.ofNat_add]
      rfl
    · show 1 ≤ (s.body.tickBy 1).currentInflation
      rw [hinfl, le_div_iff₀ rescaleFactor_pos, one_mul]
      exact hres

/-- **One call keeps the invariant.** -/
theorem Decaying.step {s s' : BanditRun K} (h : Decaying s) (op : BanditOp) (hok : InStep s op)
    (hs : BanditRun.step s op = some s') : Decaying s' := by
  cases op with
  | tick => exact h.tick hs
  | newArm =>
    cases hs
    exact ⟨h.inflation, h.epoch, h.one_le, h.lt, inSync_snoc h (inSync_new h), by simp⟩
  | newArmWithPrior m =>
    cases hs
    exact ⟨h.inflation, h.epoch, h.one_le, h.lt, inSync_snoc h (inSync_newWithPrior h m), by simp⟩
  | onMutate i outcome =>
    obtain ⟨x, hx, hs⟩ := Option.bind_eq_some_iff.1 hs
    cases hs
    have hsync := (h.arms x (List.mem_of_getElem? hx)).event h.inflation
      (MABArm.localEpoch_onMutate s.body x.arm outcome) (MABArm.count_onMutate s.body x.arm outcome) (hok x hx)
    have hinfl := MABArm.currentInflation_onMutate s.body x.arm outcome
    have hepoch := MABArm.normalizationEpoch_onMutate s.body x.arm outcome
    refine ⟨?_, hepoch.trans h.epoch, h.one_le.trans_eq hinfl.symm, hinfl.trans_lt h.lt, inSync_set h hsync, by simp⟩
    exact (congrArg (· * rescaleFactor K ^ s.rescales * decayRate K ^ s.now) hinfl).trans h.inflation
  | onExec i outcome m =>
    obtain ⟨x, hx, hs⟩ := Option.bind_eq_some_iff.1 hs
    cases hs
    have hsync := (h.arms x (List.mem_of_getElem? hx)).event h.inflation
      (MABArm.localEpoch_onExec s.body x.arm outcome m) (MABArm.count_onExec s.body x.arm outcome m) (hok x hx)
    exact ⟨h.inflation, h.epoch, h.one_le, h.lt, inSync_set h hsync, by simp⟩
  | calculateScore i =>
    obtain ⟨x, hx, hs⟩ := Option.bind_eq_some_iff.1 hs
    cases hs
    have hsync := (h.arms x (List.mem_of_getElem? hx)).calculateScore h.epoch (hok x hx)
    refine ⟨h.inflation, h.epoch, h.one_le, h.lt, inSync_set h hsync, ?_⟩
    intro j y hj hy
    obtain rfl : i = j := Option.some.inj hj
    obtain ⟨hlt, -⟩ := List.getElem?_eq_some_iff.1 hx
    rw [List.getElem?_set_self hlt] at hy
    cases hy
    rfl

theorem decaying_of_ticks {s t : BanditRun K} {n : Nat} (h : Decaying s)
    (hrun : run step s (List.replicate n .tick) = some t) : Decaying t := by
  refine run_invariant (F := InStep) (fun _ op _ h hok hs => h.step op hok hs) h
    (allSteps_of_forall fun _ a ha => ?_) hrun
  rw [List.eq_of_mem_replicate ha]
  trivial

/-- **Counters are decayed sums.** In every run whose events find their arm in step with the body, the counters of an
arm that was just scored are exactly the decayed sums of its events, whenever the inflation was rescaled. -/
theorem scored_exactly (ops : List BanditOp) (hops : AllSteps step InStep (new K) ops) :
    AllStates step ScoredExactly (new K) ops :=
  allStates_of_invariant (I := Decaying) (fun _ h => h.scoredExactly) (fun _ op _ h hok hs => h.step op hok hs) .new hops

end BanditRun

/-! ## Real numbers -/

noncomputable instance : FloatFns ℝ where
  ln := Real.log
  ln1p x := if -1 ≤ x then some (Real.log (1 + x)) else none
  sqrt x := if 0 ≤ x then some (Real.sqrt x) else none

namespace BanditRun

/-- A fresh body with one fresh arm. -/
def oneArm (K : Type) [Field K] [LinearOrder K] : BanditRun K := { new K with arms := [⟨.new (new K).body, [], 0⟩] }

/-- An arm that was told of a mutation before the body was rescaled has one attempt when it is scored, decayed by every
tick; what it is told next counts in full. -/
theorem scored_exactly_one :
    AllStates step ScoredExactly (new ℝ) (.newArm :: .onMutate 0 .mutated :: (List.replicate 34522 .tick
      ++ [.calculateScore 0, .onMutate 0 .mutated, .calculateScore 0])) := by
  have hin : InStep (oneArm ℝ) (.onMutate 0 .mutated) := fun x hx => by
    obtain rfl : _ = x := Option.some.inj hx
    exact .inr rfl
  refine scored_exactly _ ⟨trivial, ?_⟩
  rintro _ ⟨⟩
  refine ⟨hin, fun s hs => ?_⟩
  have hdec : Decaying s := (Decaying.new.step .newArm trivial rfl).step _ hin hs
  obtain ⟨t, hrun, hnow, harms⟩ := run_ticks s 34522
  cases hs
  -- the body has been rescaled once, and the arm has not followed
  have hone : t.rescales = 1 := by
    obtain ⟨hge, hlt⟩ := one_rescale_bounds (K := ℝ) (n := 34522) (by decide +kernel) (by decide +kernel)
    rw [← hnow.trans (Nat.zero_add 34522)] at hge hlt
    exact (decaying_of_ticks hdec hrun).rescales_eq_one hge hlt
  obtain ⟨body, arms, now, rescales, scored⟩ := t
  subst hone
  subst harms
  refine (allSteps_append hrun).2 ⟨allSteps_of_forall fun _ a ha => ?_, fun x hx => ?_, ?_⟩
  · rw [List.eq_of_mem_replicate ha]
    trivial
  · obtain rfl : _ = x := Option.some.inj hx
    show 1 - 0 < 2 ^ 31
    norm_num
  rintro _ ⟨⟩
  refine ⟨fun x hx => .inr ?_, ?_⟩
  · obtain rfl : _ = x := Option.some.inj hx
    rfl
  rintro _ ⟨⟩
  refine ⟨fun x hx => ?_, fun _ _ => trivial⟩
  obtain rfl : _ = x := Option.some.inj hx
  show 1 - 1 < 2 ^ 31
  norm_num

/-! ## An event between two rescalings -/

/-- A mutation that is scored at once by an arm of epoch `0`, the body being at epoch `1`, counts too little. -/
theorem scored_late {s : BanditRun K} (harms : s.arms = (oneArm K).arms) (hepoch : s.body.normalizationEpoch = 1)
    (hinfl : s.body.currentInflation ≠ 0) :
    ¬AllStates step ScoredExactly s [.onMutate 0 .mutated, .calculateScore 0] := by
  obtain ⟨body, arms, now, rescales, scored⟩ := s
  subst harms
  intro hall
  have hend := (hall.2 _ rfl).2 _ rfl 0 _ rfl rfl .attempts
  have hnew : (new K).body.normalizationEpoch = 0 := rfl
  have hdiff : (1 : UInt32).toInt32 - (0 : UInt32).toInt32 = 1 := by decide
  simp only at hepoch hinfl
  simp only [MABArm.calculateScore, MABArm.normalize, MABArm.fetchAdd, MABArm.new, hepoch, hnew, hdiff] at hend
  rw [if_pos (by decide), show Int32.toInt 1 = 1 by decide, zpow_one] at hend
  have hdecayed : body.currentInflation / rescaleFactor K / body.currentInflation = 1 := by
    simpa [Tracked.decayed, MABArm.mutateAmount] using hend
  rw [div_div, mul_comm, ← div_div, div_self hinfl] at hdecayed
  rw [div_eq_iff rescaleFactor_pos.ne', one_mul] at hdecayed
  unfold rescaleFactor at hdecayed
  norm_num at hdecayed

/-- **An event between two rescalings is scaled twice**: a mutation that comes after the first rescaling, scored at
once, does not count as one attempt. -/
theorem late_event {n : Nat} (hge : rescaleFactor K * decayRate K ^ n ≤ 1)
    (hlt : 1 < rescaleFactor K ^ 2 * decayRate K ^ n) :
    ¬AllStates step ScoredExactly (new K)
      (.newArm :: (List.replicate n .tick ++ [.onMutate 0 .mutated, .calculateScore 0])) := by
  intro hall
  obtain ⟨s, hrun, hnow, harms⟩ := run_ticks (oneArm K) n
  have hdec : Decaying s := decaying_of_ticks (Decaying.new.step .newArm trivial rfl) hrun
  obtain rfl : s.now = n := hnow.trans (Nat.zero_add n)
  have hone : s.rescales = 1 := hdec.rescales_eq_one hge hlt
  have hepoch : s.body.normalizationEpoch = 1 := by
    rw [hdec.epoch, hone]
    rfl
  have hinfl : s.body.currentInflation ≠ 0 := (zero_lt_one.trans_le hdec.one_le).ne'
  exact scored_late harms hepoch hinfl ((hall.2 (oneArm K) rfl).after_run hrun)

theorem not_scored_exactly :
    ¬AllStates step ScoredExactly (new ℝ)
      (.newArm :: (List.replicate 34522 .tick ++ [.onMutate 0 .mutated, .calculateScore 0])) := by
  obtain ⟨hge, hlt⟩ := one_rescale_bounds (K := ℝ) (n := 34522) (by decide +kernel) (by decide +kernel)
  exact late_event hge hlt

end BanditRun

end Lsf.Feedback
