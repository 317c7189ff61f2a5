import Lsf.Core.F64
import Lsf.Feedback.Outcome
import Mathlib.Algebra.Order.Field.Basic
import Mathlib.Data.Rat.Cast.Defs
import Mathlib.Data.UInt
import Mathlib.Tactic.NormNum

/-!
# Bandits

A body counts the epochs and inflates new events instead of decaying old ones; when the inflation reaches
`rescaleFactor` the body divides it out, and an arm follows when it is scored next. Arithmetic is that of an ordered
field `K`; the functions that a field does not have are a parameter (`FloatFns`).
-/

namespace Lsf.Feedback

open Lsf.Core

structure MABConfig (K : Type) where
  explorationConstant : K
  maxAcceptedSyntaxErr : K
  weightAccepted : K
  weightCovInc : K
  weightTimeout : K
  weightSyntaxPenalty : K
  weightSizePenalty : K
  weightTimePenalty : K
  scaleSize : K

structure MABBody (K : Type) where
  totalAttempts : K
  currentInflation : K
  epoch : UInt32
  normalizationEpoch : UInt32
  config : MABConfig K

/-- The atomic counters of an arm. -/
inductive Counter where
  | attempts
  | accepted
  | covIncreases
  | syntaxErr
  | crash
  | childTimeout
  | totalExecNs
  | totalQuerySize
  deriving DecidableEq, Repr

structure MABArm (K : Type) where
  count : Counter → K
  localEpoch : UInt32

section Constants

variable (K : Type) [Field K]

/-- `DECAY_RATE`. -/
def decayRate : K := 999 / 1000

/-- `RESCALE_FACTOR`. -/
def rescaleFactor : K := 10 ^ 15

/-- `MIN_WEIGHT`. -/
def minWeight : K := 1 / 1000

/-- `MAX_WEIGHT`. -/
def maxWeight : K := 200

end Constants

variable {K : Type} [Field K]

def MABConfig.default : MABConfig K where
  explorationConstant := 4
  maxAcceptedSyntaxErr := 1 / 2
  weightAccepted := 1 / 10
  weightCovInc := 9 / 10
  weightTimeout := 33 / 100
  weightSyntaxPenalty := 33 / 100
  weightSizePenalty := 16 / 100
  weightTimePenalty := 16 / 100
  scaleSize := 100

/-! ## Bodies -/

namespace MABBody

/-- The derived `Default`. -/
def default : MABBody K := ⟨0, 0, 0, 0, .default⟩

def new : MABBody K := { (default : MABBody K) with currentInflation := 1 }

def withConfig (b : MABBody K) (config : MABConfig K) : MABBody K := { b with config := config }

def normalize [LinearOrder K] (b : MABBody K) : MABBody K :=
  if b.currentInflation ≥ rescaleFactor K then
    { b with
      totalAttempts := b.totalAttempts / rescaleFactor K
      currentInflation := b.currentInflation / rescaleFactor K
      normalizationEpoch := b.normalizationEpoch + 1 }
  else b

def tickBy [LinearOrder K] (b : MABBody K) (n : UInt32) : MABBody K :=
  normalize { b with
    epoch := b.epoch + n
    currentInflation := b.currentInflation * (1 / decayRate K) ^ n.toInt32.toInt }

def reset (b : MABBody K) : MABBody K :=
  { b with totalAttempts := 0, epoch := 0, normalizationEpoch := 0, currentInflation := 1 }

end MABBody

/-! ## Arms -/

namespace MABArm

def new (body : MABBody K) : MABArm K := ⟨fun _ => 0, body.normalizationEpoch⟩

/-- The counters of an arm with a prior, before inflation. -/
def priorAmount (m : Meta) : Counter → K
  | .attempts => 1
  | .covIncreases => m.newCovNodes
  | .accepted => if m.isValidSyntax then 1 else 0
  | .syntaxErr => if m.isValidSyntax then 0 else 1
  | .crash => if m.triggersBug then 1 else 0
  | .totalExecNs => m.execTime.toNat
  | .totalQuerySize => m.querySize
  | .childTimeout => 0

def newWithPrior (body : MABBody K) (m : Meta) : MABBody K × MABArm K :=
  let inflation := body.currentInflation
  ({ body with totalAttempts := body.totalAttempts + 1 * inflation },
    ⟨fun c => priorAmount m c * inflation, body.normalizationEpoch⟩)

def reset (_ : MABArm K) : MABArm K := ⟨fun _ => 0, 0⟩

def fetchAdd (arm : MABArm K) (c : Counter) (x : K) : MABArm K :=
  { arm with count := Function.update arm.count c (arm.count c + x) }

/-- The difference of the epochs is one of `i32`s. -/
def normalize (body : MABBody K) (arm : MABArm K) : MABArm K :=
  let diff := body.normalizationEpoch.toInt32 - arm.localEpoch.toInt32
  if diff ≠ 0 then ⟨fun c => arm.count c / rescaleFactor K ^ diff.toInt, body.normalizationEpoch⟩ else arm

theorem normalize_normalize (body : MABBody K) (arm : MABArm K) :
    (arm.normalize body).normalize body = arm.normalize body := by
  by_cases h : body.normalizationEpoch.toInt32 - arm.localEpoch.toInt32 = 0 <;> simp [normalize, h]

def onExec (body : MABBody K) (arm : MABArm K) (outcome : TestOutcome) (m : Meta) : MABArm K :=
  let inflation := body.currentInflation
  let arm := (arm.fetchAdd .totalExecNs (m.execTime.toNat * inflation)).fetchAdd .totalQuerySize
    (m.querySize * inflation)
  match outcome with
  | .rejected .syntaxError => arm.fetchAdd .syntaxErr (1 * inflation)
  -- crashes are rewarded
  | .rejected .triggersCrash => (arm.fetchAdd .crash (1 * inflation)).fetchAdd .accepted (1 * inflation)
  | .rejected .timeOut => (arm.fetchAdd .accepted (1 / 2 * inflation)).fetchAdd .childTimeout (1 * inflation)
  | .rejected .bad => arm
  | .accepted (.covIncrease n) => (arm.fetchAdd .accepted (1 * inflation)).fetchAdd .covIncreases (n * inflation)
  | .accepted .isDiverse => arm.fetchAdd .accepted (1 * inflation)
  | .accepted .unspecified => arm.fetchAdd .accepted (1 * inflation)
  | _ => arm

def onMutate (body : MABBody K) (arm : MABArm K) (outcome : TestOutcome) : MABBody K × MABArm K :=
  let inflation := body.currentInflation
  match outcome with
  | .mutated | .noop =>
    ({ body with totalAttempts := body.totalAttempts + 1 * inflation }, arm.fetchAdd .attempts (1 * inflation))
  | _ => (body, arm)

/-! ## What an event adds -/

/-- What an execution adds to each counter, before inflation. -/
def execAmount (outcome : TestOutcome) (m : Meta) : Counter → K
  | .totalExecNs => m.execTime.toNat
  | .totalQuerySize => m.querySize
  | .syntaxErr => if outcome = .rejected .syntaxError then 1 else 0
  | .crash => if outcome = .rejected .triggersCrash then 1 else 0
  | .childTimeout => if outcome = .rejected .timeOut then 1 else 0
  | .covIncreases => match outcome with
    | .accepted (.covIncrease n) => n
    | _ => 0
  | .accepted => match outcome with
    | .rejected .triggersCrash => 1
    | .rejected .timeOut => 1 / 2
    | .accepted _ => 1
    | _ => 0
  | .attempts => 0

/-- What a mutation adds. -/
def mutateAmount (outcome : TestOutcome) : Counter → K
  | .attempts => if outcome = .mutated ∨ outcome = .noop then 1 else 0
  | _ => 0

theorem count_fetchAdd (arm : MABArm K) (c c' : Counter) (x : K) :
    (arm.fetchAdd c x).count c' = arm.count c' + if c' = c then x else 0 := by
  unfold fetchAdd
  by_cases h : c' = c
  · subst h
    simp
  · simp [h]

theorem count_onExec (body : MABBody K) (arm : MABArm K) (outcome : TestOutcome) (m : Meta) (c : Counter) :
    (arm.onExec body outcome m).count c = arm.count c + execAmount outcome m c * body.currentInflation := by
  unfold onExec
  rcases outcome with (_ | _ | _ | _) | (_ | _ | _) | _ | _ <;>
    cases c <;> simp [count_fetchAdd, execAmount]

theorem count_onMutate (body : MABBody K) (arm : MABArm K) (outcome : TestOutcome) (c : Counter) :
    (arm.onMutate body outcome).2.count c = arm.count c + mutateAmount outcome c * body.currentInflation := by
  unfold onMutate
  rcases outcome with _ | _ | _ | _ <;> cases c <;> simp [count_fetchAdd, mutateAmount]

@[simp] theorem localEpoch_onExec (body : MABBody K) (arm : MABArm K) (outcome : TestOutcome) (m : Meta) :
    (arm.onExec body outcome m).localEpoch = arm.localEpoch := by
  unfold onExec
  rcases outcome with (_ | _ | _ | _) | (_ | _ | _) | _ | _ <;> rfl

@[simp] theorem localEpoch_onMutate (body : MABBody K) (arm : MABArm K) (outcome : TestOutcome) :
    (arm.onMutate body outcome).2.localEpoch = arm.localEpoch := by
  unfold onMutate
  cases outcome <;> rfl

@[simp] theorem currentInflation_onMutate (body : MABBody K) (arm : MABArm K) (outcome : TestOutcome) :
    (arm.onMutate body outcome).1.currentInflation = body.currentInflation := by
  unfold onMutate
  cases outcome <;> rfl

@[simp] theorem normalizationEpoch_onMutate (body : MABBody K) (arm : MABArm K) (outcome : TestOutcome) :
    (arm.onMutate body outcome).1.normalizationEpoch = body.normalizationEpoch := by
  unfold onMutate
  cases outcome <;> rfl

/-! ## Scores -/

variable [LinearOrder K]

section Score

variable [FloatFns K]

/-- The score of a normalized arm with at least one attempt; a NaN penalty is left out by `f64::max`, and a NaN score
is `MIN_WEIGHT`. -/
def score (body : MABBody K) (arm : MABArm K) : K :=
  let config := body.config
  let inflatedAttempts := arm.count .attempts
  let inflation := body.currentInflation
  let covIncRate := arm.count .covIncreases / inflatedAttempts
  let acceptedRate := arm.count .accepted / inflatedAttempts
  let pros := acceptedRate * config.weightAccepted + covIncRate * config.weightCovInc
  let timeOutRate := arm.count .childTimeout / inflatedAttempts
  let syntaxErrRate := arm.count .syntaxErr / inflatedAttempts
  let avgTExec := arm.count .totalExecNs / inflatedAttempts
  let avgSize := arm.count .totalQuerySize / inflatedAttempts
  let syntaxPenalty :=
    if syntaxErrRate > config.maxAcceptedSyntaxErr then syntaxErrRate - config.maxAcceptedSyntaxErr else 0
  let penalty : Option K := do
    let timePenaltyRatio ← FloatFns.ln1p (avgTExec / 1000000)
    let sizePenaltyRatio ← FloatFns.ln1p (avgSize / config.scaleSize)
    some (timeOutRate * config.weightTimeout + syntaxPenalty * config.weightSyntaxPenalty
      + sizePenaltyRatio * config.weightSyntaxPenalty + timePenaltyRatio * config.weightTimePenalty)
  let cons := penalty.elim (1 / 1000) fun penalty => max (1 - penalty) (1 / 1000)
  let exploitation := pros * cons
  let effectiveAttempts := inflatedAttempts / inflation
  let effectiveTotalAttempts := max (body.totalAttempts / inflation) 1
  let exploration := FloatFns.sqrt
    (config.explorationConstant * FloatFns.ln effectiveTotalAttempts / effectiveAttempts)
  exploration.elim (minWeight K) fun exploration => min (max (exploitation + exploration) (minWeight K)) (maxWeight K)

/-- The arm is normalized first. -/
def calculateScore (body : MABBody K) (arm : MABArm K) : K × MABArm K :=
  let arm := arm.normalize body
  (if arm.count .attempts < 1 then maxWeight K else arm.score body, arm)

/-- Scores are weights. -/
theorem calculateScore_mem_Icc [IsStrictOrderedRing K] (body : MABBody K) (arm : MABArm K) :
    (arm.calculateScore body).1 ∈ Set.Icc (minWeight K) (maxWeight K) := by
  have hle : minWeight K ≤ maxWeight K := by
    unfold minWeight maxWeight
    norm_num
  unfold calculateScore score
  dsimp only
  split
  · exact ⟨hle, le_rfl⟩
  · generalize hexpl : (FloatFns.sqrt _ : Option K) = exploration
    cases exploration with
    | none => exact ⟨le_rfl, hle⟩
    | some x => exact ⟨le_min (le_max_right _ _) hle, min_le_right _ _⟩

end Score

/-! ## The parts of a score -/

section Parts

variable [FloatFns K]

/-- A counter per attempt. -/
def rate (arm : MABArm K) (c : Counter) : K := arm.count c / arm.count .attempts

def pros (config : MABConfig K) (arm : MABArm K) : K :=
  arm.rate .accepted * config.weightAccepted + arm.rate .covIncreases * config.weightCovInc

def syntaxPenalty (config : MABConfig K) (arm : MABArm K) : K :=
  if arm.rate .syntaxErr > config.maxAcceptedSyntaxErr then arm.rate .syntaxErr - config.maxAcceptedSyntaxErr else 0

def penalty (config : MABConfig K) (arm : MABArm K) : Option K := do
  let timePenaltyRatio ← FloatFns.ln1p (arm.rate .totalExecNs / 1000000)
  let sizePenaltyRatio ← FloatFns.ln1p (arm.rate .totalQuerySize / config.scaleSize)
  some (arm.rate .childTimeout * config.weightTimeout + arm.syntaxPenalty config * config.weightSyntaxPenalty
    + sizePenaltyRatio * config.weightSyntaxPenalty + timePenaltyRatio * config.weightTimePenalty)

def cons (config : MABConfig K) (arm : MABArm K) : K :=
  (arm.penalty config).elim (1 / 1000) fun penalty => max (1 - penalty) (1 / 1000)

def exploration (body : MABBody K) (arm : MABArm K) : Option K :=
  FloatFns.sqrt (body.config.explorationConstant * FloatFns.ln (max (body.totalAttempts / body.currentInflation) 1) /
    (arm.count .attempts / body.currentInflation))

/-- The parts of a score. -/
theorem score_eq (body : MABBody K) (arm : MABArm K) : arm.score body =
    (arm.exploration body).elim (minWeight K) fun x =>
      min (max (arm.pros body.config * arm.cons body.config + x) (minWeight K)) (maxWeight K) := rfl

end Parts

end MABArm

end Lsf.Feedback
