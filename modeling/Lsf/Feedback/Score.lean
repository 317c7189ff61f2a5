import Lsf.Feedback.Decay

/-!
# What a score depends on

`calculate_score` taken apart: what speaks for an arm (`pros`), what speaks against it (`cons`), and the exploration.
All three are made of ratios that a rescaling does not change; but an arm is only scored if its inflated attempts are at
least one, so that a rescaling can make an arm look untried (`rescalesQuietly_iff`). The size penalty is weighted with
`weightSyntaxPenalty`, so that neither of the two weights does what its name says (`governed_iff`).
-/

namespace Lsf.Feedback

open Lsf.Core

/-- All weights are non-negative. -/
def MABConfig.NonNeg {K : Type} [Field K] [LinearOrder K] (config : MABConfig K) : Prop :=
  0 ≤ config.weightAccepted ∧ 0 ≤ config.weightCovInc ∧ 0 ≤ config.weightTimeout ∧ 0 ≤ config.weightSyntaxPenalty ∧
    0 ≤ config.weightSizePenalty ∧ 0 ≤ config.weightTimePenalty

namespace MABArm

/-! ## Rescaling -/

section Rescaling

variable {K : Type} [Field K] {body : MABBody K} {arm : MABArm K}

/-- An arm in step with its body is normalized already. -/
theorem normalize_of_inStep (h : arm.localEpoch = body.normalizationEpoch) : arm.normalize body = arm := by
  unfold normalize
  dsimp only
  rw [h, Int32.sub_self, if_neg (not_not.2 rfl)]

theorem rate_div (arm : MABArm K) (c : Counter) (e : UInt32) {r : K} (hr : r ≠ 0) :
    rate ⟨fun c => arm.count c / r, e⟩ c = arm.rate c := div_div_div_cancel_right₀ hr _ _

theorem toInt_epoch_succ_sub (e : UInt32) : ((e + 1).toInt32 - e.toInt32).toInt = 1 := by
  rw [UInt32.toInt32_add, Int32.add_comm, Int32.add_sub_cancel]
  decide

variable [LinearOrder K]

/-- A rescaling of the body, and the arm that follows it. -/
theorem normalize_normalizeBody (hinfl : rescaleFactor K ≤ body.currentInflation)
    (h : arm.localEpoch = body.normalizationEpoch) :
    arm.normalize body.normalize = ⟨fun c => arm.count c / rescaleFactor K, body.normalizationEpoch + 1⟩ := by
  have hdiff := toInt_epoch_succ_sub body.normalizationEpoch
  have hne : (body.normalizationEpoch + 1).toInt32 - body.normalizationEpoch.toInt32 ≠ 0 := by
    intro hzero
    rw [hzero] at hdiff
    cases hdiff
  unfold normalize MABBody.normalize
  rw [if_pos hinfl, h]
  dsimp only
  rw [if_pos hne, hdiff]
  simp only [zpow_one]

variable [FloatFns K]

/-- **A common factor of all counters and of the inflation does not change a score.** -/
theorem score_rescaled (body : MABBody K) (arm : MABArm K) (e e' : UInt32) {r : K} (hr : r ≠ 0) :
    score { body with
      totalAttempts := body.totalAttempts / r
      currentInflation := body.currentInflation / r
      normalizationEpoch := e' } ⟨fun c => arm.count c / r, e⟩ = arm.score body := by
  simp only [score_eq, exploration, pros, cons, penalty, syntaxPenalty, rate_div _ _ _ hr, div_div_div_cancel_right₀ hr]

/-- The score just before a rescaling. -/
theorem calculateScore_of_inStep (h : arm.localEpoch = body.normalizationEpoch) :
    arm.calculateScore body = (if arm.count .attempts < 1 then maxWeight K else arm.score body, arm) := by
  unfold calculateScore
  rw [normalize_of_inStep h]

variable [IsStrictOrderedRing K]

/-- The score just after it: the threshold is the only thing that has moved. -/
theorem calculateScore_normalizeBody (hinfl : rescaleFactor K ≤ body.currentInflation)
    (h : arm.localEpoch = body.normalizationEpoch) :
    (arm.calculateScore body.normalize).1 =
      if arm.count .attempts < rescaleFactor K then maxWeight K else arm.score body := by
  have hbody : body.normalize = { body with
      totalAttempts := body.totalAttempts / rescaleFactor K
      currentInflation := body.currentInflation / rescaleFactor K
      normalizationEpoch := body.normalizationEpoch + 1 } := if_pos hinfl
  unfold calculateScore
  rw [normalize_normalizeBody hinfl h]
  dsimp only
  rw [hbody, score_rescaled _ _ _ _ rescaleFactor_pos.ne']
  simp only [div_lt_one rescaleFactor_pos]

/-- The two scores under one configuration. -/
theorem calculateScore_twice (config : MABConfig K) (hinfl : rescaleFactor K ≤ body.currentInflation)
    (h : arm.localEpoch = body.normalizationEpoch) :
    (arm.calculateScore (body.withConfig config)).1 =
        (if arm.count .attempts < 1 then maxWeight K else arm.score (body.withConfig config)) ∧
      ((arm.calculateScore (body.withConfig config)).2.calculateScore (body.withConfig config).normalize).1 =
        if arm.count .attempts < rescaleFactor K then maxWeight K else arm.score (body.withConfig config) := by
  have hstep : arm.localEpoch = (body.withConfig config).normalizationEpoch := h
  rw [calculateScore_of_inStep hstep]
  exact ⟨rfl, calculateScore_normalizeBody hinfl hstep⟩

end Rescaling

/-- Under every configuration the scores just before and just after a rescaling of the body are the same. -/
def RescalesQuietly (body : MABBody ℝ) (arm : MABArm ℝ) : Prop :=
  ∀ config : MABConfig ℝ, (arm.calculateScore (body.withConfig config)).1 =
    ((arm.calculateScore (body.withConfig config)).2.calculateScore (body.withConfig config).normalize).1

section Reals

variable {body : MABBody ℝ} {arm : MABArm ℝ}

theorem sqrt_zero : FloatFns.sqrt (0 : ℝ) = some 0 := by
  show (if (0 : ℝ) ≤ 0 then some (Real.sqrt 0) else none) = _
  rw [if_pos le_rfl, Real.sqrt_zero]

theorem exploration_eq_zero (body : MABBody ℝ) (arm : MABArm ℝ) {config : MABConfig ℝ}
    (h : config.explorationConstant = 0) : arm.exploration (body.withConfig config) = some 0 := by
  unfold exploration
  rw [show (body.withConfig config).config.explorationConstant = 0 from h, zero_mul, zero_div, sqrt_zero]

/-- A configuration under which nothing speaks for an arm. -/
noncomputable def hopeless : MABConfig ℝ :=
  { (.default : MABConfig ℝ) with explorationConstant := 0, weightAccepted := 0, weightCovInc := 0 }

theorem score_hopeless (body : MABBody ℝ) (arm : MABArm ℝ) : arm.score (body.withConfig hopeless) = minWeight ℝ := by
  have hexpl : arm.exploration (body.withConfig hopeless) = some 0 := exploration_eq_zero body arm rfl
  have hpros : arm.pros (body.withConfig hopeless).config = 0 := by
    unfold pros
    show _ * 0 + _ * 0 = (0 : ℝ)
    ring
  rw [score_eq, hexpl, hpros]
  unfold minWeight maxWeight
  norm_num

/-- **A rescaling changes no score** exactly when the arm is untried before it, or has the attempts to be tried after
it: the threshold of one attempt is compared with the inflated attempts. -/
theorem rescalesQuietly_iff (hinfl : rescaleFactor ℝ ≤ body.currentInflation)
    (hstep : arm.localEpoch = body.normalizationEpoch) :
    RescalesQuietly body arm ↔ arm.count .attempts < 1 ∨ rescaleFactor ℝ ≤ arm.count .attempts := by
  constructor
  · intro hall
    by_contra hbetween
    obtain ⟨hone, hlt⟩ := not_or.1 hbetween
    obtain ⟨hbefore, hafter⟩ := calculateScore_twice hopeless hinfl hstep
    have heq := hall hopeless
    rw [hbefore, hafter, if_neg hone, if_pos (not_le.1 hlt), score_hopeless] at heq
    unfold minWeight maxWeight at heq
    norm_num at heq
  · intro hout config
    obtain ⟨hbefore, hafter⟩ := calculateScore_twice config hinfl hstep
    rw [hbefore, hafter]
    rcases hout with hlt | hge
    · rw [if_pos hlt, if_pos (hlt.trans one_lt_rescaleFactor)]
    · rw [if_neg (not_lt.2 (one_lt_rescaleFactor.le.trans hge)), if_neg (not_lt.2 hge)]

/-! A body after `34522` ticks, just before it divides its inflation out, and an arm with one attempt of the start. -/

noncomputable def agedBody : MABBody ℝ :=
  { (.new : MABBody ℝ) with totalAttempts := 1, currentInflation := (1 / decayRate ℝ) ^ 34522, epoch := 34522 }

def firstAttempt : MABArm ℝ := ⟨fun c => if c = .attempts then 1 else 0, 0⟩

theorem rescaleFactor_le_agedBody : rescaleFactor ℝ ≤ agedBody.currentInflation := by
  obtain ⟨hge, -⟩ := BanditRun.one_rescale_bounds (K := ℝ) (n := 34522) (by decide +kernel) (by decide +kernel)
  show _ ≤ (1 / decayRate ℝ) ^ 34522
  rw [one_div, inv_pow, le_inv_comm₀ rescaleFactor_pos (pow_pos decayRate_pos _)]
  rwa [← one_div, le_div_iff₀ rescaleFactor_pos, mul_comm]

/-- An arm that has all the attempts there are, and they are recent. -/
theorem rescalesQuietly_recent :
    RescalesQuietly { (.new : MABBody ℝ) with totalAttempts := 10 ^ 15, currentInflation := 10 ^ 15 }
      ⟨fun c => if c = .attempts then 10 ^ 15 else 0, 0⟩ :=
  (rescalesQuietly_iff le_rfl rfl).2 (.inr le_rfl)

theorem score_firstAttempt : firstAttempt.score agedBody = minWeight ℝ := by
  have hone : (1 : ℝ) ≤ agedBody.currentInflation := one_lt_rescaleFactor.le.trans rescaleFactor_le_agedBody
  have htotal : max (agedBody.totalAttempts / agedBody.currentInflation) 1 = 1 :=
    max_eq_right ((div_le_one (zero_lt_one.trans_le hone)).2 hone)
  have hexpl : firstAttempt.exploration agedBody = some 0 := by
    unfold exploration
    rw [htotal]
    show FloatFns.sqrt (_ * Real.log 1 / _) = _
    rw [Real.log_one, mul_zero, zero_div, sqrt_zero]
  have hpros : firstAttempt.pros agedBody.config = 0 := by simp [pros, rate, firstAttempt]
  rw [score_eq, hexpl, hpros]
  unfold minWeight maxWeight
  norm_num

/-- The arm with one old attempt is in step, scored before the rescaling, and untried after it. -/
theorem old_attempt_forgotten :
    rescaleFactor ℝ ≤ agedBody.currentInflation ∧ firstAttempt.localEpoch = agedBody.normalizationEpoch ∧
      firstAttempt.count .attempts ≤ agedBody.totalAttempts ∧
      (firstAttempt.calculateScore agedBody).1 = 1 / 1000 ∧
      ((firstAttempt.calculateScore agedBody).2.calculateScore agedBody.normalize).1 = 200 ∧
      ¬RescalesQuietly agedBody firstAttempt := by
  have hcount : firstAttempt.count .attempts = 1 := by simp [firstAttempt]
  obtain ⟨hbefore, hafter⟩ := calculateScore_twice agedBody.config rescaleFactor_le_agedBody
    (rfl : firstAttempt.localEpoch = agedBody.normalizationEpoch)
  change (firstAttempt.calculateScore agedBody).1 = ite _ _ (firstAttempt.score agedBody) at hbefore
  change ((firstAttempt.calculateScore agedBody).2.calculateScore agedBody.normalize).1 =
    ite _ _ (firstAttempt.score agedBody) at hafter
  rw [hcount, if_neg (lt_irrefl _), score_firstAttempt] at hbefore
  rw [hcount, if_pos one_lt_rescaleFactor] at hafter
  refine ⟨rescaleFactor_le_agedBody, rfl, hcount.le, hbefore, hafter, fun hall => ?_⟩
  have heq : (firstAttempt.calculateScore agedBody).1 = _ := hall agedBody.config
  rw [hbefore] at heq
  have hvalue : minWeight ℝ = maxWeight ℝ := heq.trans hafter
  unfold minWeight maxWeight at hvalue
  norm_num at hvalue

end Reals

/-! ## Weights -/

section Weights

variable {K : Type} [Field K] [LinearOrder K] [FloatFns K]

/-- The score of an arm under another configuration of its body. -/
def scoreWith (body : MABBody K) (arm : MABArm K) (config : MABConfig K) : K :=
  (arm.calculateScore (body.withConfig config)).1

/-- Neither the floor of the exploitation nor the clamp of the score is active. -/
def Unclipped (body : MABBody K) (arm : MABArm K) : Prop :=
  ∃ penalty ∈ arm.penalty body.config, arm.cons body.config = 1 - penalty ∧
    ∃ x ∈ arm.exploration body, arm.pros body.config * (1 - penalty) + x ∈ Set.Icc (minWeight K) (maxWeight K)

/-- `weightSyntaxPenalty` only matters to an arm whose syntax error rate is over the accepted one. -/
def SyntaxWeightGoverns (body : MABBody K) (arm : MABArm K) : Prop :=
  ∀ (config : MABConfig K) (w : K), arm.rate .syntaxErr ≤ config.maxAcceptedSyntaxErr →
    arm.scoreWith body { config with weightSyntaxPenalty := w } = arm.scoreWith body config

/-- A score falls in `weightSizePenalty`, and strictly so where the size can be felt. -/
def SizeWeightGoverns (body : MABBody K) (arm : MABArm K) : Prop :=
  ∀ (config : MABConfig K) (w : K), config.NonNeg → config.weightSizePenalty ≤ w →
    let heavier := { config with weightSizePenalty := w }
    arm.scoreWith body heavier ≤ arm.scoreWith body config ∧
      (config.weightSizePenalty < w → 0 < arm.rate .totalQuerySize → 0 < arm.pros config →
        (arm.normalize body).Unclipped (body.withConfig config) →
        (arm.normalize body).Unclipped (body.withConfig heavier) →
        arm.scoreWith body heavier < arm.scoreWith body config)

end Weights

section Normalized

variable {K : Type} [Field K] {body : MABBody K} {arm : MABArm K}

variable [LinearOrder K]

theorem scoreWith_eq [FloatFns K] (h : 1 ≤ (arm.normalize body).count .attempts) (config : MABConfig K) :
    arm.scoreWith body config = (arm.normalize body).score (body.withConfig config) := if_neg (not_lt.2 h)

/-- The weight of the size is in no score. -/
theorem scoreWith_weightSizePenalty [FloatFns K] (body : MABBody K) (arm : MABArm K) (config : MABConfig K) (w : K) :
    arm.scoreWith body { config with weightSizePenalty := w } = arm.scoreWith body config := rfl

variable [IsStrictOrderedRing K]

/-- Normalization divides all counters by one power of the factor. -/
theorem count_normalize (body : MABBody K) (arm : MABArm K) :
    ∃ r : K, r ≠ 0 ∧ ∀ c, (arm.normalize body).count c = arm.count c / r := by
  unfold normalize
  dsimp only
  split
  · exact ⟨_, (zpow_pos rescaleFactor_pos _).ne', fun _ => rfl⟩
  · exact ⟨1, one_ne_zero, fun _ => (div_one _).symm⟩

@[simp] theorem rate_normalize (body : MABBody K) (arm : MABArm K) (c : Counter) :
    (arm.normalize body).rate c = arm.rate c := by
  obtain ⟨r, hr, hcount⟩ := count_normalize body arm
  unfold rate
  rw [hcount, hcount, div_div_div_cancel_right₀ hr]

end Normalized

section RealWeights

variable {body : MABBody ℝ} {arm : MABArm ℝ}

theorem rate_eq_zero_iff (h : 1 ≤ (arm.normalize body).count .attempts) (c : Counter) :
    arm.rate c = 0 ↔ arm.count c = 0 := by
  obtain ⟨r, hr, hcount⟩ := count_normalize body arm
  have hattempts : arm.count .attempts ≠ 0 := by
    intro hzero
    rw [hcount, hzero, zero_div] at h
    exact absurd h (by norm_num)
  exact div_eq_zero_iff.trans (or_iff_left hattempts)

theorem ln1p_zero : FloatFns.ln1p (0 : ℝ) = some 0 := by
  show (if (-1 : ℝ) ≤ 0 then some (Real.log (1 + 0)) else none) = _
  rw [if_pos (by norm_num), add_zero, Real.log_one]

theorem ln1p_one : FloatFns.ln1p (1 : ℝ) = some (Real.log 2) := by
  show (if (-1 : ℝ) ≤ 1 then some (Real.log (1 + 1)) else none) = _
  rw [if_pos (by norm_num), one_add_one_eq_two]

theorem penalty_eq_none {arm : MABArm ℝ} (h : arm.rate .totalExecNs / 1000000 < -1) (config : MABConfig ℝ) :
    arm.penalty config = none := by
  have hln : FloatFns.ln1p (arm.rate .totalExecNs / 1000000) = none := if_neg (not_le.2 h)
  unfold penalty
  rw [hln]
  rfl

theorem syntaxPenalty_eq_zero {config : MABConfig ℝ} (h : arm.rate .syntaxErr ≤ config.maxAcceptedSyntaxErr) :
    arm.syntaxPenalty config = 0 := if_neg (not_lt.2 h)

/-- Without a size there is nothing for the weight to act on. -/
theorem penalty_of_size_eq_zero (hsize : arm.rate .totalQuerySize = 0) {config : MABConfig ℝ} (w : ℝ)
    (h : arm.rate .syntaxErr ≤ config.maxAcceptedSyntaxErr) :
    arm.penalty { config with weightSyntaxPenalty := w } = arm.penalty config := by
  have hzero : arm.syntaxPenalty config = 0 := syntaxPenalty_eq_zero h
  have hzero' : arm.syntaxPenalty { config with weightSyntaxPenalty := w } = 0 := syntaxPenalty_eq_zero h
  unfold penalty
  rw [hzero, hzero', hsize, zero_div, ln1p_zero]
  simp only [Option.bind_eq_bind, Option.bind_some, zero_mul]

/-- A configuration that is about the sizes only. -/
noncomputable def sizeOnly (arm : MABArm ℝ) (accepted covInc : ℝ) : MABConfig ℝ where
  explorationConstant := 0
  maxAcceptedSyntaxErr := arm.rate .syntaxErr
  weightAccepted := accepted
  weightCovInc := covInc
  weightTimeout := 0
  weightSyntaxPenalty := 0
  weightSizePenalty := 0
  weightTimePenalty := 0
  scaleSize := arm.rate .totalQuerySize

theorem penalty_sizeOnly (hsize : arm.rate .totalQuerySize ≠ 0) (htime : -1 ≤ arm.rate .totalExecNs / 1000000)
    (a c w : ℝ) : arm.penalty { arm.sizeOnly a c with weightSyntaxPenalty := w } = some (Real.log 2 * w) := by
  have hln : FloatFns.ln1p (arm.rate .totalExecNs / 1000000) = some (Real.log (1 + arm.rate .totalExecNs / 1000000)) :=
    if_pos htime
  have hrate : arm.syntaxPenalty { arm.sizeOnly a c with weightSyntaxPenalty := w } = 0 :=
    syntaxPenalty_eq_zero le_rfl
  unfold penalty
  rw [hrate, hln]
  simp only [sizeOnly, div_self hsize, ln1p_one, Option.bind_eq_bind, Option.bind_some]
  ring_nf

theorem score_sizeOnly (hsize : arm.rate .totalQuerySize ≠ 0) (htime : -1 ≤ arm.rate .totalExecNs / 1000000)
    {a c : ℝ} (hpros : arm.rate .accepted * a + arm.rate .covIncreases * c = 1) (body : MABBody ℝ) (w : ℝ) :
    arm.score (body.withConfig { arm.sizeOnly a c with weightSyntaxPenalty := w }) =
      min (max (1 - Real.log 2 * w) (minWeight ℝ)) (maxWeight ℝ) := by
  have hexpl : arm.exploration (body.withConfig { arm.sizeOnly a c with weightSyntaxPenalty := w }) = some 0 :=
    exploration_eq_zero body arm rfl
  have hp : arm.pros (body.withConfig { arm.sizeOnly a c with weightSyntaxPenalty := w }).config = 1 := hpros
  have hcons : arm.cons (body.withConfig { arm.sizeOnly a c with weightSyntaxPenalty := w }).config =
      max (1 - Real.log 2 * w) (minWeight ℝ) := by
    unfold cons
    show (arm.penalty { arm.sizeOnly a c with weightSyntaxPenalty := w }).elim _ _ = _
    rw [penalty_sizeOnly hsize htime]
    rfl
  rw [score_eq, hexpl, hp, hcons]
  simp only [Option.elim_some, one_mul, add_zero, max_assoc, max_self]

/-- An arm with a size, and with something that speaks for it, feels the weight of the syntax errors. -/
theorem not_syntaxWeightGoverns (h : 1 ≤ (arm.normalize body).count .attempts) (hsize : arm.rate .totalQuerySize ≠ 0)
    (htime : -1 ≤ arm.rate .totalExecNs / 1000000) {a c : ℝ}
    (hpros : arm.rate .accepted * a + arm.rate .covIncreases * c = 1) : ¬SyntaxWeightGoverns body arm := by
  intro hall
  have hscore : ∀ w, arm.scoreWith body { (arm.normalize body).sizeOnly a c with weightSyntaxPenalty := w } =
      min (max (1 - Real.log 2 * w) (minWeight ℝ)) (maxWeight ℝ) := by
    intro w
    rw [scoreWith_eq h]
    exact score_sizeOnly (by rwa [rate_normalize]) (by rwa [rate_normalize])
      (by rwa [rate_normalize, rate_normalize]) body w
  have heq : _ = arm.scoreWith body { (arm.normalize body).sizeOnly a c with weightSyntaxPenalty := 0 } :=
    hall { (arm.normalize body).sizeOnly a c with weightSyntaxPenalty := 0 } 1 (rate_normalize body arm _).ge
  rw [hscore 1, hscore 0, mul_zero, sub_zero, mul_one] at heq
  have hone : min (max 1 (minWeight ℝ)) (maxWeight ℝ) = 1 := by
    unfold minWeight maxWeight
    norm_num
  have hless : min (max (1 - Real.log 2) (minWeight ℝ)) (maxWeight ℝ) < 1 := by
    refine (min_le_left _ _).trans_lt (max_lt ?_ ?_)
    · exact sub_lt_self _ (Real.log_pos (by norm_num))
    · unfold minWeight
      norm_num
  rw [hone] at heq
  exact hless.ne heq

/-- Without a size, without anything that speaks for an arm, or without a time, both weights have nothing to act on. -/
theorem syntaxWeightGoverns_of (h : 1 ≤ (arm.normalize body).count .attempts)
    (hcase : arm.count .totalQuerySize = 0 ∨ (arm.count .accepted = 0 ∧ arm.count .covIncreases = 0) ∨
      arm.rate .totalExecNs / 1000000 < -1) : SyntaxWeightGoverns body arm := by
  intro config w hrate
  have hrate' : (arm.normalize body).rate .syntaxErr ≤ config.maxAcceptedSyntaxErr := by rwa [rate_normalize]
  have hexploit : (arm.normalize body).pros config * (arm.normalize body).cons { config with weightSyntaxPenalty := w } =
      (arm.normalize body).pros config * (arm.normalize body).cons config := by
    rcases hcase with hsize | ⟨hacc, hcov⟩ | htime
    · have hzero : (arm.normalize body).rate .totalQuerySize = 0 := by
        rw [rate_normalize, rate_eq_zero_iff h, hsize]
      unfold cons
      rw [penalty_of_size_eq_zero hzero w hrate']
    · have hpros : (arm.normalize body).pros config = 0 := by
        unfold pros
        rw [rate_normalize, rate_normalize, (rate_eq_zero_iff h _).2 hacc, (rate_eq_zero_iff h _).2 hcov]
        ring
      rw [hpros, zero_mul, zero_mul]
    · have hnone : ∀ config, (arm.normalize body).penalty config = none :=
        penalty_eq_none (by rwa [rate_normalize])
      unfold cons
      rw [hnone, hnone]
  rw [scoreWith_eq h, scoreWith_eq h, score_eq, score_eq]
  exact congrArg (fun y => Option.elim _ _ fun x => min (max (y + x) _) _) hexploit

/-- The same for the weight of the size, where a size could be felt only if it were positive. -/
theorem sizeWeightGoverns_of (h : 1 ≤ (arm.normalize body).count .attempts)
    (hcase : arm.count .totalQuerySize = 0 ∨ (arm.count .accepted = 0 ∧ arm.count .covIncreases = 0) ∨
      arm.rate .totalExecNs / 1000000 < -1) : SizeWeightGoverns body arm := by
  intro config w _ _
  refine ⟨(scoreWith_weightSizePenalty body arm config w).le, fun _ hsize hpros hclip _ => ?_⟩
  rcases hcase with hzero | ⟨hacc, hcov⟩ | htime
  · exact absurd ((rate_eq_zero_iff h _).2 hzero) hsize.ne'
  · have hnone : arm.pros config = 0 := by
      unfold pros
      rw [(rate_eq_zero_iff h _).2 hacc, (rate_eq_zero_iff h _).2 hcov]
      ring
    exact absurd hnone hpros.ne'
  · obtain ⟨penalty, hpenalty, -⟩ := hclip
    rw [penalty_eq_none (by rwa [rate_normalize])] at hpenalty
    cases hpenalty

/-- **Each penalty is governed by its own weight** exactly for the arms on which the size penalty cannot act at all: no
size was ever reported, or nothing speaks for the arm, or its time is below the domain of the logarithm. -/
theorem governed_iff (h : 1 ≤ (arm.normalize body).count .attempts) :
    (SyntaxWeightGoverns body arm ∧ SizeWeightGoverns body arm) ↔
      arm.count .totalQuerySize = 0 ∨ (arm.count .accepted = 0 ∧ arm.count .covIncreases = 0) ∨
        arm.rate .totalExecNs / 1000000 < -1 := by
  constructor
  · rintro ⟨hrate, -⟩
    by_contra hcase
    obtain ⟨hsize, hcase⟩ := not_or.1 hcase
    obtain ⟨hpros, htime⟩ := not_or.1 hcase
    rw [← rate_eq_zero_iff h] at hsize
    rw [← rate_eq_zero_iff h, ← rate_eq_zero_iff h] at hpros
    by_cases hacc : arm.rate .accepted = 0
    · have hcov : arm.rate .covIncreases ≠ 0 := fun hcov => hpros ⟨hacc, hcov⟩
      refine not_syntaxWeightGoverns h hsize (not_lt.1 htime) (a := 0) (c := (arm.rate .covIncreases)⁻¹) ?_ hrate
      rw [mul_zero, zero_add, mul_inv_cancel₀ hcov]
    · refine not_syntaxWeightGoverns h hsize (not_lt.1 htime) (a := (arm.rate .accepted)⁻¹) (c := 0) ?_ hrate
      rw [mul_zero, add_zero, mul_inv_cancel₀ hacc]
  · exact fun hcase => ⟨syntaxWeightGoverns_of h hcase, sizeWeightGoverns_of h hcase⟩

/-- A new body, and an arm of it that was told of one mutation. -/
theorem governed_mutated :
    SyntaxWeightGoverns (.new : MABBody ℝ) ((MABArm.new .new).onMutate .new .mutated).2 ∧
      SizeWeightGoverns (.new : MABBody ℝ) ((MABArm.new .new).onMutate .new .mutated).2 := by
  refine (governed_iff ?_).2 (.inl ?_)
  · rw [normalize_of_inStep (localEpoch_onMutate _ _ _), count_onMutate]
    simp [MABArm.new, MABBody.new, mutateAmount]
  · rw [count_onMutate]
    simp [MABArm.new, mutateAmount]

/-- An arm with a size that can be felt, under a configuration about the sizes only, has the same score whatever the
weight of the size. -/
theorem not_sizeWeightGoverns (hstep : arm.normalize body = arm) (hsize : 0 < arm.rate .totalQuerySize)
    (htime : -1 ≤ arm.rate .totalExecNs / 1000000) (hpros : arm.rate .accepted = 1) : ¬SizeWeightGoverns body arm := by
  intro hall
  have hone : arm.pros (arm.sizeOnly 1 0) = 1 := by
    show arm.rate .accepted * 1 + arm.rate .covIncreases * 0 = 1
    rw [hpros]
    ring
  have hclip : ∀ w, arm.Unclipped (body.withConfig { arm.sizeOnly 1 0 with weightSizePenalty := w }) := by
    intro w
    have hpenalty : arm.penalty (arm.sizeOnly 1 0) = some (Real.log 2 * 0) := penalty_sizeOnly hsize.ne' htime 1 0 0
    refine ⟨Real.log 2 * 0, hpenalty, ?_, 0, ?_, ?_⟩
    · show (arm.penalty (arm.sizeOnly 1 0)).elim _ _ = _
      rw [hpenalty]
      show max (1 - Real.log 2 * 0) _ = _
      norm_num
    · exact exploration_eq_zero body arm rfl
    · show arm.pros (arm.sizeOnly 1 0) * _ + _ ∈ _
      rw [hone]
      unfold minWeight maxWeight
      norm_num
  obtain ⟨-, hstrict⟩ := hall (arm.sizeOnly 1 0) 1 (by simp [MABConfig.NonNeg, sizeOnly]) zero_le_one
  refine lt_irrefl _ (hstrict zero_lt_one hsize (hone.symm ▸ zero_lt_one) ?_ ?_)
  · rw [hstep]
    exact hclip 0
  · rw [hstep]
    exact hclip 1

/-- An arm of a new body that was told of one mutation, and of the acceptance of 100 bytes after a millisecond. -/
noncomputable def seeded : MABArm ℝ :=
  ((MABArm.new .new).onMutate .new .mutated).2.onExec .new (.accepted .unspecified) ⟨false, true, 1000000, 0, 100⟩

theorem count_seeded : seeded.count .attempts = 1 ∧ seeded.count .accepted = 1 ∧
    seeded.count .totalExecNs = 1000000 ∧ seeded.count .totalQuerySize = 100 := by
  unfold seeded
  simp only [count_onExec, count_onMutate]
  simp [MABArm.new, MABBody.new, mutateAmount, execAmount]

/-- **Both weights miss**: the seeded arm has no syntax errors and feels the weight of them, and it does not feel the
weight of its size. -/
theorem seeded_not_governed :
    1 ≤ (seeded.normalize (.new : MABBody ℝ)).count .attempts ∧ ¬SyntaxWeightGoverns (.new : MABBody ℝ) seeded ∧
      ¬SizeWeightGoverns (.new : MABBody ℝ) seeded := by
  obtain ⟨hattempts, hacc, htime, hsize⟩ := count_seeded
  have hepoch : seeded.localEpoch = (.new : MABBody ℝ).normalizationEpoch :=
    (localEpoch_onExec _ _ _ _).trans (localEpoch_onMutate _ _ _)
  have hstep : seeded.normalize (.new : MABBody ℝ) = seeded := normalize_of_inStep hepoch
  have htried : 1 ≤ (seeded.normalize (.new : MABBody ℝ)).count .attempts := by rw [hstep, hattempts]
  have hrate : seeded.rate .accepted = 1 ∧ 0 < seeded.rate .totalQuerySize ∧
      -1 ≤ seeded.rate .totalExecNs / 1000000 := by
    unfold rate
    rw [hattempts, hacc, htime, hsize]
    norm_num
  obtain ⟨hone, hpos, hdomain⟩ := hrate
  refine ⟨htried, ?_, ?_⟩
  · refine not_syntaxWeightGoverns htried hpos.ne' hdomain (a := 1) (c := 0) ?_
    rw [hone]
    ring
  · exact not_sizeWeightGoverns hstep hpos hdomain hone

end RealWeights

end MABArm

end Lsf.Feedback
