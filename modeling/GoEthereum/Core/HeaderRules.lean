import GoEthereum.Core.Validator
import GoEthereum.Core.HeaderRun

-- The difficulty and the gas limit of a new block, against the checks of its header.

namespace Core

open Common

variable {H : Hashes} {v : Validator} {header parent : Header} {checkPow uncle : Bool}

def bomb (parentNumber : Nat) : Int :=
  if 1 < (parentNumber + 1) / expDiffPeriod then 2 ^ ((parentNumber + 1) / expDiffPeriod - 2)
  else 0

-- What is added to the difficulty of the parent for the time that has passed since.

def homesteadAdjust (delta parentDiff : Int) : Int :=
  parentDiff / difficultyBoundDivisor * max (1 - delta / 10) (-99)

def frontierAdjust (delta parentDiff : Int) : Int :=
  if delta < durationLimit then parentDiff / difficultyBoundDivisor
  else -(parentDiff / difficultyBoundDivisor)

-- The formula of the protocol, on times that are not bounded.
def protocolDifficulty (config : ChainConfig) (time parentTime parentNumber parentDiff : Nat) :
    Int :=
  let adjust := if config.isHomestead (parentNumber + 1) then homesteadAdjust else frontierAdjust
  max (parentDiff + adjust (time - parentTime) parentDiff) minimumDifficulty + bomb parentNumber

theorem bomb_nonneg (parentNumber : Nat) : 0 ≤ bomb parentNumber := by
  rw [bomb]
  split_ifs
  · positivity
  · exact le_rfl

variable (config : ChainConfig) (time parentTime : UInt64) (parentNumber parentDiff : Nat)

theorem protocolDifficulty_nonneg (time parentTime parentNumber parentDiff : Nat) :
    0 ≤ protocolDifficulty config time parentTime parentNumber parentDiff :=
  Int.add_nonneg (le_max_of_le_right (by decide)) (bomb_nonneg parentNumber)

theorem calcDifficultyHomestead_eq :
    calcDifficultyHomestead time parentTime parentNumber parentDiff =
      max (parentDiff + homesteadAdjust (time.toNat - parentTime.toNat) parentDiff)
        minimumDifficulty + bomb parentNumber := by
  rw [calcDifficultyHomestead, bomb]
  split_ifs
  · rfl
  · exact (Int.add_zero _).symm

theorem calcDifficultyFrontier_eq :
    calcDifficultyFrontier time parentTime parentNumber parentDiff =
      max (parentDiff + frontierAdjust (time.toNat - parentTime.toNat) parentDiff)
        minimumDifficulty + bomb parentNumber := by
  have hb := bomb_nonneg parentNumber
  rw [bomb] at *
  rw [calcDifficultyFrontier, frontierAdjust]
  all_goals omega

theorem calcDifficulty_eq :
    calcDifficulty config time parentTime parentNumber parentDiff =
      protocolDifficulty config time.toNat parentTime.toNat parentNumber parentDiff := by
  rw [calcDifficulty, protocolDifficulty]
  split_ifs
  · exact calcDifficultyHomestead_eq time parentTime parentNumber parentDiff
  · exact calcDifficultyFrontier_eq time parentTime parentNumber parentDiff

-- The times whose truncation does not matter: it leads to the same step of the formula, or the
-- difficulty is the least one in any case.
def TimesFit (config : ChainConfig) (header parent : Header) : Prop :=
  if config.isHomestead (parent.number.toNat + 1) then
    header.time / 2 ^ 64 = parent.time / 2 ^ 64 ∨
    parent.time % 2 ^ 64 + 1000 ≤ header.time % 2 ^ 64 ∨
    (parent.difficulty : Int) + parent.difficulty / 2048 *
      (1 - (((header.time % 2 ^ 64 : Nat) : Int) - (parent.time % 2 ^ 64 : Nat)) / 10) ≤ 131072
  else
    header.time < parent.time + 13 ∨
    parent.time % 2 ^ 64 + 13 ≤ header.time % 2 ^ 64 ∨
    parent.difficulty + parent.difficulty / 2048 ≤ 131072

theorem max_add_eq_iff {d a a' m b : Int} (h : a ≤ a') :
    max (d + a') m + b = max (d + a) m + b ↔ a = a' ∨ d + a' ≤ m := by
  omega

theorem truncated_le {t p : Nat} (h : p < t) :
    ((t % 2 ^ 64 : Nat) : Int) - (p % 2 ^ 64 : Nat) ≤ t - p ∧
      (((t % 2 ^ 64 : Nat) : Int) - (p % 2 ^ 64 : Nat) = t - p ↔ t / 2 ^ 64 = p / 2 ^ 64) := by
  omega

section

variable {parentDiff : Nat} {cut exact : Int}

variable (h : cut ≤ exact)
include h

theorem homesteadAdjust_le :
    homesteadAdjust exact parentDiff ≤ homesteadAdjust cut parentDiff := by
  apply Int.mul_le_mul_of_nonneg_left
  · omega
  · exact Int.ediv_nonneg (Int.natCast_nonneg _) (by decide)

theorem homesteadAdjust_iff (hne : cut ≠ exact → cut + 1000 ≤ exact) :
    homesteadAdjust exact parentDiff = homesteadAdjust cut parentDiff ∨
        parentDiff + homesteadAdjust cut parentDiff ≤ minimumDifficulty ↔
      cut = exact ∨ 1000 ≤ cut ∨
      (parentDiff : Int) + parentDiff / 2048 * (1 - cut / 10) ≤ 131072 := by
  rw [homesteadAdjust, homesteadAdjust, difficultyBoundDivisor]
  by_cases he : cut = exact
  · simp [he]
  by_cases hc : 1000 ≤ cut
  · rw [max_eq_right (show 1 - exact / 10 ≤ -99 by omega),
      max_eq_right (show 1 - cut / 10 ≤ -99 by omega)]
    simp [hc]
  -- The step is another one, so the product is, unless there is nothing to multiply with.
  rw [max_eq_left (show -99 ≤ 1 - cut / 10 by omega)]
  simp only [he, hc, false_or]
  refine ⟨fun hor => hor.elim (fun heq => ?_) id, Or.inr⟩
  obtain hq | hq := mul_eq_mul_left_iff.mp heq
  · omega
  · rw [hq]
    omega

theorem frontierAdjust_le :
    frontierAdjust exact parentDiff ≤ frontierAdjust cut parentDiff := by
  have : (0 : Int) ≤ parentDiff / difficultyBoundDivisor :=
    Int.ediv_nonneg (Int.natCast_nonneg _) (by decide)
  rw [frontierAdjust, frontierAdjust]
  split_ifs <;> omega

theorem frontierAdjust_iff :
    frontierAdjust exact parentDiff = frontierAdjust cut parentDiff ∨
        parentDiff + frontierAdjust cut parentDiff ≤ minimumDifficulty ↔
      exact < 13 ∨ 13 ≤ cut ∨ parentDiff + parentDiff / 2048 ≤ 131072 := by
  rw [frontierAdjust, frontierAdjust, durationLimit, minimumDifficulty, difficultyBoundDivisor]
  split_ifs <;> omega

end

theorem protocolDifficulty_eq_iff (h : parent.time < header.time) :
    protocolDifficulty config (header.time % 2 ^ 64) (parent.time % 2 ^ 64) parent.number.toNat
        parent.difficulty =
      protocolDifficulty config header.time parent.time parent.number.toNat parent.difficulty ↔
    TimesFit config header parent := by
  obtain ⟨hle, heq⟩ := truncated_le h
  rw [protocolDifficulty, protocolDifficulty, TimesFit]
  split_ifs
  · rw [max_add_eq_iff (homesteadAdjust_le hle), homesteadAdjust_iff hle (by omega)]
    omega
  · rw [max_add_eq_iff (frontierAdjust_le hle), frontierAdjust_iff hle]
    omega

theorem validateHeader_difficulty (h : validateHeader H v header parent checkPow uncle = .ok ()) :
    parent.time < header.time ∧ (uncle = false → header.time ≤ v.now) ∧
      header.difficulty = protocolDifficulty v.config (header.time % 2 ^ 64)
        (parent.time % 2 ^ 64) parent.number.toNat parent.difficulty := by
  simp only [validateHeader, seq_eq_ok, failIf_eq_ok, not_not, calcDifficulty_eq] at h
  obtain ⟨-, -, hn, ht, hd, -⟩ := h
  refine ⟨by omega, fun hu => ?_, hd.symm⟩
  subst hu
  simpa using hn

-- An accepted header, or uncle, has the difficulty of the protocol exactly when truncating its time
-- and that of its parent does not matter. It never does for one that is not an uncle, since the
-- clock keeps its time below 2^63.
theorem validateHeader_protocolDifficulty_iff (H : Hashes) (v : Validator) (header parent : Header)
    (checkPow uncle : Bool) (h : validateHeader H v header parent checkPow uncle = .ok ()) :
    (header.difficulty = protocolDifficulty v.config header.time parent.time parent.number.toNat
        parent.difficulty ↔ TimesFit v.config header parent) ∧
    (uncle = false → v.now < 2 ^ 63 → TimesFit v.config header parent) := by
  obtain ⟨ht, hn, hd⟩ := validateHeader_difficulty h
  rw [hd, ← protocolDifficulty_eq_iff v.config ht]
  refine ⟨Iff.rfl, fun hu hnow => ?_⟩
  have := hn hu
  rw [Nat.mod_eq_of_lt (by omega), Nat.mod_eq_of_lt (by omega)]

def homesteadValidator (now : Int) : Validator where
  config   := ⟨some 0, none, false, none, Hash.zero⟩
  verify   := fun _ => true
  now      := now
  hasState := fun _ => true

def sampleParent (gasLimit gasUsed : Nat) : Header :=
  { HeaderChain.sampleHeader 1 0 5 2048000 with
    gasLimit := gasLimit, gasUsed := gasUsed, time := 100 }

def sampleChild (time difficulty : Nat) : Header :=
  { HeaderChain.sampleHeader 2 1 6 difficulty with gasLimit := 10000, time := time }

theorem validateHeader_protocolDifficulty_sample :
    validateHeader HeaderChain.sampleHashes (homesteadValidator 200) (sampleChild 105 2049000)
      (sampleParent 10000 0) true true = .ok () ∧
    TimesFit (homesteadValidator 200).config (sampleChild 105 2049000) (sampleParent 10000 0) ∧
    ((sampleChild 105 2049000).difficulty : Int) =
      protocolDifficulty (homesteadValidator 200).config 105 100 5 2048000 := by
  have hv : validateHeader HeaderChain.sampleHashes (homesteadValidator 200) (sampleChild 105 2049000)
      (sampleParent 10000 0) true true = .ok () := rfl
  have hf : TimesFit (homesteadValidator 200).config (sampleChild 105 2049000)
      (sampleParent 10000 0) := Or.inl rfl
  exact ⟨hv, hf, (validateHeader_protocolDifficulty_iff _ _ _ _ _ _ hv).left.mpr hf⟩

-- An uncle from the far future that seems to be five seconds after its parent.
theorem validateHeader_truncated :
    validateHeader HeaderChain.sampleHashes (homesteadValidator 200)
      (sampleChild (2 ^ 64 + 105) 2049000) (sampleParent 10000 0) true true = .ok () ∧
    protocolDifficulty (homesteadValidator 200).config (2 ^ 64 + 105) 100 5 2048000 = 1949000 :=
  ⟨rfl, rfl⟩

-- The gas limit of the next block after parent. This is miner strategy, not consensus protocol.
def calcGasLimit (targetGasLimit : Int) (parent : Header) : Int :=
  let contrib := (parent.gasUsed : Int) * 3 / 2 / gasLimitBoundDivisor
  let decay := (parent.gasLimit : Int) / gasLimitBoundDivisor - 1
  let gl := max (parent.gasLimit - decay + contrib) minGasLimit
  -- however, if we're now below the target we increase the limit as much as we can
  if gl < targetGasLimit then min (parent.gasLimit + decay) targetGasLimit else gl

-- The bound on the gas limit that the validation of a header checks.
def GasLimitBound (gasLimit : Int) (parent : Header) : Prop :=
  ((parent.gasLimit : Int) - gasLimit).natAbs < parent.gasLimit / gasLimitBoundDivisor ∧
    minGasLimit ≤ gasLimit

theorem validateDAOHeaderExtraData_ne_gasLimit {config : ChainConfig} {remote localMax : Nat} :
    validateDAOHeaderExtraData config header ≠ .error (.gasLimit remote localMax) := by
  rw [validateDAOHeaderExtraData]
  cases config.daoForkBlock
  case none      => simp
  case some fork =>
    dsimp only
    split_ifs <;> simp [failIf_eq_error]

theorem GasLimitBound.ne_gasLimit (h : GasLimitBound header.gasLimit parent)
    {remote localMax : Nat} :
    validateHeader H v header parent checkPow uncle ≠ .error (.gasLimit remote localMax) := by
  intro he
  simp only [validateHeader, seq_eq_error, failIf_eq_error, reduceCtorEq, and_false, false_or,
    or_false, validateDAOHeaderExtraData_ne_gasLimit] at he
  obtain ⟨h₁, h₂⟩ := h
  omega

-- A header that can only be wrong in its gas limit and its number.
def proposal (config : ChainConfig) (gasLimit : Nat) (parent : Header) : Header :=
  let difficulty := calcDifficulty config (.ofNat (parent.time + 1)) (.ofNat parent.time)
    parent.number.toNat parent.difficulty
  { parent with time := parent.time + 1, extra := [], difficulty := difficulty.toNat,
                gasLimit := gasLimit }

theorem validateHeader_proposal {gasLimit : Nat} (h : ¬ GasLimitBound gasLimit parent)
    (hn : (parent.time : Int) < v.now) :
    validateHeader H v (proposal v.config gasLimit parent) parent checkPow false =
      .error (.gasLimit gasLimit (parent.gasLimit / gasLimitBoundDivisor)) := by
  have hd := protocolDifficulty_nonneg v.config (UInt64.ofNat (parent.time + 1)).toNat
    (UInt64.ofNat parent.time).toNat parent.number.toNat parent.difficulty
  rw [← calcDifficulty_eq] at hd
  have ht : ¬ v.now < ((parent.time + 1 : Nat) : Int) := by omega
  simp only [validateHeader, seq_eq_error]
  refine Or.inr ⟨failIf_eq_ok.mpr (Nat.not_lt_zero _), Or.inr ⟨failIf_eq_ok.mpr ?_, Or.inr ⟨?_, ?_⟩⟩⟩
  · exact fun hu => Bool.noConfusion hu.left
  · exact failIf_eq_ok.mpr fun hnow => ht hnow.right
  refine Or.inr ⟨failIf_eq_ok.mpr (Nat.not_succ_le_self _), Or.inr ⟨?_, Or.inl ?_⟩⟩
  · exact failIf_eq_ok.mpr (not_not.mpr (Int.toNat_of_nonneg hd).symm)
  · refine failIf_eq_error.mpr ⟨?_, rfl⟩
    rw [GasLimitBound] at h
    dsimp only [proposal]
    omega

-- Below 5120 the bound is 4, and a parent that is nearly full raises the limit by 4.
theorem calcGasLimit_bound_iff (targetGasLimit : Int) (h₁ : minGasLimit ≤ parent.gasLimit)
    (h₂ : parent.gasUsed ≤ parent.gasLimit) :
    GasLimitBound (calcGasLimit targetGasLimit parent) parent ↔
      5120 ≤ parent.gasLimit ∨ parent.gasUsed < 4779 ∨ parent.gasLimit + 4 < targetGasLimit := by
  simp only [GasLimitBound, calcGasLimit, minGasLimit, gasLimitBoundDivisor] at *
  omega

theorem calcGasLimit_nonneg (targetGasLimit : Int) (h : minGasLimit ≤ parent.gasLimit) :
    0 ≤ calcGasLimit targetGasLimit parent := by
  simp only [calcGasLimit, minGasLimit, gasLimitBoundDivisor] at *
  omega

-- Whether every header with the gas limit of the miner passes the check against its parent.
theorem calcGasLimit_accepted_iff (H : Hashes) (targetGasLimit : Int) (parent : Header)
    (h₁ : minGasLimit ≤ parent.gasLimit) (h₂ : parent.gasUsed ≤ parent.gasLimit) :
    (∀ v header checkPow uncle remote localMax,
      (header.gasLimit : Int) = calcGasLimit targetGasLimit parent →
      validateHeader H v header parent checkPow uncle ≠ .error (.gasLimit remote localMax)) ↔
    5120 ≤ parent.gasLimit ∨ parent.gasUsed < 4779 ∨ parent.gasLimit + 4 < targetGasLimit := by
  rw [← calcGasLimit_bound_iff targetGasLimit h₁ h₂]
  constructor
  · intro h
    by_contra hb
    have hg := Int.toNat_of_nonneg (calcGasLimit_nonneg targetGasLimit h₁)
    rw [← hg] at hb
    let v : Validator :=
      { config := ⟨none, none, false, none, Hash.zero⟩, verify := fun _ => true,
        now := parent.time + 1, hasState := fun _ => true }
    exact h v _ false false _ _ hg (validateHeader_proposal hb (Int.lt_succ _))
  · intro hb v header checkPow uncle remote localMax he
    apply GasLimitBound.ne_gasLimit
    rwa [he]

theorem calcGasLimit_accepted_sample :
    minGasLimit ≤ (sampleParent 5000 4000).gasLimit ∧
    (sampleParent 5000 4000).gasUsed ≤ (sampleParent 5000 4000).gasLimit ∧
    ∀ v header checkPow uncle remote localMax,
      (header.gasLimit : Int) = calcGasLimit 5000 (sampleParent 5000 4000) →
      validateHeader HeaderChain.sampleHashes v header (sampleParent 5000 4000) checkPow uncle ≠
        .error (.gasLimit remote localMax) := by
  have h₁ : minGasLimit ≤ (sampleParent 5000 4000).gasLimit := by decide
  have h₂ : (sampleParent 5000 4000).gasUsed ≤ (sampleParent 5000 4000).gasLimit := by decide
  exact ⟨h₁, h₂, (calcGasLimit_accepted_iff _ 5000 _ h₁ h₂).mpr (Or.inr (Or.inl (by decide)))⟩

-- A full parent at the minimum, with the target at the minimum too.
theorem calcGasLimit_rejected :
    calcGasLimit 5000 (sampleParent 5000 5000) = 5004 ∧
    validateHeader HeaderChain.sampleHashes (homesteadValidator 200)
      (proposal (homesteadValidator 200).config 5004 (sampleParent 5000 5000))
      (sampleParent 5000 5000) false false = .error (.gasLimit 5004 4) :=
  ⟨rfl, rfl⟩

end Core
