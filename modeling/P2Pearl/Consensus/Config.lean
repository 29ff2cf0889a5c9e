import Mathlib.Tactic

/-!
`config.py` and `consensus/subsidy.py`: the constants every node of a sidechain agrees on,
and the subsidy schedule of the parent chain.

* `blockSubsidy`: the exact coinbase value of the parent block at a height, hyperbolic in the
  height; `blockSubsidy_lt` bounds it by the total supply, so it fits a `u64`.
-/

namespace P2Pearl

/-! ### `config.py` -/

/-- `PARENT_BLOCK_TIME_SECONDS`. -/
def parentBlockTimeSeconds : ℕ := 194

/-- `GRAIN_PER_PEARL`. -/
def grainPerPearl : ℕ := 100000000

/-- `SIDECHAIN_VERSION`. -/
def sidechainVersion : ℕ := 5

/-- `SHARE_TARGET_TIME_SECONDS`. -/
def shareTargetTimeSeconds : ℕ := 10

/-- `PPLNS_WINDOW_SHARES`. -/
def pplnsWindowShares : ℕ := 1000

/-- `UNCLE_BLOCK_DEPTH`. -/
def uncleBlockDepth : ℕ := 3

/-- `UNCLE_PENALTY_PERCENT`. -/
def unclePenaltyPercent : ℕ := 20

/-- `MIN_PAYOUT_GRAINS`. -/
def minPayoutGrains : ℕ := 100000

/-- `MAX_TARGET`, the difficulty-one ceiling. -/
def maxTarget : ℕ := 2 ^ 256 - 1

/-- `RETARGET_WINDOW_SHARES`. -/
def retargetWindowShares : ℕ := 60

/-- `RETARGET_CLAMP`. -/
def retargetClamp : ℕ := 4

/-- `BOOTSTRAP_SHARE_TARGET`. -/
def bootstrapShareTarget : ℕ := maxTarget / 2 ^ 50

/-- `MAX_TIMESTAMP_DRIFT_SECONDS`. -/
def maxTimestampDriftSeconds : ℕ := 300

/-! ### `consensus/subsidy.py` -/

/-- `TOTAL_SUPPLY_GRAINS`. -/
def totalSupplyGrains : ℕ := 2100000000 * grainPerPearl

/-- `EMISSION_CONSTANT`, four years of parent blocks. -/
def emissionConstant : ℕ := 4 * 365 * 24 * 60 * 60 / parentBlockTimeSeconds

/-- `block_subsidy`: the coinbase subsidy of the parent block at `height`, in grains. -/
def blockSubsidy (height : ℕ) : ℕ :=
  if height = 0 then 0
  else totalSupplyGrains * emissionConstant
    / ((height + emissionConstant) * (height - 1 + emissionConstant))

lemma emissionConstant_eq : emissionConstant = 650226 := by decide

/-- No block pays more than the total supply. -/
lemma blockSubsidy_le (height : ℕ) : blockSubsidy height ≤ totalSupplyGrains := by
  rw [blockSubsidy]
  split_ifs with h
  · exact Nat.zero_le _
  · have hden : emissionConstant
        ≤ (height + emissionConstant) * (height - 1 + emissionConstant) := by
      rw [emissionConstant_eq]
      nlinarith
    calc totalSupplyGrains * emissionConstant
          / ((height + emissionConstant) * (height - 1 + emissionConstant))
        ≤ totalSupplyGrains * emissionConstant / emissionConstant :=
          Nat.div_le_div_left hden (by rw [emissionConstant_eq]; norm_num)
      _ = totalSupplyGrains :=
          Nat.mul_div_cancel _ (by rw [emissionConstant_eq]; norm_num)

/-- A subsidy fits the `u64` a share carries it in. -/
lemma blockSubsidy_lt (height : ℕ) : blockSubsidy height < 2 ^ 64 :=
  (blockSubsidy_le height).trans_lt (by norm_num [totalSupplyGrains, grainPerPearl])

end P2Pearl
