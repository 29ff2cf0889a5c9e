import Mathlib.Algebra.BigOperators.Intervals
import Mathlib.Tactic.FieldSimp
import P2Pearl.Consensus.Config

/-!
The hyperbolic emission of the parent chain.

* `hyperbolic_telescopes`: the exact terms of a hyperbolic schedule telescope.
* `emission_bounded`: the floored subsidies of any prefix of the chain stay within the telescoped
  bound, hence below the supply, and do not increase with the height.
-/

namespace P2Pearl

/-- The terms of a hyperbolic schedule of the constant `E` telescope. -/
lemma hyperbolic_telescopes (T : ℚ) {E : ℚ} (hE : 0 < E) (n : ℕ) :
    ∑ h ∈ Finset.Icc 1 n, T * E / ((h + E) * (h - 1 + E)) = T * n / (n + E) := by
  induction n with
  | zero => simp
  | succ n ih =>
      have hn : (0 : ℚ) < n + E := by positivity
      have hn' : (0 : ℚ) < n + 1 + E := by positivity
      rw [Finset.sum_Icc_succ_top (by omega), ih]
      push_cast
      rw [show (n : ℚ) + 1 - 1 + E = n + E by ring]
      field_simp
      ring

/-- A subsidy is at most the exact term of the schedule. -/
lemma blockSubsidy_cast_le {height : ℕ} (h : 1 ≤ height) :
    (blockSubsidy height : ℚ) ≤ totalSupplyGrains * emissionConstant
      / ((height + emissionConstant) * (height - 1 + emissionConstant)) := by
  rw [blockSubsidy, if_neg (by omega)]
  refine Nat.cast_div_le.trans (le_of_eq ?_)
  push_cast [Nat.cast_sub h]
  ring

/-- The schedule does not increase. -/
lemma blockSubsidy_succ_le {height : ℕ} (h : 1 ≤ height) :
    blockSubsidy (height + 1) ≤ blockSubsidy height := by
  rw [blockSubsidy, blockSubsidy, if_neg (by omega), if_neg (by omega)]
  refine Nat.div_le_div_left (Nat.mul_le_mul (by omega) (by omega)) ?_
  rw [emissionConstant_eq]
  positivity

/-- **Emission never exceeds the supply.**  The subsidies of the first `n` blocks sum to at most
`TOTAL_SUPPLY_GRAINS * n / (n + EMISSION_CONSTANT)`, which is below the supply, and no block pays
more than the one before it. -/
theorem emission_bounded (n : ℕ) :
    ((∑ h ∈ Finset.Icc 1 n, blockSubsidy h : ℕ) : ℚ)
        ≤ totalSupplyGrains * n / (n + emissionConstant)
      ∧ ∑ h ∈ Finset.Icc 1 n, blockSubsidy h < totalSupplyGrains
      ∧ ∀ h, 1 ≤ h → blockSubsidy (h + 1) ≤ blockSubsidy h := by
  have hE : (0 : ℚ) < emissionConstant := by rw [emissionConstant_eq]; norm_num
  have hT : (0 : ℚ) < totalSupplyGrains := by norm_num [totalSupplyGrains, grainPerPearl]
  have hsum : ((∑ h ∈ Finset.Icc 1 n, blockSubsidy h : ℕ) : ℚ)
      ≤ totalSupplyGrains * n / (n + emissionConstant) := by
    rw [← hyperbolic_telescopes _ hE, Nat.cast_sum]
    exact Finset.sum_le_sum fun h hh => blockSubsidy_cast_le (Finset.mem_Icc.mp hh).1
  have hbelow : (totalSupplyGrains : ℚ) * n / (n + emissionConstant) < totalSupplyGrains := by
    rw [div_lt_iff₀ (by positivity)]
    exact mul_lt_mul_of_pos_left (lt_add_of_pos_right _ hE) hT
  exact ⟨hsum, by exact_mod_cast hsum.trans_lt hbelow, fun h hh => blockSubsidy_succ_le hh⟩

end P2Pearl
