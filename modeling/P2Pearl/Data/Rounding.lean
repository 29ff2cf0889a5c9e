import Mathlib.Tactic

/-!
Rounding with a bounded relative error, and averages computed with it.

* `Accurate`: on the numbers from `lo` to `hi`, rounding errs by at most a part `ε`.
* `smooth`: the weighted mean of an average and a new value, every operation rounded.
* `smooth_mem`: the mean as computed is off by at most three roundings; `smooth_mem_slack`: where
  the new values stay in a range, so does the average, up to a slack that does not grow.
-/

namespace P2Pearl

/-- On the numbers from `lo` to `hi`, `round` errs by at most a part `ε`. -/
def Accurate (ε lo hi : ℚ) (round : ℚ → ℚ) : Prop :=
  ∀ x, lo ≤ x → x ≤ hi → |round x - x| ≤ ε * x

/-- The weighted mean of an average and a new value, every operation rounded. -/
def smooth (round : ℚ → ℚ) (u v e x : ℚ) : ℚ := round (round (e * round u) + round (x * round v))

variable {ε lo hi u v e x δ low high : ℚ} {round : ℚ → ℚ}

lemma Accurate.le_round (h : Accurate ε lo hi round) (hlo : lo ≤ x) (hhi : x ≤ hi) :
    (1 - ε) * x ≤ round x := by
  have := (abs_le.mp (h x hlo hhi)).1
  linarith

lemma Accurate.round_le (h : Accurate ε lo hi round) (hlo : lo ≤ x) (hhi : x ≤ hi) :
    round x ≤ (1 + ε) * x := by
  have := (abs_le.mp (h x hlo hhi)).2
  linarith

/-- Rounding a product with a rounded weight. -/
lemma Accurate.weighted (h : Accurate ε lo hi round) (hε0 : 0 ≤ ε) (hε1 : ε ≤ 1) (hx : 0 ≤ x)
    (hu : lo ≤ u) (hu' : u ≤ hi) (hlo : lo ≤ (1 - ε) * (u * x))
    (hhi : (1 + ε) * (u * x) ≤ hi) :
    (1 - ε) ^ 2 * (u * x) ≤ round (x * round u) ∧ round (x * round u) ≤ (1 + ε) ^ 2 * (u * x) := by
  have hlow : (1 - ε) * (u * x) ≤ x * round u := by
    calc (1 - ε) * (u * x) = x * ((1 - ε) * u) := by ring
      _ ≤ _ := mul_le_mul_of_nonneg_left (h.le_round hu hu') hx
  have hhigh : x * round u ≤ (1 + ε) * (u * x) := by
    calc x * round u ≤ x * ((1 + ε) * u) := mul_le_mul_of_nonneg_left (h.round_le hu hu') hx
      _ = _ := by ring
  constructor
  · calc (1 - ε) ^ 2 * (u * x) = (1 - ε) * ((1 - ε) * (u * x)) := by ring
      _ ≤ (1 - ε) * (x * round u) := mul_le_mul_of_nonneg_left hlow (by linarith)
      _ ≤ _ := h.le_round (hlo.trans hlow) (hhigh.trans hhi)
  · calc round (x * round u) ≤ (1 + ε) * (x * round u) :=
          h.round_le (hlo.trans hlow) (hhigh.trans hhi)
      _ ≤ (1 + ε) * ((1 + ε) * (u * x)) := mul_le_mul_of_nonneg_left hhigh (by linarith)
      _ = _ := by ring

/-- The mean as computed is off by at most three roundings. -/
lemma Accurate.smooth_mem (h : Accurate ε lo hi round) (hε0 : 0 ≤ ε) (hε1 : ε ≤ 1) (hlo0 : 0 ≤ lo)
    (he : 0 ≤ e) (hx : 0 ≤ x) (hu : lo ≤ u) (hu' : u ≤ hi) (hv : lo ≤ v) (hv' : v ≤ hi)
    (hloe : lo ≤ (1 - ε) ^ 2 * (u * e)) (hlox : lo ≤ (1 - ε) ^ 2 * (v * x))
    (hhi : (1 + ε) ^ 2 * (u * e + v * x) ≤ hi) :
    (1 - ε) ^ 3 * (u * e + v * x) ≤ smooth round u v e x
      ∧ smooth round u v e x ≤ (1 + ε) ^ 3 * (u * e + v * x) := by
  have hue : 0 ≤ u * e := mul_nonneg (hlo0.trans hu) he
  have hvx : 0 ≤ v * x := mul_nonneg (hlo0.trans hv) hx
  have hshrink {y : ℚ} (hy : 0 ≤ y) : (1 - ε) ^ 2 * y ≤ (1 - ε) * y :=
    mul_le_mul_of_nonneg_right (pow_le_of_le_one (by linarith) (by linarith) two_ne_zero) hy
  have hgrow {y : ℚ} (hy : 0 ≤ y) : (1 + ε) * y ≤ (1 + ε) ^ 2 * y :=
    mul_le_mul_of_nonneg_right (le_self_pow₀ (by linarith) two_ne_zero) hy
  have hsum : (1 + ε) ^ 2 * (u * e + v * x) = (1 + ε) ^ 2 * (u * e) + (1 + ε) ^ 2 * (v * x) := by
    ring
  have hsq : 0 ≤ (1 + ε) ^ 2 := sq_nonneg _
  obtain ⟨hleE, hEle⟩ := h.weighted hε0 hε1 he hu hu' (hloe.trans (hshrink hue))
    ((hgrow hue).trans (by nlinarith [mul_nonneg hsq hvx]))
  obtain ⟨hleX, hXle⟩ := h.weighted hε0 hε1 hx hv hv' (hlox.trans (hshrink hvx))
    ((hgrow hvx).trans (by nlinarith [mul_nonneg hsq hue]))
  have hsumlo : lo ≤ round (e * round u) + round (x * round v) := by linarith
  have hsumhi : round (e * round u) + round (x * round v) ≤ hi := by linarith
  constructor
  · calc (1 - ε) ^ 3 * (u * e + v * x)
        = (1 - ε) * ((1 - ε) ^ 2 * (u * e) + (1 - ε) ^ 2 * (v * x)) := by ring
      _ ≤ (1 - ε) * (round (e * round u) + round (x * round v)) :=
          mul_le_mul_of_nonneg_left (add_le_add hleE hleX) (by linarith)
      _ ≤ _ := h.le_round hsumlo hsumhi
  · calc smooth round u v e x ≤ (1 + ε) * (round (e * round u) + round (x * round v)) :=
          h.round_le hsumlo hsumhi
      _ ≤ (1 + ε) * ((1 + ε) ^ 2 * (u * e) + (1 + ε) ^ 2 * (v * x)) :=
          mul_le_mul_of_nonneg_left (add_le_add hEle hXle) (by linarith)
      _ = _ := by ring

/-- Where the new values are from `low` to `high`, an average within a part `δ` of that range stays
so: the slack absorbs the roundings of one step. -/
lemma Accurate.smooth_mem_slack (h : Accurate ε lo hi round) (hε0 : 0 ≤ ε) (hε1 : ε ≤ 1)
    (hlo0 : 0 ≤ lo) (hlow0 : 0 ≤ low) (hδ1 : δ ≤ 1)
    (hu : lo ≤ u) (hu' : u ≤ hi) (hv : lo ≤ v) (hv' : v ≤ hi) (huv : u + v = 1)
    (hδlow : 1 - δ ≤ (1 - ε) ^ 3 * (1 - u * δ)) (hδhigh : (1 + ε) ^ 3 * (1 + u * δ) ≤ 1 + δ)
    (hlou : lo ≤ (1 - ε) ^ 2 * (u * ((1 - δ) * low))) (hlov : lo ≤ (1 - ε) ^ 2 * (v * low))
    (hhi : (1 + ε) ^ 2 * ((1 + u * δ) * high) ≤ hi)
    (he : (1 - δ) * low ≤ e) (he' : e ≤ (1 + δ) * high) (hx : low ≤ x) (hx' : x ≤ high) :
    (1 - δ) * low ≤ smooth round u v e x ∧ smooth round u v e x ≤ (1 + δ) * high := by
  have hu0 : 0 ≤ u := hlo0.trans hu
  have hv0 : 0 ≤ v := hlo0.trans hv
  have he0 : 0 ≤ e := (mul_nonneg (by linarith) hlow0).trans he
  have hsq : 0 ≤ (1 - ε) ^ 2 := sq_nonneg _
  have hmeanlow : (1 - u * δ) * low ≤ u * e + v * x := by
    calc (1 - u * δ) * low = u * ((1 - δ) * low) + v * low := by
          linear_combination -low * huv
      _ ≤ _ := add_le_add (mul_le_mul_of_nonneg_left he hu0) (mul_le_mul_of_nonneg_left hx hv0)
  have hmeanhigh : u * e + v * x ≤ (1 + u * δ) * high := by
    calc u * e + v * x ≤ u * ((1 + δ) * high) + v * high :=
          add_le_add (mul_le_mul_of_nonneg_left he' hu0) (mul_le_mul_of_nonneg_left hx' hv0)
      _ = _ := by linear_combination high * huv
  obtain ⟨hle, hge⟩ := h.smooth_mem hε0 hε1 hlo0 he0 (hlow0.trans hx) hu hu' hv hv'
    (hlou.trans (mul_le_mul_of_nonneg_left (mul_le_mul_of_nonneg_left he hu0) hsq))
    (hlov.trans (mul_le_mul_of_nonneg_left (mul_le_mul_of_nonneg_left hx hv0) hsq))
    ((mul_le_mul_of_nonneg_left hmeanhigh (sq_nonneg _)).trans hhi)
  constructor
  · calc (1 - δ) * low ≤ (1 - ε) ^ 3 * (1 - u * δ) * low :=
          mul_le_mul_of_nonneg_right hδlow hlow0
      _ = (1 - ε) ^ 3 * ((1 - u * δ) * low) := mul_assoc _ _ _
      _ ≤ (1 - ε) ^ 3 * (u * e + v * x) :=
          mul_le_mul_of_nonneg_left hmeanlow (pow_nonneg (by linarith) 3)
      _ ≤ _ := hle
  · calc smooth round u v e x ≤ (1 + ε) ^ 3 * (u * e + v * x) := hge
      _ ≤ (1 + ε) ^ 3 * ((1 + u * δ) * high) :=
          mul_le_mul_of_nonneg_left hmeanhigh (pow_nonneg (by linarith) 3)
      _ = (1 + ε) ^ 3 * (1 + u * δ) * high := (mul_assoc _ _ _).symm
      _ ≤ _ := mul_le_mul_of_nonneg_right hδhigh (hlow0.trans (hx.trans hx'))

end P2Pearl
