import Mathlib.Data.Nat.Log
import Mathlib.Tactic.Ring
import Mathlib.Tactic.Linarith

/-!
Natural numbers in floating point, the mantissa rounded down.

A `Floating` format has the base `2 ^ width`, and a mantissa from `2 ^ precision` up to the next
power of the base, so every positive number has one exponent (`exponent_eq`).

* `round_le`, `lt_round_mul`: rounding stays below the number, by less than one part in
  `2 ^ precision`.
* `exponent_round`, `mantissa_round`: a rounded number keeps its encoding.
* `exponent_mono`, `mantissa_mono`: a larger number has no smaller encoding.
-/

namespace P2Pearl

/-- A floating-point format: a mantissa `m` at the exponent `e` stands for
`m * 2 ^ (width * (e - bias))`. -/
structure Floating where
  width : ℕ
  precision : ℕ
  bias : ℕ
  width_pos : 0 < width
  precision_le : precision ≤ width * bias

namespace Floating

variable (F : Floating)

/-- The exponent of a number. -/
def exponent (t : ℕ) : ℕ := (t.log2 + F.width * F.bias - F.precision) / F.width

/-- The mantissa of a number, rounded down. -/
def mantissa (t : ℕ) : ℕ := t * 2 ^ (F.width * F.bias) / 2 ^ (F.width * F.exponent t)

/-- The number a mantissa stands for at an exponent. -/
def decode (e m : ℕ) : ℕ := m * 2 ^ (F.width * e) / 2 ^ (F.width * F.bias)

/-- The number after rounding. -/
def round (t : ℕ) : ℕ := F.decode (F.exponent t) (F.mantissa t)

variable {F} {t t' e : ℕ}

/-- The numbers of an exponent. -/
lemma exponent_window (ht : 0 < t) :
    2 ^ (F.precision + F.width * F.exponent t) ≤ t * 2 ^ (F.width * F.bias)
      ∧ t * 2 ^ (F.width * F.bias) < 2 ^ (F.precision + F.width + F.width * F.exponent t) := by
  have hlog := (Nat.log2_eq_iff ht.ne').mp (rfl : t.log2 = t.log2)
  have hlow : F.width * F.exponent t ≤ t.log2 + F.width * F.bias - F.precision :=
    Nat.mul_div_le _ _
  have hhigh : t.log2 + F.width * F.bias - F.precision < F.width * (F.exponent t + 1) :=
    Nat.lt_mul_div_succ _ F.width_pos
  have hprec := F.precision_le
  rw [Nat.mul_add, Nat.mul_one] at hhigh
  constructor
  · calc 2 ^ (F.precision + F.width * F.exponent t)
        ≤ 2 ^ (t.log2 + F.width * F.bias) := Nat.pow_le_pow_right (by norm_num) (by omega)
      _ = 2 ^ t.log2 * 2 ^ (F.width * F.bias) := Nat.pow_add _ _ _
      _ ≤ _ := Nat.mul_le_mul_right _ hlog.1
  · calc t * 2 ^ (F.width * F.bias)
        < 2 ^ (t.log2 + 1) * 2 ^ (F.width * F.bias) :=
          Nat.mul_lt_mul_of_pos_right hlog.2 (Nat.two_pow_pos _)
      _ = 2 ^ (t.log2 + 1 + F.width * F.bias) := (Nat.pow_add _ _ _).symm
      _ ≤ _ := Nat.pow_le_pow_right (by norm_num) (by omega)

/-- No other exponent has the number. -/
lemma exponent_eq (ht : 0 < t)
    (hlow : 2 ^ (F.precision + F.width * e) ≤ t * 2 ^ (F.width * F.bias))
    (hhigh : t * 2 ^ (F.width * F.bias) < 2 ^ (F.precision + F.width + F.width * e)) :
    F.exponent t = e := by
  obtain ⟨hlow', hhigh'⟩ := exponent_window (F := F) ht
  have hle := (Nat.pow_lt_pow_iff_right (by norm_num)).mp (hlow.trans_lt hhigh')
  have hge := (Nat.pow_lt_pow_iff_right (by norm_num)).mp (hlow'.trans_lt hhigh)
  have h1 : e < F.exponent t + 1 :=
    Nat.lt_of_mul_lt_mul_left (a := F.width) (by rw [Nat.mul_add]; omega)
  have h2 : F.exponent t < e + 1 :=
    Nat.lt_of_mul_lt_mul_left (a := F.width) (by rw [Nat.mul_add]; omega)
  omega

/-- A mantissa is in range. -/
lemma mantissa_window (ht : 0 < t) :
    2 ^ F.precision ≤ F.mantissa t ∧ F.mantissa t < 2 ^ (F.precision + F.width) := by
  obtain ⟨hlow, hhigh⟩ := exponent_window (F := F) ht
  rw [mantissa, Nat.le_div_iff_mul_le (Nat.two_pow_pos _),
    Nat.div_lt_iff_lt_mul (Nat.two_pow_pos _), ← Nat.pow_add, ← Nat.pow_add]
  exact ⟨hlow, hhigh⟩

/-- Decoding a mantissa loses nothing. -/
lemma round_mul (t : ℕ) :
    F.round t * 2 ^ (F.width * F.bias) = F.mantissa t * 2 ^ (F.width * F.exponent t) := by
  refine Nat.div_mul_cancel ?_
  rcases le_total (F.exponent t) F.bias with h | h
  · have hdvd : 2 ^ (F.width * F.exponent t) ∣ t * 2 ^ (F.width * F.bias) :=
      (Nat.pow_dvd_pow 2 (Nat.mul_le_mul_left _ h)).mul_left t
    rw [mantissa, Nat.div_mul_cancel hdvd]
    exact Nat.dvd_mul_left _ _
  · exact (Nat.pow_dvd_pow 2 (Nat.mul_le_mul_left _ h)).mul_left _

/-- Rounding does not increase a number. -/
lemma round_le (t : ℕ) : F.round t ≤ t := by
  refine Nat.le_of_mul_le_mul_right ?_ (Nat.two_pow_pos (F.width * F.bias))
  rw [round_mul]
  exact Nat.div_mul_le_self _ _

/-- It takes away less than one part in `2 ^ precision`. -/
lemma lt_round_mul (ht : 0 < t) :
    t * 2 ^ F.precision < F.round t * (2 ^ F.precision + 1) := by
  refine Nat.lt_of_mul_lt_mul_right (a := 2 ^ (F.width * F.bias)) ?_
  have hlt : t * 2 ^ (F.width * F.bias)
      < (F.mantissa t + 1) * 2 ^ (F.width * F.exponent t) := by
    rw [Nat.mul_comm (F.mantissa t + 1)]
    exact Nat.lt_mul_div_succ _ (Nat.two_pow_pos _)
  have hstep : 2 ^ F.precision * 2 ^ (F.width * F.exponent t)
      ≤ F.mantissa t * 2 ^ (F.width * F.exponent t) :=
    Nat.mul_le_mul_right _ (mantissa_window ht).1
  have hround := round_mul (F := F) t
  calc t * 2 ^ F.precision * 2 ^ (F.width * F.bias)
      = t * 2 ^ (F.width * F.bias) * 2 ^ F.precision := Nat.mul_right_comm _ _ _
    _ < (F.mantissa t + 1) * 2 ^ (F.width * F.exponent t) * 2 ^ F.precision :=
        Nat.mul_lt_mul_of_pos_right hlt (Nat.two_pow_pos _)
    _ = F.mantissa t * 2 ^ (F.width * F.exponent t) * 2 ^ F.precision
          + 2 ^ F.precision * 2 ^ (F.width * F.exponent t) := by ring
    _ ≤ F.mantissa t * 2 ^ (F.width * F.exponent t) * 2 ^ F.precision
          + F.mantissa t * 2 ^ (F.width * F.exponent t) := Nat.add_le_add_left hstep _
    _ = F.round t * (2 ^ F.precision + 1) * 2 ^ (F.width * F.bias) := by
        rw [← hround]; ring

lemma round_pos (ht : 0 < t) : 0 < F.round t := by
  refine Nat.pos_of_ne_zero fun h => ?_
  have hlt := lt_round_mul (F := F) ht
  rw [h, Nat.zero_mul] at hlt
  omega

/-- A rounded number has the exponent of the number. -/
lemma exponent_round (ht : 0 < t) : F.exponent (F.round t) = F.exponent t := by
  obtain ⟨hlow, hhigh⟩ := mantissa_window (F := F) ht
  refine exponent_eq (round_pos ht) ?_ ?_
  · rw [round_mul, Nat.pow_add]
    exact Nat.mul_le_mul_right _ hlow
  · rw [round_mul, Nat.pow_add 2 (F.precision + F.width)]
    exact Nat.mul_lt_mul_of_pos_right hhigh (Nat.two_pow_pos _)

/-- And its mantissa. -/
lemma mantissa_round (ht : 0 < t) : F.mantissa (F.round t) = F.mantissa t := by
  rw [mantissa, exponent_round ht, round_mul]
  exact Nat.mul_div_cancel _ (Nat.two_pow_pos _)

/-- The exponent grows with the number. -/
lemma exponent_mono (ht : 0 < t) (h : t ≤ t') : F.exponent t ≤ F.exponent t' := by
  have hlow := (exponent_window (F := F) ht).1
  have hhigh := (exponent_window (F := F) (ht.trans_le h)).2
  have hlt := (hlow.trans (Nat.mul_le_mul_right _ h)).trans_lt hhigh
  have hexp := (Nat.pow_lt_pow_iff_right (by norm_num)).mp hlt
  have hstep : F.exponent t < F.exponent t' + 1 :=
    Nat.lt_of_mul_lt_mul_left (a := F.width) (by rw [Nat.mul_add]; omega)
  omega

/-- At one exponent so does the mantissa. -/
lemma mantissa_mono (h : t ≤ t') (he : F.exponent t = F.exponent t') :
    F.mantissa t ≤ F.mantissa t' := by
  rw [mantissa, mantissa, he]
  exact Nat.div_le_div_right (Nat.mul_le_mul_right _ h)

end Floating

end P2Pearl
