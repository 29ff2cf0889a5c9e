import Mathlib.Data.Nat.Bitwise
import P2Pearl.Consensus.Difficulty
import P2Pearl.Consensus.Share
import P2Pearl.Data.Floating

/-!
The compact encoding of a target is never easier than the target, and nearly exact.

* `compact`: the floating-point format of compact targets; `targetToBits_eq`: the shifts of
  `target_to_bits` and its step around the sign bit compute its exponent and its mantissa.
* `Compact.bitsToTarget`: the decoder of the tests; `bitsToTarget_targetToBits`: it gives the target
  after rounding.
* `target_to_bits_sound`: what follows for every target of 256 bits.
-/

namespace P2Pearl

/-- The format of compact targets: powers of 256, and 15 bits of precision where the sign bit of the
mantissa costs a byte. -/
def compact : Floating where
  width := 8
  precision := 15
  bias := 3
  width_pos := by norm_num
  precision_le := by norm_num

namespace Compact

/-- `_bits_to_target`: the reference decoder of the tests. -/
def bitsToTarget (bits : ℕ) : ℕ :=
  let exponent := (bits >>> 24) &&& 0xFF
  let mantissa := bits &&& 0xFFFFFF
  if exponent ≤ 3 then mantissa >>> (8 * (3 - exponent)) else mantissa <<< (8 * (exponent - 3))

end Compact

/-! ### Packed bits -/

section Packed

variable {e m : ℕ}

/-- The two fields of the encoding do not overlap. -/
lemma packed_eq (hm : m < 2 ^ 24) : (e <<< 24) ||| m = e * 2 ^ 24 + m := by
  rw [← Nat.shiftLeft_add_eq_or_of_lt hm, Nat.shiftLeft_eq]

/-- The decoder reads both fields back. -/
lemma bitsToTarget_packed (he : e < 2 ^ 8) (hm : m < 2 ^ 24) :
    Compact.bitsToTarget (e * 2 ^ 24 + m) = compact.decode e m := by
  have hexp : (e * 2 ^ 24 + m) >>> 24 &&& 0xFF = e := by
    rw [Nat.shiftRight_eq_div_pow, show 0xFF = 2 ^ 8 - 1 by norm_num,
      Nat.and_two_pow_sub_one_eq_mod]
    omega
  have hman : (e * 2 ^ 24 + m) &&& 0xFFFFFF = m := by
    rw [show 0xFFFFFF = 2 ^ 24 - 1 by norm_num, Nat.and_two_pow_sub_one_eq_mod]
    omega
  rw [Compact.bitsToTarget, hexp, hman, Floating.decode, compact]
  dsimp only
  split_ifs with h
  · rw [Nat.shiftRight_eq_div_pow, ← Nat.mul_div_mul_right m _ (Nat.two_pow_pos (8 * e)),
      ← Nat.pow_add]
    congr 2
    omega
  · rw [Nat.shiftLeft_eq, show 8 * e = 8 * (e - 3) + 8 * 3 by omega, Nat.pow_add 2, ← Nat.mul_assoc,
      Nat.mul_div_cancel _ (Nat.two_pow_pos _)]

end Packed

/-! ### The encoder -/

variable {t : ℕ}

/-- The byte length of a positive number brackets it. -/
lemma byteLength_window (ht : 0 < t) :
    2 ^ (16 + 8 * ((t.log2 + 1 + 7) / 8)) ≤ t * 2 ^ 24
      ∧ t * 2 ^ 24 < 2 ^ (24 + 8 * ((t.log2 + 1 + 7) / 8)) := by
  have hlog := (Nat.log2_eq_iff ht.ne').mp (rfl : t.log2 = t.log2)
  constructor
  · calc 2 ^ (16 + 8 * ((t.log2 + 1 + 7) / 8)) ≤ 2 ^ (t.log2 + 24) :=
          Nat.pow_le_pow_right (by norm_num) (by omega)
      _ = 2 ^ t.log2 * 2 ^ 24 := Nat.pow_add _ _ _
      _ ≤ _ := Nat.mul_le_mul_right _ hlog.1
  · calc t * 2 ^ 24 < 2 ^ (t.log2 + 1) * 2 ^ 24 := Nat.mul_lt_mul_of_pos_right hlog.2 (by norm_num)
      _ = 2 ^ (t.log2 + 1 + 24) := (Nat.pow_add _ _ _).symm
      _ ≤ _ := Nat.pow_le_pow_right (by norm_num) (by omega)

/-- Both shifts of the encoder scale the target to its byte length. -/
lemma scaled_eq (t n : ℕ) :
    (if n ≤ 3 then t <<< (8 * (3 - n)) else t >>> (8 * (n - 3))) = t * 2 ^ 24 / 2 ^ (8 * n) := by
  split_ifs with h
  · rw [Nat.shiftLeft_eq, show 24 = 8 * (3 - n) + 8 * n by omega, Nat.pow_add, ← Nat.mul_assoc,
      Nat.mul_div_cancel _ (Nat.two_pow_pos _)]
  · rw [Nat.shiftRight_eq_div_pow, show 8 * n = 8 * (n - 3) + 24 by omega, Nat.pow_add,
      Nat.mul_div_mul_right _ _ (Nat.two_pow_pos _)]

/-- The sign bit is bit 23. -/
lemma signBit_iff (b : ℕ) : b &&& 0x00800000 ≠ 0 ↔ b / 2 ^ 23 % 2 = 1 := by
  rw [show 0x00800000 = 2 ^ 23 by norm_num, Nat.and_two_pow, Nat.testBit_eq_decide_div_mod_eq]
  by_cases h : b / 2 ^ 23 % 2 = 1
  · rw [decide_eq_true h]
    exact iff_of_true (by norm_num) h
  · rw [decide_eq_false h]
    exact iff_of_false (by norm_num) h

/-- `target_to_bits` packs the exponent and the mantissa of the target. -/
lemma targetToBits_eq (ht : 0 < t) :
    targetToBits t = compact.exponent t * 2 ^ 24 + compact.mantissa t := by
  obtain ⟨hlow, hhigh⟩ := byteLength_window ht
  rw [targetToBits, if_neg ht.ne']
  dsimp only
  rw [scaled_eq]
  generalize (t.log2 + 1 + 7) / 8 = n at hlow hhigh ⊢
  have hscaled : t * 2 ^ 24 / 2 ^ (8 * n) < 2 ^ 24 := by
    rwa [Nat.div_lt_iff_lt_mul (Nat.two_pow_pos _), ← Nat.pow_add]
  have hmask : ∀ m, m < 2 ^ 23 → m &&& 0x007FFFFF = m := fun m hm => by
    rw [show 0x007FFFFF = 2 ^ 23 - 1 by norm_num, Nat.and_two_pow_sub_one_eq_mod,
      Nat.mod_eq_of_lt hm]
  by_cases hsign : 2 ^ 23 ≤ t * 2 ^ 24 / 2 ^ (8 * n)
  · -- the sign bit is set: the mantissa loses a byte
    have hwindow : 2 ^ (23 + 8 * n) ≤ t * 2 ^ 24 := by
      rwa [Nat.le_div_iff_mul_le (Nat.two_pow_pos _), ← Nat.pow_add] at hsign
    have hexp : compact.exponent t = n + 1 :=
      Floating.exponent_eq ht
        ((Nat.pow_le_pow_right (by norm_num) (by simp only [compact]; omega)).trans hwindow)
        (hhigh.trans_le (Nat.pow_le_pow_right (by norm_num) (by simp only [compact]; omega)))
    have hman : compact.mantissa t = t * 2 ^ 24 / 2 ^ (8 * n) / 2 ^ 8 := by
      rw [Floating.mantissa, hexp, Nat.div_div_eq_div_mul, ← Nat.pow_add]
      rfl
    rw [if_pos ((signBit_iff _).mpr (by omega)), hexp, hman, Nat.shiftRight_eq_div_pow]
    rw [hmask _ (by omega), packed_eq (by omega)]
  · have hexp : compact.exponent t = n := by
      refine Floating.exponent_eq ht ?_ ?_
      · exact (Nat.pow_le_pow_right (by norm_num) (by simp only [compact]; omega)).trans hlow
      · rw [not_le, Nat.div_lt_iff_lt_mul (Nat.two_pow_pos _), ← Nat.pow_add] at hsign
        exact hsign
    have hman : compact.mantissa t = t * 2 ^ 24 / 2 ^ (8 * n) := by
      rw [Floating.mantissa, hexp]
      rfl
    rw [if_neg (mt (signBit_iff _).mp (by omega)), hexp, hman, hmask _ (by omega),
      packed_eq (by omega)]

/-- A larger target has no smaller encoding. -/
lemma targetToBits_mono {t' : ℕ} (ht : 0 < t) (h : t ≤ t') : targetToBits t ≤ targetToBits t' := by
  have hman := (Floating.mantissa_window (F := compact) ht).2
  rw [targetToBits_eq ht, targetToBits_eq (ht.trans_le h)]
  rcases (Floating.exponent_mono (F := compact) ht h).lt_or_eq with hlt | heq
  · change _ < 2 ^ 23 at hman
    omega
  · have := Floating.mantissa_mono h heq
    omega

/-- The exponent of a target of 256 bits fits in a byte. -/
lemma exponent_lt (ht : 0 < t) (hle : t ≤ maxTarget) : compact.exponent t < 2 ^ 8 := by
  have hlog : t.log2 < 256 := (Nat.log2_lt ht.ne').mpr (by rw [maxTarget] at hle; omega)
  change (t.log2 + 24 - 15) / 8 < 2 ^ 8
  omega

lemma targetToBits_lt (ht : 0 < t) (hle : t ≤ maxTarget) : targetToBits t < 2 ^ 32 := by
  have hexp := exponent_lt ht hle
  have hman : compact.mantissa t < 2 ^ 23 := (Floating.mantissa_window ht).2
  rw [targetToBits_eq ht]
  omega

/-- Decoding the encoding of a target rounds the target. -/
lemma bitsToTarget_targetToBits (ht : 0 < t) (hle : t ≤ maxTarget) :
    Compact.bitsToTarget (targetToBits t) = compact.round t := by
  have hman : compact.mantissa t < 2 ^ 23 := (Floating.mantissa_window ht).2
  rw [targetToBits_eq ht, bitsToTarget_packed (exponent_lt ht hle) (by omega)]
  rfl

/-- **The compact target is never easier and nearly exact.**  The encoding of a target fits in 32
bits with the sign bit clear; it decodes to a target below it by less than one part in `2 ^ 15`,
whose encoding is the same; and a larger target has no smaller encoding.  What is graded at the
encoding meets the target, at no less than the difficulty of a share with that target. -/
theorem target_to_bits_sound {t : ℕ} (hpos : 1 ≤ t) (hle : t ≤ maxTarget) :
    targetToBits t &&& 0x00800000 = 0 ∧ targetToBits t < 2 ^ 32
      ∧ 0 < Compact.bitsToTarget (targetToBits t)
      ∧ Compact.bitsToTarget (targetToBits t) ≤ t
      ∧ (t : ℚ) < Compact.bitsToTarget (targetToBits t) * (1 + 1 / 2 ^ 15)
      ∧ targetToBits (Compact.bitsToTarget (targetToBits t)) = targetToBits t
      ∧ (∀ t', t ≤ t' → targetToBits t ≤ targetToBits t')
      ∧ (∀ hash, hash ≤ Compact.bitsToTarget (targetToBits t) → hash ≤ t)
      ∧ ∀ share : ShareBlock, share.shareTarget = t →
          share.difficulty ≤ maxTarget / Compact.bitsToTarget (targetToBits t) := by
  have hman : compact.mantissa t < 2 ^ 23 := (Floating.mantissa_window hpos).2
  have hround := Floating.round_pos (F := compact) hpos
  have hrle := Floating.round_le (F := compact) t
  have hlt : t * 2 ^ 15 < compact.round t * (2 ^ 15 + 1) :=
    Floating.lt_round_mul (F := compact) hpos
  rw [bitsToTarget_targetToBits hpos hle]
  refine ⟨?_, targetToBits_lt hpos hle, hround, hrle, ?_, ?_, fun t' h => targetToBits_mono hpos h,
    fun hash h => h.trans hrle, fun share h => ?_⟩
  · rw [targetToBits_eq hpos]
    by_contra hsign
    have := (signBit_iff _).mp hsign
    omega
  · have hcast : (t : ℚ) * 2 ^ 15 < compact.round t * (2 ^ 15 + 1) := by exact_mod_cast hlt
    linarith
  · rw [targetToBits_eq hround, targetToBits_eq hpos, Floating.exponent_round hpos,
      Floating.mantissa_round hpos]
  · rw [ShareBlock.difficulty, h]
    exact Nat.div_le_div_left hrle hround

/-- The largest target is encoded a little harder. -/
theorem target_to_bits_sound_max : targetToBits maxTarget < 2 ^ 32
    ∧ Compact.bitsToTarget (targetToBits maxTarget) ≤ maxTarget :=
  have h := target_to_bits_sound (t := maxTarget) (by decide) le_rfl
  ⟨h.2.1, h.2.2.2.1⟩

end P2Pearl
