import P2Pearl.Consensus.Config

/-!
`consensus/difficulty.py`: the retarget and the compact encoding of a target.

* `retargetTarget`: the share target that follows a window of work, moved at most
  `RETARGET_CLAMP` times in either direction; `retargetTarget_pos` and
  `retargetTarget_le` keep it in the range a share accepts.
* `targetToBits`: the Bitcoin-compact `nbits` of a target, the form the proof verifier
  grades at.
-/

namespace P2Pearl

/-- `retarget_target`: the target that follows `prevTarget` when `windowWork` arrived in
`spanSeconds`. -/
def retargetTarget (prevTarget windowWork : ℕ) (spanSeconds : ℤ) (shareTimeSeconds clamp : ℕ) :
    ℕ :=
  if windowWork = 0 then prevTarget
  else
    let span := (max 1 spanSeconds).toNat
    let nextDifficulty := max 1 (windowWork * shareTimeSeconds / span)
    let target := maxTarget / nextDifficulty
    let lo := max 1 (prevTarget / clamp)
    let hi := min maxTarget (prevTarget * clamp)
    max lo (min hi target)

lemma retargetTarget_pos {prevTarget : ℕ} (h : 0 < prevTarget) (windowWork : ℕ)
    (spanSeconds : ℤ) (shareTimeSeconds clamp : ℕ) :
    0 < retargetTarget prevTarget windowWork spanSeconds shareTimeSeconds clamp := by
  rw [retargetTarget]
  split_ifs
  · exact h
  · exact lt_max_of_lt_left (lt_max_of_lt_left Nat.one_pos)

lemma retargetTarget_le {prevTarget : ℕ} (h : prevTarget ≤ maxTarget) (windowWork : ℕ)
    (spanSeconds : ℤ) (shareTimeSeconds clamp : ℕ) :
    retargetTarget prevTarget windowWork spanSeconds shareTimeSeconds clamp ≤ maxTarget := by
  rw [retargetTarget]
  split_ifs
  · exact h
  · refine max_le (max_le ?_ ((Nat.div_le_self _ _).trans h))
      ((min_le_left _ _).trans (min_le_left _ _))
    norm_num [maxTarget]

/-- `target_to_bits`: the compact encoding of a target, its mantissa rounded down to 23
bits. -/
def targetToBits (target : ℕ) : ℕ :=
  if target = 0 then 0
  else
    let nbytes := (target.log2 + 1 + 7) / 8
    let mantissa :=
      if nbytes ≤ 3 then target <<< (8 * (3 - nbytes)) else target >>> (8 * (nbytes - 3))
    if mantissa &&& 0x00800000 ≠ 0 then
      ((nbytes + 1) <<< 24) ||| ((mantissa >>> 8) &&& 0x007FFFFF)
    else
      (nbytes <<< 24) ||| (mantissa &&& 0x007FFFFF)

end P2Pearl
