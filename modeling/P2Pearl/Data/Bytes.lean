import Mathlib.Tactic

/-!
Byte strings, and fixed-width integers as byte strings.

* `leBytes k n` and `beBytes k n` are the `k` low-order bytes of `n`, least and most
  significant byte first; `leNat` and `beNat` read them back.
* `leNat_leBytes` and `beNat_beBytes`: reading inverts writing below `256 ^ k`, so writing
  is injective there (`leBytes_inj`); `leBytes_leNat` and `beBytes_beNat`: writing inverts reading.
-/

namespace P2Pearl

/-- A byte string. -/
abbrev Bytes := List UInt8

/-- `not line.strip()`: nothing but whitespace. -/
def isBlank (line : Bytes) : Bool :=
  line.all fun b => b.toNat = 32 ∨ 9 ≤ b.toNat ∧ b.toNat ≤ 13

/-- The `k` low-order bytes of `n`, least significant first. -/
def leBytes : ℕ → ℕ → Bytes
  | 0, _ => []
  | k + 1, n => UInt8.ofNat (n % 256) :: leBytes k (n / 256)

/-- The number a byte string spells, least significant byte first. -/
def leNat : Bytes → ℕ
  | [] => 0
  | b :: bs => b.toNat + 256 * leNat bs

/-- The `k` low-order bytes of `n`, most significant first. -/
def beBytes (k n : ℕ) : Bytes := (leBytes k n).reverse

/-- The number a byte string spells, most significant byte first. -/
def beNat (bs : Bytes) : ℕ := leNat bs.reverse

@[simp] lemma leBytes_length (k n : ℕ) : (leBytes k n).length = k := by
  induction k generalizing n with
  | zero => rfl
  | succ k ih => rw [leBytes, List.length_cons, ih]

@[simp] lemma beBytes_length (k n : ℕ) : (beBytes k n).length = k := by simp [beBytes]

/-- Reading inverts writing on the numbers that fit the width. -/
lemma leNat_leBytes {k n : ℕ} (h : n < 256 ^ k) : leNat (leBytes k n) = n := by
  induction k generalizing n with
  | zero =>
      have : n = 0 := by simpa using h
      rw [this]; rfl
  | succ k ih =>
      have hdiv : n / 256 < 256 ^ k := by
        rw [pow_succ] at h
        exact Nat.div_lt_of_lt_mul (by omega)
      have hlow : (UInt8.ofNat (n % 256)).toNat = n % 256 := by
        rw [UInt8.toNat_ofNat']; omega
      rw [leBytes, leNat, hlow, ih hdiv]
      omega

lemma beNat_beBytes {k n : ℕ} (h : n < 256 ^ k) : beNat (beBytes k n) = n := by
  rw [beNat, beBytes, List.reverse_reverse, leNat_leBytes h]

lemma leBytes_inj {k m n : ℕ} (hm : m < 256 ^ k) (hn : n < 256 ^ k)
    (h : leBytes k m = leBytes k n) : m = n := by
  rw [← leNat_leBytes hm, ← leNat_leBytes hn, h]

/-- The number `k` bytes spell fits them. -/
lemma leNat_lt (b : Bytes) : leNat b < 256 ^ b.length := by
  induction b with
  | nil => exact Nat.one_pos
  | cons c b ih =>
      have hc : c.toNat < 256 := c.toNat_lt
      rw [leNat, List.length_cons, pow_succ]
      omega

/-- Writing the number a byte string spells returns it. -/
lemma leBytes_leNat (b : Bytes) : leBytes b.length (leNat b) = b := by
  induction b with
  | nil => rfl
  | cons c b ih =>
      have hc : c.toNat < 256 := c.toNat_lt
      have hlow : (c.toNat + 256 * leNat b) % 256 = c.toNat := by omega
      have hhigh : (c.toNat + 256 * leNat b) / 256 = leNat b := by omega
      rw [List.length_cons, leNat, leBytes, hlow, hhigh, ih, UInt8.ofNat_toNat]

lemma beBytes_beNat (b : Bytes) : beBytes b.length (beNat b) = b := by
  rw [beBytes, beNat, ← List.length_reverse, leBytes_leNat, List.reverse_reverse]

end P2Pearl
