import P2Pearl.Data.Struct

/-!
Hexadecimal text.

* `hexDigits k n`: the format `0kx` of Python for a number of at most `k` digits; distinct
  numbers have distinct digits (`hexDigits_inj`).
* `Bytes.hex` and `fromHex`: `bytes.hex` and `bytes.fromhex`; `fromHex_hex` is the round trip, so
  distinct byte strings have distinct texts (`Bytes.hex_inj`).
-/

namespace P2Pearl

/-! ### Digits -/

/-- The digit of a number below 16. -/
def hexChar (d : ℕ) : Char := if d < 10 then Char.ofNat (48 + d) else Char.ofNat (87 + d)

/-- The number of a digit, in either case. -/
def hexVal (c : Char) : Option ℕ :=
  let n := c.toNat
  if 48 ≤ n ∧ n < 58 then some (n - 48)
  else if 97 ≤ n ∧ n < 103 then some (n - 87)
  else if 65 ≤ n ∧ n < 71 then some (n - 55)
  else none

lemma hexVal_hexChar : ∀ d < 16, hexVal (hexChar d) = some d := by decide

/-- The `k` low digits of a number, the highest first. -/
def hexDigits : ℕ → ℕ → PyStr
  | 0, _ => []
  | k + 1, n => hexDigits k (n / 16) ++ [hexChar (n % 16)]

@[simp] lemma length_hexDigits (k n : ℕ) : (hexDigits k n).length = k := by
  induction k generalizing n with
  | zero => rfl
  | succ k ih => rw [hexDigits, List.length_append, ih]; rfl

/-- Numbers that fit the digits have distinct digits. -/
lemma hexDigits_inj {k m n : ℕ} (hm : m < 16 ^ k) (hn : n < 16 ^ k)
    (h : hexDigits k m = hexDigits k n) : m = n := by
  induction k generalizing m n with
  | zero => omega
  | succ k ih =>
      obtain ⟨hhigh, hlow⟩ := List.append_inj' h rfl
      have hdigit : hexVal (hexChar (m % 16)) = hexVal (hexChar (n % 16)) := by
        rw [(List.cons.inj hlow).1]
      rw [hexVal_hexChar _ (Nat.mod_lt _ (by omega)), hexVal_hexChar _ (Nat.mod_lt _ (by omega)),
        Option.some.injEq] at hdigit
      have hrest := ih (by rw [pow_succ] at hm; omega) (by rw [pow_succ] at hn; omega) hhigh
      omega

/-! ### Byte strings -/

/-- `bytes.hex`. -/
def Bytes.hex (b : Bytes) : PyStr :=
  b.flatMap fun c => [hexChar (c.toNat / 16), hexChar (c.toNat % 16)]

@[simp] lemma Bytes.length_hex (b : Bytes) : (Bytes.hex b).length = 2 * b.length := by
  rw [Bytes.hex, List.length_flatMap]
  simp [Nat.mul_comm]

/-- The ASCII white space that `bytes.fromhex` skips between bytes. -/
def isHexSpace (c : Char) : Bool := c.toNat == 32 || (9 ≤ c.toNat && c.toNat ≤ 13)

/-- `bytes.fromhex`. -/
def fromHex : PyStr → Except PyError Bytes
  | [] => .ok []
  | [c] => if isHexSpace c then .ok [] else .error (.valueError "non-hexadecimal number found")
  | c :: d :: rest =>
      if isHexSpace c then fromHex (d :: rest)
      else
        match hexVal c, hexVal d with
        | some a, some b => (fromHex rest).map (UInt8.ofNat (16 * a + b) :: ·)
        | _, _ => .error (.valueError "non-hexadecimal number found")

lemma isHexSpace_hexChar : ∀ d < 16, isHexSpace (hexChar d) = false := by decide

/-- Reading the text of a byte string returns it. -/
lemma fromHex_hex (b : Bytes) : fromHex b.hex = .ok b := by
  induction b with
  | nil => rfl
  | cons c b ih =>
      have hlt : c.toNat < 256 := c.toNat_lt
      have hhigh : c.toNat / 16 < 16 := by omega
      have hlow : c.toNat % 16 < 16 := by omega
      have hbyte : UInt8.ofNat (16 * (c.toNat / 16) + c.toNat % 16) = c := by
        rw [Nat.div_add_mod, UInt8.ofNat_toNat]
      show fromHex (hexChar (c.toNat / 16) :: hexChar (c.toNat % 16) :: Bytes.hex b) = .ok (c :: b)
      rw [fromHex, if_neg (by simp [isHexSpace_hexChar _ hhigh])]
      simp only [hexVal_hexChar _ hhigh, hexVal_hexChar _ hlow, ih, hbyte]
      rfl

lemma Bytes.hex_inj {a b : Bytes} (h : a.hex = b.hex) : a = b := by
  have hread := fromHex_hex a
  rw [h, fromHex_hex, Except.ok.injEq] at hread
  exact hread.symm

end P2Pearl
