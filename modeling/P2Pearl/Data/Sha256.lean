import P2Pearl.Data.Bytes

/-!
SHA-256 (FIPS 180-4) on lists of bytes, the `hashlib.sha256` every identifier of the
sharechain goes through.  Words are natural numbers below `2^32` with the reductions
written out, and every loop is structural, so a digest evaluates in the kernel.
-/

namespace P2Pearl

namespace Sha256

/-- The round constants `K`. -/
def roundConstants : List ℕ :=
  [0x428a2f98, 0x71374491, 0xb5c0fbcf, 0xe9b5dba5, 0x3956c25b, 0x59f111f1, 0x923f82a4, 0xab1c5ed5,
   0xd807aa98, 0x12835b01, 0x243185be, 0x550c7dc3, 0x72be5d74, 0x80deb1fe, 0x9bdc06a7, 0xc19bf174,
   0xe49b69c1, 0xefbe4786, 0x0fc19dc6, 0x240ca1cc, 0x2de92c6f, 0x4a7484aa, 0x5cb0a9dc, 0x76f988da,
   0x983e5152, 0xa831c66d, 0xb00327c8, 0xbf597fc7, 0xc6e00bf3, 0xd5a79147, 0x06ca6351, 0x14292967,
   0x27b70a85, 0x2e1b2138, 0x4d2c6dfc, 0x53380d13, 0x650a7354, 0x766a0abb, 0x81c2c92e, 0x92722c85,
   0xa2bfe8a1, 0xa81a664b, 0xc24b8b70, 0xc76c51a3, 0xd192e819, 0xd6990624, 0xf40e3585, 0x106aa070,
   0x19a4c116, 0x1e376c08, 0x2748774c, 0x34b0bcb5, 0x391c0cb3, 0x4ed8aa4a, 0x5b9cca4f, 0x682e6ff3,
   0x748f82ee, 0x78a5636f, 0x84c87814, 0x8cc70208, 0x90befffa, 0xa4506ceb, 0xbef9a3f7, 0xc67178f2]

/-- The eight working variables. -/
structure Regs where
  a : ℕ
  b : ℕ
  c : ℕ
  d : ℕ
  e : ℕ
  f : ℕ
  g : ℕ
  h : ℕ

/-- The initial hash value. -/
def initial : Regs :=
  ⟨0x6a09e667, 0xbb67ae85, 0x3c6ef372, 0xa54ff53a,
    0x510e527f, 0x9b05688c, 0x1f83d9ab, 0x5be0cd19⟩

/-- Reduction to a 32-bit word. -/
def word (n : ℕ) : ℕ := n % 4294967296

/-- Rotation of a 32-bit word to the right. -/
def rotr (n x : ℕ) : ℕ := (x >>> n) ||| word (x <<< (32 - n))

/-- `Σ₀`. -/
def bigSigma0 (x : ℕ) : ℕ := rotr 2 x ^^^ rotr 13 x ^^^ rotr 22 x

/-- `Σ₁`. -/
def bigSigma1 (x : ℕ) : ℕ := rotr 6 x ^^^ rotr 11 x ^^^ rotr 25 x

/-- `σ₀`. -/
def smallSigma0 (x : ℕ) : ℕ := rotr 7 x ^^^ rotr 18 x ^^^ (x >>> 3)

/-- `σ₁`. -/
def smallSigma1 (x : ℕ) : ℕ := rotr 17 x ^^^ rotr 19 x ^^^ (x >>> 10)

/-- `Ch(x, y, z)`. -/
def choice (x y z : ℕ) : ℕ := (x &&& y) ^^^ ((x ^^^ 4294967295) &&& z)

/-- `Maj(x, y, z)`. -/
def majority (x y z : ℕ) : ℕ := (x &&& y) ^^^ (x &&& z) ^^^ (y &&& z)

/-- Continue with the value of `n`: the case split makes an evaluator compute `n` here
instead of carrying it along unevaluated. -/
def force {α : Type} (n : ℕ) (k : ℕ → α) : α :=
  match n with
  | 0 => k 0
  | m + 1 => k (m + 1)

/-- The rounds of the compression function.  The message schedule is read off a sliding
window of sixteen words, and each round takes the oldest of them. -/
def rounds : List ℕ → List ℕ → Regs → Regs
  | k :: ks, w :: ws, ⟨a, b, c, d, e, f, g, h⟩ =>
      force (word (smallSigma1 (ws.getD 13 0) + ws.getD 8 0 + smallSigma0 (ws.getD 0 0) + w))
        fun w' =>
      force (h + bigSigma1 e + choice e f g + k + w) fun t =>
      force (word (t + (bigSigma0 a + majority a b c))) fun a' =>
      force (word (d + t)) fun e' =>
        rounds ks (ws ++ [w']) ⟨a', a, b, c, e', e, f, g⟩
  | _, _, r => r

/-- The big-endian 32-bit words of a byte string. -/
def words : Bytes → List ℕ
  | a :: b :: c :: d :: rest =>
      (a.toNat * 16777216 + b.toNat * 65536 + c.toNat * 256 + d.toNat) :: words rest
  | _ => []

/-- The compression function on one 64-byte block. -/
def compress : Regs → Bytes → Regs
  | ⟨a, b, c, d, e, f, g, h⟩, block =>
      match rounds roundConstants (words block) ⟨a, b, c, d, e, f, g, h⟩ with
      | ⟨a', b', c', d', e', f', g', h'⟩ =>
          ⟨word (a + a'), word (b + b'), word (c + c'), word (d + d'),
            word (e + e'), word (f + f'), word (g + g'), word (h + h')⟩

/-- The message with its padding: a one bit, zeros, and the bit length as a 64-bit word. -/
def pad (m : Bytes) : Bytes :=
  m ++ 0x80 :: (List.replicate ((119 - m.length % 64) % 64) 0 ++ beBytes 8 (8 * m.length))

/-- The first `n` blocks of 64 bytes. -/
def blocks : ℕ → Bytes → List Bytes
  | 0, _ => []
  | n + 1, m => m.take 64 :: blocks n (m.drop 64)

/-- The digest of a hash value. -/
def Regs.digest (r : Regs) : Bytes :=
  [r.a, r.b, r.c, r.d, r.e, r.f, r.g, r.h].flatMap (beBytes 4)

end Sha256

/-- `hashlib.sha256(m).digest()`. -/
def sha256 (m : Bytes) : Bytes :=
  let p := Sha256.pad m
  ((Sha256.blocks (p.length / 64) p).foldl Sha256.compress Sha256.initial).digest

/-- A digest has 32 bytes. -/
@[simp] lemma sha256_length (m : Bytes) : (sha256 m).length = 32 := rfl

/-- The one-block test vector of FIPS 180-4, the message `abc`. -/
example : sha256 [0x61, 0x62, 0x63] =
    [0xba, 0x78, 0x16, 0xbf, 0x8f, 0x01, 0xcf, 0xea, 0x41, 0x41, 0x40, 0xde, 0x5d, 0xae, 0x22, 0x23,
     0xb0, 0x03, 0x61, 0xa3, 0x96, 0x17, 0x7a, 0x9c, 0xb4, 0x10, 0xff, 0x61, 0xf2, 0x00, 0x15, 0xad]
    := by decide +kernel

end P2Pearl
