import P2Pearl.Data.Struct

/-!
`pow/verify.py`: the proof verification wrappers.

* `PearlMining`: what the wrappers and the header builder use of the `pearl_mining` module, whose
  builds differ in which verifiers they export.
* `verifyShare` grades a proof at the share target, `verifyBlockSolution` at the target the header
  carries; `GradesAtHeader` is the documented behaviour that relates the two.
* `stockMining`: a build with that behaviour, for concrete runs.
-/

namespace P2Pearl

/-- What the node uses of `pearl_mining`. -/
structure PearlMining where
  /-- `IncompleteBlockHeader`. -/
  Header : Type
  /-- `PlainProof`. -/
  Proof : Type
  /-- `IncompleteBlockHeader(version, prev_block, merkle_root, timestamp, nbits)`. -/
  newHeader : ℕ → Bytes → Bytes → ℕ → ℕ → Except PyError Header
  toBytes : Header → Bytes
  fromBytes : Bytes → Except PyError Header
  fromBase64 : PyStr → Except PyError Proof
  /-- `verify_plain_proof_for_cert_version`, where the build has it, with its nbits override. -/
  versioned : Option (ℕ → Header → Proof → Option ℕ → Except PyError Bool)
  /-- `verify_plain_proof`, where the build has it. -/
  native : Option (Header → Proof → Option ℕ → Except PyError Bool)
  /-- `verify_plain_proof_with_nbits` of a patched build. -/
  withNbits : Option (Header → Proof → ℕ → Except PyError Bool)

variable (M : PearlMining)

/-- The fallback of `verify_share` to the patched binding. -/
def verifyPatched (header : M.Header) (proof : M.Proof) (shareNbits : ℕ) : Except PyError Bool :=
  match M.withNbits with
  | none => .error .notImplementedError
  | some verify => verify header proof shareNbits

/-- `verify_share`: a plain proof against the share target. -/
def verifyShare (headerBytes : Bytes) (plainProof : PyStr) (shareNbits : ℕ)
    (certVersion : Option ℕ) : Except PyError Bool := do
  let proof ← M.fromBase64 plainProof
  let header ← M.fromBytes headerBytes
  match M.versioned, certVersion with
  | some verify, some version => verify version header proof (some shareNbits)
  | _, _ =>
      match M.native with
      | none => verifyPatched M header proof shareNbits
      | some verify =>
          match verify header proof (some shareNbits) with
          | .error .typeError => verifyPatched M header proof shareNbits
          | result => result

/-- `verify_block_solution`: a plain proof against the block target of the header. -/
def verifyBlockSolution (headerBytes : Bytes) (plainProof : PyStr) (certVersion : Option ℕ) :
    Except PyError Bool := do
  let proof ← M.fromBase64 plainProof
  let header ← M.fromBytes headerBytes
  match M.versioned, certVersion with
  | some verify, some version => verify version header proof none
  | _, _ =>
      match M.native with
      | none => .error .attributeError
      | some verify => verify header proof none

/-- The block verifier grades a proof at the compact target its header was built with. -/
def GradesAtHeader : Prop :=
  ∀ version prevBlock merkleRoot timestamp nbits header,
    M.newHeader version prevBlock merkleRoot timestamp nbits = .ok header →
    ∀ proof certVersion, verifyBlockSolution M (M.toBytes header) proof certVersion
      = verifyShare M (M.toBytes header) proof nbits certVersion

/-! ### A stock build -/

/-- The target of a compact encoding, `mantissa * 256 ** (exponent - 3)`. -/
def bitsToTarget (nbits : ℕ) : ℕ := (nbits % 2 ^ 24) * 256 ^ (nbits / 2 ^ 24 - 3)

/-- A stock build with the documented 76-byte header layout, in which `jackpot` is the hash a proof
attains: it verifies at a compact target when the hash is not above it, by default at the one the
header ends with. -/
def stockMining (jackpot : PyStr → ℕ) : PearlMining where
  Header := Bytes
  Proof := PyStr
  newHeader version prevBlock merkleRoot timestamp nbits := do
    let version ← pack 4 version
    let timestamp ← pack 4 timestamp
    let nbits ← pack 4 nbits
    if prevBlock.length = 32 ∧ merkleRoot.length = 32 then
      return version ++ (prevBlock.reverse ++ (merkleRoot.reverse ++ (timestamp ++ nbits)))
    else .error .typeError
  toBytes header := header
  fromBytes b := if b.length = 76 then .ok b else .error (.valueError "header must be 76 bytes")
  fromBase64 s := .ok s
  versioned := some fun _ header proof nbits =>
    .ok (decide (jackpot proof ≤ bitsToTarget (nbits.getD (leNat (header.drop 72)))))
  native := some fun header proof nbits =>
    .ok (decide (jackpot proof ≤ bitsToTarget (nbits.getD (leNat (header.drop 72)))))
  withNbits := none

/-- A header of the stock build has 76 bytes and ends with its compact target. -/
lemma stockMining_layout {jackpot : PyStr → ℕ} {version timestamp nbits : ℕ}
    {prevBlock merkleRoot header : Bytes}
    (h : (stockMining jackpot).newHeader version prevBlock merkleRoot timestamp nbits
      = .ok header) :
    header.length = 76 ∧ leNat (header.drop 72) = nbits := by
  simp only [stockMining, bind_eq_ok_iff, pack_eq_ok_iff] at h
  obtain ⟨_, ⟨-, rfl⟩, _, ⟨-, rfl⟩, _, ⟨hnbits, rfl⟩, h⟩ := h
  split_ifs at h with hlen
  obtain ⟨hprev, hroot⟩ := hlen
  cases h
  refine ⟨by simp [hprev, hroot], ?_⟩
  rw [← List.append_assoc, ← List.append_assoc, ← List.append_assoc,
    List.drop_left' (by simp [hprev, hroot]), leNat_leBytes (by omega)]

/-- The stock build makes a header of fields that fit. -/
lemma stockMining_newHeader (jackpot : PyStr → ℕ) {version timestamp nbits : ℕ}
    {prevBlock merkleRoot : Bytes} (hv : version < 2 ^ 32) (ht : timestamp < 2 ^ 32)
    (hn : nbits < 2 ^ 32) (hlen : prevBlock.length = 32 ∧ merkleRoot.length = 32) :
    ∃ header, (stockMining jackpot).newHeader version prevBlock merkleRoot timestamp nbits
      = .ok header := by
  simp only [stockMining, pack_of_lt (k := 4) (n := version) (by omega),
    pack_of_lt (k := 4) (n := timestamp) (by omega), pack_of_lt (k := 4) (n := nbits) (by omega),
    ok_bind, if_pos hlen]
  exact ⟨_, rfl⟩

/-- The stock build verifies a proof at a share target when its hash is not above it. -/
lemma stockMining_verifyShare {jackpot : PyStr → ℕ} {header : Bytes} (hlen : header.length = 76)
    (proof : PyStr) (shareNbits : ℕ) (certVersion : Option ℕ) :
    verifyShare (stockMining jackpot) header proof shareNbits certVersion
      = .ok (decide (jackpot proof ≤ bitsToTarget shareNbits)) := by
  have hbytes : (stockMining jackpot).fromBytes header = .ok header := if_pos hlen
  unfold verifyShare
  rw [hbytes]
  cases certVersion <;> rfl

lemma stockMining_gradesAtHeader (jackpot : PyStr → ℕ) : GradesAtHeader (stockMining jackpot) := by
  intro version prevBlock merkleRoot timestamp nbits header hnew proof certVersion
  obtain ⟨hlen, rfl⟩ := stockMining_layout hnew
  have hbytes : (stockMining jackpot).fromBytes header = .ok header := if_pos hlen
  change verifyBlockSolution (stockMining jackpot) header proof certVersion
    = verifyShare (stockMining jackpot) header proof (leNat (List.drop 72 header)) certVersion
  rw [stockMining_verifyShare hlen]
  unfold verifyBlockSolution
  rw [hbytes]
  cases certVersion <;> rfl

end P2Pearl
