import P2Pearl.Data.Sha256
import P2Pearl.Data.Struct
import P2Pearl.Consensus.Config

/-!
`consensus/share.py`: the sidechain block (a share), its wire format and its identity.

* `ShareBlock`: the fields of a share with the checks of `__post_init__` as fields, so that
  only a share the constructor accepts can be built; `ShareBlock.init` is the constructor.
  `pow_hash` is left out: nothing but the constructor reads it, and no caller sets it, so a
  `ShareBlock` here is one with the default `pow_hash`.
* `ShareBlock.serialize` and `ShareBlock.deserialize`: the wire format, little-endian fixed
  width fields with two counted sections.
* `ShareBlock.shareId`: the identity, `double_sha256` of the wire format.
* `ShareBlock.difficulty`: the work a share represents.
-/

namespace P2Pearl

/-! ### Hashes -/

/-- The 32 raw bytes of a hash field. -/
def Hash32 : Type := {b : Bytes // b.length = 32}

namespace Hash32

instance : DecidableEq Hash32 := inferInstanceAs (DecidableEq {b : Bytes // b.length = 32})

/-- The raw bytes. -/
def bytes (h : Hash32) : Bytes := h.1

@[simp] lemma bytes_length (h : Hash32) : h.bytes.length = 32 := h.2

@[ext] lemma ext {g h : Hash32} (e : g.bytes = h.bytes) : g = h := Subtype.ext e

/-- Raw bytes as a hash field, refused with a message when they are not 32. -/
def ofBytes (message : ℕ → String) (b : Bytes) : Except PyError Hash32 :=
  if h : b.length = 32 then .ok ⟨b, h⟩ else .error (.valueError (message b.length))

@[simp] lemma ofBytes_bytes (message : ℕ → String) (h : Hash32) :
    ofBytes message h.bytes = .ok h := dif_pos h.2

end Hash32

/-- `double_sha256`. -/
def doubleSha256 (data : Bytes) : Hash32 := ⟨sha256 (sha256 data), sha256_length _⟩

/-- `GENESIS_PREV`, the predecessor id of a genesis share. -/
def genesisPrev : Hash32 := ⟨List.replicate 32 0, List.length_replicate⟩

/-! ### Variable-length integers -/

/-- `_write_varint`. -/
def writeVarint (n : ℕ) : Except PyError Bytes :=
  if n < 0xFD then .ok [UInt8.ofNat n]
  else if n ≤ 0xFFFF then (pack 2 n).map (0xfd :: ·)
  else if n ≤ 0xFFFFFFFF then (pack 4 n).map (0xfe :: ·)
  else (pack 8 n).map (0xff :: ·)

/-- `_read_varint`, with the bytes behind the integer. -/
def readVarint : Bytes → Except PyError (ℕ × Bytes)
  | [] => .error .indexError
  | first :: rest =>
      if first.toNat < 0xFD then .ok (first.toNat, rest)
      else if first.toNat = 0xFD then unpack 2 rest
      else if first.toNat = 0xFE then unpack 4 rest
      else unpack 8 rest

/-! ### The share -/

/-- The fields of a share. -/
structure ShareData where
  /-- `u32`, the sidechain consensus version. -/
  version : ℕ
  /-- `u64`, the height on the sharechain. -/
  sidechainHeight : ℕ
  prevShareId : Hash32
  /-- The Pearl tip this candidate builds on. -/
  parentPrevBlock : Hash32
  /-- `u32`, the Pearl block height being mined. -/
  parentHeight : ℕ
  /-- `u32`, Unix seconds. -/
  timestamp : ℕ
  /-- The 256-bit share threshold. -/
  shareTarget : ℕ
  /-- `u32`, the parent compact target carried in the header. -/
  blockNbits : ℕ
  /-- `u32`, the parent block header version. -/
  coinbaseVersion : ℕ
  /-- `u64`, the grains the coinbase distributes. -/
  coinbaseValue : ℕ
  /-- The payout address of the finder. -/
  minerAddress : PyStr
  /-- The hash of the deterministic PPLNS output set. -/
  payoutSetHash : Hash32
  /-- The retarget-derived largest target, committed from version 5 on. -/
  targetLimit : ℕ
  /-- The uncles referenced by this share. -/
  uncleIds : List Hash32
  deriving DecidableEq

/-- A share the constructor accepts: `__post_init__` has checked its targets. -/
structure ShareBlock extends ShareData where
  shareTarget_pos : 0 < shareTarget
  shareTarget_le : shareTarget ≤ targetLimit
  targetLimit_le : targetLimit ≤ maxTarget
  deriving DecidableEq

namespace ShareBlock

/-- The message of `__post_init__` for a hash field of the wrong length. -/
def lengthMessage (name : String) (length : ℕ) : String :=
  name ++ " must be 32 bytes, got " ++ toString length

/-- The target checks of `__post_init__`, in its order. -/
def init (d : ShareData) : Except PyError ShareBlock :=
  if h : 0 < d.shareTarget ∧ d.shareTarget ≤ maxTarget then
    if h' : 0 < d.targetLimit ∧ d.targetLimit ≤ maxTarget then
      if h'' : d.shareTarget ≤ d.targetLimit then .ok ⟨d, h.1, h'', h'.2⟩
      else .error (.valueError "share_target exceeds target_limit")
    else .error (.valueError "target_limit out of range")
  else .error (.valueError "share_target out of range")

lemma targetLimit_pos (s : ShareBlock) : 0 < s.targetLimit :=
  s.shareTarget_pos.trans_le s.shareTarget_le

/-- The constructor accepts fields exactly when the targets are nested in range. -/
lemma init_eq_ok_iff {d : ShareData} {s : ShareBlock} :
    init d = .ok s ↔ s.toShareData = d := by
  constructor
  · intro h
    rw [init] at h
    split_ifs at h
    cases h; rfl
  · rintro rfl
    rw [init, dif_pos ⟨s.shareTarget_pos, s.shareTarget_le.trans s.targetLimit_le⟩,
      dif_pos ⟨s.targetLimit_pos, s.targetLimit_le⟩, dif_pos s.shareTarget_le]

/-- `_TARGET_LIMIT_VERSION`. -/
def targetLimitVersion : ℕ := 5

/-- `serialize`. -/
def serialize (s : ShareBlock) : Except PyError Bytes := do
  let version ← pack 4 s.version
  let sidechainHeight ← pack 8 s.sidechainHeight
  let parentHeight ← pack 4 s.parentHeight
  let timestamp ← pack 4 s.timestamp
  let blockNbits ← pack 4 s.blockNbits
  let coinbaseVersion ← pack 4 s.coinbaseVersion
  let coinbaseValue ← pack 8 s.coinbaseValue
  let addr ← encodeAscii s.minerAddress
  let addrLen ← writeVarint addr.length
  let uncleCount ← writeVarint s.uncleIds.length
  return version ++ (sidechainHeight ++ (s.prevShareId.bytes ++ (s.parentPrevBlock.bytes
    ++ (parentHeight ++ (timestamp ++ (beBytes 32 s.shareTarget
    ++ ((if targetLimitVersion ≤ s.version then beBytes 32 s.targetLimit else [])
    ++ (blockNbits ++ (coinbaseVersion ++ (coinbaseValue ++ (addrLen ++ (addr
    ++ (s.payoutSetHash.bytes ++ (uncleCount ++ s.uncleIds.flatMap Hash32.bytes))))))))))))))

/-- The uncle loop of `deserialize`: `n` slices of 32 bytes. -/
def readUncles : ℕ → Bytes → List Bytes
  | 0, _ => []
  | n + 1, data => (takeBytes 32 data).1 :: readUncles n (takeBytes 32 data).2

/-- `deserialize`. -/
def deserialize (data : Bytes) : Except PyError ShareBlock := do
  let (version, data) ← unpack 4 data
  let (sidechainHeight, data) ← unpack 8 data
  let (prevShareId, data) := takeBytes 32 data
  let (parentPrevBlock, data) := takeBytes 32 data
  let (parentHeight, data) ← unpack 4 data
  let (timestamp, data) ← unpack 4 data
  let (shareTarget, data) := takeBytes 32 data
  let (targetLimit, data) :=
    if targetLimitVersion ≤ version then takeBytes 32 data else (shareTarget, data)
  let (blockNbits, data) ← unpack 4 data
  let (coinbaseVersion, data) ← unpack 4 data
  let (coinbaseValue, data) ← unpack 8 data
  let (addrLen, data) ← readVarint data
  let (addr, data) := takeBytes addrLen data
  let minerAddress ← decodeAscii addr
  let (payoutSetHash, data) := takeBytes 32 data
  let (uncleCount, data) ← readVarint data
  let uncleIds := readUncles uncleCount data
  -- the constructor checks the lengths in this order, then the targets
  let prevShareId ← Hash32.ofBytes (lengthMessage "prev_share_id") prevShareId
  let parentPrevBlock ← Hash32.ofBytes (lengthMessage "parent_prev_block") parentPrevBlock
  let payoutSetHash ← Hash32.ofBytes (lengthMessage "payout_set_hash") payoutSetHash
  let uncleIds ← uncleIds.mapM (Hash32.ofBytes fun _ => "each uncle id must be 32 bytes")
  init {
    version, sidechainHeight, prevShareId, parentPrevBlock, parentHeight, timestamp
    shareTarget := beNat shareTarget
    blockNbits, coinbaseVersion, coinbaseValue, minerAddress, payoutSetHash
    targetLimit := beNat targetLimit
    uncleIds }

/-- `share_id`: the canonical id, which the parent coinbase commits to. -/
def shareId (s : ShareBlock) : Except PyError Hash32 := s.serialize.map doubleSha256

/-- `difficulty`: the sidechain work a share represents. -/
def difficulty (s : ShareBlock) : ℕ := maxTarget / s.shareTarget

/-- Every share represents some work. -/
lemma difficulty_pos (s : ShareBlock) : 0 < s.difficulty :=
  Nat.div_pos (s.shareTarget_le.trans s.targetLimit_le) s.shareTarget_pos

end ShareBlock

end P2Pearl
