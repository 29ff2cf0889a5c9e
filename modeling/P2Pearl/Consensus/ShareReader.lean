import P2Pearl.Consensus.ShareCodec

/-!
What `ShareBlock.deserialize` accepts.

* `readHead`, `readAddressLength`, `readUncleCount`, `build`: the stages of the reader;
  `deserialize_eq` puts them together.
* `VarintForm`: the forms in which `_read_varint` reads one integer.
* `deserialize_eq_ok_iff`: what is accepted is the wire format of a carried share, its two counts
  in any form, with anything behind it.
* `canonical_iff`: so the share serializes to the bytes it was read from exactly where they are
  tight.
* `uncle_loop_inside_iff`: the uncle loop stays inside the bytes exactly where the declared number
  of uncles fits them; where it does not, the loop runs on and its slices are refused in the end.
-/

namespace P2Pearl

/-! ### Variable-length integers -/

/-- The forms in which `_read_varint` reads an integer. -/
inductive VarintForm (n : ℕ) : Bytes → Prop
  | one (h : n < 0xFD) : VarintForm n [UInt8.ofNat n]
  | two (h : n < 256 ^ 2) : VarintForm n (0xfd :: leBytes 2 n)
  | four (h : n < 256 ^ 4) : VarintForm n (0xfe :: leBytes 4 n)
  | eight (h : n < 256 ^ 8) : VarintForm n (0xff :: leBytes 8 n)

lemma VarintForm.lt {n : ℕ} {v : Bytes} (h : VarintForm n v) : n < 2 ^ 64 := by
  cases h <;> omega

lemma VarintForm.read {n : ℕ} {v : Bytes} (h : VarintForm n v) (rest : Bytes) :
    readVarint (v ++ rest) = .ok (n, rest) := by
  cases h with
  | one h =>
      have hn : (UInt8.ofNat n).toNat = n := by rw [UInt8.toNat_ofNat']; omega
      simp [readVarint, hn, h]
  | two h => simpa [readVarint] using unpack_append h rest
  | four h => simpa [readVarint] using unpack_append h rest
  | eight h => simpa [readVarint] using unpack_append h rest

/-- What `_write_varint` writes is one of the forms. -/
lemma varintForm_varint {n : ℕ} (h : n < 2 ^ 64) : VarintForm n (varint n) := by
  rw [varint]
  split_ifs with h₁ h₂ h₃
  · exact .one h₁
  · exact .two (by omega)
  · exact .four (by omega)
  · exact .eight (by omega)

lemma readVarint_eq_ok_iff {n : ℕ} {data rest : Bytes} :
    readVarint data = .ok (n, rest) ↔ ∃ v, VarintForm n v ∧ data = v ++ rest := by
  constructor
  · intro h
    cases data with
    | nil => cases h
    | cons first data =>
        have hfirst : first.toNat < 256 := first.toNat_lt
        have hbyte : first = UInt8.ofNat first.toNat := UInt8.ofNat_toNat.symm
        rw [readVarint] at h
        split_ifs at h with h₁ h₂ h₃
        · obtain ⟨rfl, rfl⟩ := Prod.mk.inj (Except.ok.inj h)
          exact ⟨_, .one h₁, by rw [← hbyte]; rfl⟩
        · obtain ⟨hn, rfl⟩ := unpack_eq_ok_iff.mp h
          exact ⟨_, .two hn, by rw [hbyte, h₂]; rfl⟩
        · obtain ⟨hn, rfl⟩ := unpack_eq_ok_iff.mp h
          exact ⟨_, .four hn, by rw [hbyte, h₃]; rfl⟩
        · obtain ⟨hn, rfl⟩ := unpack_eq_ok_iff.mp h
          have hff : first.toNat = 0xff := by omega
          exact ⟨_, .eight hn, by rw [hbyte, hff]; rfl⟩
  · rintro ⟨v, hv, rfl⟩
    exact hv.read rest

/-- Counts are read off in one way only. -/
lemma VarintForm.append_inj {n k : ℕ} {v w x y : Bytes} (hv : VarintForm n v) (hw : VarintForm k w)
    (h : v ++ x = w ++ y) : n = k ∧ v = w ∧ x = y := by
  have hread := hv.read x
  rw [h, hw.read y] at hread
  obtain ⟨rfl, rfl⟩ := Prod.mk.inj (Except.ok.inj hread)
  exact ⟨rfl, List.append_cancel_right h, rfl⟩

namespace ShareBlock

/-! ### The stages of the reader -/

/-- The fields of fixed width before the address, as they are read. -/
structure Head where
  version : ℕ
  sidechainHeight : ℕ
  prevShareId : Bytes
  parentPrevBlock : Bytes
  parentHeight : ℕ
  timestamp : ℕ
  shareTarget : Bytes
  targetLimit : Bytes
  blockNbits : ℕ
  coinbaseVersion : ℕ
  coinbaseValue : ℕ

/-- The fields before the address, and the bytes behind them. -/
def readHead (data : Bytes) : Except PyError (Head × Bytes) := do
  let (version, data) ← unpack 4 data
  let (sidechainHeight, data) ← unpack 8 data
  let (prevShareId, data) := takeBytes 32 data
  let (parentPrevBlock, data) := takeBytes 32 data
  let (parentHeight, data) ← unpack 4 data
  let (timestamp, data) ← unpack 4 data
  let (shareTarget, data) := takeBytes 32 data
  let (targetLimit, data) :=
    if targetLimitVersion ≤ version then takeBytes 32 data else (shareTarget, data)
  let (blockNbits, data) ← unpack 4 data
  let (coinbaseVersion, data) ← unpack 4 data
  let (coinbaseValue, data) ← unpack 8 data
  return ({ version, sidechainHeight, prevShareId, parentPrevBlock, parentHeight, timestamp
            shareTarget, targetLimit, blockNbits, coinbaseVersion, coinbaseValue }, data)

/-- The declared length of the address, and the bytes from the address on. -/
def readAddressLength (data : Bytes) : Except PyError (Head × ℕ × Bytes) := do
  let (head, data) ← readHead data
  let (addrLen, data) ← readVarint data
  return (head, addrLen, data)

/-- The declared number of uncles, and the bytes from the first uncle on. -/
def readUncleCount (data : Bytes) : Except PyError ((Head × PyStr × Bytes) × ℕ × Bytes) := do
  let (head, addrLen, data) ← readAddressLength data
  let (addr, data) := takeBytes addrLen data
  let minerAddress ← decodeAscii addr
  let (payoutSetHash, data) := takeBytes 32 data
  let (uncleCount, data) ← readVarint data
  return ((head, minerAddress, payoutSetHash), uncleCount, data)

/-- The share made of the fields read. -/
def build (fields : Head × PyStr × Bytes) (uncleIds : List Bytes) : Except PyError ShareBlock := do
  let (head, minerAddress, payoutSetHash) := fields
  let prevShareId ← Hash32.ofBytes (lengthMessage "prev_share_id") head.prevShareId
  let parentPrevBlock ← Hash32.ofBytes (lengthMessage "parent_prev_block") head.parentPrevBlock
  let payoutSetHash ← Hash32.ofBytes (lengthMessage "payout_set_hash") payoutSetHash
  let uncleIds ← uncleIds.mapM (Hash32.ofBytes fun _ => "each uncle id must be 32 bytes")
  init {
    version := head.version
    sidechainHeight := head.sidechainHeight
    prevShareId, parentPrevBlock
    parentHeight := head.parentHeight
    timestamp := head.timestamp
    shareTarget := beNat head.shareTarget
    blockNbits := head.blockNbits
    coinbaseVersion := head.coinbaseVersion
    coinbaseValue := head.coinbaseValue
    minerAddress, payoutSetHash
    targetLimit := beNat head.targetLimit
    uncleIds }

/-- `deserialize` in stages: the fields, the uncle loop, the constructor. -/
lemma deserialize_eq (b : Bytes) : deserialize b
    = readUncleCount b >>= fun (fields, uncleCount, data) =>
        build fields (readUncles uncleCount data) := by
  simp only [deserialize, readUncleCount, readAddressLength, readHead, build, bind_assoc,
    pure_bind]

/-! ### The fields of fixed width -/

/-- The bytes of the fields. -/
def Head.wire (h : Head) : Bytes :=
  leBytes 4 h.version ++ (leBytes 8 h.sidechainHeight ++ (h.prevShareId ++ (h.parentPrevBlock
    ++ (leBytes 4 h.parentHeight ++ (leBytes 4 h.timestamp ++ (h.shareTarget
    ++ ((if targetLimitVersion ≤ h.version then h.targetLimit else [])
    ++ (leBytes 4 h.blockNbits ++ (leBytes 4 h.coinbaseVersion
    ++ leBytes 8 h.coinbaseValue)))))))))

/-- The fields have their widths, and before version 5 the target limit has its default. -/
structure Head.Whole (h : Head) : Prop where
  version : h.version < 256 ^ 4
  sidechainHeight : h.sidechainHeight < 256 ^ 8
  prevShareId : h.prevShareId.length = 32
  parentPrevBlock : h.parentPrevBlock.length = 32
  parentHeight : h.parentHeight < 256 ^ 4
  timestamp : h.timestamp < 256 ^ 4
  shareTarget : h.shareTarget.length = 32
  targetLimit : h.targetLimit.length = 32
  blockNbits : h.blockNbits < 256 ^ 4
  coinbaseVersion : h.coinbaseVersion < 256 ^ 4
  coinbaseValue : h.coinbaseValue < 256 ^ 8
  carried : targetLimitVersion ≤ h.version ∨ h.targetLimit = h.shareTarget

/-- Where there is something behind a slice, the slice is whole. -/
lemma exists_slice {n : ℕ} {data : Bytes} (h : data.drop n ≠ []) :
    ∃ b rest, b.length = n ∧ data = b ++ rest :=
  ⟨_, _, length_take_of_drop_ne_nil h, (List.take_append_drop n data).symm⟩

/-- There is something where a number is read. -/
lemma unpack_ne_nil {k n : ℕ} {data rest : Bytes} (hk : k ≠ 0)
    (h : unpack k data = .ok (n, rest)) : data ≠ [] := by
  rintro rfl
  rw [unpack, if_neg (by simpa using hk)] at h
  cases h

lemma ne_nil_of_drop_ne_nil {n : ℕ} {data : Bytes} (h : data.drop n ≠ []) : data ≠ [] := by
  rintro rfl
  exact h List.drop_nil

/-- The two targets in front of something that is read; before version 5 there is one. -/
lemma targets_of_ne_nil {version : ℕ} {data : Bytes}
    (h : (if targetLimitVersion ≤ version then ((data.drop 32).take 32, (data.drop 32).drop 32)
      else (data.take 32, data.drop 32)).2 ≠ []) :
    ∃ target limit rest, target.length = 32 ∧ limit.length = 32
      ∧ (targetLimitVersion ≤ version ∨ limit = target)
      ∧ data = target ++ ((if targetLimitVersion ≤ version then limit else []) ++ rest) := by
  split_ifs at h ⊢ with hv
  · obtain ⟨target, data, htarget, rfl⟩ := exists_slice (ne_nil_of_drop_ne_nil h)
    dsimp only at h
    rw [List.drop_left' htarget] at h
    obtain ⟨limit, rest, hlimit, rfl⟩ := exists_slice h
    exact ⟨target, limit, rest, htarget, hlimit, Or.inl hv, rfl⟩
  · obtain ⟨target, rest, htarget, rfl⟩ := exists_slice h
    exact ⟨target, target, rest, htarget, htarget, Or.inr rfl, rfl⟩

/-- What is read off the two targets. -/
lemma read_targets {version : ℕ} {target limit : Bytes} (hlimit : limit.length = 32)
    (hcarried : targetLimitVersion ≤ version ∨ limit = target) (rest : Bytes) :
    (if targetLimitVersion ≤ version then
        takeBytes 32 ((if targetLimitVersion ≤ version then limit else []) ++ rest)
      else (target, (if targetLimitVersion ≤ version then limit else []) ++ rest))
      = (limit, rest) := by
  split_ifs with hv
  · exact takeBytes_append hlimit rest
  · rw [List.nil_append, hcarried.resolve_left hv]

/-- The fields are read off their bytes, whatever follows. -/
lemma Head.Whole.read {h : Head} (hwhole : h.Whole) (rest : Bytes) :
    readHead (h.wire ++ rest) = .ok (h, rest) := by
  simp only [readHead, Head.wire, List.append_assoc, unpack_append hwhole.version,
    unpack_append hwhole.sidechainHeight, takeBytes_append hwhole.prevShareId,
    takeBytes_append hwhole.parentPrevBlock, unpack_append hwhole.parentHeight,
    unpack_append hwhole.timestamp, takeBytes_append hwhole.shareTarget,
    read_targets hwhole.targetLimit hwhole.carried,
    unpack_append hwhole.blockNbits, unpack_append hwhole.coinbaseVersion,
    unpack_append hwhole.coinbaseValue, ok_bind]
  rfl

/-- Nothing else is read as fields: the slices among them are whole, since there is a number behind
them. -/
lemma readHead_eq_ok_iff {data rest : Bytes} {h : Head} :
    readHead data = .ok (h, rest) ↔ h.Whole ∧ data = h.wire ++ rest := by
  refine ⟨fun hread => ?_, fun ⟨hwhole, hdata⟩ => hdata ▸ hwhole.read rest⟩
  simp only [readHead, takeBytes, bind_eq_ok_iff, Prod.exists, pure, Except.pure, Except.ok.injEq,
    Prod.mk.injEq] at hread
  obtain ⟨version, d₁, h₁, sidechainHeight, d₂, h₂, parentHeight, d₃, h₃, timestamp, d₄, h₄,
    blockNbits, d₅, h₅, coinbaseVersion, d₆, h₆, coinbaseValue, d₇, h₇, rfl, rfl⟩ := hread
  obtain ⟨hversion, rfl⟩ := unpack_eq_ok_iff.mp h₁
  obtain ⟨hsidechainHeight, rfl⟩ := unpack_eq_ok_iff.mp h₂
  -- the two ids, in front of the parent height
  have hbehind := unpack_ne_nil four_ne_zero h₃
  obtain ⟨prev, d₂, hprev, rfl⟩ := exists_slice (ne_nil_of_drop_ne_nil hbehind)
  rw [List.drop_left' hprev] at hbehind h₃
  obtain ⟨parent, d₂, hparent, rfl⟩ := exists_slice hbehind
  rw [List.drop_left' hparent] at h₃
  obtain ⟨hparentHeight, rfl⟩ := unpack_eq_ok_iff.mp h₃
  obtain ⟨htimestamp, rfl⟩ := unpack_eq_ok_iff.mp h₄
  -- the two targets, in front of the block bits
  obtain ⟨target, limit, d₄, htarget, hlimit, hcarried, rfl⟩ :=
    targets_of_ne_nil (unpack_ne_nil four_ne_zero h₅)
  have hpair := read_targets hlimit hcarried d₄
  rw [List.drop_left' htarget, List.take_left' htarget] at h₅ ⊢
  rw [takeBytes] at hpair
  rw [hpair] at h₅ ⊢
  obtain ⟨hblockNbits, rfl⟩ := unpack_eq_ok_iff.mp h₅
  obtain ⟨hcoinbaseVersion, rfl⟩ := unpack_eq_ok_iff.mp h₆
  obtain ⟨hcoinbaseValue, rfl⟩ := unpack_eq_ok_iff.mp h₇
  rw [List.take_left' hprev, List.drop_left' hprev, List.take_left' hparent]
  refine ⟨⟨hversion, hsidechainHeight, hprev, hparent, hparentHeight, htimestamp, htarget, hlimit,
    hblockNbits, hcoinbaseVersion, hcoinbaseValue, hcarried⟩, ?_⟩
  simp only [Head.wire, List.append_assoc]

/-! ### The counted sections -/

lemma readAddressLength_eq_ok_iff {b rest : Bytes} {h : Head} {n : ℕ} :
    readAddressLength b = .ok (h, n, rest)
      ↔ h.Whole ∧ ∃ v, VarintForm n v ∧ b = h.wire ++ (v ++ rest) := by
  simp only [readAddressLength, bind_eq_ok_iff, Prod.exists, readHead_eq_ok_iff,
    readVarint_eq_ok_iff, pure, Except.pure, Except.ok.injEq, Prod.mk.injEq]
  constructor
  · rintro ⟨h, _, ⟨hwhole, rfl⟩, n, rest, ⟨v, hv, rfl⟩, rfl, rfl, rfl⟩
    exact ⟨hwhole, v, hv, rfl⟩
  · rintro ⟨hwhole, v, hv, rfl⟩
    exact ⟨h, _, ⟨hwhole, rfl⟩, n, rest, ⟨v, hv, rfl⟩, rfl, rfl, rfl⟩

/-- The bytes of an address. -/
def addressBytes (addr : PyStr) : Bytes := addr.map fun c => UInt8.ofNat c.toNat

@[simp] lemma length_addressBytes (addr : PyStr) : (addressBytes addr).length = addr.length :=
  List.length_map _

/-- The number of uncles is read behind a whole address and a whole hash. -/
lemma readUncleCount_eq_ok_iff {b rest hash : Bytes} {h : Head} {addr : PyStr} {n : ℕ} :
    readUncleCount b = .ok ((h, addr, hash), n, rest)
      ↔ h.Whole ∧ IsAscii addr ∧ hash.length = 32 ∧ ∃ v u, VarintForm addr.length v
        ∧ VarintForm n u ∧ b = h.wire ++ (v ++ (addressBytes addr ++ (hash ++ (u ++ rest)))) := by
  simp only [readUncleCount, takeBytes, bind_eq_ok_iff, Prod.exists, readAddressLength_eq_ok_iff,
    decodeAscii_eq_ok_iff, pure, Except.pure, Except.ok.injEq, Prod.mk.injEq]
  constructor
  · rintro ⟨h, addrLen, data, ⟨hwhole, v, hv, rfl⟩, addr, ⟨hascii, haddr⟩, n, rest, hread,
      ⟨rfl, rfl, rfl⟩, rfl, rfl⟩
    obtain ⟨u, hu, hdata⟩ := readVarint_eq_ok_iff.mp hread
    have hbehind : (data.drop addrLen).drop 32 ≠ [] := by
      intro hnil
      rw [hnil] at hread
      cases hread
    obtain ⟨a, data, rfl, rfl⟩ := exists_slice (ne_nil_of_drop_ne_nil hbehind)
    rw [List.drop_left] at hbehind hdata ⊢
    rw [List.take_left] at haddr
    obtain ⟨hash, data, hhash, rfl⟩ := exists_slice hbehind
    rw [List.drop_left' hhash] at hdata
    rw [List.take_left' hhash, hdata]
    rw [← haddr, List.length_map] at hv
    exact ⟨hwhole, hascii, hhash, v, u, hv, hu, by rw [← haddr]; rfl⟩
  · rintro ⟨hwhole, hascii, hhash, v, u, hv, hu, rfl⟩
    refine ⟨h, addr.length, _, ⟨hwhole, v, hv, rfl⟩, addr, ⟨hascii, ?_⟩, n, rest, ?_,
      ⟨rfl, rfl, ?_⟩, rfl, rfl⟩
    · exact (List.take_left' (length_addressBytes addr)).symm
    · rw [List.drop_left' (length_addressBytes addr), List.drop_left' hhash]
      exact hu.read rest
    · rw [List.drop_left' (length_addressBytes addr), List.take_left' hhash]

/-- The `i`-th iteration of the uncle loop reads the slice at its offset. -/
lemma readUncles_eq (n : ℕ) (data : Bytes) :
    readUncles n data = (List.range n).map fun i => (data.drop (32 * i)).take 32 := by
  induction n generalizing data with
  | zero => rfl
  | succ n ih =>
      rw [readUncles, ih, List.range_succ_eq_map, List.map_cons, List.map_map]
      simp only [takeBytes, List.drop_drop, Function.comp_def, mul_zero, List.drop_zero,
        Nat.succ_eq_add_one, mul_add, mul_one, add_comm]

@[simp] lemma length_readUncles (n : ℕ) (data : Bytes) : (readUncles n data).length = n := by
  rw [readUncles_eq, List.length_map, List.length_range]

/-- The slices are the bytes read, one after the other. -/
lemma flatten_readUncles (n : ℕ) (data : Bytes) :
    (readUncles n data).flatten = data.take (32 * n) := by
  induction n generalizing data with
  | zero => rfl
  | succ n ih =>
      rw [readUncles, List.flatten_cons, ih, takeBytes, ← List.take_add,
        show 32 * (n + 1) = 32 + 32 * n by ring]

/-- The slices are all whole where there are bytes for them. -/
lemma readUncles_whole_iff {n : ℕ} {data : Bytes} :
    (∀ b ∈ readUncles n data, b.length = 32) ↔ 32 * n ≤ data.length := by
  rw [readUncles_eq]
  simp only [List.mem_map, List.mem_range, forall_exists_index, and_imp, forall_apply_eq_imp_iff₂,
    List.length_take, List.length_drop]
  constructor
  · intro h
    cases n with
    | zero => exact Nat.zero_le _
    | succ n =>
        have hlast := h n (Nat.lt_succ_self n)
        omega
  · intro h i hi
    omega

lemma ofBytes_eq_ok_iff {message : ℕ → String} {b : Bytes} {h : Hash32} :
    Hash32.ofBytes message b = .ok h ↔ h.bytes = b := by
  constructor
  · intro hread
    rw [Hash32.ofBytes] at hread
    split_ifs at hread
    cases hread
    rfl
  · rintro rfl
    exact Hash32.ofBytes_bytes message h

lemma mapM_ofBytes_eq_ok_iff {message : ℕ → String} {l : List Bytes} {ids : List Hash32} :
    l.mapM (Hash32.ofBytes message) = .ok ids ↔ ids.map Hash32.bytes = l := by
  constructor
  · intro hread
    induction l generalizing ids with
    | nil => cases hread; rfl
    | cons b l ih =>
        rw [List.mapM_cons] at hread
        obtain ⟨h, hh, hread⟩ := bind_eq_ok_iff.mp hread
        obtain ⟨rest, hrest, hread⟩ := bind_eq_ok_iff.mp hread
        cases hread
        rw [List.map_cons, ih hrest, ofBytes_eq_ok_iff.mp hh]
  · rintro rfl
    exact mapM_eq_ok (Hash32.ofBytes_bytes message) ids

/-! ### What is accepted -/

/-- The fields of a share before its address. -/
def head (s : ShareBlock) : Head where
  version := s.version
  sidechainHeight := s.sidechainHeight
  prevShareId := s.prevShareId.bytes
  parentPrevBlock := s.parentPrevBlock.bytes
  parentHeight := s.parentHeight
  timestamp := s.timestamp
  shareTarget := beBytes 32 s.shareTarget
  targetLimit := beBytes 32 s.targetLimit
  blockNbits := s.blockNbits
  coinbaseVersion := s.coinbaseVersion
  coinbaseValue := s.coinbaseValue

/-- The wire format of the share, with its two counts in the given forms. -/
def wireWith (s : ShareBlock) (addrLen uncleCount : Bytes) : Bytes :=
  s.head.wire ++ (addrLen ++ (addressBytes s.minerAddress ++ (s.payoutSetHash.bytes
    ++ (uncleCount ++ s.uncleIds.flatMap Hash32.bytes))))

lemma wire_eq (s : ShareBlock) :
    s.wire = s.wireWith (varint s.minerAddress.length) (varint s.uncleIds.length) := by
  simp only [wire, wireWith, Head.wire, head, addressBytes, List.append_assoc]
  rfl

lemma shareTarget_lt (s : ShareBlock) : s.shareTarget < 256 ^ 32 :=
  (s.shareTarget_le.trans s.targetLimit_le).trans_lt maxTarget_lt

lemma targetLimit_lt (s : ShareBlock) : s.targetLimit < 256 ^ 32 :=
  s.targetLimit_le.trans_lt maxTarget_lt

/-- The fields of a share have their widths exactly when its wire format carries them. -/
lemma whole_head_iff {s : ShareBlock} : s.Carried ↔ s.head.Whole ∧ IsAscii s.minerAddress
    ∧ s.minerAddress.length < 2 ^ 64 ∧ s.uncleIds.length < 2 ^ 64 := by
  have hlimit : beBytes 32 s.targetLimit = beBytes 32 s.shareTarget
      ↔ s.targetLimit = s.shareTarget := by
    refine ⟨fun h => ?_, fun h => by rw [h]⟩
    rw [← beNat_beBytes s.targetLimit_lt, h, beNat_beBytes s.shareTarget_lt]
  constructor
  · intro h
    refine ⟨⟨by simpa [head] using h.version, by simpa [head] using h.sidechainHeight,
      Hash32.bytes_length _, Hash32.bytes_length _, by simpa [head] using h.parentHeight,
      by simpa [head] using h.timestamp, beBytes_length _ _, beBytes_length _ _,
      by simpa [head] using h.blockNbits, by simpa [head] using h.coinbaseVersion,
      by simpa [head] using h.coinbaseValue, h.targetLimit.imp_right hlimit.mpr⟩, h.ascii,
      h.addressLength, h.uncleCount⟩
  · rintro ⟨h, hascii, haddr, huncles⟩
    exact ⟨⟨by simpa [head] using h.version, by simpa [head] using h.sidechainHeight,
      by simpa [head] using h.parentHeight, by simpa [head] using h.timestamp,
      by simpa [head] using h.blockNbits, by simpa [head] using h.coinbaseVersion,
      by simpa [head] using h.coinbaseValue, hascii, haddr, huncles⟩,
      h.carried.imp_right hlimit.mp⟩

/-- The constructor is given the fields of the share. -/
lemma build_eq_ok_iff {h : Head} {addr : PyStr} {hash : Bytes} {uncles : List Bytes}
    {s : ShareBlock} (hwhole : h.Whole) :
    build (h, addr, hash) uncles = .ok s ↔ s.head = h ∧ s.minerAddress = addr
      ∧ s.payoutSetHash.bytes = hash ∧ s.uncleIds.map Hash32.bytes = uncles := by
  have htarget : beBytes 32 (beNat h.shareTarget) = h.shareTarget := by
    simpa only [hwhole.shareTarget] using beBytes_beNat h.shareTarget
  have hlimit : beBytes 32 (beNat h.targetLimit) = h.targetLimit := by
    simpa only [hwhole.targetLimit] using beBytes_beNat h.targetLimit
  simp only [build, bind_eq_ok_iff, ofBytes_eq_ok_iff, mapM_ofBytes_eq_ok_iff, init_eq_ok_iff]
  constructor
  · rintro ⟨prev, hprev, parent, hparent, hash, hhash, ids, hids, hs⟩
    obtain ⟨d, hpos, hle, hmax⟩ := s
    cases hs
    refine ⟨?_, rfl, hhash, hids⟩
    simp only [head, hprev, hparent, htarget, hlimit]
  · rintro ⟨rfl, rfl, rfl, rfl⟩
    refine ⟨s.prevShareId, rfl, s.parentPrevBlock, rfl, s.payoutSetHash, rfl, s.uncleIds, rfl, ?_⟩
    simp only [head, beNat_beBytes s.shareTarget_lt, beNat_beBytes s.targetLimit_lt]

/-- **What is accepted**: the wire format of a carried share, its two counts in any of their forms,
and anything behind it. -/
lemma deserialize_eq_ok_iff {b : Bytes} {s : ShareBlock} :
    deserialize b = .ok s ↔ s.Carried ∧ ∃ v u rest, VarintForm s.minerAddress.length v
      ∧ VarintForm s.uncleIds.length u ∧ b = s.wireWith v u ++ rest := by
  rw [deserialize_eq]
  simp only [bind_eq_ok_iff, Prod.exists]
  constructor
  · rintro ⟨h, addr, hash, n, data, hread, hbuild⟩
    obtain ⟨hwhole, hascii, -, v, u, hv, hu, rfl⟩ := readUncleCount_eq_ok_iff.mp hread
    obtain ⟨rfl, rfl, rfl, huncles⟩ := (build_eq_ok_iff hwhole).mp hbuild
    have hn : s.uncleIds.length = n := by
      rw [← length_readUncles n data, ← huncles, List.length_map]
    subst hn
    refine ⟨whole_head_iff.mpr ⟨hwhole, hascii, hv.lt, hu.lt⟩, v, u,
      data.drop (32 * s.uncleIds.length), hv, hu, ?_⟩
    have hflat : s.uncleIds.flatMap Hash32.bytes = data.take (32 * s.uncleIds.length) := by
      rw [← flatten_readUncles, ← huncles]
      rfl
    simp only [wireWith, List.append_assoc, hflat, List.take_append_drop]
  · rintro ⟨hcarried, v, u, rest, hv, hu, rfl⟩
    obtain ⟨hwhole, hascii, -, -⟩ := whole_head_iff.mp hcarried
    refine ⟨s.head, s.minerAddress, s.payoutSetHash.bytes, s.uncleIds.length,
      s.uncleIds.flatMap Hash32.bytes ++ rest, readUncleCount_eq_ok_iff.mpr ⟨hwhole, hascii,
        Hash32.bytes_length _, v, u, hv, hu, ?_⟩, (build_eq_ok_iff hwhole).mpr ⟨rfl, rfl, rfl, ?_⟩⟩
    · simp only [wireWith, List.append_assoc]
    · exact (readUncles_flatMap s.uncleIds rest).symm

/-! ### The canonical format -/

/-- The number of bytes before the address count, which depends on the version. -/
def headLength (b : Bytes) : ℕ := if targetLimitVersion ≤ leNat (b.take 4) then 164 else 132

/-- The two counts in the bytes are in the form `_write_varint` gives them, and nothing follows the
uncles. -/
def Tight (b : Bytes) : Prop :=
  ∃ (head addr hash uncles : Bytes) (n : ℕ), head.length = headLength b ∧ addr.length < 2 ^ 64
    ∧ hash.length = 32 ∧ n < 2 ^ 64 ∧ uncles.length = 32 * n
    ∧ b = head ++ (varint addr.length ++ (addr ++ (hash ++ (varint n ++ uncles))))

lemma length_head (s : ShareBlock) :
    s.head.wire.length = if targetLimitVersion ≤ s.version then 164 else 132 := by
  by_cases hv : targetLimitVersion ≤ s.version <;> simp [Head.wire, head, hv]

lemma headLength_append {s : ShareBlock} (h : s.Carried) (rest : Bytes) :
    headLength (s.head.wire ++ rest) = s.head.wire.length := by
  have hversion : s.version < 256 ^ 4 := by simpa using h.version
  rw [headLength, length_head, Head.wire]
  simp only [head, List.append_assoc]
  rw [List.take_left' (leBytes_length _ _), leNat_leBytes hversion]

lemma length_uncles (us : List Hash32) : (us.flatMap Hash32.bytes).length = 32 * us.length := by
  rw [List.length_flatMap]
  simp [mul_comm]

/-- **Canonical bytes**: a share serializes to the bytes it was read from exactly where they are
tight. -/
theorem canonical_iff {b : Bytes} {s : ShareBlock} (h : deserialize b = .ok s) :
    s.serialize = .ok b ↔ Tight b := by
  obtain ⟨hcarried, v, u, rest, hv, hu, rfl⟩ := deserialize_eq_ok_iff.mp h
  rw [hcarried.serialize, Except.ok.injEq]
  have hlen : headLength (s.wireWith v u ++ rest) = s.head.wire.length := by
    rw [wireWith, List.append_assoc, headLength_append hcarried]
  constructor
  · intro heq
    refine ⟨s.head.wire, addressBytes s.minerAddress, s.payoutSetHash.bytes,
      s.uncleIds.flatMap Hash32.bytes, s.uncleIds.length, hlen.symm, ?_, Hash32.bytes_length _,
      hcarried.uncleCount, length_uncles _, ?_⟩
    · rw [length_addressBytes]
      exact hcarried.addressLength
    · rw [length_addressBytes, ← heq, wire_eq, wireWith]
  · rintro ⟨head, addr, hash, uncles, n, hhead, haddr, hhash, hn, huncles, hb⟩
    simp only [wireWith, List.append_assoc] at hb
    obtain ⟨-, hcounts⟩ := List.append_inj hb (hlen.symm.trans hhead.symm)
    obtain ⟨haddrLen, hshort, hsections⟩ := hv.append_inj (varintForm_varint haddr) hcounts
    obtain ⟨-, hsections⟩ := List.append_inj hsections ((length_addressBytes _).trans haddrLen)
    obtain ⟨-, hcount⟩ := List.append_inj hsections ((Hash32.bytes_length _).trans hhash.symm)
    obtain ⟨rfl, hshort', hids⟩ := hu.append_inj (varintForm_varint hn) hcount
    -- nothing is left behind the uncles
    obtain ⟨-, hrest⟩ := List.append_inj (hids.trans (List.append_nil uncles).symm)
      ((length_uncles _).trans huncles.symm)
    rw [wire_eq, haddrLen, ← hshort, ← hshort', hrest, List.append_nil]

/-- A share of the old version is read from its bytes, which are tight exactly where they are those
it is written as. -/
theorem canonical_iff_legacy : deserialize legacyShare.wire = .ok legacyShare
    ∧ (legacyShare.serialize = .ok legacyShare.wire ↔ Tight legacyShare.wire) := by
  have hread : deserialize legacyShare.wire = .ok legacyShare := by
    simpa using legacyShare_carried.deserialize_wire []
  exact ⟨hread, canonical_iff hread⟩

/-- A byte behind the share is read over. -/
theorem not_canonical : ¬∀ b s, deserialize b = .ok s → s.serialize = .ok b := by
  intro h
  have heq := h _ _ (legacyShare_carried.deserialize_wire [0])
  rw [legacyShare_carried.serialize, Except.ok.injEq] at heq
  exact absurd (congrArg List.length heq) (by simp)

/-! ### The uncle loop -/

/-- In every iteration of the uncle loop a whole id is unread, so that there are no more iterations,
and no more entries in the list they build, than the bytes have room for. -/
structure StaysInside (b : Bytes) : Prop where
  unread : ∀ fields n data, readUncleCount b = .ok (fields, n, data) →
    ∀ i < n, 32 ≤ (data.drop (32 * i)).length
  iterations : ∀ fields n data, readUncleCount b = .ok (fields, n, data) → n ≤ b.length / 32
  entries : ∀ fields n data, readUncleCount b = .ok (fields, n, data) →
    (readUncles n data).length ≤ b.length / 32

/-- Where the uncle loop is reached, the declared number of uncles fits the unread bytes. -/
def UnclesFit (b : Bytes) : Prop :=
  ∀ fields n data, readUncleCount b = .ok (fields, n, data) → 32 * n ≤ data.length

/-- The loop starts inside the bytes. -/
lemma length_le_of_readUncleCount {b data : Bytes} {fields : Head × PyStr × Bytes} {n : ℕ}
    (h : readUncleCount b = .ok (fields, n, data)) : data.length ≤ b.length := by
  obtain ⟨-, -, -, v, u, -, -, rfl⟩ := readUncleCount_eq_ok_iff.mp h
  simp only [List.length_append]
  omega

/-- An address that does not fit is refused. -/
lemma error_of_address {b data : Bytes} {head : Head} {n : ℕ}
    (h : readAddressLength b = .ok (head, n, data)) (hlong : data.length < n) :
    ∃ e, deserialize b = .error e := by
  have hnil : data.drop n = [] := List.drop_eq_nil_of_le hlong.le
  rw [deserialize_eq, readUncleCount, h]
  simp only [ok_bind, takeBytes, hnil, List.drop_nil]
  cases decodeAscii (data.take n) with
  | error e => exact ⟨e, rfl⟩
  | ok addr => exact ⟨.indexError, rfl⟩

/-- Uncles that do not fit are refused, after the loop. -/
lemma error_of_uncles {b : Bytes} (h : ¬UnclesFit b) : ∃ e, deserialize b = .error e := by
  simp only [UnclesFit, not_forall, not_le] at h
  obtain ⟨⟨head, addr, hash⟩, n, data, hread, hlong⟩ := h
  cases hbuild : build (head, addr, hash) (readUncles n data) with
  | error e =>
      refine ⟨e, ?_⟩
      rw [deserialize_eq, hread]
      exact hbuild
  | ok s =>
      obtain ⟨hwhole, -⟩ := readUncleCount_eq_ok_iff.mp hread
      obtain ⟨-, -, -, huncles⟩ := (build_eq_ok_iff hwhole).mp hbuild
      refine absurd (readUncles_whole_iff.mp fun u hu => ?_) (not_le.mpr hlong)
      rw [← huncles] at hu
      obtain ⟨id, -, rfl⟩ := List.mem_map.mp hu
      exact id.bytes_length

/-- **Decoding inside the input**: the uncle loop stays inside exactly where the declared number of
uncles fits the bytes.  An address or uncles that do not fit are refused. -/
theorem uncle_loop_inside_iff (b : Bytes) : (StaysInside b ↔ UnclesFit b)
    ∧ (¬UnclesFit b → ∃ e, deserialize b = .error e)
    ∧ ∀ head n data, readAddressLength b = .ok (head, n, data) → data.length < n →
      ∃ e, deserialize b = .error e := by
  refine ⟨⟨fun h fields n data hread => ?_, fun h => ?_⟩, error_of_uncles,
    fun _ _ _ => error_of_address⟩
  · cases n with
    | zero => exact Nat.zero_le _
    | succ n =>
        have hlast := h.unread fields (n + 1) data hread n (Nat.lt_succ_self n)
        rw [List.length_drop] at hlast
        omega
  · have hroom : ∀ fields n data, readUncleCount b = .ok (fields, n, data) → n ≤ b.length / 32 := by
      intro fields n data hread
      have hfit := h fields n data hread
      have hlen := length_le_of_readUncleCount hread
      omega
    refine ⟨fun fields n data hread i hi => ?_, hroom, fun fields n data hread => ?_⟩
    · have hfit := h fields n data hread
      rw [List.length_drop]
      omega
    · rw [length_readUncles]
      exact hroom fields n data hread

/-- A message that ends after the number of its uncles, as large as one can be declared. -/
def endlessShare : Bytes :=
  legacyShare.head.wire ++ ([1] ++ (addressBytes ['a'] ++ (genesisPrev.bytes
    ++ (0xff :: leBytes 8 (2 ^ 64 - 1)))))

/-- Nothing is left to read in any iteration of its loop. -/
theorem uncle_loop_outside : ¬∀ b, StaysInside b := by
  intro h
  have hread : readUncleCount endlessShare
      = .ok ((legacyShare.head, ['a'], genesisPrev.bytes), 2 ^ 64 - 1, []) := by
    refine readUncleCount_eq_ok_iff.mpr ⟨(whole_head_iff.mp legacyShare_carried).1, by decide,
      Hash32.bytes_length _, [1], _, .one (by decide), .eight (by norm_num), ?_⟩
    rw [endlessShare, List.append_nil]
  have hunread := (h endlessShare).unread _ _ _ hread 0 (by norm_num)
  simp at hunread

end ShareBlock

end P2Pearl
