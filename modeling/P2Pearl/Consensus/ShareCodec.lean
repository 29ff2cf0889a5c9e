import P2Pearl.Consensus.Share

/-!
The round trip of the share wire format.

* `ShareBlock.Encodable`: the widths `serialize` demands of the fields; `serialize_eq_ok_iff`
  says that it succeeds exactly there, with the bytes `ShareBlock.wire`.
* `ShareBlock.Carried`: the shares all of whose fields are on the wire, every encodable share
  from version 5 on.
* `codec_round_trip`: reading the wire format of a carried share returns the share, whatever
  bytes follow; the format is injective and self-delimiting.
-/

namespace P2Pearl

/-! ### Variable-length integers -/

/-- The bytes `_write_varint` writes for an integer below `2 ^ 64`. -/
def varint (n : ℕ) : Bytes :=
  if n < 0xFD then [UInt8.ofNat n]
  else if n ≤ 0xFFFF then 0xfd :: leBytes 2 n
  else if n ≤ 0xFFFFFFFF then 0xfe :: leBytes 4 n
  else 0xff :: leBytes 8 n

/-- A packed integer behind a one byte prefix. -/
lemma map_cons_pack_eq_ok_iff {c : UInt8} {k n : ℕ} {b : Bytes} :
    (pack k n).map (c :: ·) = .ok b ↔ n < 256 ^ k ∧ c :: leBytes k n = b := by
  simp only [map_eq_ok_iff, pack_eq_ok_iff]
  constructor
  · rintro ⟨a, ⟨h, rfl⟩, rfl⟩
    exact ⟨h, rfl⟩
  · rintro ⟨h, rfl⟩
    exact ⟨leBytes k n, ⟨h, rfl⟩, rfl⟩

/-- `_write_varint` raises from `2 ^ 64` on only: each shorter form is chosen below its width. -/
lemma writeVarint_eq_ok_iff {n : ℕ} {b : Bytes} :
    writeVarint n = .ok b ↔ n < 2 ^ 64 ∧ varint n = b := by
  rw [writeVarint, varint]
  split_ifs with h₁ h₂ h₃
  · have hn : n < 2 ^ 64 := by omega
    simp only [Except.ok.injEq, hn, true_and]
  · have hn : n < 2 ^ 64 := by omega
    have hk : n < 256 ^ 2 := by omega
    simp only [map_cons_pack_eq_ok_iff, hn, hk, true_and]
  · have hn : n < 2 ^ 64 := by omega
    have hk : n < 256 ^ 4 := by omega
    simp only [map_cons_pack_eq_ok_iff, hn, hk, true_and]
  · exact map_cons_pack_eq_ok_iff

/-- Reading a written integer returns it, whatever follows. -/
lemma readVarint_varint {n : ℕ} (h : n < 2 ^ 64) (t : Bytes) :
    readVarint (varint n ++ t) = .ok (n, t) := by
  rw [varint]
  split_ifs with h₁ h₂ h₃
  · have hn : (UInt8.ofNat n).toNat = n := by rw [UInt8.toNat_ofNat']; omega
    simp [readVarint, hn, h₁]
  · simpa [readVarint] using unpack_append (k := 2) (n := n) (by omega) t
  · simpa [readVarint] using unpack_append (k := 4) (n := n) (by omega) t
  · simpa [readVarint] using unpack_append (k := 8) (n := n) (by omega) t

namespace ShareBlock

/-! ### The image of the serializer -/

/-- The widths the wire format has for the fields of a share. -/
structure Encodable (s : ShareBlock) : Prop where
  version : s.version < 2 ^ 32
  sidechainHeight : s.sidechainHeight < 2 ^ 64
  parentHeight : s.parentHeight < 2 ^ 32
  timestamp : s.timestamp < 2 ^ 32
  blockNbits : s.blockNbits < 2 ^ 32
  coinbaseVersion : s.coinbaseVersion < 2 ^ 32
  coinbaseValue : s.coinbaseValue < 2 ^ 64
  ascii : IsAscii s.minerAddress
  addressLength : s.minerAddress.length < 2 ^ 64
  uncleCount : s.uncleIds.length < 2 ^ 64

/-- The bytes `serialize` writes for an encodable share. -/
def wire (s : ShareBlock) : Bytes :=
  leBytes 4 s.version ++ (leBytes 8 s.sidechainHeight ++ (s.prevShareId.bytes
    ++ (s.parentPrevBlock.bytes ++ (leBytes 4 s.parentHeight ++ (leBytes 4 s.timestamp
    ++ (beBytes 32 s.shareTarget
    ++ ((if targetLimitVersion ≤ s.version then beBytes 32 s.targetLimit else [])
    ++ (leBytes 4 s.blockNbits ++ (leBytes 4 s.coinbaseVersion ++ (leBytes 8 s.coinbaseValue
    ++ (varint s.minerAddress.length ++ ((s.minerAddress.map fun c => UInt8.ofNat c.toNat)
    ++ (s.payoutSetHash.bytes ++ (varint s.uncleIds.length
    ++ s.uncleIds.flatMap Hash32.bytes))))))))))))))

/-- `serialize` raises on exactly the shares a field of which is too wide. -/
lemma serialize_eq_ok_iff {s : ShareBlock} {b : Bytes} :
    s.serialize = .ok b ↔ s.Encodable ∧ s.wire = b := by
  simp only [serialize, bind_eq_ok_iff, pack_eq_ok_iff, encodeAscii_eq_ok_iff,
    writeVarint_eq_ok_iff]
  constructor
  · rintro ⟨_, ⟨h₁, rfl⟩, _, ⟨h₂, rfl⟩, _, ⟨h₃, rfl⟩, _, ⟨h₄, rfl⟩, _, ⟨h₅, rfl⟩, _, ⟨h₆, rfl⟩,
      _, ⟨h₇, rfl⟩, _, ⟨h₈, rfl⟩, _, ⟨h₉, rfl⟩, _, ⟨h₁₀, rfl⟩, h⟩
    rw [List.length_map] at h₉
    refine ⟨⟨by omega, by omega, by omega, by omega, by omega, by omega, by omega, h₈, h₉, h₁₀⟩, ?_⟩
    simpa [wire, pure, Except.pure] using h
  · rintro ⟨h, rfl⟩
    refine ⟨_, ⟨by simpa using h.version, rfl⟩, _, ⟨by simpa using h.sidechainHeight, rfl⟩,
      _, ⟨by simpa using h.parentHeight, rfl⟩, _, ⟨by simpa using h.timestamp, rfl⟩,
      _, ⟨by simpa using h.blockNbits, rfl⟩, _, ⟨by simpa using h.coinbaseVersion, rfl⟩,
      _, ⟨by simpa using h.coinbaseValue, rfl⟩, _, ⟨h.ascii, rfl⟩,
      _, ⟨by simpa using h.addressLength, rfl⟩, _, ⟨h.uncleCount, rfl⟩, ?_⟩
    simp [wire, pure, Except.pure]

lemma Encodable.serialize {s : ShareBlock} (h : s.Encodable) : s.serialize = .ok s.wire :=
  serialize_eq_ok_iff.mpr ⟨h, rfl⟩

/-- An encodable share has an id, the hash of its wire format. -/
lemma shareId_eq_ok_iff {s : ShareBlock} {i : Hash32} :
    s.shareId = .ok i ↔ s.Encodable ∧ doubleSha256 s.wire = i := by
  simp only [shareId, map_eq_ok_iff, serialize_eq_ok_iff]
  constructor
  · rintro ⟨_, ⟨h, rfl⟩, hi⟩
    exact ⟨h, hi⟩
  · rintro ⟨h, hi⟩
    exact ⟨s.wire, ⟨h, rfl⟩, hi⟩

lemma Encodable.shareId {s : ShareBlock} (h : s.Encodable) :
    s.shareId = .ok (doubleSha256 s.wire) :=
  shareId_eq_ok_iff.mpr ⟨h, rfl⟩

/-! ### The round trip -/

lemma readUncles_flatMap (us : List Hash32) (t : Bytes) :
    readUncles us.length (us.flatMap Hash32.bytes ++ t) = us.map Hash32.bytes := by
  induction us with
  | nil => rfl
  | cons u us ih =>
      rw [List.length_cons, readUncles, List.flatMap_cons, List.append_assoc,
        takeBytes_append u.bytes_length, ih, List.map_cons]

lemma maxTarget_lt : maxTarget < 256 ^ 32 := by norm_num [maxTarget]

/-- The wire format carries every field of the share: before version 5 it leaves the target
limit out, which then has its default, the share target. -/
structure Carried (s : ShareBlock) : Prop extends s.Encodable where
  targetLimit : targetLimitVersion ≤ s.version ∨ s.targetLimit = s.shareTarget

lemma Encodable.carried {s : ShareBlock} (h : s.Encodable) (hv : targetLimitVersion ≤ s.version) :
    s.Carried := ⟨h, Or.inl hv⟩

/-- Reading the optional field returns the limit in either version, whatever bytes follow. -/
lemma Carried.read_limit {s : ShareBlock} (h : s.Carried) (t : Bytes) :
    (if targetLimitVersion ≤ s.version then
        takeBytes 32
          ((if targetLimitVersion ≤ s.version then beBytes 32 s.targetLimit else []) ++ t)
      else (beBytes 32 s.shareTarget,
        (if targetLimitVersion ≤ s.version then beBytes 32 s.targetLimit else []) ++ t))
      = (beBytes 32 s.targetLimit, t) := by
  split_ifs with hv
  · exact takeBytes_append (beBytes_length _ _) t
  · rw [h.targetLimit.resolve_left hv, List.nil_append]

/-- **The round trip**: a carried share is read back from its wire format, whatever bytes
follow. -/
lemma Carried.deserialize_wire {s : ShareBlock} (h : s.Carried) (t : Bytes) :
    deserialize (s.wire ++ t) = .ok s := by
  have h₁ : s.version < 256 ^ 4 := by simpa using h.version
  have h₂ : s.sidechainHeight < 256 ^ 8 := by simpa using h.sidechainHeight
  have h₃ : s.parentHeight < 256 ^ 4 := by simpa using h.parentHeight
  have h₄ : s.timestamp < 256 ^ 4 := by simpa using h.timestamp
  have h₅ : s.blockNbits < 256 ^ 4 := by simpa using h.blockNbits
  have h₆ : s.coinbaseVersion < 256 ^ 4 := by simpa using h.coinbaseVersion
  have h₇ : s.coinbaseValue < 256 ^ 8 := by simpa using h.coinbaseValue
  have hlimit : s.targetLimit < 256 ^ 32 := s.targetLimit_le.trans_lt maxTarget_lt
  have htarget : s.shareTarget < 256 ^ 32 := s.shareTarget_le.trans_lt hlimit
  have haddr : (s.minerAddress.map fun c => UInt8.ofNat c.toNat).length = s.minerAddress.length :=
    List.length_map _
  simp only [deserialize, wire, List.append_assoc, unpack_append h₁, unpack_append h₂,
    unpack_append h₃, unpack_append h₄, unpack_append h₅, unpack_append h₆, unpack_append h₇,
    takeBytes_append (Hash32.bytes_length _), takeBytes_append (beBytes_length _ _), h.read_limit,
    takeBytes_append haddr, readVarint_varint h.addressLength, readVarint_varint h.uncleCount,
    decodeAscii_encodeAscii h.ascii, readUncles_flatMap, Hash32.ofBytes_bytes,
    mapM_eq_ok (Hash32.ofBytes_bytes _), beNat_beBytes htarget, beNat_beBytes hlimit, ok_bind]
  exact init_eq_ok_iff.mpr rfl

/-- A version 5 share is read back from its wire format. -/
lemma deserialize_wire {s : ShareBlock} (h : s.Encodable) (hv : targetLimitVersion ≤ s.version)
    (t : Bytes) : deserialize (s.wire ++ t) = .ok s := (h.carried hv).deserialize_wire t

/-- Reading a serialized version 5 share returns it. -/
theorem deserialize_serialize {s : ShareBlock} {b : Bytes} (h : s.serialize = .ok b)
    (hv : targetLimitVersion ≤ s.version) (t : Bytes) : deserialize (b ++ t) = .ok s := by
  obtain ⟨henc, rfl⟩ := serialize_eq_ok_iff.mp h
  exact deserialize_wire henc hv t

/-- **Self-delimiting**: a carried share whose wire format begins that of another is the other. -/
lemma Carried.eq_of_wire_append {s t : ShareBlock} (hs : s.Carried) (ht : t.Carried) {u : Bytes}
    (h : s.wire ++ u = t.wire) : s = t := by
  have hread := hs.deserialize_wire u
  have hread' := ht.deserialize_wire []
  rw [List.append_nil, ← h, hread] at hread'
  exact Except.ok.inj hread'

/-- Two carried shares with one wire format are equal. -/
lemma Carried.wire_inj {s t : ShareBlock} (hs : s.Carried) (ht : t.Carried)
    (h : s.wire = t.wire) : s = t :=
  hs.eq_of_wire_append ht ((List.append_nil _).trans h)

/-- Two version 5 shares with one wire format are equal. -/
lemma wire_inj {s t : ShareBlock} (hs : s.Encodable) (ht : t.Encodable)
    (hvs : targetLimitVersion ≤ s.version) (hvt : targetLimitVersion ≤ t.version)
    (h : s.wire = t.wire) : s = t := (hs.carried hvs).wire_inj (ht.carried hvt) h

/-- **The codec round trip**: a carried share serializes, and reading its bytes returns it
whatever follows them.  Among carried shares the bytes determine the share, the bytes of one
share do not begin those of another, and one id for two shares is a collision of
`double_sha256`. -/
theorem codec_round_trip {s : ShareBlock} (hs : s.Carried) :
    ∃ b, s.serialize = .ok b ∧ (∀ t, deserialize (b ++ t) = .ok s)
      ∧ ∀ s' : ShareBlock, s'.Carried → ∃ b', s'.serialize = .ok b'
        ∧ (b = b' → s = s') ∧ (b <+: b' → b = b')
        ∧ (s.shareId = s'.shareId → s = s' ∨ b ≠ b' ∧ doubleSha256 b = doubleSha256 b') := by
  refine ⟨s.wire, hs.serialize, hs.deserialize_wire, fun s' hs' => ⟨s'.wire, hs'.serialize,
    hs.wire_inj hs', ?_, ?_⟩⟩
  · rintro ⟨u, hu⟩
    rw [hs.eq_of_wire_append hs' hu]
  · intro hid
    rw [hs.shareId, hs'.shareId] at hid
    by_cases hwire : s.wire = s'.wire
    · exact Or.inl (hs.wire_inj hs' hwire)
    · exact Or.inr ⟨hwire, Except.ok.inj hid⟩

/-- A version 4 share with one uncle, whose limit the wire format leaves out. -/
def legacyShare : ShareBlock where
  version := 4
  sidechainHeight := 1
  prevShareId := genesisPrev
  parentPrevBlock := genesisPrev
  parentHeight := 1
  timestamp := 1
  shareTarget := 1
  blockNbits := 0x1d00ffff
  coinbaseVersion := 1
  coinbaseValue := 5000
  minerAddress := ['a']
  payoutSetHash := genesisPrev
  targetLimit := 1
  uncleIds := [genesisPrev]
  shareTarget_pos := by decide
  shareTarget_le := by decide
  targetLimit_le := by norm_num [maxTarget]

lemma legacyShare_carried : legacyShare.Carried :=
  ⟨⟨by decide, by decide, by decide, by decide, by decide, by decide, by decide, by decide,
    by decide, by decide⟩, Or.inr rfl⟩

/-- A share of the old version, with whatever follows its bytes. -/
theorem codec_round_trip_legacy :
    legacyShare.Carried
      ∧ ∃ b, legacyShare.serialize = .ok b ∧ ∀ t, deserialize (b ++ t) = .ok legacyShare := by
  obtain ⟨b, hb, hread, -⟩ := codec_round_trip legacyShare_carried
  exact ⟨legacyShare_carried, b, hb, hread⟩

end ShareBlock

end P2Pearl
