import P2Pearl.Data.JsonText
import P2Pearl.Consensus.ShareCodec

/-!
The messages of the gossip layer, `p2p/node.py`.

* `Incoming`: a message of a peer by the fields the handlers read.
* `Message`: what a node sends; `Message.incoming` is the same message at its peer.
* `readShare`: the share of a hex text; it reads back what
  `ShareBlock.hex` writes (`readShare_hex`).
-/

namespace P2Pearl

/-! ### What a peer may send -/

/-- `int(x)`, given what it makes of a string. -/
def pyInt (intOfStr : PyStr → Except PyError ℤ) : Json → Except PyError ℤ
  | .int n => .ok n
  | .bool b => .ok (if b then 1 else 0)
  | .float (some x) => .ok (if 0 ≤ x then ⌊x⌋ else ⌈x⌉)
  | .float none => .error (.valueError "cannot convert float to integer")
  | .str s => intOfStr s
  | .null | .arr _ | .obj _ => .error .typeError

/-- The kinds of messages with a handler; `peers`, which exchanges addresses only, is left out. -/
inductive Kind where
  | hello
  | share
  | getproof
  | proof
  | getshares
  | shares
  | block
  deriving DecidableEq

/-- A message received: its kind, if there is a handler for it, and the fields the handlers ask
for, where it has them. -/
structure Incoming where
  kind : Option Kind := none
  height : Option Json := none
  share : Option Json := none
  id : Option Json := none
  proof : Option Json := none
  fromHeight : Option Json := none
  shares : Option Json := none
  block : Option Json := none

/-! ### What a node sends -/

/-- A message sent.  Of a `hello` only the height is kept: its version and its tip are read by
nobody, and its port by the exchange of addresses. -/
inductive Message where
  | hello (height : ℤ)
  | share (wire : PyStr)
  | getproof (id : PyStr)
  | proof (id b64 : PyStr)
  | getshares (fromHeight : ℤ)
  | shares (pairs : List (PyStr × PyStr))
  | block (hex : PyStr)
  deriving DecidableEq

/-- The message as its peer receives it. -/
def Message.incoming : Message → Incoming
  | .hello height => { kind := some .hello, height := some (.int height) }
  | .share wire => { kind := some .share, share := some (.str wire) }
  | .getproof id => { kind := some .getproof, id := some (.str id) }
  | .proof id b64 => { kind := some .proof, id := some (.str id), proof := some (.str b64) }
  | .getshares fromHeight =>
      { kind := some .getshares, fromHeight := some (.int fromHeight) }
  | .shares pairs =>
      { kind := some .shares, shares := some (.arr (pairs.map fun p => .arr [.str p.1, .str p.2])) }
  | .block hex => { kind := some .block, block := some (.str hex) }

/-! ### Shares and ids as text -/

/-- `share_id().hex()`. -/
def Hash32.hex (h : Hash32) : PyStr := Bytes.hex h.bytes

lemma Hash32.hex_inj {g h : Hash32} (e : g.hex = h.hex) : g = h := Hash32.ext (Bytes.hex_inj e)

/-- `ShareBlock.deserialize(bytes.fromhex(x))`, where it does not raise. -/
def readShare : Json → Option ShareBlock
  | .str s => (fromHex s >>= ShareBlock.deserialize).toOption
  | _ => none

/-- `serialize().hex()`. -/
def ShareBlock.hex (s : ShareBlock) : Except PyError PyStr := s.serialize.map Bytes.hex

/-- A share is read back from the text of its wire format. -/
lemma readShare_hex {s : ShareBlock} (h : s.Encodable)
    (hv : ShareBlock.targetLimitVersion ≤ s.version) :
    readShare (.str (Bytes.hex s.wire)) = some s := by
  have hread := ShareBlock.deserialize_wire h hv []
  rw [List.append_nil] at hread
  rw [readShare, fromHex_hex, ok_bind, hread]
  rfl

end P2Pearl
