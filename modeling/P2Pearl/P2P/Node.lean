import P2Pearl.Data.Machine
import P2Pearl.Data.OrderedMap
import P2Pearl.Consensus.History
import P2Pearl.P2P.Message

/-!
`P2PNode` of `p2p/node.py`: the gossip of shares, proofs and blocks.

* `P2PNode`: the sharechain, the peers, the caches, the handlers that wait for a callback, and a
  record of what was added, accepted and announced, which the code does not keep.
* `hShare`, `hProof`, `hShares`, `hGetproof`, `hGetshares`, `hHello`, `hBlock`: the handlers; a
  handler that raises has done what it did before, and its peer stays connected.
* `P2PNode.react`: one event between two awaits, with the messages it sends.  A message here is
  one the flood and rate gates have let pass; the messages of the peers come in any order.
-/

namespace P2Pearl

/-! ### Constants -/

/-- `MAX_STORED_PROOFS`. -/
def maxStoredProofs : ℕ := 4096

/-- `SYNC_LIMIT`. -/
def syncLimit : ℕ := 2048

/-- `SYNC_BATCH`. -/
def syncBatch : ℕ := 8

/-- `MAX_BLOCK_HEX`. -/
def maxBlockHex : ℕ := 2000000

/-- `MAX_BLOCKS_SEEN`. -/
def maxBlocksSeen : ℕ := 512

/-! ### The node -/

/-- What a node is given: the parameters of its sharechain, `verify_incoming`, and what `int`
makes of a string. -/
structure P2PConfig where
  params : Params
  verifyIncoming : ShareBlock → Json → Except PyError Bool
  intOfStr : PyStr → Except PyError ℤ

/-- Who calls `add_share`: the daemon, or a handler with a proof. -/
inductive Source where
  | own
  | gossip (proof : PyStr)

/-- An announcement: the share, the peer it is not sent to, and those it is sent to. -/
structure Announcement where
  share : ShareBlock
  exclude : Option ℕ
  recipients : List ℕ

/-- The share of an announcement by a handler, with the sender of its proof. -/
def Announcement.relayed (a : Announcement) : Option (ShareBlock × ℕ) :=
  a.exclude.map fun sender => (a.share, sender)

/-- `P2PNode`; a peer is its number. -/
structure P2PNode where
  chain : Sharechain
  peers : List ℕ
  peerSeq : ℕ
  /-- `_proofs`, by the hex text of a share id. -/
  proofs : OrderedMap PyStr PyStr
  /-- `_pending`. -/
  pending : OrderedMap PyStr ShareBlock
  /-- `_blocks_seen`, by the hash of a block. -/
  blocksSeen : OrderedMap Bytes Bool
  /-- Accepted shares whose `_h_proof` awaits `on_new_share`, with the sender of the proof. -/
  relaying : List (ShareBlock × ℕ)
  /-- Blocks whose `_h_block` awaits `on_block`, with their sender. -/
  relayingBlocks : List (PyStr × ℕ)
  /-- The calls of `add_share`, oldest first. -/
  calls : List (Source × Call)
  /-- What `_h_proof` has had accepted, with the sender of the proof, oldest first. -/
  accepted : List (ShareBlock × ℕ)
  /-- The announcements, oldest first. -/
  announced : List Announcement
  /-- What `broadcast_share` has put into the proof cache. -/
  broadcasts : List (PyStr × PyStr)

/-- `is_valid_successor`. -/
def Sharechain.isValidSuccessor (P : Params) (C : Sharechain) (share : ShareBlock) (now : ℚ) :
    Except PyError Bool :=
  (validate P C.entries.get share now).map fun r => decide (r = none)

namespace P2PNode

/-- A new node. -/
def init : P2PNode := ⟨.empty, [], 0, .empty, .empty, .empty, [], [], [], [], [], []⟩

variable (cfg : P2PConfig) (N : P2PNode)

/-- `_store_proof`. -/
def storeProof (sid proof : PyStr) : OrderedMap PyStr PyStr :=
  ((N.proofs.set sid proof).moveToEnd sid).trim maxStoredProofs

/-- The key of `_seen_block`: the hash of the ASCII characters of the text. -/
def blockKey (block : PyStr) : Bytes :=
  sha256 ((block.filter (·.toNat < 128)).map fun c => UInt8.ofNat c.toNat)

/-- `_seen_block`: the blocks seen, and whether this one already was. -/
def seenBlock (block : PyStr) : OrderedMap Bytes Bool × Bool :=
  if N.blocksSeen.get (blockKey block) ≠ none then (N.blocksSeen.moveToEnd (blockKey block), true)
  else ((N.blocksSeen.set (blockKey block) true).trim maxBlocksSeen, false)

/-- The share is in the sharechain. -/
def Has (sid : Hash32) : Prop := N.chain.entries sid ≠ none

instance (sid : Hash32) : Decidable (N.Has sid) := inferInstanceAs (Decidable (_ ≠ none))

/-- The predecessor of the share is unknown. -/
def Orphan (share : ShareBlock) : Prop :=
  share.prevShareId ≠ genesisPrev ∧ ¬N.Has share.prevShareId

instance (share : ShareBlock) : Decidable (N.Orphan share) := inferInstanceAs (Decidable (_ ∧ _))

/-- The call of `add_share` that adds a share with its proof. -/
def admission (share : ShareBlock) (bytes : Bytes) (now : ℚ) : Call :=
  ⟨share, true, some bytes, now⟩

/-- The end of both ways a share is admitted: a verified share is added with its proof, and where
it is accepted the proof is stored. -/
def admitShare (sid : PyStr) (share : ShareBlock) (proof : Json) (now : ℚ) :
    P2PNode × Except PyError Bool :=
  match proof with
  | .str text =>
      match encodeAscii text with
      | .error e => (N, .error e)
      | .ok bytes =>
          let calls := N.calls ++ [(.gossip text, admission share bytes now)]
          match addShare cfg.params N.chain (admission share bytes now) with
          | (chain, .error e) => ({ N with chain, calls }, .error e)
          | (chain, .ok r) =>
              if r.accepted then
                ({ N with chain, calls, proofs := N.storeProof sid text }, .ok true)
              else ({ N with chain, calls }, .ok false)
  | _ => (N, .error .attributeError)

/-! ### The handlers -/

/-- `_h_hello`, its request for the window. -/
def hHello (msg : Incoming) : List Message :=
  match pyInt cfg.intOfStr (msg.height.getD (.int (-1))) with
  | .ok height => if N.chain.height < height then [.getshares (N.chain.height + 1)] else []
  | .error _ => []

/-- `_h_share`. -/
def hShare (msg : Incoming) (now : ℚ) : P2PNode × List Message :=
  match msg.share.bind readShare with
  | none => (N, [])
  | some share =>
      match share.shareId with
      | .error _ => (N, [])
      | .ok sid =>
          if N.Has sid ∨ N.pending.get sid.hex ≠ none then (N, [])
          else if N.Orphan share then
            (N, [.getshares (max 0 ((share.sidechainHeight : ℤ) - 1))])
          else
            match N.chain.isValidSuccessor cfg.params share now with
            | .ok true => ({ N with pending := N.pending.set sid.hex share }, [.getproof sid.hex])
            | _ => (N, [])

/-- `_h_getproof`. -/
def hGetproof (msg : Incoming) : List Message :=
  match msg.id with
  | some (.str id) =>
      match N.proofs.get id with
      | some proof => [.proof id proof]
      | none => []
  | _ => []

/-- `_h_proof` up to `on_new_share`: an accepted share waits to be announced. -/
def hProof (peer : ℕ) (msg : Incoming) (now : ℚ) : P2PNode :=
  match msg.id.getD (.str []) with
  | .str sid =>
      match N.pending.get sid with
      | none => N
      | some share =>
          let N := { N with pending := N.pending.erase sid }
          let proof := msg.proof.getD (.str [])
          match cfg.verifyIncoming share proof with
          | .ok true =>
              match N.admitShare cfg sid share proof now with
              | (N, .ok true) => { N with
                  relaying := N.relaying ++ [(share, peer)]
                  accepted := N.accepted ++ [(share, peer)] }
              | (N, _) => N
          | _ => N
  | _ => N

/-- The walk of `_window_shares`, newest first. -/
def windowWalk (S : Shares) (fromHeight : ℤ) : ℕ → Option Hash32 → List ShareBlock
  | 0, _ => []
  | _ + 1, none => []
  | n + 1, some cur =>
      match S cur with
      | none => []
      | some share =>
          if (share.sidechainHeight : ℤ) < fromHeight then []
          else share :: windowWalk S fromHeight n share.up

/-- `_window_shares`: the main chain from the best tip, oldest first. -/
def windowShares (fromHeight : ℤ) : List ShareBlock :=
  (windowWalk N.chain.entries.get fromHeight syncLimit (N.chain.bestTip.bind link)).reverse

/-- The loop of `_h_getshares`, on the batch so far. -/
def streamShares : List ShareBlock → List (PyStr × PyStr) → List Message
  | [], batch => if batch = [] then [] else [.shares batch]
  | share :: rest, batch =>
      match share.shareId, share.hex with
      | .ok sid, .ok wire =>
          match N.proofs.get sid.hex with
          | none => streamShares rest batch
          | some proof =>
              if syncBatch ≤ batch.length + 1 then
                .shares (batch ++ [(wire, proof)]) :: streamShares rest []
              else streamShares rest (batch ++ [(wire, proof)])
      | _, _ => []

/-- `_h_getshares`. -/
def hGetshares (msg : Incoming) : List Message :=
  match pyInt cfg.intOfStr (msg.fromHeight.getD (.int 0)) with
  | .ok fromHeight => N.streamShares (N.windowShares fromHeight) []
  | .error _ => []

/-- A pair of `_h_shares`: the node afterwards, and whether the handler goes on. -/
def takePair (pair : Json) (now now' : ℚ) : P2PNode × Bool :=
  match pair with
  | .arr [wire, proof] =>
      match readShare wire with
      | none => (N, true)
      | some share =>
          match share.shareId with
          | .error _ => (N, false)
          | .ok sid =>
              if N.Has sid ∨ N.Orphan share then (N, true)
              else
                match N.chain.isValidSuccessor cfg.params share now with
                | .error _ => (N, false)
                | .ok false => (N, true)
                | .ok true =>
                    match cfg.verifyIncoming share proof with
                    | .error _ => (N, false)
                    | .ok false => (N, true)
                    | .ok true =>
                        match N.admitShare cfg sid.hex share proof now' with
                        | (N, .error _) => (N, false)
                        | (N, .ok _) => (N, true)
  | _ => (N, true)

/-- The loop of `_h_shares`, with the clock readings to come. -/
def takePairs : P2PNode → List Json → (ℕ → ℚ) → P2PNode
  | N, [], _ => N
  | N, pair :: rest, clock =>
      match N.takePair cfg pair (clock 0) (clock 1) with
      | (N, false) => N
      | (N, true) => takePairs N rest fun i => clock (i + 2)

/-- `_h_shares`. -/
def hShares (msg : Incoming) (clock : ℕ → ℚ) : P2PNode :=
  match msg.shares.getD (.arr []) with
  | .arr pairs => takePairs cfg N (pairs.take syncLimit) clock
  | _ => N

/-- `_h_block` up to `on_block`. -/
def hBlock (peer : ℕ) (msg : Incoming) : P2PNode :=
  match msg.block with
  | some (.str block) =>
      if block = [] ∨ maxBlockHex < block.length then N
      else
        match N.seenBlock block with
        | (blocksSeen, true) => { N with blocksSeen }
        | (blocksSeen, false) =>
            { N with blocksSeen, relayingBlocks := N.relayingBlocks ++ [(block, peer)] }
  | _ => N

/-- The handler of a message: the node afterwards, and the replies to the peer. -/
def handle (peer : ℕ) (msg : Incoming) (clock : ℕ → ℚ) : P2PNode × List Message :=
  match msg.kind with
  | none => (N, [])
  | some .hello => (N, N.hHello cfg msg)
  | some .share => N.hShare cfg msg (clock 0)
  | some .getproof => (N, N.hGetproof msg)
  | some .proof => (N.hProof cfg peer msg (clock 0), [])
  | some .getshares => (N, N.hGetshares cfg msg)
  | some .shares => (N.hShares cfg msg clock, [])
  | some .block => (N.hBlock peer msg, [])

/-! ### Broadcasts and events -/

/-- `_announce`: the share goes to the connected peers but one. -/
def announce (share : ShareBlock) (exclude : Option ℕ) : P2PNode × List (ℕ × Message) :=
  match share.hex with
  | .error _ => (N, [])
  | .ok wire =>
      let recipients := N.peers.filter fun p => some p ≠ exclude
      ({ N with announced := N.announced ++ [⟨share, exclude, recipients⟩] },
        recipients.map fun p => (p, .share wire))

/-- What can happen: a peer connects, leaves or sends a message, a handler goes on after its
callback, the daemon adds a share or broadcasts a share or a block. -/
inductive Event where
  | connect
  | disconnect (peer : ℕ)
  | receive (peer : ℕ) (msg : Incoming) (clock : ℕ → ℚ)
  | relay (i : ℕ)
  | relayBlock (i : ℕ)
  | submit (call : Call)
  | broadcastShare (share : ShareBlock) (proof : PyStr)
  | broadcastBlock (block : PyStr)

/-- One event, where it can happen, with the messages it sends. -/
def react : Event → Option (P2PNode × List (ℕ × Message))
  | .connect =>
      some ({ N with peerSeq := N.peerSeq + 1, peers := N.peers ++ [N.peerSeq + 1] },
        [(N.peerSeq + 1, .hello N.chain.height)])
  | .disconnect peer => some ({ N with peers := N.peers.erase peer }, [])
  | .receive peer msg clock =>
      let (N, replies) := N.handle cfg peer msg clock
      some (N, replies.map fun m => (peer, m))
  | .relay i =>
      N.relaying[i]?.map fun r =>
        { N with relaying := N.relaying.eraseIdx i }.announce r.1 (some r.2)
  | .relayBlock i =>
      N.relayingBlocks[i]?.map fun r =>
        ({ N with relayingBlocks := N.relayingBlocks.eraseIdx i },
          (N.peers.filter (· ≠ r.2)).map fun p => (p, .block r.1))
  | .submit call =>
      some ({ N with
        chain := (addShare cfg.params N.chain call).1
        calls := N.calls ++ [(.own, call)] }, [])
  | .broadcastShare share proof =>
      match share.shareId with
      | .error _ => some (N, [])
      | .ok sid => some ({ N with
          proofs := N.storeProof sid.hex proof
          broadcasts := N.broadcasts ++ [(sid.hex, proof)] }.announce share none)
  | .broadcastBlock block =>
      some ({ N with blocksSeen := (N.seenBlock block).1 },
        N.peers.map fun p => (p, .block block))

/-- One event, where it can happen. -/
def step (e : Event) : Option P2PNode := (N.react cfg e).map Prod.fst

end P2PNode

end P2Pearl
