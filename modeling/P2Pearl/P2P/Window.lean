import Mathlib.Data.List.TakeWhile
import P2Pearl.P2P.Gossip

/-!
The window of shares a node sends to a peer that asks for it, and what the peer makes of it.

* `window`: the main chain from the best tip down to a height, oldest first, with the ids of its
  shares; `windowShares_eq` says that `_window_shares` walks it.
* `Parcel`: a share with its id and its proof, as it is sent; `streamShares_eq`: the messages of
  a window carry the parcels of its shares in order, batch by batch.
* `takePair_of_known`, `takePair_of_valid`: what becomes of a parcel.
* `receiveAll`: a node is sent messages in turn; `receiveAll_parcels` is the induction over the
  parcels they carry.
-/

namespace P2Pearl

namespace P2PNode

variable {cfg : P2PConfig} {N : P2PNode} {fromHeight : ℤ}

/-! ### The window -/

/-- The main chain from the best tip down to a height, oldest first. -/
def window (N : P2PNode) (fromHeight : ℤ) : List (Hash32 × ShareBlock) :=
  ((trail N.chain.entries.get ShareBlock.up syncLimit (N.chain.bestTip.bind link)).takeWhile
    fun p => fromHeight ≤ p.2.sidechainHeight).reverse

lemma windowWalk_eq (S : Shares) (fromHeight : ℤ) (n : ℕ) (start : Option Hash32) :
    windowWalk S fromHeight n start = ((trail S ShareBlock.up n start).takeWhile
      fun p => fromHeight ≤ p.2.sidechainHeight).map Prod.snd := by
  induction n generalizing start with
  | zero => rfl
  | succ n ih =>
      cases start with
      | none => rfl
      | some cur =>
          rw [windowWalk]
          cases hs : S cur with
          | none => rw [trail_missing hs]; rfl
          | some share =>
              rw [trail_succ hs, List.takeWhile_cons]
              dsimp only
              by_cases h : (share.sidechainHeight : ℤ) < fromHeight
              · rw [if_pos h, if_neg (by simpa using h)]; rfl
              · rw [if_neg h, if_pos (by simpa using h), List.map_cons, ih]

lemma windowShares_eq (N : P2PNode) (fromHeight : ℤ) :
    N.windowShares fromHeight = (N.window fromHeight).map Prod.snd := by
  rw [windowShares, windowWalk_eq, window, List.map_reverse]

lemma mem_window {p : Hash32 × ShareBlock} (h : p ∈ N.window fromHeight) :
    p ∈ trail N.chain.entries.get ShareBlock.up syncLimit (N.chain.bestTip.bind link)
      ∧ fromHeight ≤ p.2.sidechainHeight := by
  have htake := List.mem_reverse.mp h
  exact ⟨(List.takeWhile_prefix _).subset htake, by simpa using List.mem_takeWhile_imp htake⟩

lemma stored_of_mem_window {p : Hash32 × ShareBlock} (h : p ∈ N.window fromHeight) :
    N.chain.entries.get p.1 = some p.2 :=
  stored_of_mem_trail (mem_window h).1

/-- Each share of the window links to the one before. -/
lemma isChain_window (N : P2PNode) (fromHeight : ℤ) :
    (N.window fromHeight).IsChain fun p q => q.2.up = some p.1 :=
  List.isChain_reverse.mpr (isChain_takeWhile_trail _ _ _)

/-- A window ends in the best tip, unless it is empty. -/
lemma window_eq_append (hne : N.window fromHeight ≠ []) {k : Hash32}
    (hbest : N.chain.bestTip = some k) : ∃ older s, N.window fromHeight = older ++ [(k, s)] := by
  rw [window, hbest, Option.bind_some] at hne ⊢
  by_cases hk : k = genesisPrev
  · rw [hk, link_genesisPrev, trail_none] at hne
    exact absurd rfl hne
  · rw [link_of_ne hk] at hne ⊢
    cases hs : N.chain.entries.get k with
    | none => rw [trail_missing hs] at hne; exact absurd rfl hne
    | some s =>
        have htrail : trail N.chain.entries.get ShareBlock.up syncLimit (some k)
            = (k, s) :: trail N.chain.entries.get ShareBlock.up (syncLimit - 1) s.up :=
          trail_succ hs _
        rw [htrail, List.takeWhile_cons] at hne ⊢
        split_ifs at hne ⊢ with hh
        · exact ⟨_, s, List.reverse_cons⟩
        · exact absurd rfl hne

/-! ### Its messages -/

/-- A share with its id and a proof. -/
structure Parcel where
  id : Hash32
  share : ShareBlock
  proof : PyStr

namespace Parcel

/-- The texts of the parcel. -/
def pair (a : Parcel) : PyStr × PyStr := (Bytes.hex a.share.wire, a.proof)

/-- The parcel as it is received. -/
def json (a : Parcel) : Json := .arr [.str a.pair.1, .str a.pair.2]

/-- The parcel can be read, and its proof is ASCII text that verifies. -/
structure Sound (cfg : P2PConfig) (a : Parcel) : Prop where
  id : a.share.shareId = .ok a.id
  version : a.share.version = sidechainVersion
  verified : cfg.verifyIncoming a.share (.str a.proof) = .ok true
  ascii : ∃ bytes, encodeAscii a.proof = .ok bytes

end Parcel

/-- The parcel of a share, where its proof is cached. -/
def parcel (N : P2PNode) (p : Hash32 × ShareBlock) : Option Parcel :=
  (N.proofs.get p.1.hex).map fun proof => ⟨p.1, p.2, proof⟩

/-- One share of the loop: its parcel, if it has one, joins the batch, which is sent when full. -/
lemma streamShares_cons {p : Hash32 × ShareBlock} (hid : p.2.shareId = .ok p.1)
    (shares : List ShareBlock) (batch : List Parcel) :
    N.streamShares (p.2 :: shares) (batch.map Parcel.pair) =
      match N.parcel p with
      | none => N.streamShares shares (batch.map Parcel.pair)
      | some a =>
          if syncBatch ≤ batch.length + 1 then
            .shares ((batch ++ [a]).map Parcel.pair) :: N.streamShares shares []
          else N.streamShares shares ((batch ++ [a]).map Parcel.pair) := by
  have hwire : p.2.hex = .ok (Bytes.hex p.2.wire) := by
    rw [ShareBlock.hex, (ShareBlock.shareId_eq_ok_iff.mp hid).1.serialize]
    rfl
  rw [streamShares]
  simp only [hid, hwire, parcel, List.length_map, List.map_append, List.map_singleton]
  cases N.proofs.get p.1.hex <;> rfl

/-- **The messages of a window** carry the parcels of its shares in order, a few at a time. -/
lemma streamShares_eq {shares : List (Hash32 × ShareBlock)}
    (hid : ∀ p ∈ shares, p.2.shareId = .ok p.1) {batch : List Parcel}
    (hbatch : batch.length < syncBatch) :
    ∃ batches : List (List Parcel),
      N.streamShares (shares.map Prod.snd) (batch.map Parcel.pair)
        = batches.map (fun b => .shares (b.map Parcel.pair))
      ∧ batches.flatten = batch ++ shares.filterMap N.parcel
      ∧ ∀ b ∈ batches, b.length ≤ syncBatch := by
  induction shares generalizing batch with
  | nil =>
      cases batch with
      | nil => exact ⟨[], rfl, rfl, by simp⟩
      | cons a batch => exact ⟨[a :: batch], rfl, by simp, by simpa using hbatch.le⟩
  | cons p shares ih =>
      have hrest := fun q hq => hid q (List.mem_cons_of_mem _ hq)
      rw [List.map_cons, streamShares_cons (hid p List.mem_cons_self)]
      cases hparcel : N.parcel p with
      | none =>
          rw [List.filterMap_cons_none hparcel]
          exact ih hrest hbatch
      | some a =>
          have hsucc : (batch ++ [a]).length = batch.length + 1 := List.length_append
          dsimp only
          rw [List.filterMap_cons_some hparcel]
          split_ifs with hfull
          · obtain ⟨batches, hstream, hflat, hlen⟩ := @ih hrest [] (by decide)
            refine ⟨(batch ++ [a]) :: batches, ?_, ?_, ?_⟩
            · rw [List.map_cons, ← hstream]; rfl
            · rw [List.flatten_cons, hflat]; simp
            · intro b hb
              rcases List.mem_cons.mp hb with rfl | hb
              · omega
              · exact hlen b hb
          · obtain ⟨batches, hstream, hflat, hlen⟩ := @ih hrest (batch ++ [a]) (by omega)
            exact ⟨batches, hstream, by rw [hflat]; simp, hlen⟩

/-! ### What becomes of a parcel -/

section Parcel

variable {a : Parcel} {now now' : ℚ}

lemma Parcel.Sound.read (ha : a.Sound cfg) : readShare (.str (Bytes.hex a.share.wire))
    = some a.share :=
  readShare_hex (ShareBlock.shareId_eq_ok_iff.mp ha.id).1 ha.version.ge

/-- A share that is stored, or whose predecessor is not, is passed over. -/
lemma takePair_of_known (ha : a.Sound cfg) (h : N.Has a.id ∨ N.Orphan a.share) :
    N.takePair cfg a.json now now' = (N, true) := by
  show N.takePair cfg (.arr [.str (Bytes.hex a.share.wire), .str a.proof]) now now' = _
  simp only [takePair, ha.read, ha.id, if_pos h]

/-- A share that is no valid successor is passed over. -/
lemma takePair_of_invalid (ha : a.Sound cfg)
    (h : ¬Valid cfg.params N.chain.entries.get a.share now a.id) :
    N.takePair cfg a.json now now' = (N, true) := by
  by_cases hknown : N.Has a.id ∨ N.Orphan a.share
  · exact takePair_of_known ha hknown
  · have hinvalid : N.chain.isValidSuccessor cfg.params a.share now = .ok false := by
      rw [Sharechain.isValidSuccessor, validate, ha.id]
      exact congrArg _ (decide_eq_false fun hnone => h (verdict_eq_none_iff.mp hnone))
    show N.takePair cfg (.arr [.str (Bytes.hex a.share.wire), .str a.proof]) now now' = _
    simp only [takePair, ha.read, ha.id, if_neg hknown, hinvalid]

/-- A valid successor is added, with its proof. -/
lemma takePair_of_valid (htip : N.chain.TipStored) (ha : a.Sound cfg)
    (h : Valid cfg.params N.chain.entries.get a.share now a.id)
    (h' : Valid cfg.params N.chain.entries.get a.share now' a.id) :
    ∃ N' call, N.takePair cfg a.json now now' = (N', true) ∧ call.share = a.share
      ∧ Accepts cfg.params N.chain call ∧ N'.chain = (addShare cfg.params N.chain call).1
      ∧ N'.calls = N.calls ++ [(.gossip a.proof, call)]
      ∧ N'.chain.entries.get a.id = some a.share := by
  obtain ⟨bytes, henc⟩ := ha.ascii
  obtain ⟨hadmits, hstored⟩ := admitShare_of_valid htip ha.id henc h' a.id.hex
  have hknown : ¬(N.Has a.id ∨ N.Orphan a.share) :=
    not_or.mpr ⟨not_has_of_valid h, not_orphan_of_valid h⟩
  have hvalid : validate cfg.params N.chain.entries.get (admission a.share bytes now').share
      (admission a.share bytes now').now = .ok none := validate_eq_ok_none_iff.mpr ⟨_, ha.id, h'⟩
  obtain ⟨isBestTip, hres⟩ := addShare_of_valid htip (admission a.share bytes now') rfl hvalid
  refine ⟨{ N with
    chain := (addShare cfg.params N.chain (admission a.share bytes now')).1
    calls := N.calls ++ [(.gossip a.proof, admission a.share bytes now')]
    proofs := N.storeProof a.id.hex a.proof }, admission a.share bytes now', ?_, rfl,
    ⟨isBestTip, "", hres⟩, rfl, rfl, hstored⟩
  show N.takePair cfg (.arr [.str (Bytes.hex a.share.wire), .str a.proof]) now now' = _
  simp only [takePair, ha.read, ha.id, if_neg hknown, isValidSuccessor_of_valid ha.id h,
    ha.verified, hadmits]

end Parcel

/-! ### Messages in turn -/

/-- A node is sent messages by a peer, each with the clock readings its handler makes. -/
def receiveAll (cfg : P2PConfig) (peer : ℕ) : P2PNode → List Message → (ℕ → ℕ → ℚ) → P2PNode
  | N, [], _ => N
  | N, msg :: rest, clock =>
      receiveAll cfg peer (N.handle cfg peer msg.incoming (clock 0)).1 rest fun i => clock (i + 1)

section Induction

variable (I : List Parcel → P2PNode → Prop) (good : ℚ → Prop) {all done : List Parcel}
  (hstep : ∀ done a N now now', done ++ [a] <+: all → good now → good now' → I done N →
    ∃ N', N.takePair cfg a.json now now' = (N', true) ∧ I (done ++ [a]) N')

include hstep

lemma takePairs_parcels {batch : List Parcel} {clock : ℕ → ℚ} (hall : done ++ batch <+: all)
    (hclock : ∀ i, good (clock i)) (h : I done N) :
    I (done ++ batch) (N.takePairs cfg (batch.map Parcel.json) clock) := by
  induction batch generalizing N done clock with
  | nil => rwa [List.append_nil]
  | cons a batch ih =>
      have hsplit : done ++ a :: batch = done ++ [a] ++ batch := by simp
      rw [hsplit] at hall ⊢
      obtain ⟨N', htake, h'⟩ := hstep done a N (clock 0) (clock 1)
        ((List.prefix_append _ _).trans hall) (hclock 0) (hclock 1) h
      rw [List.map_cons, takePairs, htake]
      exact ih hall (fun i => hclock (i + 2)) h'

omit hstep in
/-- A message of a window carries few enough parcels for its handler to take them all. -/
lemma handle_shares {peer : ℕ} {batch : List Parcel} {clock : ℕ → ℚ}
    (hsmall : batch.length ≤ syncBatch) :
    (N.handle cfg peer (Message.shares (batch.map Parcel.pair)).incoming clock).1
      = N.takePairs cfg (batch.map Parcel.json) clock := by
  show N.takePairs cfg (((batch.map Parcel.pair).map fun p => .arr [.str p.1, .str p.2]).take
    syncLimit) clock = _
  rw [List.map_map, List.take_of_length_le]
  · rfl
  · rw [List.length_map]
    exact hsmall.trans (by decide)

lemma receiveAll_parcels_from {peer : ℕ} {batches : List (List Parcel)} {clock : ℕ → ℕ → ℚ}
    (hsmall : ∀ batch ∈ batches, batch.length ≤ syncBatch) (hall : done ++ batches.flatten <+: all)
    (hclock : ∀ i j, good (clock i j)) (h : I done N) :
    I (done ++ batches.flatten)
      (N.receiveAll cfg peer (batches.map fun b => .shares (b.map Parcel.pair)) clock) := by
  induction batches generalizing N done clock with
  | nil => rwa [List.flatten_nil, List.append_nil]
  | cons batch batches ih =>
      rw [List.flatten_cons, ← List.append_assoc] at hall ⊢
      rw [List.map_cons, receiveAll, handle_shares (hsmall batch List.mem_cons_self)]
      refine ih (fun b hb => hsmall b (List.mem_cons_of_mem _ hb)) hall
        (fun i j => hclock (i + 1) j) ?_
      exact takePairs_parcels I good hstep ((List.prefix_append _ _).trans hall) (hclock 0) h

/-- **Induction over the parcels of a window**: what the next parcel preserves, from any node that
has taken the ones before, the messages of the window preserve. -/
lemma receiveAll_parcels {peer : ℕ} {batches : List (List Parcel)} {clock : ℕ → ℕ → ℚ}
    (hsmall : ∀ batch ∈ batches, batch.length ≤ syncBatch) (hall : batches.flatten = all)
    (hclock : ∀ i j, good (clock i j)) (h : I [] N) :
    I all (N.receiveAll cfg peer (batches.map fun b => .shares (b.map Parcel.pair)) clock) := by
  subst hall
  exact receiveAll_parcels_from I good hstep hsmall List.prefix_rfl hclock h

end Induction

end P2PNode

end P2Pearl
