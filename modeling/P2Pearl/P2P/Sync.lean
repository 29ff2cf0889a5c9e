import P2Pearl.Consensus.Agreement
import P2Pearl.P2P.Window

/-!
A node syncs with a peer: it handles a message, and the answer to the request it makes.

* `sync`: what becomes of the node; `sync_eq`: where it asks for a window, it receives it.
* `HonestCache`: the cached proofs verify; `Pairing`: two nodes whose shares come from one pool.
* `Receiving`: what holds of the node while it receives a window; `Receiving.valid`: a share
  without uncles, on target, is a valid successor as soon as its predecessor is stored.
* `sync_induction`: what every parcel preserves, syncing preserves.
-/

namespace P2Pearl

namespace P2PNode

/-! ### Syncing -/

/-- A node handles a message, sends the requests it makes, and handles every message of the
answer in order. -/
def sync (cfg cfgS : P2PConfig) (peer : ℕ) (C S : P2PNode) (msg : Message) (clock : ℕ → ℕ → ℚ) :
    P2PNode :=
  let (C, requests) := C.handle cfg peer msg.incoming (clock 0)
  C.receiveAll cfg peer
    (requests.flatMap fun r => (S.handle cfgS peer r.incoming (clock 0)).2) fun i => clock (i + 1)

/-- Every cached proof is ASCII text and verifies for the share it is cached for. -/
def HonestCache (cfg : P2PConfig) (S : P2PNode) : Prop :=
  ∀ share sid text, share.shareId = .ok sid → S.proofs.get sid.hex = some text →
    cfg.verifyIncoming share (.str text) = .ok true ∧ ∃ bytes, encodeAscii text = .ok bytes

/-- The shares a node has ever been given. -/
def given (N : P2PNode) : List ShareBlock := (N.calls.map Prod.snd).map Call.share

/-- The shares two nodes have ever been given. -/
def pool (C S : P2PNode) : List ShareBlock := C.given ++ S.given

/-- A node and a peer it syncs with: the peer's cached proofs verify, and ids do not collide. -/
structure Pairing (cfg cfgS : P2PConfig) (C S : P2PNode) : Prop where
  params : cfgS.params = cfg.params
  client : Kept cfg C
  server : Kept cfgS S
  honest : HonestCache cfg S
  collisionFree : CollisionFree (pool C S)

variable {cfg cfgS : P2PConfig} {C S N N' : P2PNode} {fromHeight : ℤ} {clock : ℕ → ℕ → ℚ}
  {peer : ℕ} {msg : Message}

/-- The history of a node's sharechain. -/
def history (cfg : P2PConfig) (N : P2PNode) : History :=
  P2Pearl.run cfg.params (N.calls.map Prod.snd)

lemma Kept.record_of_entry (h : Kept cfg N) {k : Hash32} {e : Entry}
    (he : N.chain.entries k = some e) : (N.history cfg).record k = some e :=
  subMap_record _ k e (h.chain ▸ he)

lemma Kept.record_of_get (h : Kept cfg N) {k : Hash32} {s : ShareBlock}
    (hs : N.chain.entries.get k = some s) : (N.history cfg).record.get k = some s :=
  Store.subMap_get (subMap_record _) k s (h.chain ▸ hs)

lemma Kept.id_of_window (h : Kept cfg N) {p : Hash32 × ShareBlock} (hp : p ∈ N.window fromHeight) :
    p.2.shareId = .ok p.1 :=
  (mem_record (h.record_of_get (stored_of_mem_window hp))).1

/-- The shares of a window get higher and higher. -/
lemma Kept.window_ascending (h : Kept cfg N) (hledger : Ledger (N.history cfg)) :
    (N.window fromHeight).Pairwise fun p q => p.2.sidechainHeight < q.2.sidechainHeight := by
  have hchain : (N.window fromHeight).IsChain
      fun p q => p.2.sidechainHeight < q.2.sidechainHeight := by
    refine (isChain_window N fromHeight).imp_of_mem_imp fun p q hp hq hup => ?_
    exact hledger.lawful.descending q.1 q.2 p.1 p.2 (h.record_of_get (stored_of_mem_window hq)) hup
      (h.record_of_get (stored_of_mem_window hp))
  exact List.pairwise_map.mp (List.isChain_iff_pairwise.mp ((List.isChain_map _).mpr hchain))

/-- The parcels of a window. -/
def parcels (S : P2PNode) (fromHeight : ℤ) : List Parcel :=
  (S.window fromHeight).filterMap S.parcel

lemma proof_of_parcel {a : Parcel} (ha : a ∈ S.parcels fromHeight) :
    S.proofs.get a.id.hex = some a.proof := by
  obtain ⟨p, -, hparcel⟩ := List.mem_filterMap.mp ha
  obtain ⟨text, htext, rfl⟩ := Option.map_eq_some_iff.mp hparcel
  exact htext

namespace Pairing

variable (h : Pairing cfg cfgS C S)

include h

lemma server_history : S.history cfgS = S.history cfg := by rw [history, h.params]; rfl

lemma record_of_entry {k : Hash32} {e : Entry} (he : S.chain.entries k = some e) :
    (S.history cfg).record k = some e :=
  h.server_history ▸ h.server.record_of_entry he

lemma record_of_get {k : Hash32} {s : ShareBlock} (hs : S.chain.entries.get k = some s) :
    (S.history cfg).record.get k = some s :=
  h.server_history ▸ h.server.record_of_get hs

/-- A share of a window is on the peer's record, under its own id. -/
lemma record_of_window {p : Hash32 × ShareBlock} (hp : p ∈ S.window fromHeight) :
    (S.history cfg).record.get p.1 = some p.2 :=
  h.record_of_get (stored_of_mem_window hp)

lemma id_of_window {p : Hash32 × ShareBlock} (hp : p ∈ S.window fromHeight) :
    p.2.shareId = .ok p.1 :=
  h.server.id_of_window hp

lemma mem_pool_of_window {p : Hash32 × ShareBlock} (hp : p ∈ S.window fromHeight) :
    p.2 ∈ pool C S :=
  List.mem_append_right _ (mem_record (h.record_of_window hp)).2

/-- The peer's record is a ledger. -/
lemma ledger : Ledger (S.history cfg) :=
  run_ledger _ (h.collisionFree.mono (List.subset_append_right C.given S.given))

/-- The parcels of a window are sound. -/
lemma sound_of_parcel {a : Parcel} (ha : a ∈ S.parcels fromHeight) :
    a.Sound cfg ∧ (a.id, a.share) ∈ S.window fromHeight := by
  obtain ⟨p, hp, hparcel⟩ := List.mem_filterMap.mp ha
  obtain ⟨text, htext, rfl⟩ := Option.map_eq_some_iff.mp hparcel
  obtain ⟨hverified, hascii⟩ := h.honest p.2 p.1 text (h.id_of_window hp) htext
  obtain ⟨e, he, heq⟩ := Store.get_eq_some_iff.mp (h.record_of_window hp)
  obtain ⟨past, call, -, hadm⟩ := admits_of_accepted _ (mem_of_recordOf he)
  refine ⟨⟨h.id_of_window hp, ?_, hverified, hascii⟩, hp⟩
  rw [← heq, hadm.share]
  exact hadm.valid.version

lemma sound_of_next {done : List Parcel} {a : Parcel}
    (hpre : done ++ [a] <+: S.parcels fromHeight) :
    a.Sound cfg ∧ (a.id, a.share) ∈ S.window fromHeight :=
  h.sound_of_parcel (hpre.subset (List.mem_append_right _ (List.mem_singleton_self a)))

/-- The shares of a window get higher and higher. -/
lemma window_ascending : (S.window fromHeight).Pairwise
    fun p q => p.2.sidechainHeight < q.2.sidechainHeight :=
  h.server.window_ascending (h.server_history ▸ h.ledger)

/-- So do the shares of its parcels. -/
lemma parcels_ascending : (S.parcels fromHeight).Pairwise
    fun a b => a.share.sidechainHeight < b.share.sidechainHeight := by
  refine List.Pairwise.filterMap _ ?_ h.window_ascending
  intro p q hlt a ha b hb
  obtain ⟨_, -, rfl⟩ := Option.map_eq_some_iff.mp ha
  obtain ⟨_, -, rfl⟩ := Option.map_eq_some_iff.mp hb
  exact hlt

/-- The answer to a request for a window carries its parcels. -/
lemma answer_eq (clock : ℕ → ℚ) : ∃ batches : List (List Parcel),
    (S.handle cfgS peer (Message.getshares fromHeight).incoming clock).2
      = batches.map (fun b => .shares (b.map Parcel.pair))
    ∧ batches.flatten = S.parcels fromHeight ∧ ∀ b ∈ batches, b.length ≤ syncBatch := by
  obtain ⟨batches, hstream, hflat, hlen⟩ := @streamShares_eq S (S.window fromHeight)
    (fun p hp => h.id_of_window hp) [] (by decide)
  refine ⟨batches, ?_, hflat, hlen⟩
  rw [← hstream, ← windowShares_eq]
  rfl

end Pairing

/-! ### Receiving a window -/

/-- A message that makes a node ask for a window changes nothing, and the node then receives the
messages of the window. -/
lemma sync_eq
    (hasks : (C.handle cfg peer msg.incoming (clock 0)).2 = [.getshares fromHeight]) :
    C.sync cfg cfgS peer S msg clock = C.receiveAll cfg peer
      (S.handle cfgS peer (Message.getshares fromHeight).incoming (clock 0)).2
      fun i => clock (i + 1) := by
  have hsame : (C.handle cfg peer msg.incoming (clock 0)).1 = C := by
    cases msg with
    | hello height => rfl
    | share wire =>
        rcases hShare_cases cfg C (Message.share wire).incoming (clock 0 0) with
          ⟨replies, hsame, -⟩ | ⟨share, sid, -, -, -, -, hset⟩
        · exact congrArg Prod.fst hsame
        · exact absurd ((congrArg Prod.snd hset).symm.trans hasks) (by simp)
    | getproof id => rfl
    | proof id b64 => exact absurd hasks (by simp [handle, Message.incoming])
    | getshares height => rfl
    | shares pairs => exact absurd hasks (by simp [handle, Message.incoming])
    | block hex => exact absurd hasks (by simp [handle, Message.incoming])
  simp only [sync, hsame, hasks, List.flatMap_singleton]

lemma Kept.takePair (h : Kept cfg N) {pair : Json} {now now' : ℚ}
    (htake : N.takePair cfg pair now now' = (N', true)) : Kept cfg N' := by
  have hkept := h.takePairs [pair] fun i => if i = 0 then now else now'
  simpa [P2PNode.takePairs, htake] using hkept

/-- What holds of a node that has been sent some parcels: it has been given some of their shares,
in order. -/
structure Receiving (cfg : P2PConfig) (C : P2PNode) (done : List Parcel) (N : P2PNode) : Prop where
  kept : Kept cfg N
  taken : ∃ taken : List Parcel, taken.Sublist done ∧ N.given = C.given ++ taken.map Parcel.share

namespace Receiving

variable {done : List Parcel} {a : Parcel}

lemma start (h : Kept cfg C) : Receiving cfg C [] C := ⟨h, [], List.Sublist.refl [], by simp⟩

/-- A parcel is passed over. -/
lemma skip (h : Receiving cfg C done N) (a : Parcel) : Receiving cfg C (done ++ [a]) N := by
  obtain ⟨taken, hsub, hgiven⟩ := h.taken
  exact ⟨h.kept, taken, hsub.trans (List.sublist_append_left _ _), hgiven⟩

/-- The share of a parcel is added. -/
lemma take (h : Receiving cfg C done N) (hkept : Kept cfg N') {source : Source} {call : Call}
    (hcalls : N'.calls = N.calls ++ [(source, call)]) (hshare : call.share = a.share) :
    Receiving cfg C (done ++ [a]) N' := by
  obtain ⟨taken, hsub, hgiven⟩ := h.taken
  refine ⟨hkept, taken ++ [a], hsub.append_right [a], ?_⟩
  have hnew : N'.given = N.given ++ [call.share] := by
    rw [given, hcalls, List.map_append, List.map_append]; rfl
  rw [hnew, hgiven, hshare, List.map_append, List.append_assoc]
  rfl

section Pairing

variable (h : Receiving cfg C done N) (hpair : Pairing cfg cfgS C S)
  (hdone : done ⊆ S.parcels fromHeight)

include h hpair hdone

lemma given_subset : N.given ⊆ pool C S := by
  obtain ⟨taken, hsub, hgiven⟩ := h.taken
  rw [hgiven]
  refine List.append_subset.mpr ⟨List.subset_append_left _ _, fun s hs => ?_⟩
  obtain ⟨b, hb, rfl⟩ := List.mem_map.mp hs
  exact hpair.mem_pool_of_window (hpair.sound_of_parcel (hdone (hsub.subset hb))).2

/-- The node's record is a ledger. -/
lemma ledger : Ledger (N.history cfg) :=
  run_ledger _ (hpair.collisionFree.mono (h.given_subset hpair hdone))

/-- A share on the peer's record is a valid successor, where its predecessor is stored. -/
lemma valid {k : Hash32} {s : ShareBlock} {now : ℚ}
    (hs : (S.history cfg).record.get k = some s) (huncles : s.uncleIds = [])
    (htarget : OnTarget cfg.params (S.history cfg) s)
    (hclock : (s.timestamp : ℚ) ≤ now + maxTimestampDriftSeconds) (hnew : ¬N.Has k)
    (hlinked : ¬N.Orphan s) : Valid cfg.params N.chain.entries.get s now k := by
  rw [h.kept.chain]
  refine valid_of_accepted hpair.collisionFree (h.given_subset hpair hdone)
    (List.subset_append_right C.given S.given) hs huncles htarget hclock ?_ ?_
  · rw [← h.kept.chain]
    exact Store.get_eq_none_iff.mpr (not_not.mp hnew)
  · by_cases hg : s.prevShareId = genesisPrev
    · exact Or.inl hg
    · rw [← h.kept.chain]
      have hhas : N.Has s.prevShareId := by
        by_contra hno
        exact hlinked ⟨hg, hno⟩
      exact Or.inr (has_iff.mp hhas)

/-- A share on both records has the same cumulative difficulty on both. -/
lemma cumulative_eq {k : Hash32} {e e' : Entry} (he : (S.history cfg).record k = some e)
    (he' : (N.history cfg).record k = some e') :
    e'.cumulativeDifficulty = e.cumulativeDifficulty :=
  cumulative_agree hpair.collisionFree (List.subset_append_right C.given S.given)
    (h.given_subset hpair hdone) he he'

end Pairing

/-- A valid successor among the parcels of the peer is added. -/
lemma add (h : Receiving cfg C done N) (ha : a.Sound cfg) {now now' : ℚ}
    (hvalid : Valid cfg.params N.chain.entries.get a.share now a.id)
    (hvalid' : Valid cfg.params N.chain.entries.get a.share now' a.id) :
    ∃ N', N.takePair cfg a.json now now' = (N', true) ∧ Receiving cfg C (done ++ [a]) N'
      ∧ N'.Has a.id := by
  obtain ⟨N', call, htake, hshare, -, -, hcalls, hstored⟩ :=
    takePair_of_valid h.kept.tipStored ha hvalid hvalid'
  exact ⟨N', htake, h.take (h.kept.takePair htake) hcalls hshare, has_iff.mpr ⟨_, hstored⟩⟩

/-- **A parcel** is passed over, or its share is added. -/
lemma next (h : Receiving cfg C done N) (ha : a.Sound cfg) {now now' : ℚ}
    (hclock' : (a.share.timestamp : ℚ) ≤ now' + maxTimestampDriftSeconds) :
    ∃ N', N.takePair cfg a.json now now' = (N', true) ∧ Receiving cfg C (done ++ [a]) N' := by
  by_cases hvalid : Valid cfg.params N.chain.entries.get a.share now a.id
  · have hvalid' : Valid cfg.params N.chain.entries.get a.share now' a.id :=
      ⟨hvalid.fresh, hvalid.version, hclock', hvalid.coinbase, hvalid.nodup, hvalid.not_self,
        hvalid.linked⟩
    obtain ⟨N', htake, hN', -⟩ := h.add ha hvalid hvalid'
    exact ⟨N', htake, hN'⟩
  · exact ⟨N, takePair_of_invalid ha hvalid, h.skip a⟩

end Receiving

/-- The messages of a window, in order. -/
lemma sync_induction {I : List Parcel → P2PNode → Prop} (hpair : Pairing cfg cfgS C S)
    (hasks : (C.handle cfg peer msg.incoming (clock 0)).2 = [.getshares fromHeight])
    (hclock : ∀ p ∈ S.window fromHeight, ∀ i j,
      (p.2.timestamp : ℚ) ≤ clock (i + 1) j + maxTimestampDriftSeconds)
    (hinit : I [] C) (hstep : ∀ done a N now now', done ++ [a] <+: S.parcels fromHeight →
      (a.share.timestamp : ℚ) ≤ now + maxTimestampDriftSeconds →
      (a.share.timestamp : ℚ) ≤ now' + maxTimestampDriftSeconds → I done N →
      ∃ N', N.takePair cfg a.json now now' = (N', true) ∧ I (done ++ [a]) N') :
    I (S.parcels fromHeight) (C.sync cfg cfgS peer S msg clock) := by
  obtain ⟨batches, hreply, hflat, hsmall⟩ := @Pairing.answer_eq cfg cfgS C S fromHeight peer hpair
    (clock 0)
  rw [sync_eq hasks, hreply]
  refine receiveAll_parcels I (fun now => ∀ p ∈ S.window fromHeight,
    (p.2.timestamp : ℚ) ≤ now + maxTimestampDriftSeconds) ?_ hsmall hflat
    (fun i j p hp => hclock p hp i j) hinit
  intro done a N now now' hpre hnow hnow' h
  have hwindow := (hpair.sound_of_next hpre).2
  exact hstep done a N now now' hpre (hnow _ hwindow) (hnow' _ hwindow) h

end P2PNode

end P2Pearl
