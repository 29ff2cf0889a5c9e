import P2Pearl.P2P.Handlers

/-!
Gossip admits only verified shares.

* `Vouched`: the proof of a call of `add_share` by a handler has been verified for its share.
* `Kept`: what holds of a node in every state; `Kept.step` says that every event preserves it.
* `gossip_admits_verified`: what is added, cached and announced, in every interleaving.
-/

namespace P2Pearl

namespace P2PNode

variable {cfg : P2PConfig} {N N' : P2PNode}

/-! ### What holds in every state -/

/-- The proof of a call of `add_share` by a handler has been verified for its share. -/
def Vouched (cfg : P2PConfig) (proof : PyStr) (call : Call) : Prop :=
  cfg.verifyIncoming call.share (.str proof) = .ok true ∧ call.verified = true
    ∧ ∃ bytes, encodeAscii proof = .ok bytes ∧ call.proof = some bytes

/-- A handler's call of `add_share` has accepted the share. -/
def AcceptedIn (cfg : P2PConfig) (calls : List (Source × Call)) (share : ShareBlock) : Prop :=
  ∃ past proof call, past ++ [(.gossip proof, call)] <+: calls ∧ call.share = share
    ∧ Accepts cfg.params (P2Pearl.run cfg.params (past.map Prod.snd)).chain call

lemma AcceptedIn.mono {calls more : List (Source × Call)} {share : ShareBlock}
    (h : AcceptedIn cfg calls share) : AcceptedIn cfg (calls ++ more) share := by
  obtain ⟨past, proof, call, hpre, hshare, hacc⟩ := h
  exact ⟨past, proof, call, hpre.trans (List.prefix_append _ _), hshare, hacc⟩

/-- What holds of a node in every state. -/
structure Kept (cfg : P2PConfig) (N : P2PNode) : Prop where
  chain : N.chain = (P2Pearl.run cfg.params (N.calls.map Prod.snd)).chain
  vouched : ∀ proof call, (.gossip proof, call) ∈ N.calls → Vouched cfg proof call
  pending : ∀ id share, N.pending.get id = some share →
    ∃ sid, share.shareId = .ok sid ∧ sid.hex = id
  proofs : ∀ id text, N.proofs.get id = some text → (id, text) ∈ N.broadcasts
    ∨ ∃ share sid, share.shareId = .ok sid ∧ sid.hex = id
      ∧ cfg.verifyIncoming share (.str text) = .ok true
  accepted : ∀ share sender, (share, sender) ∈ N.accepted → AcceptedIn cfg N.calls share
  relayed : N.accepted.Perm (N.relaying ++ N.announced.filterMap Announcement.relayed)

lemma get_storeProof {sid id proof text : PyStr} (h : (N.storeProof sid proof).get id = some text) :
    id = sid ∧ text = proof ∨ N.proofs.get id = some text := by
  have hget := OrderedMap.get_of_trim h
  rw [OrderedMap.get_moveToEnd, OrderedMap.get_set] at hget
  split_ifs at hget with hid
  · exact Or.inl ⟨hid, (Option.some.inj hget).symm⟩
  · exact Or.inr hget

namespace Kept

lemma init : Kept cfg .init where
  chain := rfl
  vouched _ _ h := by cases h
  pending _ _ h := by cases h
  proofs _ _ h := by cases h
  accepted _ _ h := by cases h
  relayed := List.Perm.nil

/-- The best tip is stored. -/
lemma tipStored (h : Kept cfg N) : N.chain.TipStored := h.chain ▸ run_tipStored _

/-- A call by a handler is recorded with the chain it leads to. -/
lemma chain_concat (h : Kept cfg N) (source : Source) (call : Call) :
    (addShare cfg.params N.chain call).1
      = (P2Pearl.run cfg.params ((N.calls ++ [(source, call)]).map Prod.snd)).chain := by
  rw [List.map_append, List.map_singleton, run_append, step_chain, ← h.chain]

lemma vouched_concat (h : Kept cfg N) {text : PyStr} {bytes : Bytes} {share : ShareBlock} {now : ℚ}
    (hv : cfg.verifyIncoming share (.str text) = .ok true) (henc : encodeAscii text = .ok bytes) :
    ∀ proof call,
      (.gossip proof, call) ∈ N.calls ++ [(.gossip text, P2PNode.admission share bytes now)] →
        Vouched cfg proof call := by
  intro proof call hc
  rcases List.mem_append.mp hc with hc | hc
  · exact h.vouched proof call hc
  · cases List.mem_singleton.mp hc
    exact ⟨hv, rfl, bytes, henc, rfl⟩

/-- Admitting a share with a verified proof. -/
lemma admission (h : Kept cfg N) {sid : PyStr} {share : ShareBlock} {proof : Json} {now : ℚ}
    {r : Except PyError Bool} (hid : ∃ i, share.shareId = .ok i ∧ i.hex = sid)
    (hv : cfg.verifyIncoming share proof = .ok true)
    (hadm : Admission cfg N sid share proof now (N', r)) :
    Kept cfg N' ∧ (r = .ok true → AcceptedIn cfg N'.calls share) := by
  cases hadm with
  | unread e => exact ⟨h, by simp⟩
  | refused text bytes r hread henc hne hnot hsame =>
      rw [hread] at hv
      refine ⟨⟨?_, h.vouched_concat hv henc, h.pending, h.proofs,
        fun s q hs => (h.accepted s q hs).mono, h.relayed⟩, fun hr => absurd hr hne⟩
      exact hsame.symm.trans (h.chain_concat _ _)
  | accepted text bytes hread henc hacc =>
      rw [hread] at hv
      refine ⟨⟨h.chain_concat _ _, h.vouched_concat hv henc, h.pending, fun id t ht => ?_,
        fun s q hs => (h.accepted s q hs).mono, h.relayed⟩, fun _ => ?_⟩
      · rcases get_storeProof ht with ⟨rfl, rfl⟩ | hold
        · obtain ⟨i, hi, hhex⟩ := hid
          exact Or.inr ⟨share, i, hi, hhex, hv⟩
        · exact h.proofs id t hold
      · exact ⟨N.calls, text, _, List.prefix_rfl, rfl, h.chain ▸ hacc⟩

/-- A window of shares. -/
lemma takePairs (h : Kept cfg N) (pairs : List Json) (clock : ℕ → ℚ) :
    Kept cfg (N.takePairs cfg pairs clock) := by
  refine takePairs_preserves (fun M pair now now' hM => ?_) h pairs clock
  rcases takePair_cases hM.tipStored pair now now' with
    ⟨goes, hkeep⟩ | ⟨wire, proof, share, sid, N', r, goes, -, -, hid, -, hv, hadm, htake⟩
  · rw [hkeep]; exact hM
  · rw [htake]; exact (hM.admission ⟨sid, hid, rfl⟩ hv hadm).1

/-- A proof that comes in. -/
lemma hProof (h : Kept cfg N) (peer : ℕ) (msg : Incoming) (now : ℚ) :
    Kept cfg (N.hProof cfg peer msg now) := by
  rcases hProof_cases h.tipStored peer msg now with hsame | ⟨sid, share, -, hp, hcases⟩
  · rw [hsame]; exact h
  · have herase : Kept cfg { N with pending := N.pending.erase sid } := by
      refine ⟨h.chain, h.vouched, fun id s hs => ?_, h.proofs, h.accepted, h.relayed⟩
      dsimp only at hs
      rw [OrderedMap.get_erase] at hs
      split_ifs at hs
      exact h.pending id s hs
    rcases hcases with hdrop | ⟨N', r, hv, hadm, hend⟩
    · rw [hdrop]; exact herase
    · obtain ⟨hkept, hacc⟩ := herase.admission (h.pending sid share hp) hv hadm
      rw [hend]
      split_ifs with hr
      · refine ⟨hkept.chain, hkept.vouched, hkept.pending, hkept.proofs, fun s q hs => ?_, ?_⟩
        · rcases List.mem_append.mp hs with hs | hs
          · exact hkept.accepted s q hs
          · cases List.mem_singleton.mp hs
            exact hacc hr
        · have hperm := hkept.relayed.append_right [(share, peer)]
          refine hperm.trans ?_
          dsimp only
          rw [List.append_assoc, List.append_assoc]
          exact List.Perm.append_left _ List.perm_append_comm
      · exact hkept

/-- A share that waits to be announced has a wire format. -/
lemma relaying_hex (h : Kept cfg N) {r : ShareBlock × ℕ} (hr : r ∈ N.relaying) :
    ∃ wire, r.1.hex = .ok wire := by
  obtain ⟨past, proof, call, -, hshare, hacc⟩ :=
    h.accepted r.1 r.2 (h.relayed.symm.subset (List.mem_append_left _ hr))
  obtain ⟨sid, e, hadm⟩ := hacc.admits
  obtain ⟨wire, hwire, -⟩ := map_eq_ok_iff.mp (hshare ▸ hadm.id)
  exact ⟨Bytes.hex wire, by rw [ShareBlock.hex, hwire]; rfl⟩

/-- The node's own announcement. -/
lemma announce_own (h : Kept cfg N) (share : ShareBlock) : Kept cfg (N.announce share none).1 := by
  rw [announce]
  cases share.hex with
  | error e => exact h
  | ok wire =>
      refine ⟨h.chain, h.vouched, h.pending, h.proofs, h.accepted, ?_⟩
      dsimp only
      rw [List.filterMap_append]
      exact (List.append_nil _).symm ▸ h.relayed

/-- The daemon's call of `add_share`. -/
lemma submit (h : Kept cfg N) (call : Call) : Kept cfg { N with
    chain := (addShare cfg.params N.chain call).1
    calls := N.calls ++ [(.own, call)] } := by
  refine ⟨h.chain_concat _ _, fun proof c hc => ?_, h.pending, h.proofs,
    fun s q hs => (h.accepted s q hs).mono, h.relayed⟩
  rcases List.mem_append.mp hc with hc | hc
  · exact h.vouched proof c hc
  · cases List.mem_singleton.mp hc

/-- The daemon's proof of a share it broadcasts. -/
lemma broadcast (h : Kept cfg N) (sid proof : PyStr) : Kept cfg { N with
    proofs := N.storeProof sid proof
    broadcasts := N.broadcasts ++ [(sid, proof)] } := by
  refine ⟨h.chain, h.vouched, h.pending, fun id t ht => ?_, h.accepted, h.relayed⟩
  rcases get_storeProof ht with ⟨rfl, rfl⟩ | hold
  · exact Or.inl (List.mem_append_right _ (List.mem_singleton.mpr rfl))
  · exact (h.proofs id t hold).imp_left (List.mem_append_left _)

/-- The announcement of an accepted share. -/
lemma relay (h : Kept cfg N) {i : ℕ} {r : ShareBlock × ℕ} (hr : N.relaying[i]? = some r) :
    Kept cfg ({ N with relaying := N.relaying.eraseIdx i }.announce r.1 (some r.2)).1 := by
  obtain ⟨hlt, rfl⟩ := List.getElem?_eq_some_iff.mp hr
  obtain ⟨wire, hwire⟩ := h.relaying_hex (List.getElem_mem hlt)
  rw [announce, hwire]
  refine ⟨h.chain, h.vouched, h.pending, h.proofs, h.accepted, ?_⟩
  have hnew : ([⟨N.relaying[i].1, some N.relaying[i].2,
      N.peers.filter fun p => some p ≠ some N.relaying[i].2⟩] : List Announcement).filterMap
        Announcement.relayed = [N.relaying[i]] := rfl
  dsimp only
  rw [List.filterMap_append, hnew, ← List.append_assoc]
  refine h.relayed.trans ?_
  have hperm : N.relaying.Perm (N.relaying[i] :: N.relaying.eraseIdx i) :=
    (List.getElem_cons_eraseIdx_perm hlt).symm
  refine (hperm.append_right _).trans ?_
  exact (List.perm_append_singleton _ _).symm

/-- **Every event** keeps it. -/
lemma step (h : Kept cfg N) {e : Event} (hstep : N.step cfg e = some N') : Kept cfg N' := by
  obtain ⟨⟨N₁, out⟩, hreact, rfl⟩ := Option.map_eq_some_iff.mp hstep
  cases effect_of_react hreact with
  | idle | seen => exact ⟨h.chain, h.vouched, h.pending, h.proofs, h.accepted, h.relayed⟩
  | asked peer msg clock share sid kind read unheard =>
      refine ⟨h.chain, h.vouched, fun id s hs => ?_, h.proofs, h.accepted, h.relayed⟩
      dsimp only at hs
      rw [OrderedMap.get_set] at hs
      split_ifs at hs with heq
      · cases hs
        exact ⟨sid, unheard.id, heq.symm⟩
      · exact h.pending id s hs
  | proved peer msg clock kind => exact h.hProof peer msg (clock 0)
  | received peer msg clock pairs => exact h.takePairs pairs clock
  | submitted call => exact h.submit call
  | broadcast share sid proof => exact (h.broadcast sid.hex proof).announce_own share
  | relayed i r waits => exact h.relay waits

end Kept

/-- It holds in every state. -/
lemma kept_of_run {events : List Event} (hrun : Machine.run (step cfg) .init events = some N) :
    Kept cfg N :=
  Machine.run_preserves (fun _ _ _ hstep h => h.step hstep) Kept.init hrun

/-! ### What is announced -/

/-- A handler that goes on after its callback announces its share to the peers connected then,
except the sender of the proof. -/
lemma react_relay (h : Kept cfg N) {i : ℕ} {r : ShareBlock × ℕ} (hr : N.relaying[i]? = some r) :
    ∃ wire N', r.1.hex = .ok wire ∧ N.react cfg (.relay i)
        = some (N', (N.peers.filter (· ≠ r.2)).map fun p => (p, .share wire))
      ∧ N'.announced = N.announced ++ [⟨r.1, some r.2, N.peers.filter (· ≠ r.2)⟩] := by
  obtain ⟨wire, hwire⟩ := h.relaying_hex (List.mem_of_getElem? hr)
  have hpeers : (N.peers.filter fun p => some p ≠ some r.2) = N.peers.filter (· ≠ r.2) := by
    simp only [ne_eq, Option.some.injEq]
  refine ⟨wire, { N with
    relaying := N.relaying.eraseIdx i
    announced := N.announced ++ [⟨r.1, some r.2, N.peers.filter (· ≠ r.2)⟩] }, hwire, ?_, rfl⟩
  simp only [react, hr, Option.map_some, announce, hwire, hpeers]

/-- A reply is not an announcement. -/
lemma not_share_of_reply {peer : ℕ} {msg : Incoming} {clock : ℕ → ℚ} {m : Message}
    (hm : m ∈ (N.handle cfg peer msg clock).2) (wire : PyStr) : m ≠ .share wire := by
  rw [handle] at hm
  split at hm
  · cases hm
  · rw [hHello] at hm
    split at hm
    · split_ifs at hm
      · rw [List.mem_singleton.mp hm]; simp
      · cases hm
    · cases hm
  · rcases hShare_cases cfg N msg (clock 0) with
      ⟨replies, hsame, hrep⟩ | ⟨share, sid, -, -, -, -, hset⟩
    · rw [hsame] at hm
      obtain ⟨n, rfl⟩ := hrep m hm
      simp
    · rw [hset] at hm
      rw [List.mem_singleton.mp hm]; simp
  · rw [hGetproof] at hm
    split at hm
    · split at hm
      · rw [List.mem_singleton.mp hm]; simp
      · cases hm
    · cases hm
  · cases hm
  · rw [hGetshares] at hm
    split at hm
    · obtain ⟨pairs, rfl⟩ := mem_streamShares hm
      simp
    · cases hm
  · cases hm
  · cases hm

/-- Nothing else but the node's own broadcast announces a share. -/
lemma announced_of_react (h : Kept cfg N) {e : Event} {out : List (ℕ × Message)}
    (hreact : N.react cfg e = some (N', out)) (hrelay : ∀ i, e ≠ .relay i)
    (hown : ∀ share proof, e ≠ .broadcastShare share proof) :
    N'.announced = N.announced ∧ ∀ p wire, (p, .share wire) ∉ out := by
  constructor
  · cases effect_of_react hreact with
    | idle | seen | asked | submitted => rfl
    | proved peer msg clock kind =>
        rcases hProof_cases h.tipStored peer msg (clock 0) with hsame | ⟨sid, share, -, -, hcases⟩
        · rw [hsame]
        · rcases hcases with hdrop | ⟨N', r, -, hadm, hend⟩
          · rw [hdrop]
          · rw [hend]
            split_ifs
            · exact hadm.frame.announced
            · exact hadm.frame.announced
    | received peer msg clock pairs => exact (takePairs_frame h.tipStored pairs clock).announced
    | broadcast share sid proof => exact absurd rfl (hown share proof)
    | relayed i r waits => exact absurd rfl (hrelay i)
  · cases e with
    | connect => cases hreact; simp
    | disconnect peer => cases hreact; simp
    | broadcastBlock block => cases hreact; simp
    | submit call => cases hreact; simp
    | relayBlock i =>
        obtain ⟨r, -, hr⟩ := Option.map_eq_some_iff.mp hreact
        cases hr
        simp
    | relay i => exact absurd rfl (hrelay i)
    | broadcastShare share proof => exact absurd rfl (hown share proof)
    | receive peer msg clock =>
        cases hreact
        intro p wire hin
        obtain ⟨m, hm, he⟩ := List.mem_map.mp hin
        exact not_share_of_reply hm wire (Prod.mk.inj he).2

/-- A proof that is accepted has its share wait to be announced. -/
lemma relaying_of_accepts (h : Kept cfg N) {peer : ℕ} {msg : Incoming} {now : ℚ} {proof : PyStr}
    {call : Call} (hcalls : (N.hProof cfg peer msg now).calls = N.calls ++ [(.gossip proof, call)])
    (hacc : Accepts cfg.params N.chain call) :
    (N.hProof cfg peer msg now).relaying = N.relaying ++ [(call.share, peer)]
      ∧ (N.hProof cfg peer msg now).accepted = N.accepted ++ [(call.share, peer)] := by
  have hnone : N.calls ≠ N.calls ++ [(.gossip proof, call)] := by simp
  rcases hProof_cases h.tipStored peer msg now with hsame | ⟨sid, share, -, -, hcases⟩
  · rw [hsame] at hcalls
    exact absurd hcalls hnone
  · rcases hcases with hdrop | ⟨N', r, -, hadm, hend⟩
    · rw [hdrop] at hcalls
      exact absurd hcalls hnone
    · rw [hend] at hcalls ⊢
      cases hadm with
      | unread e =>
          rw [if_neg (by simp)] at hcalls
          exact absurd hcalls hnone
      | refused text bytes r read encoded not_true not_accepted same =>
          rw [if_neg not_true] at hcalls
          cases List.append_cancel_left hcalls
          exact absurd hacc not_accepted
      | accepted text bytes read encoded accepts =>
          rw [if_pos rfl] at hcalls ⊢
          cases List.append_cancel_left hcalls
          exact ⟨rfl, rfl⟩

/-- **Gossip admits only verified shares.**  In every run: the sharechain is what its calls of
`add_share` make of it, and of a call by a handler the proof that comes with it has been verified,
and an accepted share was a valid successor; a cached proof was broadcast by the node itself or has
been verified for the share it is cached for; a share announced by a handler has been accepted;
and what `_h_proof` has had accepted is what waits to be announced and what was announced, each
once.  An accepted proof has its share wait; it is then announced to the peers connected at that
moment except the sender; and nothing else but the node's own broadcast announces a share. -/
theorem gossip_admits_verified (cfg : P2PConfig) (events : List Event) (N : P2PNode)
    (hrun : Machine.run (step cfg) .init events = some N) :
    N.chain = (P2Pearl.run cfg.params (N.calls.map Prod.snd)).chain
      ∧ (∀ past proof call, past ++ [(.gossip proof, call)] <+: N.calls → Vouched cfg proof call
        ∧ (Accepts cfg.params (P2Pearl.run cfg.params (past.map Prod.snd)).chain call →
          ∃ sid, call.share.shareId = .ok sid
            ∧ Valid cfg.params (P2Pearl.run cfg.params (past.map Prod.snd)).chain.entries.get
              call.share call.now sid))
      ∧ (∀ id text, N.proofs.get id = some text → (id, text) ∈ N.broadcasts
        ∨ ∃ share sid, share.shareId = .ok sid ∧ sid.hex = id
          ∧ cfg.verifyIncoming share (.str text) = .ok true)
      ∧ (∀ a ∈ N.announced, ∀ sender, a.exclude = some sender → AcceptedIn cfg N.calls a.share)
      ∧ N.accepted.Perm (N.relaying ++ N.announced.filterMap Announcement.relayed)
      ∧ ∀ past e m m' out, past ++ [e] <+: events → Machine.run (step cfg) .init past = some m →
        m.react cfg e = some (m', out) →
          (∀ sender msg clock proof call, e = .receive sender msg clock → msg.kind = some .proof →
            m'.calls = m.calls ++ [(.gossip proof, call)] → Accepts cfg.params m.chain call →
              m'.relaying = m.relaying ++ [(call.share, sender)]
                ∧ m'.accepted = m.accepted ++ [(call.share, sender)])
          ∧ (∀ i r, e = .relay i → m.relaying[i]? = some r → ∃ wire, r.1.hex = .ok wire
            ∧ m'.announced = m.announced ++ [⟨r.1, some r.2, m.peers.filter (· ≠ r.2)⟩]
            ∧ out = (m.peers.filter (· ≠ r.2)).map fun p => (p, .share wire))
          ∧ ((∀ i, e ≠ .relay i) → (∀ share proof, e ≠ .broadcastShare share proof) →
            m'.announced = m.announced ∧ ∀ p wire, (p, .share wire) ∉ out) := by
  have h := kept_of_run hrun
  refine ⟨h.chain, fun past proof call hpre => ⟨?_, fun hacc => ?_⟩, h.proofs,
    fun a ha sender hs => ?_, h.relayed, fun past e m m' out _ hm hreact => ⟨?_, ?_, ?_⟩⟩
  · exact h.vouched proof call (hpre.subset (by simp))
  · obtain ⟨sid, e, hadm⟩ := hacc.admits
    exact ⟨sid, hadm.id, hadm.valid⟩
  · refine h.accepted a.share sender (h.relayed.symm.subset (List.mem_append_right _ ?_))
    exact List.mem_filterMap.mpr ⟨a, ha, by rw [Announcement.relayed, hs]; rfl⟩
  · rintro sender msg clock proof call rfl hkind hcalls hacc
    have hm' : m' = m.hProof cfg sender msg (clock 0) := by
      have heq := congrArg Prod.fst (Option.some.inj hreact)
      simp only [hkind] at heq
      exact heq.symm
    rw [hm'] at hcalls ⊢
    exact relaying_of_accepts (kept_of_run hm) hcalls hacc
  · rintro i r rfl hr
    obtain ⟨wire, N', hwire, hout, hann⟩ := react_relay (kept_of_run hm) hr
    rw [hout] at hreact
    cases hreact
    exact ⟨wire, hwire, hann, rfl⟩
  · exact announced_of_react (kept_of_run hm) hreact

/-- A peer connects, announces a first share, and sends a proof of it. -/
def firstGossip : List Event :=
  [.connect,
    .receive 1 { kind := some .share
                 share := some (.str (Bytes.hex (genesisShare 0 0 [] genesisPrev).wire)) }
      (fun _ => 0),
    .receive 1 { kind := some .proof
                 id := some (.str (doubleSha256 (genesisShare 0 0 [] genesisPrev).wire).hex)
                 proof := some (.str []) } (fun _ => 0)]

/-- A node that accepts every proof. -/
def easygoing (P : Params) : P2PConfig := ⟨P, fun _ _ => .ok true, fun _ => .error .typeError⟩

/-- Such a node with the default parameters. -/
def credulous : P2PConfig := easygoing {}

/-- The share of the peer is accepted once, and waits to be relayed. -/
theorem gossip_admits_verified_first : ∃ N, Machine.run (step credulous) .init firstGossip = some N
    ∧ N.accepted.Perm (N.relaying ++ N.announced.filterMap Announcement.relayed) :=
  ⟨_, rfl, (gossip_admits_verified credulous firstGossip _ rfl).2.2.2.2.1⟩

/-! ### Nodes that keep the pace -/

/-- The daemon adds the shares of a chain that keeps the pace, and broadcasts them. -/
def pacedEvents (n : ℕ) : List Event :=
  (List.range n).flatMap fun i =>
    [.submit (verifiedCall (pacedChain i)), .broadcastShare (pacedChain i) zeroProof]

/-- The node after as many shares. -/
def pacedNode (P : Params) (n : ℕ) : P2PNode :=
  (Machine.run (step (easygoing P)) .init (pacedEvents n)).getD .init

/-- It can be reached, and its cached proofs are honest, as both are checked to be. -/
def PacedRun (P : Params) (n : ℕ) : Prop :=
  (Machine.run (step (easygoing P)) .init (pacedEvents n)).isSome = true
    ∧ ∀ p ∈ (pacedNode P n).proofs.items, p.2 = zeroProof

instance (P : Params) (n : ℕ) : Decidable (PacedRun P n) := inferInstanceAs (Decidable (_ ∧ _))

lemma PacedRun.run {P : Params} {n : ℕ} (h : PacedRun P n) :
    Machine.run (step (easygoing P)) .init (pacedEvents n) = some (pacedNode P n) := by
  obtain ⟨N, hN⟩ := Option.isSome_iff_exists.mp h.1
  rw [pacedNode, hN]
  rfl

end P2PNode

end P2Pearl
