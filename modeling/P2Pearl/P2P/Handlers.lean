import P2Pearl.Consensus.TargetLimit
import P2Pearl.P2P.Node

/-!
What the handlers of a `P2PNode` do.

* `Admission`: the ways `admitShare` ends; `admit_cases` is the split, and `admitShare_of_valid`
  the way of a valid share.
* `hShare_cases`, `hProof_cases`, `hBlock_cases`, `takePair_cases`: what a message does to the
  node; `takePairs_frame`: what a window of shares leaves alone.
* `hShare_of_unheard`, `hShare_of_heard`, `hProof_of_verified`: what becomes of an announcement of
  a valid successor.
* `Effect`: what an event makes of the node; `pending_cases`: of its pending map.
-/

namespace P2Pearl

namespace P2PNode

variable {P : Params} {cfg : P2PConfig} {N N' : P2PNode}

/-! ### Admitting a share -/

/-- How `admitShare` ends. -/
inductive Admission (cfg : P2PConfig) (N : P2PNode) (sid : PyStr) (share : ShareBlock)
    (proof : Json) (now : ℚ) : P2PNode × Except PyError Bool → Prop
  /-- The proof is not ASCII text, and `add_share` is not called. -/
  | unread (e : PyError) : Admission cfg N sid share proof now (N, .error e)
  /-- The call of `add_share` does not accept the share. -/
  | refused (text : PyStr) (bytes : Bytes) (r : Except PyError Bool) (read : proof = .str text)
      (encoded : encodeAscii text = .ok bytes) (not_true : r ≠ .ok true)
      (not_accepted : ¬Accepts cfg.params N.chain (admission share bytes now))
      (same : (addShare cfg.params N.chain (admission share bytes now)).1 = N.chain) :
      Admission cfg N sid share proof now
        ({ N with calls := N.calls ++ [(.gossip text, admission share bytes now)] }, r)
  /-- The share is accepted, and its proof is stored. -/
  | accepted (text : PyStr) (bytes : Bytes) (read : proof = .str text)
      (encoded : encodeAscii text = .ok bytes)
      (accepts : Accepts cfg.params N.chain (admission share bytes now)) :
      Admission cfg N sid share proof now
        ({ N with
          chain := (addShare cfg.params N.chain (admission share bytes now)).1
          calls := N.calls ++ [(.gossip text, admission share bytes now)]
          proofs := N.storeProof sid text }, .ok true)

lemma admit_cases (htip : N.chain.TipStored) (sid : PyStr) (share : ShareBlock) (proof : Json)
    (now : ℚ) : Admission cfg N sid share proof now (N.admitShare cfg sid share proof now) := by
  cases proof with
  | str text =>
      rw [admitShare]
      cases henc : encodeAscii text with
      | error e => exact .unread e
      | ok bytes =>
          rcases addShare_cases cfg.params N.chain (admission share bytes now) with
            ⟨r, hr, hnot, hno⟩ | ⟨sid', e, hadm, hins⟩
          · have hrefused : ¬Accepts cfg.params N.chain (admission share bytes now) :=
              fun h => hno h.admits
            have hsame : (addShare cfg.params N.chain (admission share bytes now)).1 = N.chain := by
              rw [hr]
            simp only [hr]
            cases r with
            | error e => exact .refused text bytes _ rfl henc (by simp) hrefused hsame
            | ok a =>
                simp only [(hnot a rfl).1]
                exact .refused text bytes _ rfl henc (by simp) hrefused hsame
          · obtain ⟨C, b, hok⟩ : ∃ C b, addShare cfg.params N.chain (admission share bytes now)
                = (C, .ok ⟨true, b, ""⟩) := by
              rw [hins]
              rcases insert_cases (P := cfg.params) htip hadm.fresh e with
                ⟨-, h⟩ | ⟨_, _, -, -, -, h⟩
              · exact ⟨_, true, h⟩
              · exact ⟨_, false, h⟩
            have hacc := @Admission.accepted cfg N sid share (.str text) now text bytes rfl henc
              ⟨b, "", by rw [hok]⟩
            simp only [hok] at hacc ⊢
            exact hacc
  | _ => exact .unread _

/-- Nothing has changed but the sharechain, with its calls, and the proof cache. -/
structure Frame (N N' : P2PNode) : Prop where
  peers : N'.peers = N.peers
  pending : N'.pending = N.pending
  blocksSeen : N'.blocksSeen = N.blocksSeen
  relaying : N'.relaying = N.relaying
  accepted : N'.accepted = N.accepted
  announced : N'.announced = N.announced
  proofs : N.proofs.size ≤ maxStoredProofs → N'.proofs.size ≤ maxStoredProofs
  tipStored : N.chain.TipStored → N'.chain.TipStored

lemma Frame.refl (N : P2PNode) : Frame N N := ⟨rfl, rfl, rfl, rfl, rfl, rfl, id, id⟩

lemma Frame.trans {N'' : P2PNode} (h : Frame N N') (h' : Frame N' N'') : Frame N N'' :=
  ⟨h'.peers.trans h.peers, h'.pending.trans h.pending, h'.blocksSeen.trans h.blocksSeen,
    h'.relaying.trans h.relaying, h'.accepted.trans h.accepted, h'.announced.trans h.announced,
    fun hp => h'.proofs (h.proofs hp), fun ht => h'.tipStored (h.tipStored ht)⟩

lemma Admission.frame {sid : PyStr} {share : ShareBlock} {proof : Json} {now : ℚ}
    {r : Except PyError Bool} (h : Admission cfg N sid share proof now (N', r)) : Frame N N' := by
  cases h with
  | unread e => exact Frame.refl N
  | refused text bytes r read encoded not_true not_accepted same =>
      exact ⟨rfl, rfl, rfl, rfl, rfl, rfl, id, id⟩
  | accepted text bytes read encoded accepts =>
      exact ⟨rfl, rfl, rfl, rfl, rfl, rfl, fun _ => OrderedMap.size_trim_le _ _,
        fun ht => ht.addShare _⟩

/-! ### What a handler does -/

lemma valid_of_isValidSuccessor {C : Sharechain} {share : ShareBlock} {sid : Hash32} {now : ℚ}
    (hid : share.shareId = .ok sid) (h : C.isValidSuccessor P share now = .ok true) :
    Valid P C.entries.get share now sid := by
  obtain ⟨r, hr, hnone⟩ := map_eq_ok_iff.mp h
  obtain rfl : r = none := by simpa using hnone
  obtain ⟨sid', hid', hvalid⟩ := validate_eq_ok_none_iff.mp hr
  cases Except.ok.inj (hid'.symm.trans hid)
  exact hvalid

/-- `_h_share` asks for the proof of a new valid successor, or leaves the node as it is. -/
lemma hShare_cases (cfg : P2PConfig) (N : P2PNode) (msg : Incoming) (now : ℚ) :
    (∃ replies, N.hShare cfg msg now = (N, replies) ∧ ∀ m ∈ replies, ∃ n, m = .getshares n)
      ∨ ∃ share sid, msg.share.bind readShare = some share ∧ share.shareId = .ok sid
        ∧ N.pending.get sid.hex = none ∧ Valid cfg.params N.chain.entries.get share now sid
        ∧ N.hShare cfg msg now
          = ({ N with pending := N.pending.set sid.hex share }, [.getproof sid.hex]) := by
  rw [hShare]
  cases hread : msg.share.bind readShare with
  | none => exact Or.inl ⟨[], rfl, by simp⟩
  | some share =>
      dsimp only
      cases hid : share.shareId with
      | error e => exact Or.inl ⟨[], rfl, by simp⟩
      | ok sid =>
          dsimp only
          split_ifs with hknown
          · exact Or.inl ⟨[], rfl, by simp⟩
          · exact Or.inl ⟨_, rfl, by simp⟩
          · have hnew : N.pending.get sid.hex = none := by
              by_contra hne
              exact hknown (Or.inr hne)
            cases hval : N.chain.isValidSuccessor cfg.params share now with
            | error e => exact Or.inl ⟨[], rfl, by simp⟩
            | ok valid =>
                cases valid with
                | false => exact Or.inl ⟨[], rfl, by simp⟩
                | true =>
                    exact Or.inr ⟨share, _, rfl, hid, hnew, valid_of_isValidSuccessor hid hval, rfl⟩

/-- `_h_proof` leaves the node as it is, forgets a pending share, or forgets it and adds it with
a verified proof. -/
lemma hProof_cases (htip : N.chain.TipStored) (peer : ℕ) (msg : Incoming) (now : ℚ) :
    N.hProof cfg peer msg now = N
      ∨ ∃ sid share, msg.id.getD (.str []) = .str sid ∧ N.pending.get sid = some share
        ∧ (N.hProof cfg peer msg now = { N with pending := N.pending.erase sid }
          ∨ ∃ N' r, cfg.verifyIncoming share (msg.proof.getD (.str [])) = .ok true
            ∧ Admission cfg { N with pending := N.pending.erase sid } sid share
              (msg.proof.getD (.str [])) now (N', r)
            ∧ N.hProof cfg peer msg now
              = if r = .ok true then { N' with
                  relaying := N'.relaying ++ [(share, peer)]
                  accepted := N'.accepted ++ [(share, peer)] } else N') := by
  rw [hProof]
  cases hx : msg.id.getD (.str []) with
  | str sid =>
      dsimp only
      cases hp : N.pending.get sid with
      | none => exact Or.inl rfl
      | some share =>
          refine Or.inr ⟨sid, share, rfl, hp, ?_⟩
          dsimp only
          cases hv : cfg.verifyIncoming share (msg.proof.getD (.str [])) with
          | error e => exact Or.inl rfl
          | ok verdict =>
              cases verdict with
              | false => exact Or.inl rfl
              | true =>
                  have hadm := @admit_cases cfg { N with pending := N.pending.erase sid } htip sid
                    share (msg.proof.getD (.str [])) now
                  dsimp only
                  generalize admitShare cfg { N with pending := N.pending.erase sid } sid share
                    (msg.proof.getD (.str [])) now = result at hadm ⊢
                  obtain ⟨N', r⟩ := result
                  refine Or.inr ⟨N', r, rfl, hadm, ?_⟩
                  rcases r with e | (_ | _) <;> rfl
  | _ => exact Or.inl rfl

/-- `_h_block` leaves the node as it is, or records the block. -/
lemma hBlock_cases (N : P2PNode) (peer : ℕ) (msg : Incoming) : N.hBlock peer msg = N
    ∨ ∃ block relays, N.hBlock peer msg
      = { N with blocksSeen := (N.seenBlock block).1, relayingBlocks := relays } := by
  unfold hBlock
  split
  · rename_i block _
    split_ifs
    · exact Or.inl rfl
    · refine Or.inr ⟨block, ?_⟩
      generalize N.seenBlock block = seen
      obtain ⟨blocksSeen, _ | _⟩ := seen
      · exact ⟨_, rfl⟩
      · exact ⟨_, rfl⟩
  · exact Or.inl rfl

/-- A pair of a window leaves the node as it is, or is a new valid successor that is added with a
verified proof. -/
lemma takePair_cases (htip : N.chain.TipStored) (pair : Json) (now now' : ℚ) :
    (∃ goes, N.takePair cfg pair now now' = (N, goes))
      ∨ ∃ wire proof share sid N' r goes, pair = .arr [wire, proof] ∧ readShare wire = some share
        ∧ share.shareId = .ok sid ∧ Valid cfg.params N.chain.entries.get share now sid
        ∧ cfg.verifyIncoming share proof = .ok true
        ∧ Admission cfg N sid.hex share proof now' (N', r)
        ∧ N.takePair cfg pair now now' = (N', goes) := by
  unfold takePair
  split
  · rename_i wire proof
    cases hread : readShare wire with
    | none => exact Or.inl ⟨true, rfl⟩
    | some share =>
        dsimp only
        cases hid : share.shareId with
        | error e => exact Or.inl ⟨false, rfl⟩
        | ok sid =>
            dsimp only
            split_ifs
            · exact Or.inl ⟨true, rfl⟩
            · cases hval : N.chain.isValidSuccessor cfg.params share now with
              | error e => exact Or.inl ⟨false, rfl⟩
              | ok valid =>
                  cases valid with
                  | false => exact Or.inl ⟨true, rfl⟩
                  | true =>
                      have hvalid := valid_of_isValidSuccessor hid hval
                      dsimp only
                      rcases hv : cfg.verifyIncoming share proof with e | (_ | _)
                      · exact Or.inl ⟨false, rfl⟩
                      · exact Or.inl ⟨true, rfl⟩
                      · have hadm := @admit_cases cfg N htip sid.hex share proof now'
                        dsimp only
                        generalize admitShare cfg N sid.hex share proof now' = result at hadm ⊢
                        obtain ⟨N', r⟩ := result
                        rcases r with e | b
                        · exact Or.inr ⟨wire, proof, share, sid, N', _, false, rfl, hread, hid,
                            hvalid, hv, hadm, rfl⟩
                        · exact Or.inr ⟨wire, proof, share, sid, N', _, true, rfl, hread, hid,
                            hvalid, hv, hadm, rfl⟩
  · exact Or.inl ⟨true, rfl⟩

/-- What every pair preserves, a window of shares preserves. -/
lemma takePairs_preserves {I : P2PNode → Prop}
    (hpair : ∀ N pair now now', I N → I (N.takePair cfg pair now now').1) (h : I N)
    (pairs : List Json) (clock : ℕ → ℚ) : I (N.takePairs cfg pairs clock) := by
  induction pairs generalizing N clock with
  | nil => exact h
  | cons pair pairs ih =>
      have hnext := hpair N pair (clock 0) (clock 1) h
      rw [takePairs]
      split
      · rename_i he
        rwa [he] at hnext
      · rename_i he
        rw [he] at hnext
        exact ih hnext _

/-- A window of shares changes nothing else. -/
lemma takePairs_frame (htip : N.chain.TipStored) (pairs : List Json) (clock : ℕ → ℚ) :
    Frame N (N.takePairs cfg pairs clock) := by
  refine takePairs_preserves (I := Frame N) (fun M pair now now' hM => ?_) (Frame.refl N) pairs
    clock
  rcases takePair_cases (hM.tipStored htip) pair now now' with
    ⟨goes, hkeep⟩ | ⟨wire, proof, share, sid, N', r, goes, -, -, -, -, -, hadm, htake⟩
  · rw [hkeep]; exact hM
  · rw [htake]; exact hM.trans hadm.frame

/-- The messages of a window carry shares with their proofs. -/
lemma mem_streamShares {shares : List ShareBlock} {batch : List (PyStr × PyStr)} {m : Message}
    (h : m ∈ N.streamShares shares batch) : ∃ pairs, m = .shares pairs := by
  induction shares generalizing batch with
  | nil =>
      rw [streamShares] at h
      split_ifs at h
      · cases h
      · exact ⟨_, List.mem_singleton.mp h⟩
  | cons share shares ih =>
      rw [streamShares] at h
      split at h
      · split at h
        · exact ih h
        · split_ifs at h
          · rcases List.mem_cons.mp h with rfl | h
            · exact ⟨_, rfl⟩
            · exact ih h
          · exact ih h
      · cases h

/-! ### A valid successor -/

section Valid

variable {share : ShareBlock} {sid : Hash32} {now : ℚ} {text : PyStr} {bytes : Bytes}

lemma has_iff : N.Has sid ↔ ∃ s, N.chain.entries.get sid = some s := by
  rw [Has, ← Option.ne_none_iff_exists', not_iff_not]
  exact Store.get_eq_none_iff.symm

lemma not_has_of_valid (h : Valid cfg.params N.chain.entries.get share now sid) : ¬N.Has sid :=
  fun hhas => hhas (Store.get_eq_none_iff.mp h.fresh)

lemma not_orphan_of_valid (h : Valid cfg.params N.chain.entries.get share now sid) :
    ¬N.Orphan share := by
  rintro ⟨hne, hmissing⟩
  rcases h.linked with hf | ⟨parent, hx⟩
  · exact hne hf.prev
  · exact hmissing (has_iff.mpr ⟨parent, hx.stored⟩)

lemma isValidSuccessor_of_valid (hid : share.shareId = .ok sid)
    (h : Valid cfg.params N.chain.entries.get share now sid) :
    N.chain.isValidSuccessor cfg.params share now = .ok true := by
  rw [Sharechain.isValidSuccessor, validate_eq_ok_none_iff.mpr ⟨sid, hid, h⟩]
  rfl

/-- A valid share with a proof in ASCII is accepted, and is stored afterwards. -/
lemma admitShare_of_valid (htip : N.chain.TipStored) (hid : share.shareId = .ok sid)
    (henc : encodeAscii text = .ok bytes)
    (h : Valid cfg.params N.chain.entries.get share now sid) (key : PyStr) :
    N.admitShare cfg key share (.str text) now = ({ N with
        chain := (addShare cfg.params N.chain (admission share bytes now)).1
        calls := N.calls ++ [(.gossip text, admission share bytes now)]
        proofs := N.storeProof key text }, .ok true)
      ∧ (addShare cfg.params N.chain (admission share bytes now)).1.entries.get sid
        = some share := by
  have hvalid : validate cfg.params N.chain.entries.get (admission share bytes now).share
      (admission share bytes now).now = .ok none := validate_eq_ok_none_iff.mpr ⟨sid, hid, h⟩
  obtain ⟨isBestTip, hres⟩ := addShare_of_valid htip (admission share bytes now) rfl hvalid
  refine ⟨?_, get_addShare_self htip rfl hid hvalid⟩
  rw [admitShare]
  simp only [henc]
  generalize addShare cfg.params N.chain (admission share bytes now) = result at hres ⊢
  obtain ⟨chain, r⟩ := result
  cases hres
  rfl

/-- The share is a valid successor, under its id, and its proof is not yet awaited. -/
structure Unheard (cfg : P2PConfig) (N : P2PNode) (share : ShareBlock) (sid : Hash32) (now : ℚ) :
    Prop where
  id : share.shareId = .ok sid
  fresh : N.pending.get sid.hex = none
  valid : Valid cfg.params N.chain.entries.get share now sid

/-- `_h_share` asks for the proof of such a share. -/
lemma hShare_of_unheard {msg : Incoming} (hread : msg.share.bind readShare = some share)
    (h : Unheard cfg N share sid now) : N.hShare cfg msg now
      = ({ N with pending := N.pending.set sid.hex share }, [.getproof sid.hex]) := by
  rw [hShare, hread]
  dsimp only
  rw [h.id]
  dsimp only
  rw [if_neg (by simp [not_has_of_valid h.valid, h.fresh]), if_neg (not_orphan_of_valid h.valid),
    isValidSuccessor_of_valid h.id h.valid]

/-- A share that is stored or pending is not asked for. -/
lemma hShare_of_heard {msg : Incoming} (hread : msg.share.bind readShare = some share)
    (hid : share.shareId = .ok sid) (h : N.Has sid ∨ N.pending.get sid.hex ≠ none) :
    N.hShare cfg msg now = (N, []) := by
  rw [hShare, hread]
  dsimp only
  rw [hid]
  dsimp only
  rw [if_pos h]

/-- A pending share that is still valid is added when its proof comes in and verifies. -/
lemma hProof_eq_of_verified (htip : N.chain.TipStored) {msg : Incoming} (peer : ℕ)
    (hmsg : msg.id.getD (.str []) = .str sid.hex) (hproof : msg.proof = some (.str text))
    (hpending : N.pending.get sid.hex = some share) (hid : share.shareId = .ok sid)
    (hverify : cfg.verifyIncoming share (.str text) = .ok true)
    (henc : encodeAscii text = .ok bytes)
    (h : Valid cfg.params N.chain.entries.get share now sid) :
    N.hProof cfg peer msg now = { N with
        pending := N.pending.erase sid.hex
        chain := (addShare cfg.params N.chain (admission share bytes now)).1
        calls := N.calls ++ [(.gossip text, admission share bytes now)]
        proofs := N.storeProof sid.hex text
        relaying := N.relaying ++ [(share, peer)]
        accepted := N.accepted ++ [(share, peer)] } := by
  have hadmits := (@admitShare_of_valid cfg
    { N with pending := N.pending.erase sid.hex } share sid now text bytes htip hid henc h
    sid.hex).1
  rw [hProof, hmsg]
  dsimp only
  rw [hpending]
  dsimp only
  simp only [hproof, Option.getD_some, hverify, hadmits]
  rfl

/-- It is stored then. -/
lemma hProof_of_verified (htip : N.chain.TipStored) {msg : Incoming} (peer : ℕ)
    (hmsg : msg.id.getD (.str []) = .str sid.hex) (hproof : msg.proof = some (.str text))
    (hpending : N.pending.get sid.hex = some share) (hid : share.shareId = .ok sid)
    (hverify : cfg.verifyIncoming share (.str text) = .ok true)
    (henc : encodeAscii text = .ok bytes)
    (h : Valid cfg.params N.chain.entries.get share now sid) :
    (N.hProof cfg peer msg now).Has sid := by
  rw [hProof_eq_of_verified htip peer hmsg hproof hpending hid hverify henc h]
  exact has_iff.mpr ⟨share, (admitShare_of_valid htip hid henc h sid.hex).2⟩

end Valid

/-! ### What an event does -/

/-- What an event makes of the node. -/
inductive Effect (cfg : P2PConfig) (N : P2PNode) : Event → P2PNode → Prop
  /-- Nothing has changed but who is connected, and which blocks wait for a callback. -/
  | idle (e : Event) (peers : List ℕ) (peerSeq : ℕ) (relayingBlocks : List (PyStr × ℕ)) :
      Effect cfg N e { N with peers, peerSeq, relayingBlocks }
  /-- A block is recorded. -/
  | seen (e : Event) (block : PyStr) (relayingBlocks : List (PyStr × ℕ)) :
      Effect cfg N e { N with blocksSeen := (N.seenBlock block).1, relayingBlocks }
  /-- The proof of an announced share is asked for. -/
  | asked (peer : ℕ) (msg : Incoming) (clock : ℕ → ℚ) (share : ShareBlock) (sid : Hash32)
      (kind : msg.kind = some .share) (read : msg.share.bind readShare = some share)
      (unheard : Unheard cfg N share sid (clock 0)) : Effect cfg N (.receive peer msg clock)
        { N with pending := N.pending.set sid.hex share }
  /-- A proof comes in. -/
  | proved (peer : ℕ) (msg : Incoming) (clock : ℕ → ℚ) (kind : msg.kind = some .proof) :
      Effect cfg N (.receive peer msg clock) (N.hProof cfg peer msg (clock 0))
  /-- A window of shares comes in. -/
  | received (peer : ℕ) (msg : Incoming) (clock : ℕ → ℚ) (pairs : List Json) :
      Effect cfg N (.receive peer msg clock) (N.takePairs cfg pairs clock)
  /-- The daemon adds a share. -/
  | submitted (call : Call) : Effect cfg N (.submit call) { N with
      chain := (addShare cfg.params N.chain call).1
      calls := N.calls ++ [(.own, call)] }
  /-- The daemon broadcasts a share. -/
  | broadcast (share : ShareBlock) (sid : Hash32) (proof : PyStr) :
      Effect cfg N (.broadcastShare share proof) ({ N with
        proofs := N.storeProof sid.hex proof
        broadcasts := N.broadcasts ++ [(sid.hex, proof)] }.announce share none).1
  /-- A share that has been accepted is announced. -/
  | relayed (i : ℕ) (r : ShareBlock × ℕ) (waits : N.relaying[i]? = some r) :
      Effect cfg N (.relay i)
        ({ N with relaying := N.relaying.eraseIdx i }.announce r.1 (some r.2)).1

lemma effect_of_handle (cfg : P2PConfig) (N : P2PNode) (peer : ℕ) (msg : Incoming)
    (clock : ℕ → ℚ) :
    Effect cfg N (.receive peer msg clock) (N.handle cfg peer msg clock).1 := by
  have hidle : Effect cfg N (.receive peer msg clock) N := .idle _ N.peers N.peerSeq _
  rw [handle]
  split
  · exact hidle
  · exact hidle
  · rename_i hkind
    rcases hShare_cases cfg N msg (clock 0) with
      ⟨replies, hkeep, -⟩ | ⟨share, sid, hread, hid, hnew, hvalid, hset⟩
    · rw [hkeep]; exact hidle
    · rw [hset]; exact .asked peer msg clock share sid hkind hread ⟨hid, hnew, hvalid⟩
  · exact hidle
  · rename_i hkind
    exact .proved peer msg clock hkind
  · exact hidle
  · rw [hShares]
    split
    · exact .received peer msg clock _
    · exact hidle
  · rcases hBlock_cases N peer msg with hkeep | ⟨block, relays, hseen⟩
    · rw [hkeep]; exact hidle
    · rw [hseen]; exact .seen _ block relays

/-- **An event** has one of these effects. -/
lemma effect_of_react {e : Event} {out : List (ℕ × Message)}
    (hreact : N.react cfg e = some (N', out)) : Effect cfg N e N' := by
  cases e with
  | connect => cases hreact; exact .idle _ _ _ N.relayingBlocks
  | disconnect peer => cases hreact; exact .idle _ _ N.peerSeq N.relayingBlocks
  | receive peer msg clock => cases hreact; exact effect_of_handle cfg N peer msg clock
  | relay i =>
      obtain ⟨r, hr, hout⟩ := Option.map_eq_some_iff.mp hreact
      obtain rfl := congrArg Prod.fst hout
      exact .relayed i r hr
  | relayBlock i =>
      obtain ⟨r, -, hr⟩ := Option.map_eq_some_iff.mp hreact
      cases hr
      exact .idle _ N.peers N.peerSeq _
  | submit call => cases hreact; exact .submitted call
  | broadcastShare share proof =>
      rw [react] at hreact
      split at hreact
      · cases hreact; exact .idle _ N.peers N.peerSeq N.relayingBlocks
      · obtain rfl := congrArg Prod.fst (Option.some.inj hreact)
        exact .broadcast share _ proof
  | broadcastBlock block => cases hreact; exact .seen _ block N.relayingBlocks

section Announce

variable (N : P2PNode) (share : ShareBlock) (exclude : Option ℕ)

@[simp] lemma chain_announce : (N.announce share exclude).1.chain = N.chain := by
  rw [announce]; split <;> rfl

@[simp] lemma calls_announce : (N.announce share exclude).1.calls = N.calls := by
  rw [announce]; split <;> rfl

@[simp] lemma accepted_announce : (N.announce share exclude).1.accepted = N.accepted := by
  rw [announce]; split <;> rfl

@[simp] lemma pending_announce : (N.announce share exclude).1.pending = N.pending := by
  rw [announce]; split <;> rfl

@[simp] lemma proofs_announce : (N.announce share exclude).1.proofs = N.proofs := by
  rw [announce]; split <;> rfl

@[simp] lemma blocksSeen_announce : (N.announce share exclude).1.blocksSeen = N.blocksSeen := by
  rw [announce]; split <;> rfl

end Announce

/-! ### The pending map -/

/-- An event leaves the pending map alone, adds the new valid successor it announces, or takes out
the share it carries a proof for. -/
lemma pending_cases (htip : N.chain.TipStored) {e : Event} {out : List (ℕ × Message)}
    (hreact : N.react cfg e = some (N', out)) : N'.pending = N.pending
      ∨ (∃ peer msg clock share sid, e = .receive peer msg clock ∧ msg.kind = some .share
        ∧ msg.share.bind readShare = some share ∧ Unheard cfg N share sid (clock 0)
        ∧ N'.pending = N.pending.set sid.hex share)
      ∨ ∃ peer msg clock id, e = .receive peer msg clock ∧ msg.kind = some .proof
        ∧ msg.id.getD (.str []) = .str id ∧ N'.pending = N.pending.erase id := by
  cases effect_of_react hreact with
  | idle | seen | submitted => exact Or.inl rfl
  | asked peer msg clock share sid kind read unheard =>
      exact Or.inr (Or.inl ⟨peer, msg, clock, share, sid, rfl, kind, read, unheard, rfl⟩)
  | proved peer msg clock kind =>
      rcases hProof_cases htip peer msg (clock 0) with hsame | ⟨id, share, hid, -, hcases⟩
      · exact Or.inl (congrArg pending hsame)
      · refine Or.inr (Or.inr ⟨peer, msg, clock, id, rfl, kind, hid, ?_⟩)
        rcases hcases with hdrop | ⟨N', r, -, hadm, hend⟩
        · exact congrArg pending hdrop
        · refine (congrArg pending hend).trans ?_
          split_ifs
          · exact hadm.frame.pending
          · exact hadm.frame.pending
  | received peer msg clock pairs => exact Or.inl (takePairs_frame htip pairs clock).pending
  | broadcast share sid proof => exact Or.inl (pending_announce _ _ _)
  | relayed i r waits => exact Or.inl (pending_announce _ _ _)

end P2PNode

end P2Pearl
