import P2Pearl.Consensus.Selection
import P2Pearl.P2P.Handlers

/-!
How a message of a peer changes the best tip.

* `Overtakes`: a pair of a window sync brings a share that takes over; `bestTip_takePair_ne_iff`.
* `OvertakesIn`: a pair of a window does so when its turn comes; without one, a window leaves the
  best tip (`bestTip_takePairs`).
* `bestTip_of_step`: the best tip changes in a window sync, or with a proof that is accepted;
  `accepted_of_shares`: what a window sync does.
* `chain_of_step`: what every call of `add_share` preserves of the sharechain, every event does.
-/

namespace P2Pearl

namespace P2PNode

variable {cfg : P2PConfig} {N N' : P2PNode}

/-! ### A window of shares -/

/-- A pair of a window sync that is a new valid successor with a verified proof, heavier than the
best tip. -/
structure Overtaker (cfg : P2PConfig) (N : P2PNode) (pair : Json) (now now' : ℚ)
    (share : ShareBlock) (sid : Hash32) (proof : PyStr) : Prop where
  read : ∃ wire, pair = .arr [wire, .str proof] ∧ readShare wire = some share
  id : share.shareId = .ok sid
  valid : Valid cfg.params N.chain.entries.get share now sid
  valid' : Valid cfg.params N.chain.entries.get share now' sid
  verified : cfg.verifyIncoming share (.str proof) = .ok true
  ascii : IsAscii proof
  heavier : ∃ work, cumulativeAfter N.chain.entries share = .ok work
    ∧ ∀ best b, N.chain.bestTip = some best → N.chain.entries best = some b →
      b.cumulativeDifficulty < work

/-- A pair brings such a share. -/
def Overtakes (cfg : P2PConfig) (N : P2PNode) (pair : Json) (now now' : ℚ) : Prop :=
  ∃ share sid proof, Overtaker cfg N pair now now' share sid proof

/-- Some pair of a window does when its turn comes. -/
def OvertakesIn (cfg : P2PConfig) : P2PNode → List Json → (ℕ → ℚ) → Prop
  | _, [], _ => False
  | N, pair :: rest, clock => Overtakes cfg N pair (clock 0) (clock 1)
      ∨ match N.takePair cfg pair (clock 0) (clock 1) with
        | (_, false) => False
        | (N, true) => OvertakesIn cfg N rest fun i => clock (i + 2)

/-- A pair changes the best tip exactly where it overtakes it. -/
lemma bestTip_takePair_ne_iff (htip : N.chain.TipStored) (pair : Json) (now now' : ℚ) :
    (N.takePair cfg pair now now').1.chain.bestTip ≠ N.chain.bestTip
      ↔ Overtakes cfg N pair now now' := by
  constructor
  · intro hne
    rcases takePair_cases htip pair now now' with
      ⟨goes, hkeep⟩ | ⟨wire, proof, share, sid, N', r, goes, rfl, hread, hid, hvalid, hv, hadm,
        htake⟩
    · rw [hkeep] at hne
      exact absurd rfl hne
    · rw [htake] at hne
      cases hadm with
      | unread e => exact absurd rfl hne
      | refused => exact absurd rfl hne
      | accepted text bytes hproof henc haccepts =>
          obtain ⟨sid', e, hadmits, hheavier⟩ := (bestTip_addShare_ne_iff htip _).mp hne
          cases Except.ok.inj (hid.symm.trans hadmits.id)
          rw [hproof] at hv ⊢
          exact ⟨share, sid, text, ⟨wire, rfl, hread⟩, hid, hvalid, hadmits.valid, hv,
            (encodeAscii_eq_ok_iff.mp henc).1, e.cumulativeDifficulty, hadmits.cumulative, hheavier⟩
  · rintro ⟨share, sid, proof, ⟨wire, rfl, hread⟩, hid, hvalid, hvalid', hv, hascii, work, hwork,
      hheavier⟩
    have henc := encodeAscii_of_isAscii hascii
    have hknown : ¬(N.Has sid ∨ N.Orphan share) :=
      not_or.mpr ⟨not_has_of_valid hvalid, not_orphan_of_valid hvalid⟩
    have hadmits := (admitShare_of_valid htip hid henc hvalid' sid.hex).1
    have htake : (N.takePair cfg (.arr [wire, .str proof]) now now').1.chain
        = (addShare cfg.params N.chain
          (admission share (proof.map fun c => UInt8.ofNat c.toNat) now')).1 := by
      simp only [takePair, hread, hid, if_neg hknown, isValidSuccessor_of_valid hid hvalid, hv,
        hadmits]
    rw [htake]
    exact (bestTip_addShare_ne_iff htip _).mpr
      ⟨sid, ⟨share, work, some _⟩, ⟨rfl, hid, hvalid', hwork, rfl, rfl⟩, hheavier⟩

/-- A window none of whose pairs overtakes the best tip leaves it. -/
lemma bestTip_takePairs (htip : N.chain.TipStored) {pairs : List Json} {clock : ℕ → ℚ}
    (h : ¬OvertakesIn cfg N pairs clock) :
    (N.takePairs cfg pairs clock).chain.bestTip = N.chain.bestTip := by
  induction pairs generalizing N clock with
  | nil => rfl
  | cons pair rest ih =>
      rw [OvertakesIn, not_or] at h
      obtain ⟨hpair, hrest⟩ := h
      have hsame := not_not.mp ((not_congr (bestTip_takePair_ne_iff htip pair _ _)).mpr hpair)
      have hframe : Frame N (N.takePairs cfg [pair] clock) := takePairs_frame htip [pair] clock
      rw [takePairs] at hframe ⊢
      generalize N.takePair cfg pair (clock 0) (clock 1) = result at hsame hrest hframe ⊢
      obtain ⟨N', goes⟩ := result
      cases goes with
      | false => exact hsame
      | true => exact (ih (hframe.tipStored htip) hrest).trans hsame

/-! ### An event -/

/-- A proof changes the best tip only where its share is accepted. -/
lemma bestTip_hProof (htip : N.chain.TipStored) (peer : ℕ) (msg : Incoming) (now : ℚ) :
    (N.hProof cfg peer msg now).chain.bestTip = N.chain.bestTip
      ∨ N.accepted.length < (N.hProof cfg peer msg now).accepted.length := by
  rcases hProof_cases htip peer msg now with hsame | ⟨sid, share, -, -, hcases⟩
  · exact Or.inl (by rw [hsame])
  · rcases hcases with hdrop | ⟨N', r, -, hadm, hend⟩
    · exact Or.inl (by rw [hdrop])
    · rw [hend]
      split_ifs with hr
      · right
        dsimp only
        rw [hadm.frame.accepted, List.length_append, List.length_singleton]
        exact Nat.lt_succ_self _
      · left
        cases hadm with
        | unread | refused => rfl
        | accepted => exact absurd rfl hr

lemma bestTip_handle (htip : N.chain.TipStored) (peer : ℕ) {msg : Incoming} (clock : ℕ → ℚ)
    (hkind : msg.kind ≠ some .shares) :
    (N.handle cfg peer msg clock).1.chain.bestTip = N.chain.bestTip
      ∨ N.accepted.length < (N.handle cfg peer msg clock).1.accepted.length := by
  rw [handle]
  split
  · exact Or.inl rfl
  · exact Or.inl rfl
  · rcases hShare_cases cfg N msg (clock 0) with ⟨replies, hkeep, -⟩ | ⟨_, _, -, -, -, -, hset⟩
    · rw [hkeep]; exact Or.inl rfl
    · rw [hset]; exact Or.inl rfl
  · exact Or.inl rfl
  · exact bestTip_hProof htip peer msg (clock 0)
  · exact Or.inl rfl
  · exact absurd ‹_› hkind
  · rcases hBlock_cases N peer msg with hkeep | ⟨block, relays, hseen⟩
    · rw [hkeep]; exact Or.inl rfl
    · rw [hseen]; exact Or.inl rfl

/-- **An event** of a peer changes the best tip only in a window sync, or with a proof whose share
is accepted. -/
lemma bestTip_of_step (htip : N.chain.TipStored) {e : Event} (hstep : N.step cfg e = some N')
    (hsubmit : ∀ call, e ≠ .submit call)
    (hshares : ∀ peer msg clock, e = .receive peer msg clock → msg.kind ≠ some .shares) :
    N'.chain.bestTip = N.chain.bestTip ∨ N.accepted.length < N'.accepted.length := by
  obtain ⟨⟨N₁, out⟩, hreact, rfl⟩ := Option.map_eq_some_iff.mp hstep
  cases e with
  | receive peer msg clock =>
      cases hreact
      exact bestTip_handle htip peer clock (hshares peer msg clock rfl)
  | submit call => exact absurd rfl (hsubmit call)
  | relay i =>
      obtain ⟨r, -, heq⟩ := Option.map_eq_some_iff.mp hreact
      obtain rfl := congrArg Prod.fst heq
      exact Or.inl (by rw [chain_announce])
  | relayBlock i =>
      obtain ⟨r, -, heq⟩ := Option.map_eq_some_iff.mp hreact
      cases heq
      exact Or.inl rfl
  | broadcastShare share proof =>
      rw [react] at hreact
      split at hreact
      · cases hreact; exact Or.inl rfl
      · obtain rfl := congrArg Prod.fst (Option.some.inj hreact)
        exact Or.inl (by rw [chain_announce])
  | connect | disconnect | broadcastBlock => cases hreact; exact Or.inl rfl

/-- A window sync leaves what was accepted, and the best tip where no share of it overtakes it. -/
lemma accepted_of_shares (htip : N.chain.TipStored) {peer : ℕ} {msg : Incoming} {clock : ℕ → ℚ}
    (hkind : msg.kind = some .shares) (hstep : N.step cfg (.receive peer msg clock) = some N') :
    N'.accepted = N.accepted ∧ ((∀ pairs, msg.shares.getD (.arr []) = .arr pairs →
      ¬OvertakesIn cfg N (pairs.take syncLimit) clock) → N'.chain.bestTip = N.chain.bestTip) := by
  obtain ⟨⟨N₁, out⟩, hreact, rfl⟩ := Option.map_eq_some_iff.mp hstep
  have heq : N₁ = N.hShares cfg msg clock := by
    have hfst := congrArg Prod.fst (Option.some.inj hreact)
    simp only [hkind] at hfst
    exact hfst.symm
  rw [heq, hShares]
  split
  · rename_i pairs hpairs
    exact ⟨(takePairs_frame htip _ _).accepted, fun h => bestTip_takePairs htip (h pairs hpairs)⟩
  · exact ⟨rfl, fun _ => rfl⟩

/-! ### The sharechain -/

/-- What every call of `add_share` preserves of the sharechain, every event does. -/
lemma chain_of_step {I : Sharechain → Prop} (htip : ∀ C, I C → C.TipStored)
    (hadd : ∀ C call, I C → I (addShare cfg.params C call).1) (h : I N.chain) {e : Event}
    (hstep : N.step cfg e = some N') : I N'.chain := by
  have hadmission : ∀ {M M' : P2PNode} {sid : PyStr} {share : ShareBlock} {proof : Json} {now : ℚ}
      {r : Except PyError Bool}, Admission cfg M sid share proof now (M', r) → I M.chain →
        I M'.chain := by
    intro M M' sid share proof now r hadm hM
    cases hadm with
    | unread | refused => exact hM
    | accepted => exact hadd _ _ hM
  obtain ⟨⟨N₁, out⟩, hreact, rfl⟩ := Option.map_eq_some_iff.mp hstep
  cases effect_of_react hreact with
  | idle | seen | asked => exact h
  | proved peer msg clock kind =>
      rcases hProof_cases (htip _ h) peer msg (clock 0) with hsame | ⟨id, share, -, -, hcases⟩
      · rw [hsame]; exact h
      · rcases hcases with hdrop | ⟨M, r, -, hadm, hend⟩
        · rw [hdrop]; exact h
        · have hM : I M.chain := hadmission hadm h
          rw [hend]
          split_ifs
          · exact hM
          · exact hM
  | received peer msg clock pairs =>
      refine takePairs_preserves (I := fun M => I M.chain) (fun M pair now now' hM => ?_) h pairs
        clock
      rcases takePair_cases (htip _ hM) pair now now' with
        ⟨goes, hkeep⟩ | ⟨wire, proof, share, sid, M', r, goes, -, -, -, -, -, hadm, htake⟩
      · rw [hkeep]; exact hM
      · rw [htake]; exact hadmission hadm hM
  | submitted call => exact hadd _ call h
  | broadcast share sid proof => rw [chain_announce]; exact h
  | relayed i r waits => rw [chain_announce]; exact h

end P2PNode

end P2Pearl
