import P2Pearl.P2P.Gossip

/-!
Whether what the peers can make a node store is bounded.

* `Announces`: a message announces a new valid successor of the sharechain; `pending_step` says
  that nothing else makes the pending map grow.
* `caches_bounded_iff`: the proof cache and the set of seen blocks are bounded in every run; the
  pending map stays within a cap exactly when no new announcement comes while it is full.
* `pending_uncapped`: as many forged first shares as one likes wait in it for ever.
-/

namespace P2Pearl

namespace P2PNode

variable {cfg : P2PConfig} {N N' : P2PNode}

/-- The message announces a valid successor whose proof is not yet awaited. -/
def Announces (cfg : P2PConfig) (N : P2PNode) : Event → Prop
  | .receive _ msg clock => msg.kind = some .share ∧ ∃ share sid,
      msg.share.bind readShare = some share ∧ Unheard cfg N share sid (clock 0)
  | _ => False

/-! ### One event -/

/-- A proof that comes in keeps the caches within their bounds. -/
lemma hProof_sizes (h : Kept cfg N) (peer : ℕ) (msg : Incoming) (now : ℚ) :
    (N.hProof cfg peer msg now).blocksSeen = N.blocksSeen
      ∧ (N.proofs.size ≤ maxStoredProofs →
        (N.hProof cfg peer msg now).proofs.size ≤ maxStoredProofs) := by
  rcases hProof_cases h.tipStored peer msg now with hsame | ⟨sid, share, -, -, hcases⟩
  · rw [hsame]; exact ⟨rfl, id⟩
  · rcases hcases with hdrop | ⟨N', r, -, hadm, hend⟩
    · rw [hdrop]; exact ⟨rfl, id⟩
    · have hframe := hadm.frame
      rw [hend]
      split_ifs
      · exact ⟨hframe.blocksSeen, hframe.proofs⟩
      · exact ⟨hframe.blocksSeen, hframe.proofs⟩

lemma size_seenBlock (h : N.blocksSeen.size ≤ maxBlocksSeen) (block : PyStr) :
    (N.seenBlock block).1.size ≤ maxBlocksSeen := by
  rw [seenBlock]
  split_ifs
  · dsimp only
    rw [OrderedMap.size_moveToEnd]
    exact h
  · exact OrderedMap.size_trim_le _ _

/-- An event makes the pending map grow exactly when it announces a new valid successor, and then
by one. -/
lemma pending_step (h : Kept cfg N) {e : Event} (hstep : N.step cfg e = some N') :
    (Announces cfg N e → N'.pending.size = N.pending.size + 1)
      ∧ (¬Announces cfg N e → N'.pending.size ≤ N.pending.size) := by
  obtain ⟨⟨N₁, out⟩, hreact, rfl⟩ := Option.map_eq_some_iff.mp hstep
  constructor
  · intro hann
    cases e with
    | receive peer msg clock =>
        obtain ⟨hkind, share, sid, hread, hnew⟩ := hann
        obtain rfl : (N.handle cfg peer msg clock).1 = N₁ :=
          congrArg Prod.fst (Option.some.inj hreact)
        simp only [handle, hkind, hShare_of_unheard hread hnew]
        exact OrderedMap.size_set_of_fresh _ hnew.fresh
    | _ => exact hann.elim
  · intro hnot
    rcases pending_cases h.tipStored hreact with
      hsame | ⟨peer, msg, clock, share, sid, rfl, hkind, hread, hnew, -⟩
        | ⟨peer, msg, clock, id, -, -, -, herase⟩
    · exact hsame ▸ le_rfl
    · exact absurd ⟨hkind, share, sid, hread, hnew⟩ hnot
    · exact herase ▸ OrderedMap.size_erase_le _ _

/-- An event keeps the proof cache and the set of seen blocks within their bounds. -/
lemma caches_step (h : Kept cfg N) {e : Event} (hstep : N.step cfg e = some N')
    (hproofs : N.proofs.size ≤ maxStoredProofs) (hblocks : N.blocksSeen.size ≤ maxBlocksSeen) :
    N'.proofs.size ≤ maxStoredProofs ∧ N'.blocksSeen.size ≤ maxBlocksSeen := by
  obtain ⟨⟨N₁, out⟩, hreact, rfl⟩ := Option.map_eq_some_iff.mp hstep
  cases effect_of_react hreact with
  | idle | asked | submitted => exact ⟨hproofs, hblocks⟩
  | seen e block relayingBlocks => exact ⟨hproofs, size_seenBlock hblocks block⟩
  | proved peer msg clock kind =>
      obtain ⟨hseen, hcache⟩ := hProof_sizes h peer msg (clock 0)
      exact ⟨hcache hproofs, hseen ▸ hblocks⟩
  | received peer msg clock pairs =>
      have hframe : Frame N (N.takePairs cfg pairs clock) :=
        takePairs_frame h.tipStored pairs clock
      exact ⟨hframe.proofs hproofs, hframe.blocksSeen ▸ hblocks⟩
  | broadcast share sid proof =>
      rw [proofs_announce, blocksSeen_announce]
      exact ⟨OrderedMap.size_trim_le _ _, hblocks⟩
  | relayed i r waits =>
      rw [proofs_announce, blocksSeen_announce]
      exact ⟨hproofs, hblocks⟩

/-! ### Runs -/

lemma caches_of_run {events : List Event} (hrun : Machine.run (step cfg) .init events = some N) :
    N.proofs.size ≤ maxStoredProofs ∧ N.blocksSeen.size ≤ maxBlocksSeen := by
  refine (Machine.run_preserves (I := fun N => Kept cfg N ∧ N.proofs.size ≤ maxStoredProofs
    ∧ N.blocksSeen.size ≤ maxBlocksSeen) ?_ ⟨Kept.init, Nat.zero_le _, Nat.zero_le _⟩ hrun).2
  exact fun _ _ _ hstep h => ⟨h.1.step hstep, caches_step h.1 hstep h.2.1 h.2.2⟩

/-- **The caches of a node are bounded, but the pending map is not.**  In every run the proof cache
and the set of seen blocks stay within their bounds; and the pending map stays within a cap exactly
when no message announces a new valid successor while it holds as many shares. -/
theorem caches_bounded_iff (cfg : P2PConfig) (cap : ℕ) (events : List Event) :
    (∀ past N, past <+: events → Machine.run (step cfg) .init past = some N →
        N.proofs.size ≤ maxStoredProofs ∧ N.blocksSeen.size ≤ maxBlocksSeen)
      ∧ ((∀ past N, past <+: events → Machine.run (step cfg) .init past = some N →
          N.pending.size ≤ cap)
        ↔ Machine.Along (step cfg) (fun N e => N.pending.size = cap → ¬Announces cfg N e) .init
          events) := by
  refine ⟨fun past N _ hrun => ?_, fun hcap => ?_, fun halong past N hpre hrun => ?_⟩
  · exact caches_of_run hrun
  · refine Machine.along_of_prefix fun past e m hpre hrun hfull hann => ?_
    have hsome : ∃ m', m.step cfg e = some m' := by
      cases e with
      | receive peer msg clock => exact ⟨_, rfl⟩
      | _ => exact hann.elim
    obtain ⟨m', hm'⟩ := hsome
    have hle := hcap (past ++ [e]) m' hpre (Machine.run_concat_eq_some_iff.mpr ⟨m, hrun, hm'⟩)
    have hsize := (pending_step (kept_of_run hrun) hm').1 hann
    omega
  · refine (Machine.run_invariant (I := fun N => Kept cfg N ∧ N.pending.size ≤ cap) ?_
      (halong.of_prefix hpre) ⟨Kept.init, Nat.zero_le _⟩ hrun).2
    intro m e m' hG hm' h
    refine ⟨h.1.step hm', ?_⟩
    by_cases hann : Announces cfg m e
    · have hsize := (pending_step h.1 hm').1 hann
      have hne : m.pending.size ≠ cap := fun hfull => hG hfull hann
      have hle := h.2
      omega
    · exact ((pending_step h.1 hm').2 hann).trans h.2

/-! ### Announcements without proofs -/

/-- A node that rejects every proof. -/
def distrustful : P2PConfig := ⟨{}, fun _ _ => .ok false, fun _ => .error .typeError⟩

/-- A peer announces a share, at the start of time. -/
def announcement (share : ShareBlock) : Event :=
  .receive 1 (Message.share (Bytes.hex share.wire)).incoming fun _ => 0

/-- A first share that costs no work: it fits the wire format and an empty sharechain would admit
it. -/
structure Forged (cfg : P2PConfig) (share : ShareBlock) : Prop where
  encodable : share.Encodable
  valid : ∀ sid, Valid cfg.params (fun _ => none) share 0 sid

/-- Each announced first share waits for its proof. -/
lemma run_announcements {shares : List ShareBlock} (hempty : N.chain = .empty)
    (hforged : ∀ share ∈ shares, Forged cfg share)
    (hnodup : (shares.map fun share => doubleSha256 share.wire).Nodup)
    (hnew : ∀ share ∈ shares, N.pending.get (doubleSha256 share.wire).hex = none) :
    ∃ N', Machine.run (step cfg) N (shares.map announcement) = some N' ∧ N'.chain = .empty
      ∧ N'.calls = N.calls ∧ N'.pending.size = N.pending.size + shares.length := by
  induction shares generalizing N with
  | nil => exact ⟨N, rfl, hempty, rfl, rfl⟩
  | cons share shares ih =>
      rw [List.map_cons, List.nodup_cons] at hnodup
      have hf := hforged share List.mem_cons_self
      let sid := doubleSha256 share.wire
      have hunheard : Unheard cfg N share sid 0 := by
        refine ⟨hf.encodable.shareId, hnew share List.mem_cons_self, ?_⟩
        rw [hempty]
        exact hf.valid sid
      have hread := readShare_hex hf.encodable (hf.valid sid).version.ge
      let N₁ := { N with pending := N.pending.set sid.hex share }
      have hstep : N.step cfg (announcement share) = some N₁ := by
        have hreply : N.hShare cfg (Message.share (Bytes.hex share.wire)).incoming 0
            = (N₁, [.getproof sid.hex]) := hShare_of_unheard hread hunheard
        exact congrArg (fun r => some r.1) hreply
      obtain ⟨N', hrun, hchain, hcalls, hsize⟩ := @ih N₁ hempty
        (fun s hs => hforged s (List.mem_cons_of_mem _ hs)) hnodup.2 fun s hs => by
          show (N.pending.set sid.hex share).get _ = none
          rw [OrderedMap.get_set, if_neg fun heq => hnodup.1 ?_]
          · exact hnew s (List.mem_cons_of_mem _ hs)
          · exact List.mem_map.mpr ⟨s, hs, Hash32.hex_inj heq⟩
      refine ⟨N', Machine.run_cons_eq_some_iff.mpr ⟨N₁, hstep, hrun⟩, hchain, hcalls, ?_⟩
      have hgrown : N₁.pending.size = N.pending.size + 1 :=
        OrderedMap.size_set_of_fresh _ hunheard.fresh
      rw [hsize, hgrown, List.length_cons]
      omega

/-- A first share by its number, which goes into its block bits. -/
def forgedShare (n : ℕ) : ShareBlock := genesisShare 0 n [] genesisPrev

lemma forgedShare_inj {n k : ℕ} (h : forgedShare n = forgedShare k) : n = k :=
  congrArg (fun s : ShareBlock => s.blockNbits) h

lemma forged_forgedShare {n : ℕ} (hn : n < 2 ^ 32) : Forged distrustful (forgedShare n) :=
  ⟨genesisShare_encodable 0 n [] genesisPrev (by norm_num) hn (by decide) (by norm_num),
    fun sid => genesisShare_valid 0 n [] genesisPrev le_rfl sid⟩

/-- As many forged first shares as have different ids wait at a node that never verifies a
proof. -/
lemma run_forgedShares {n : ℕ} (hn : n ≤ 2 ^ 32)
    (hcf : CollisionFree ((List.range n).map forgedShare)) :
    ∃ N, Machine.run (step distrustful) .init (((List.range n).map forgedShare).map announcement)
      = some N ∧ N.calls = [] ∧ N.pending.size = n := by
  have hforged : ∀ share ∈ (List.range n).map forgedShare, Forged distrustful share := by
    intro share hs
    obtain ⟨k, hk, rfl⟩ := List.mem_map.mp hs
    exact forged_forgedShare ((List.mem_range.mp hk).trans_le hn)
  have hnodup : (((List.range n).map forgedShare).map fun share =>
      doubleSha256 share.wire).Nodup := by
    refine (List.nodup_range.map fun _ _ => forgedShare_inj).map_on fun s hs t ht heq => ?_
    exact hcf s hs t ht _ (hforged s hs).encodable.shareId
      (heq ▸ (hforged t ht).encodable.shareId)
  obtain ⟨N, hrun, -, hcalls, hsize⟩ := run_announcements (N := init) rfl hforged hnodup
    fun _ _ => rfl
  refine ⟨N, hrun, hcalls, hsize.trans ?_⟩
  rw [List.length_map, List.length_range]
  exact Nat.zero_add n

/-- No verified proof bounds the pending map, nor any cap below `2 ^ 32`: as many forged first
shares as have different ids wait in it, and four that have are given. -/
theorem pending_uncapped :
    (∀ cap < 2 ^ 32, CollisionFree ((List.range (cap + 1)).map forgedShare) →
      ∃ events N, Machine.run (step distrustful) .init events = some N ∧ N.calls = []
        ∧ cap < N.pending.size)
      ∧ ∃ N, Machine.run (step distrustful) .init
          (((List.range 4).map forgedShare).map announcement) = some N
        ∧ N.calls = [] ∧ 3 < N.pending.size := by
  constructor
  · intro cap hcap hcf
    obtain ⟨N, hrun, hcalls, hsize⟩ := run_forgedShares hcap hcf
    exact ⟨_, N, hrun, hcalls, hsize ▸ Nat.lt_succ_self cap⟩
  · have hids : ((List.range 4).map fun n => doubleSha256 (forgedShare n).wire).Nodup := by
      decide +kernel
    have hcf : CollisionFree ((List.range 4).map forgedShare) := by
      intro s hs t ht sid hsid htid
      obtain ⟨n, hn, rfl⟩ := List.mem_map.mp hs
      obtain ⟨k, hk, rfl⟩ := List.mem_map.mp ht
      have hn' := (forged_forgedShare (n := n) (by have := List.mem_range.mp hn; omega)).encodable
      have hk' := (forged_forgedShare (n := k) (by have := List.mem_range.mp hk; omega)).encodable
      rw [hn'.shareId] at hsid
      rw [hk'.shareId] at htid
      rw [List.inj_on_of_nodup_map hids hn hk
        (Except.ok.inj (hsid.trans htid.symm))]
    obtain ⟨N, hrun, hcalls, hsize⟩ := run_forgedShares (by norm_num) hcf
    exact ⟨N, hrun, hcalls, hsize ▸ by norm_num⟩

end P2PNode

end P2Pearl
