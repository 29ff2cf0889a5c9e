import P2Pearl.Consensus.Readmission
import P2Pearl.P2P.Gossip

/-!
Whether a node relays a share twice.

* `Recorded`: what `_h_proof` has had accepted are ids the sharechain has accepted, in order; every
  event keeps it.
* `accepted_once_iff`: ids are accepted once in exactly the runs that revive no genesis share and
  have no collision; then a node relays every share at most once, and a network as often as it has
  nodes.
-/

namespace P2Pearl

namespace P2PNode

variable {cfg : P2PConfig} {N N' : P2PNode}

/-- What a node has been given by its calls of `add_share`. -/
def callsMade (N : P2PNode) : List Call := N.calls.map Prod.snd

/-- The ids of the shares a node has announced for others. -/
def relayedIds (N : P2PNode) : List (Except PyError Hash32) :=
  (N.announced.filterMap Announcement.relayed).map fun r => r.1.shareId

/-- The shares `_h_proof` has had accepted are among those the sharechain has accepted, each
acceptance counted once. -/
structure Recorded (cfg : P2PConfig) (N : P2PNode) : Prop where
  kept : Kept cfg N
  accepted : (N.accepted.map fun r => r.1.shareId).Sublist
    ((P2Pearl.run cfg.params N.callsMade).ids.reverse.map Except.ok)

/-- More calls accept more. -/
lemma Recorded.mono (h : Recorded cfg N) (hkept : Kept cfg N')
    (haccepted : N'.accepted = N.accepted) (hcalls : ∃ more, N'.calls = N.calls ++ more) :
    Recorded cfg N' := by
  refine ⟨hkept, ?_⟩
  obtain ⟨more, hcalls⟩ := hcalls
  rw [haccepted, callsMade, hcalls, List.map_append]
  have hsuffix := ids_suffix (P := cfg.params) N.callsMade (more.map Prod.snd)
  exact h.accepted.trans (hsuffix.sublist.reverse.map Except.ok)

lemma calls_of_admission {sid : PyStr} {share : ShareBlock} {proof : Json} {now : ℚ}
    {r : Except PyError Bool} (h : Admission cfg N sid share proof now (N', r)) :
    ∃ more, N'.calls = N.calls ++ more := by
  cases h with
  | unread e => exact ⟨[], (List.append_nil _).symm⟩
  | refused => exact ⟨_, rfl⟩
  | accepted => exact ⟨_, rfl⟩

lemma calls_of_takePairs (htip : N.chain.TipStored) (pairs : List Json) (clock : ℕ → ℚ) :
    ∃ more, (N.takePairs cfg pairs clock).calls = N.calls ++ more := by
  refine (takePairs_preserves (I := fun M => M.chain.TipStored ∧ ∃ more, M.calls = N.calls ++ more)
    (fun M pair now now' ⟨hM, more, hmore⟩ => ?_) ⟨htip, [], (List.append_nil _).symm⟩ pairs
    clock).2
  rcases takePair_cases hM pair now now' with
    ⟨goes, hkeep⟩ | ⟨wire, proof, share, sid, N', r, goes, -, -, -, -, -, hadm, htake⟩
  · rw [hkeep]; exact ⟨hM, more, hmore⟩
  · obtain ⟨new, hnew⟩ := calls_of_admission hadm
    rw [htake]
    exact ⟨hadm.frame.tipStored hM, more ++ new, by rw [hnew, hmore, List.append_assoc]⟩

/-- A proof that comes in adds at most one acceptance to both. -/
lemma Recorded.hProof (h : Recorded cfg N) (peer : ℕ) (msg : Incoming) (now : ℚ) :
    Recorded cfg (N.hProof cfg peer msg now) := by
  have hkept := h.kept.hProof peer msg now
  rcases hProof_cases h.kept.tipStored peer msg now with hsame | ⟨sid, share, -, hp, hcases⟩
  · rw [hsame]
    exact h
  · rcases hcases with hdrop | ⟨N', r, -, hadm, hend⟩
    · exact h.mono hkept (by rw [hdrop]) ⟨[], by rw [hdrop, List.append_nil]⟩
    · have hmore := calls_of_admission hadm
      cases hadm with
      | unread e =>
          rw [if_neg (by simp)] at hend
          exact h.mono hkept (by rw [hend]) (by rw [hend]; exact hmore)
      | refused text bytes r read encoded not_true not_accepted same =>
          rw [if_neg not_true] at hend
          exact h.mono hkept (by rw [hend]) (by rw [hend]; exact hmore)
      | accepted text bytes read encoded accepts =>
          rw [if_pos rfl] at hend
          refine ⟨hkept, ?_⟩
          obtain ⟨k, e, hadm⟩ := accepts.admits
          have hchain : N.chain = (P2Pearl.run cfg.params N.callsMade).chain := h.kept.chain
          have hids := ids_of_admits (hchain ▸ hadm)
          have hid : share.shareId = .ok k := hadm.id
          rw [hend]
          simp only [callsMade, List.map_append, List.map_cons, List.map_nil] at hids ⊢
          rw [hids, List.reverse_cons, List.map_append, hid]
          exact h.accepted.append_right _

lemma Recorded.init : Recorded cfg .init := ⟨Kept.init, List.Sublist.slnil⟩

/-- **Every event** keeps it. -/
lemma Recorded.step (h : Recorded cfg N) {e : Event} (hstep : N.step cfg e = some N') :
    Recorded cfg N' := by
  have hkept := h.kept.step hstep
  have hsame : ∃ more, N.calls = N.calls ++ more := ⟨[], (List.append_nil _).symm⟩
  obtain ⟨⟨N₁, out⟩, hreact, rfl⟩ := Option.map_eq_some_iff.mp hstep
  cases effect_of_react hreact with
  | idle | seen | asked => exact h.mono hkept rfl hsame
  | proved peer msg clock kind => exact h.hProof peer msg (clock 0)
  | received peer msg clock pairs =>
      exact h.mono hkept (takePairs_frame h.kept.tipStored pairs clock).accepted
        (calls_of_takePairs h.kept.tipStored pairs clock)
  | submitted call => exact h.mono hkept rfl ⟨_, rfl⟩
  | broadcast share sid proof =>
      exact h.mono hkept (accepted_announce _ _ _) (by rw [calls_announce]; exact hsame)
  | relayed i r waits =>
      exact h.mono hkept (accepted_announce _ _ _) (by rw [calls_announce]; exact hsame)

lemma recorded_of_run {events : List Event} (hrun : Machine.run (P2PNode.step cfg) .init events
    = some N) : Recorded cfg N :=
  Machine.run_preserves (fun _ _ _ hstep h => h.step hstep) Recorded.init hrun

/-- A node whose sharechain accepts ids once relays every share at most once. -/
lemma Recorded.relayedIds_nodup (h : Recorded cfg N)
    (hnodup : (P2Pearl.run cfg.params N.callsMade).ids.Nodup) : N.relayedIds.Nodup := by
  have hok : ((P2Pearl.run cfg.params N.callsMade).ids.reverse.map
      (Except.ok : Hash32 → Except PyError Hash32)).Nodup :=
    (List.nodup_reverse.mpr hnodup).map fun _ _ => Except.ok.inj
  have haccepted := hok.sublist h.accepted
  have hperm := h.kept.relayed.map fun r => r.1.shareId
  rw [List.map_append] at hperm
  exact (hperm.nodup_iff.mp haccepted).of_append_right

end P2PNode

/-- **When shares are accepted once**: exactly where no pruned genesis share is offered again and no
ids collide.  Every node then relays each share once. -/
theorem accepted_once_iff (P : Params) (calls : List Call) :
    ((run P calls).ids.Nodup ↔ NoRevival P calls)
      ∧ ∀ network : List (P2PConfig × P2PNode),
        (∀ x ∈ network, (∃ events, Machine.run (P2PNode.step x.1) .init events = some x.2)
          ∧ NoRevival x.1.params x.2.callsMade) →
        (∀ x ∈ network, x.2.relayedIds.Nodup)
        ∧ ∀ sid, (network.map fun x => x.2.relayedIds.count sid).sum ≤ network.length := by
  refine ⟨accepted_nodup_iff, fun network hnetwork => ?_⟩
  have hrelays : ∀ x ∈ network, x.2.relayedIds.Nodup := by
    intro x hx
    obtain ⟨⟨events, hrun⟩, hrevival⟩ := hnetwork x hx
    exact (P2PNode.recorded_of_run hrun).relayedIds_nodup (accepted_nodup_iff.mpr hrevival)
  refine ⟨hrelays, fun sid => ?_⟩
  have honce := List.sum_le_card_nsmul (network.map fun x => x.2.relayedIds.count sid) 1 <| by
    intro n hn
    obtain ⟨x, hx, rfl⟩ := List.mem_map.mp hn
    exact List.nodup_iff_count_le_one.mp (hrelays x hx) sid
  simpa using honce

/-- Two peers connect, and the first one announces the shares of a chain and proves them; each is
relayed to the second. -/
def relayedChain (n : ℕ) : List P2PNode.Event :=
  [.connect, .connect] ++ (List.range n).flatMap fun i =>
    [.receive 1 (Message.share (Bytes.hex (pacedChain i).wire)).incoming fun _ => 0,
      .receive 1 (Message.proof (doubleSha256 (pacedChain i).wire).hex zeroProof).incoming
        fun _ => 0,
      .relay 0]

/-- Two nodes that have relayed four shares, and pruned the first, have relayed each once. -/
theorem accepted_once_iff_relayed :
    let cfg := P2PNode.easygoing narrowParams
    ∃ N, Machine.run (P2PNode.step cfg) .init (relayedChain 4) = some N
      ∧ N.chain.entries (doubleSha256 (pacedChain 0).wire) = none
      ∧ N.relayedIds.length = 4
      ∧ ((run narrowParams N.callsMade).ids.Nodup ↔ NoRevival narrowParams N.callsMade)
      ∧ N.relayedIds.Nodup
      ∧ ∀ sid, ([(cfg, N), (cfg, N)].map fun x => x.2.relayedIds.count sid).sum ≤ 2 := by
  intro cfg
  have hcomputed : ∃ N ∈ Machine.run (P2PNode.step cfg) .init (relayedChain 4),
      N.chain.entries (doubleSha256 (pacedChain 0).wire) = none
        ∧ N.relayedIds.length = 4 ∧ (run narrowParams N.callsMade).ids.Nodup := by decide +kernel
  obtain ⟨N, hrun, hpruned, hlength, honce⟩ := hcomputed
  obtain ⟨hiff, hnetwork⟩ := accepted_once_iff narrowParams N.callsMade
  obtain ⟨hrelayed, hcount⟩ := hnetwork [(cfg, N), (cfg, N)] fun x hx => by
    obtain rfl : x = (cfg, N) := by simpa using hx
    exact ⟨⟨relayedChain 4, hrun⟩, hiff.mp honce⟩
  exact ⟨N, hrun, hpruned, hlength, hiff, hrelayed _ List.mem_cons_self, hcount⟩

/-- A first share is pruned by its three successors, and is accepted once more. -/
theorem accepted_once_replayed : ¬∀ (P : Params) (calls : List Call),
    CollisionFree (calls.map Call.share) → (run P calls).ids.Nodup := by
  intro h
  let calls := [0, 1, 2, 3, 0].map fun n => verifiedCall (pacedChain n)
  have hrun : CollisionFree (calls.map Call.share) ∧ ¬(run narrowParams calls).ids.Nodup := by
    decide +kernel
  exact hrun.2 (h narrowParams calls hrun.1)

end P2Pearl
