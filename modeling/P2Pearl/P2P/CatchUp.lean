import P2Pearl.P2P.Sync

/-!
Whether a node that fell behind or forked catches up.

* `Reaches`: the node has the best tip of its peer, or stores a share of the answer or what it
  links to.
* `Progress`: the shares so far link to nothing the node stores, or the last of them is stored;
  `Progress.step` is the next share.
* `caught_up_iff`: the node ends up with the best tip of its peer exactly when the answer reaches.
* `left_behind`: three shares behind, it does not.
-/

namespace P2Pearl

namespace P2PNode

variable {cfg cfgS : P2PConfig} {C S N : P2PNode} {fromHeight : ℤ} {clock : ℕ → ℕ → ℚ}
  {peer : ℕ} {msg : Message}

/-- The node has the best tip of its peer already, or it stores a share of the window, or the
predecessor of one. -/
def Reaches (C S : P2PNode) (fromHeight : ℤ) (k : Hash32) : Prop :=
  C.Has k ∨ ∃ p ∈ S.window fromHeight, C.Has p.1 ∨ ¬C.Orphan p.2

/-! ### The parcels of a window whose proofs are all cached -/

lemma map_parcels {W : List (Hash32 × ShareBlock)}
    (hcached : ∀ p ∈ W, S.proofs.get p.1.hex ≠ none) :
    (W.filterMap S.parcel).map (fun a => (a.id, a.share)) = W := by
  induction W with
  | nil => rfl
  | cons p W ih =>
      obtain ⟨text, htext⟩ := Option.ne_none_iff_exists'.mp (hcached p List.mem_cons_self)
      have hparcel : S.parcel p = some ⟨p.1, p.2, text⟩ := by rw [parcel, htext]; rfl
      rw [List.filterMap_cons_some hparcel, List.map_cons,
        ih fun q hq => hcached q (List.mem_cons_of_mem _ hq)]

/-- Each of them links to the one before. -/
lemma isChain_parcels (hcached : ∀ p ∈ S.window fromHeight, S.proofs.get p.1.hex ≠ none) :
    (S.parcels fromHeight).IsChain fun a b => b.share.up = some a.id := by
  have hchain := isChain_window S fromHeight
  rw [← map_parcels hcached, List.isChain_map] at hchain
  exact hchain

/-! ### Progress -/

/-- Where a node stands that has taken some shares of a window. -/
inductive Progress (C : P2PNode) : List Parcel → P2PNode → Prop
  /-- No share links to anything it stores. -/
  | waiting (done : List Parcel) (unlinked : ∀ a ∈ done, ¬C.Has a.id ∧ C.Orphan a.share) :
      Progress C done C
  /-- One did, and from there on it has stored them all. -/
  | linked (older : List Parcel) (a : Parcel) (N : P2PNode) (has : N.Has a.id)
      (reached : ∃ b ∈ older ++ [a], C.Has b.id ∨ ¬C.Orphan b.share) :
      Progress C (older ++ [a]) N

section Window

variable (hpair : Pairing cfg cfgS C S)
  (hcached : ∀ p ∈ S.window fromHeight, S.proofs.get p.1.hex ≠ none)
  (huncles : ∀ p ∈ S.window fromHeight, p.2.uncleIds = [])
  (htarget : ∀ p ∈ S.window fromHeight, OnTarget cfg.params (S.history cfg) p.2)

include hpair huncles htarget in
/-- A share that is stored, or links to a stored one, is stored afterwards. -/
lemma Receiving.reach {done : List Parcel} (h : Receiving cfg C done N) {a : Parcel}
    (hpre : done ++ [a] <+: S.parcels fromHeight) {now now' : ℚ}
    (hclock : (a.share.timestamp : ℚ) ≤ now + maxTimestampDriftSeconds)
    (hclock' : (a.share.timestamp : ℚ) ≤ now' + maxTimestampDriftSeconds)
    (hreach : N.Has a.id ∨ ¬N.Orphan a.share) :
    ∃ N', N.takePair cfg a.json now now' = (N', true) ∧ Receiving cfg C (done ++ [a]) N'
      ∧ N'.Has a.id := by
  have hdone : done ⊆ S.parcels fromHeight := fun b hb => hpre.subset (List.mem_append_left _ hb)
  obtain ⟨hsound, hwindow⟩ := hpair.sound_of_next hpre
  by_cases hhas : N.Has a.id
  · exact ⟨N, takePair_of_known hsound (Or.inl hhas), h.skip a, hhas⟩
  · have hvalid : ∀ {now : ℚ}, (a.share.timestamp : ℚ) ≤ now + maxTimestampDriftSeconds →
        Valid cfg.params N.chain.entries.get a.share now a.id := fun hnow =>
      h.valid hpair hdone (hpair.record_of_window hwindow) (huncles _ hwindow) (htarget _ hwindow)
        hnow hhas (hreach.resolve_left hhas)
    exact h.add hsound (hvalid hclock) (hvalid hclock')

include hpair hcached huncles htarget

/-- **The next share** of a window. -/
lemma Progress.step {done : List Parcel} (h : Progress C done N) (hN : Receiving cfg C done N)
    {a : Parcel} (hpre : done ++ [a] <+: S.parcels fromHeight) {now now' : ℚ}
    (hclock : (a.share.timestamp : ℚ) ≤ now + maxTimestampDriftSeconds)
    (hclock' : (a.share.timestamp : ℚ) ≤ now' + maxTimestampDriftSeconds) :
    ∃ N', N.takePair cfg a.json now now' = (N', true) ∧ Receiving cfg C (done ++ [a]) N'
      ∧ Progress C (done ++ [a]) N' := by
  by_cases hreach : N.Has a.id ∨ ¬N.Orphan a.share
  · obtain ⟨N', htake, hN', hhas⟩ := hN.reach hpair huncles htarget hpre hclock hclock' hreach
    refine ⟨N', htake, hN', .linked done a N' hhas ?_⟩
    cases h with
    | waiting done unlinked => exact ⟨a, by simp, hreach⟩
    | linked older b N has reached =>
        obtain ⟨c, hc, hreached⟩ := reached
        exact ⟨c, List.mem_append_left _ hc, hreached⟩
  · rw [not_or, not_not] at hreach
    have hsound := (hpair.sound_of_next hpre).1
    refine ⟨N, takePair_of_known hsound (Or.inr hreach.2), hN.skip a, ?_⟩
    cases h with
    | waiting done unlinked =>
        refine .waiting _ fun b hb => ?_
        rcases List.mem_append.mp hb with hb | hb
        · exact unlinked b hb
        · rw [List.mem_singleton.mp hb]
          exact hreach
    | linked older b N has reached =>
        -- the share links to the last one, which is stored
        obtain ⟨rest, hrest⟩ := hpre
        have hchain := hrest ▸ isChain_parcels hcached
        rw [List.append_assoc, List.append_assoc] at hchain
        obtain ⟨-, hprev⟩ :=
          ShareBlock.up_eq_some_iff.mp (List.isChain_append_cons_cons.mp hchain).2.1
        exact absurd has (hprev ▸ hreach.2.2)

/-- The messages of the window, in order. -/
lemma progress_sync (hasks : (C.handle cfg peer msg.incoming (clock 0)).2 = [.getshares fromHeight])
    (hclock : ∀ p ∈ S.window fromHeight, ∀ i j,
      (p.2.timestamp : ℚ) ≤ clock (i + 1) j + maxTimestampDriftSeconds) :
    Receiving cfg C (S.parcels fromHeight) (C.sync cfg cfgS peer S msg clock)
      ∧ Progress C (S.parcels fromHeight) (C.sync cfg cfgS peer S msg clock) := by
  refine sync_induction (I := fun done N => Receiving cfg C done N ∧ Progress C done N) hpair hasks
    hclock ⟨.start hpair.client, .waiting [] (by simp)⟩ ?_
  intro done a N now now' hpre hnow hnow' h
  exact h.2.step hpair hcached huncles htarget h.1 hpre hnow hnow'

end Window

/-! ### Catching up -/

/-- The best tip of the peer, once it is stored, bounds the work of the node's best tip. -/
lemma Receiving.bestWork_le (h : Receiving cfg C (S.parcels fromHeight) N)
    (hpair : Pairing cfg cfgS C S) {k : Hash32} (hbest : S.chain.bestTip = some k)
    (hhas : N.Has k) : S.chain.bestWork ≤ N.chain.bestWork := by
  obtain ⟨e, he⟩ := hpair.server.tipStored k hbest
  obtain ⟨e', he'⟩ := Option.ne_none_iff_exists'.mp hhas
  have hrecord' := h.kept.record_of_entry he'
  rw [bestWork_of_tip hbest he, ← h.cumulative_eq hpair (List.Subset.refl _)
    (hpair.record_of_entry he) hrecord', h.kept.chain]
  exact le_bestWork (mem_of_recordOf hrecord')

/-- At the end of the window, the node has the best tip of the peer exactly when the window
reaches. -/
lemma Progress.has_iff (h : Progress C (S.parcels fromHeight) N)
    (hcached : ∀ p ∈ S.window fromHeight, S.proofs.get p.1.hex ≠ none) {k : Hash32}
    (hbest : S.chain.bestTip = some k) : N.Has k ↔ Reaches C S fromHeight k := by
  have hmap : (S.parcels fromHeight).map (fun a => (a.id, a.share)) = S.window fromHeight :=
    map_parcels hcached
  generalize S.parcels fromHeight = all at h hmap
  cases h with
  | waiting done unlinked =>
      refine ⟨Or.inl, fun h => h.resolve_right ?_⟩
      rintro ⟨p, hp, hreach⟩
      rw [← hmap] at hp
      obtain ⟨a, ha, rfl⟩ := List.mem_map.mp hp
      obtain ⟨hnew, horphan⟩ := unlinked a ha
      exact hreach.elim hnew fun hno => hno horphan
  | linked older a N has reached =>
      have hne : S.window fromHeight ≠ [] := by rw [← hmap]; simp
      obtain ⟨older', s, hwindow⟩ := window_eq_append hne hbest
      have hlast := hmap
      rw [List.map_append, List.map_singleton, hwindow] at hlast
      obtain ⟨hid, -⟩ := Prod.mk.inj (List.cons.inj (List.append_inj' hlast rfl).2).1
      refine iff_of_true (hid ▸ has) (Or.inr ?_)
      obtain ⟨b, hb, hreach⟩ := reached
      refine ⟨(b.id, b.share), ?_, hreach⟩
      rw [← hmap]
      exact List.mem_map_of_mem hb

/-- After a hello, the window starts above the node's own best tip. -/
lemma fromHeight_of_hello {height : ℤ} {clock : ℕ → ℚ}
    (hasks : (C.handle cfg peer (Message.hello height).incoming clock).2
      = [.getshares fromHeight]) : fromHeight = C.chain.height + 1 := by
  simp only [handle, Message.incoming, hHello, Option.getD_some, pyInt] at hasks
  split_ifs at hasks
  exact (Message.getshares.inj (List.cons.inj hasks).1).symm

/-- After the announcement of an orphan, it starts one below the share. -/
lemma fromHeight_of_share {wire : PyStr} {share : ShareBlock} {clock : ℕ → ℚ}
    (hread : readShare (.str wire) = some share)
    (hasks : (C.handle cfg peer (Message.share wire).incoming clock).2
      = [.getshares fromHeight]) : fromHeight = max 0 ((share.sidechainHeight : ℤ) - 1) := by
  simp only [handle, Message.incoming, hShare, Option.bind_some, hread] at hasks
  split at hasks
  · cases hasks
  · split_ifs at hasks
    · exact (Message.getshares.inj (List.cons.inj hasks).1).symm
    · split at hasks
      · exact absurd (List.cons.inj hasks).1 (by simp)
      · cases hasks

/-- **When a node catches up.**  Of two reachable nodes, let the second have cached the proofs of
the shares of the window the first asks it for, and let these have no uncles, carry the limits
their positions demand, and not lie in the future.  Then the first ends up with the best tip of the
second if and only if it stores a share of the window or what one links to; and if it does, its
best tip has at least as much work.  After a hello the window starts above the node's own best tip,
after the announcement of an orphan one below the share. -/
theorem caught_up_iff (cfg cfgS : P2PConfig) (events eventsS : List Event) (C S : P2PNode)
    (k : Hash32) (peer : ℕ) (msg : Message) (clock : ℕ → ℕ → ℚ) (fromHeight : ℤ)
    (hparams : cfgS.params = cfg.params)
    (hC : Machine.run (step cfg) .init events = some C)
    (hS : Machine.run (step cfgS) .init eventsS = some S)
    (hpool : CollisionFree (pool C S)) (hhonest : HonestCache cfg S)
    (hbest : S.chain.bestTip = some k)
    (hasks : (C.handle cfg peer msg.incoming (clock 0)).2 = [.getshares fromHeight])
    (hcached : ∀ p ∈ S.window fromHeight, S.proofs.get p.1.hex ≠ none)
    (huncles : ∀ p ∈ S.window fromHeight, p.2.uncleIds = [])
    (htarget : ∀ p ∈ S.window fromHeight, OnTarget cfg.params (S.history cfg) p.2)
    (hclock : ∀ p ∈ S.window fromHeight, ∀ i j,
      (p.2.timestamp : ℚ) ≤ clock (i + 1) j + maxTimestampDriftSeconds) :
    ((C.sync cfg cfgS peer S msg clock).Has k ↔ Reaches C S fromHeight k)
      ∧ ((C.sync cfg cfgS peer S msg clock).Has k →
        S.chain.bestWork ≤ (C.sync cfg cfgS peer S msg clock).chain.bestWork)
      ∧ (∀ height, msg = .hello height → fromHeight = C.chain.height + 1)
      ∧ ∀ wire share, msg = .share wire → readShare (.str wire) = some share →
        fromHeight = max 0 ((share.sidechainHeight : ℤ) - 1) := by
  have hpair : Pairing cfg cfgS C S :=
    ⟨hparams, kept_of_run hC, kept_of_run hS, hhonest, hpool⟩
  obtain ⟨hreceiving, hprogress⟩ := progress_sync hpair hcached huncles htarget hasks hclock
  refine ⟨hprogress.has_iff hcached hbest, hreceiving.bestWork_le hpair hbest,
    fun height hmsg => ?_, fun wire share hmsg hread => ?_⟩
  · subst hmsg
    exact fromHeight_of_hello hasks
  · subst hmsg
    exact fromHeight_of_share hread hasks

/-! ### Nodes that keep the pace -/

lemma PacedRun.honest {P : Params} {n : ℕ} (h : PacedRun P n) :
    HonestCache (easygoing P) (pacedNode P n) := by
  intro share sid text _ htext
  have hplain : text = zeroProof := h.2 _ (OrderedMap.get_eq_some_iff.mp htext)
  exact ⟨rfl, _, by rw [hplain]; rfl⟩

/-- What it serves from a height on has proofs, no uncles and the limits it needs, and is not in the
future. -/
def PacedWindow (P : Params) (n : ℕ) (fromHeight : ℤ) : Prop :=
  ∀ p ∈ (pacedNode P n).window fromHeight, (pacedNode P n).proofs.get p.1.hex ≠ none
    ∧ p.2.uncleIds = [] ∧ OnTarget P ((pacedNode P n).history (easygoing P)) p.2
    ∧ (p.2.timestamp : ℚ) ≤ 0 + maxTimestampDriftSeconds

instance (P : Params) (n : ℕ) (fromHeight : ℤ) : Decidable (PacedWindow P n fromHeight) :=
  inferInstanceAs (Decidable (∀ p ∈ (pacedNode P n).window fromHeight, _))

/-- A node with the first share is told of the third, whose predecessor it lacks: it asks for the
window from the second share on, and catches up. -/
theorem caught_up_iff_behind :
    let cfg := easygoing shortParams
    let C := pacedNode shortParams 1
    let S := pacedNode shortParams 3
    let k := doubleSha256 (pacedChain 2).wire
    let N := C.sync cfg cfg 1 S (.share (Bytes.hex (pacedChain 2).wire)) fun _ _ => 0
    C.Orphan (pacedChain 2) ∧ S.chain.bestTip = some k ∧ N.Has k
      ∧ S.chain.bestWork ≤ N.chain.bestWork := by
  intro cfg C S k N
  have hcomputed : (PacedRun shortParams 1 ∧ PacedRun shortParams 3)
      ∧ CollisionFree (pool C S)
      ∧ (C.Orphan (pacedChain 2) ∧ S.chain.bestTip = some k)
      ∧ (C.handle cfg 1 (Message.share (Bytes.hex (pacedChain 2).wire)).incoming fun _ => 0).2
        = [.getshares 1]
      ∧ PacedWindow shortParams 3 1
      ∧ ∃ p ∈ S.window 1, C.Has p.1 ∨ ¬C.Orphan p.2 := by decide +kernel
  obtain ⟨⟨hclient, hserver⟩, hcf, ⟨horphan, hbest⟩, hasks, hwindow, hreaches⟩ := hcomputed
  obtain ⟨hhas, hwork, -, -⟩ := caught_up_iff cfg cfg _ _ C S k 1
    (.share (Bytes.hex (pacedChain 2).wire)) (fun _ _ => 0) 1 rfl hclient.run hserver.run
    hcf hserver.honest hbest hasks (fun p hp => (hwindow p hp).1)
    (fun p hp => (hwindow p hp).2.1) (fun p hp => (hwindow p hp).2.2.1)
    fun p hp _ _ => (hwindow p hp).2.2.2
  have hin : N.Has k := hhas.mpr (Or.inr hreaches)
  exact ⟨horphan, hbest, hin, hwork hin⟩

/-- A node with the first share is told of the fourth: it asks for the third and the fourth, and
never gets the second. -/
theorem left_behind : ¬∀ (cfg cfgS : P2PConfig) (events eventsS : List Event) (C S : P2PNode)
    (k : Hash32) (tip : ShareBlock) (wire : PyStr) (peer : ℕ) (clock : ℕ → ℕ → ℚ),
    cfgS.params = cfg.params → Machine.run (step cfg) .init events = some C →
    Machine.run (step cfgS) .init eventsS = some S → HonestCache cfg S →
    (∀ p ∈ S.window 0, S.proofs.get p.1.hex ≠ none ∧ p.2.uncleIds = []) →
    (∃ p ∈ S.window 0, C.chain.entries.get p.1 = some p.2) →
    S.chain.bestTip = some k → S.chain.tip = some tip → tip.hex = .ok wire → C.Orphan tip →
    (C.sync cfg cfgS peer S (.share wire) clock).Has k := by
  intro h
  let k := doubleSha256 (pacedChain 3).wire
  let wire := Bytes.hex (pacedChain 3).wire
  let cfg := easygoing shortParams
  let C := pacedNode shortParams 1
  let S := pacedNode shortParams 4
  -- one evaluation, so that the fourth node is computed once
  have hcomputed : (PacedRun shortParams 1 ∧ PacedRun shortParams 4)
      ∧ (∀ p ∈ S.window 0, S.proofs.get p.1.hex ≠ none ∧ p.2.uncleIds = [])
      ∧ (∃ p ∈ S.window 0, C.chain.entries.get p.1 = some p.2)
      ∧ (S.chain.bestTip = some k ∧ S.chain.tip = some (pacedChain 3))
      ∧ ((pacedChain 3).hex = .ok wire ∧ C.Orphan (pacedChain 3))
      ∧ ¬(C.sync cfg cfg 1 S (.share wire) fun _ _ => 0).Has k := by decide +kernel
  obtain ⟨⟨hclient, hserver⟩, hwindow, hcommon, ⟨hbest, htip⟩, ⟨hhex, horphan⟩, hbehind⟩ :=
    hcomputed
  exact hbehind (h cfg cfg _ _ C S k (pacedChain 3) wire 1 (fun _ _ => 0) rfl hclient.run
    hserver.run hserver.honest hwindow hcommon hbest htip hhex horphan)

end P2PNode

end P2Pearl
