import P2Pearl.P2P.CatchUp

/-!
Whether a joining node can sync.

* `Syncable`: the window of a server reaches back to a genesis share, with its proofs cached, no
  uncles, and the limits its positions demand.
* `Joined`: the joining node has the best tip of the server, with its work and its weights.
* `mem_window_of_record`: what the joining node has on record is part of the window.
* `joined_iff`: a new node that is sent the window of a server joins it exactly when there is
  nothing to join or the server is syncable.
* `cannot_join`: a server that has pruned its first share cannot be joined.
-/

namespace P2Pearl

namespace P2PNode

variable {cfg cfgS : P2PConfig} {S J : P2PNode} {clock : ℕ → ℕ → ℚ} {peer : ℕ} {k : Hash32}

/-- What a joining node needs of a server. -/
structure Syncable (cfg : P2PConfig) (S : P2PNode) : Prop where
  founded : ∃ p ∈ S.window 0, p.2.prevShareId = genesisPrev
  cached : ∀ p ∈ S.window 0, S.proofs.get p.1.hex ≠ none
  uncles : ∀ p ∈ S.window 0, p.2.uncleIds = []
  target : ∀ p ∈ S.window 0, OnTarget cfg.params (S.history cfg) p.2

/-- The two nodes agree on the best tip, its work, and the weights of its window. -/
structure Joined (P : Params) (J S : P2PNode) : Prop where
  tip : J.chain.bestTip = S.chain.bestTip
  work : J.chain.bestWork = S.chain.bestWork
  weights : J.chain.pplnsWeights P none = S.chain.pplnsWeights P none

/-! ### The request -/

/-- There is nothing to join. -/
lemma sync_of_no_tip (hnone : S.chain.bestTip = none) :
    P2PNode.init.sync cfg cfgS peer S (.hello S.chain.height) clock = .init := by
  have hheight : S.chain.height = -1 := by rw [Sharechain.height, Sharechain.tip, hnone]; rfl
  rw [hheight]
  rfl

lemma joined_of_no_tip (P : Params) (hnone : S.chain.bestTip = none) : Joined P .init S := by
  have hweights : ∀ T : Shares, windowWeights P T none
      = sortByWeight (Tally.empty : Tally PyStr ℤ).items := by
    intro T
    rw [windowWeights]
    cases P.window <;> rfl
  refine ⟨hnone.symm, ?_, ?_⟩
  · rw [Sharechain.bestWork, Sharechain.bestWork, hnone]
    rfl
  · rw [Sharechain.pplnsWeights, Sharechain.pplnsWeights, hnone]
    exact (hweights _).trans (hweights _).symm

/-- A new node asks a server with a best tip for all of its window. -/
lemma asks_of_tip (htip : S.chain.TipStored) (hbest : S.chain.bestTip = some k)
    (clock : ℕ → ℚ) : (P2PNode.init.handle cfg peer (Message.hello S.chain.height).incoming clock).2
      = [.getshares 0] := by
  obtain ⟨e, he⟩ := htip k hbest
  have hheight : S.chain.height = e.share.sidechainHeight := by
    rw [Sharechain.height, Sharechain.tip, hbest, Option.bind_some, Store.get_of_some he]
  have hlt : P2PNode.init.chain.height < S.chain.height := by
    rw [hheight]
    exact lt_of_lt_of_le (by decide) (Int.natCast_nonneg _)
  simp only [handle, Message.incoming, hHello, Option.getD_some, pyInt, if_pos hlt]
  rfl

/-! ### The joining node -/

/-- The window lies in the ancestry of the best tip. -/
lemma Pairing.mem_ancestry_of_window {C : P2PNode} (hpair : Pairing cfg cfgS C S)
    (hbest : S.chain.bestTip = some k) {s : ShareBlock} (hs : S.chain.entries.get k = some s)
    {p : Hash32 × ShareBlock} (hp : p ∈ S.window 0) :
    p ∈ ancestry (S.history cfg).record.get k s := by
  have htrail := (mem_window hp).1
  rw [hbest, Option.bind_some] at htrail
  by_cases hg : k = genesisPrev
  · rw [hg, link_genesisPrev, trail_none] at htrail
    exact absurd htrail List.not_mem_nil
  · rw [link_of_ne hg] at htrail
    have hsub : SubMap S.chain.entries.get (S.history cfg).record.get := fun j x hx =>
      hpair.record_of_get hx
    exact hpair.ledger.lawful.mem_ancestry_of_mem_trail (hsub k s hs)
      ((trail_prefix_of_subMap hsub _ _).subset htrail)

section Joining

variable (hpair : Pairing cfg cfgS .init S) (hJ : Receiving cfg .init (S.parcels 0) J)

include hpair hJ

/-- What the joining node was given is part of the window, and its proof is cached. -/
lemma mem_window_of_given {j : Hash32} {x : ShareBlock} (hid : x.shareId = .ok j)
    (hgiven : x ∈ J.given) : (j, x) ∈ S.window 0 ∧ S.proofs.get j.hex ≠ none := by
  obtain ⟨taken, hsub, heq⟩ := hJ.taken
  rw [heq] at hgiven
  obtain ⟨a, ha, rfl⟩ :=
    List.mem_map.mp ((List.mem_append.mp hgiven).resolve_left List.not_mem_nil)
  obtain ⟨hsound, hwindow⟩ := hpair.sound_of_parcel (hsub.subset ha)
  obtain rfl : a.id = j := Except.ok.inj (hsound.id.symm.trans hid)
  exact ⟨hwindow, by rw [proof_of_parcel (hsub.subset ha)]; exact Option.some_ne_none _⟩

/-- So is what it has on record. -/
lemma mem_window_of_record {j : Hash32} {x : ShareBlock}
    (hx : (J.history cfg).record.get j = some x) :
    (j, x) ∈ S.window 0 ∧ S.proofs.get j.hex ≠ none :=
  mem_window_of_given hpair hJ (mem_record hx).1 (mem_record hx).2

lemma subMap_server : SubMap (J.history cfg).record.get S.chain.entries.get :=
  fun _ _ hx => stored_of_mem_window (mem_window_of_record hpair hJ hx).1

/-- Its best tip is the server's, once that is stored: every other share of the window has less
work. -/
lemma bestTip_of_has (hbest : S.chain.bestTip = some k) (hhas : J.Has k) :
    J.chain.bestTip = some k := by
  have hchain : J.chain = (J.history cfg).chain := hJ.kept.chain
  obtain ⟨e, he⟩ := hpair.server.tipStored k hbest
  obtain ⟨e', he'⟩ := Option.ne_none_iff_exists'.mp hhas
  have hrecord := hJ.kept.record_of_entry he'
  rcases run_firstMax cfg.params (J.calls.map Prod.snd) with ⟨-, hnil⟩ | ⟨b, x, hb, hx, hmax⟩
  · have hmem := mem_of_recordOf hrecord
    rw [history, hnil] at hmem
    exact absurd hmem List.not_mem_nil
  · rw [hchain]
    refine hb.trans (congrArg some ?_)
    by_contra hne
    have hrecordb : (J.history cfg).record b = some x := subMap_record _ b x hx
    have hwindow := (mem_window_of_record hpair hJ (Store.get_of_some hrecordb)).1
    obtain ⟨y, hy, -⟩ := Store.get_eq_some_iff.mp (hpair.record_of_window hwindow)
    have hlt := hpair.ledger.work_lt_of_mem_ancestry (hpair.record_of_entry he)
      (hpair.mem_ancestry_of_window hbest (Store.get_of_some he) hwindow) hne hy
    have hle : e'.cumulativeDifficulty ≤ x.cumulativeDifficulty :=
      hmax.le (y := (k, e')) (mem_of_recordOf hrecord)
    have hsamek := hJ.cumulative_eq hpair (List.Subset.refl _) (hpair.record_of_entry he) hrecord
    have hsameb := hJ.cumulative_eq hpair (List.Subset.refl _) hy hrecordb
    omega

/-- The joining node has never seen a best tip above the server's. -/
lemma peak_le_tip (hbest : S.chain.bestTip = some k) {s : ShareBlock}
    (hs : S.chain.entries.get k = some s) : (J.history cfg).peak ≤ s.sidechainHeight := by
  refine peak_le _ fun j x hx => ?_
  obtain ⟨hid, hgiven⟩ := mem_accepted _ hx
  exact hpair.ledger.lawful.height_le_of_mem_ancestry (hpair.record_of_get hs)
    (hpair.mem_ancestry_of_window hbest hs (mem_window_of_given hpair hJ hid hgiven).1)

/-- And its weights are the server's. -/
lemma weights_of_tip (hbest : S.chain.bestTip = some k) (htip : J.chain.bestTip = some k)
    (huncles : ∀ p ∈ S.window 0, p.2.uncleIds = []) :
    J.chain.pplnsWeights cfg.params none = S.chain.pplnsWeights cfg.params none := by
  have hchain : J.chain = (J.history cfg).chain := hJ.kept.chain
  have hsub : SubMap J.chain.entries.get S.chain.entries.get := fun j x hx =>
    subMap_server hpair hJ j x (hJ.kept.record_of_get hx)
  obtain ⟨e, he⟩ := hJ.kept.tipStored k htip
  have hpeak := peak_le_tip hpair hJ hbest (hsub k _ (Store.get_of_some he))
  have hunbroken : Unbroken J.chain.entries.get ShareBlock.up cfg.params.window (some k) := by
    rw [hchain] at he ⊢
    exact window_unbroken (run_retained _ _) he (Nat.le_add_right_of_le
      (Nat.le_add_right_of_le hpeak)) le_rfl
  rw [Sharechain.pplnsWeights, Sharechain.pplnsWeights, htip, hbest]
  refine (windowWeights_congr (hunbroken.agreeAlong hsub) fun uid huid => ?_).symm
  obtain ⟨p, hp, hu⟩ := mem_uncleRefs.mp huid
  have hrecord := hJ.kept.record_of_get (stored_of_mem_trail hp)
  rw [huncles _ (mem_window_of_record hpair hJ hrecord).1] at hu
  exact absurd hu List.not_mem_nil

/-- A joining node that has stored the best tip of the server has joined it. -/
lemma joined_of_has (hbest : S.chain.bestTip = some k) (hhas : J.Has k)
    (huncles : ∀ p ∈ S.window 0, p.2.uncleIds = []) : Joined cfg.params J S := by
  have htip := bestTip_of_has hpair hJ hbest hhas
  obtain ⟨e, he⟩ := hpair.server.tipStored k hbest
  obtain ⟨e', he'⟩ := Option.ne_none_iff_exists'.mp hhas
  refine ⟨htip.trans hbest.symm, ?_, weights_of_tip hpair hJ hbest htip huncles⟩
  rw [bestWork_of_tip htip he', bestWork_of_tip hbest he]
  exact hJ.cumulative_eq hpair (List.Subset.refl _) (hpair.record_of_entry he)
    (hJ.kept.record_of_entry he')

/-! ### What a join takes -/

/-- Where the joining node has the best tip, it has the whole window on record. -/
lemma record_of_joined (hbest : S.chain.bestTip = some k) (htip : J.chain.bestTip = some k)
    {p : Hash32 × ShareBlock} (hp : p ∈ S.window 0) :
    (J.history cfg).record.get p.1 = some p.2 := by
  have hledgerJ := hJ.ledger hpair (List.Subset.refl _)
  have hagree : Agree (S.history cfg).record.get (J.history cfg).record.get :=
    agree_of_pool hpair.collisionFree (List.subset_append_right [] S.given)
      (hJ.given_subset hpair (List.Subset.refl _))
  obtain ⟨e, he⟩ := hJ.kept.tipStored k htip
  have hrecord := hJ.kept.record_of_get (Store.get_of_some he)
  have hstored := subMap_server hpair hJ k _ hrecord
  have hserver := hpair.record_of_get hstored
  have hmem := hpair.mem_ancestry_of_window hbest hstored hp
  rw [← hpair.ledger.lawful.ancestry_agree hledgerJ.lawful hagree hserver hrecord] at hmem
  exact stored_of_mem_trail hmem

/-- The joining node is given higher and higher shares. -/
lemma given_ascending : J.given.Pairwise fun s t => s.sidechainHeight < t.sidechainHeight := by
  obtain ⟨taken, hsub, heq⟩ := hJ.taken
  have hmap : J.given = taken.map Parcel.share := heq
  rw [hmap]
  exact List.pairwise_map.mpr (hpair.parcels_ascending.sublist hsub)

/-- A share of the window that the joining node admitted carries the limit its position demands:
its look-back is not cut. -/
lemma onTarget_of_joined (hret : cfg.params.retargetWindow ≤ cfg.params.retention + 1)
    {p : Hash32 × ShareBlock} (hrecord : (J.history cfg).record.get p.1 = some p.2) :
    OnTarget cfg.params (S.history cfg) p.2 := by
  obtain ⟨e, he, heq⟩ := Store.get_eq_some_iff.mp hrecord
  obtain ⟨past, call, hpre, hadm⟩ := admits_of_accepted _ (mem_of_recordOf he)
  have hshare : call.share = p.2 := hadm.share.symm.trans heq
  have hpast : (past ++ [call]).map Call.share <+: J.given := hpre.map Call.share
  rw [List.map_append, List.map_singleton, hshare] at hpast
  have hlinked := hadm.valid.linked
  rw [hshare] at hlinked
  rcases hlinked with hf | ⟨parent, hx⟩
  · rw [OnTarget, demandedTarget, expectedTarget, if_pos hf.prev, hf.target]
  · cases hderived : expectedTarget cfg.params (P2Pearl.run cfg.params past).chain.entries.get
        p.2.prevShareId (some p.2.timestamp) with
    | some t =>
        rw [OnTarget, hx.target t hderived]
        refine expectedTarget_mono (fun j x hjx => ?_) hderived
        obtain ⟨hid, hgiven⟩ := mem_record (Store.subMap_get (subMap_record past) j x hjx)
        exact hpair.record_of_window (mem_window_of_given hpair hJ hid
          (hpast.subset (List.mem_append_left _ hgiven))).1
    | none =>
        obtain ⟨pe, hpe, rfl⟩ := Store.get_eq_some_iff.mp hx.stored
        have hbelow := cut_below (run_retained cfg.params past) hpe hderived
        -- the joining node was given lower shares before
        have hpeak : (P2Pearl.run cfg.params past).peak ≤ pe.share.sidechainHeight := by
          refine peak_le past fun j x hjx => Nat.lt_succ_iff.mp ?_
          have hpair' := (given_ascending hpair hJ).sublist hpast.sublist
          rw [Nat.succ_eq_add_one, ← hx.height]
          exact (List.pairwise_append.mp hpair').2.2 _ (mem_accepted past hjx).2 _
            (List.mem_singleton_self _)
        omega

/-- What the joining node has joined is syncable. -/
lemma syncable_of_joined (hret : cfg.params.retargetWindow ≤ cfg.params.retention + 1)
    (hbest : S.chain.bestTip = some k) (htip : J.chain.bestTip = some k) : Syncable cfg S := by
  have hledgerJ := hJ.ledger hpair (List.Subset.refl _)
  have hrecord := fun p hp => record_of_joined hpair hJ hbest htip (p := p) hp
  refine ⟨?_, fun p hp => (mem_window_of_record hpair hJ (hrecord p hp)).2, fun p hp => ?_,
    fun p hp => onTarget_of_joined hpair hJ hret (hrecord p hp)⟩
  · obtain ⟨e, he⟩ := hJ.kept.tipStored k htip
    obtain ⟨g, hg, hfirst⟩ := hledgerJ.lawful.ancestry_founded
      (hJ.kept.record_of_get (Store.get_of_some he))
    exact ⟨g, (mem_window_of_record hpair hJ (stored_of_mem_trail hg)).1, hfirst⟩
  · -- an uncle would be a main-chain share of the window too, and counted twice
    refine List.eq_nil_iff_forall_not_mem.mpr fun uid huid => ?_
    obtain ⟨u, hu, -⟩ := hledgerJ.lawful.uncle p.1 p.2 (hrecord p hp) uid huid
    obtain ⟨e, he⟩ := hpair.server.tipStored k hbest
    have hs := Store.get_of_some he
    have hmem := hpair.mem_ancestry_of_window hbest hs (mem_window_of_record hpair hJ hu).1
    have hmemp := hpair.mem_ancestry_of_window hbest hs hp
    have hnodup := hpair.ledger.nodup k e.share (hpair.record_of_get hs)
    rw [← (participants_perm _).nodup_iff, List.nodup_append] at hnodup
    exact hnodup.2.2 uid (List.mem_map_of_mem hmem) uid (mem_uncleRefs.mpr ⟨p, hmemp, huid⟩) rfl

end Joining

/-! ### Joining -/

/-- A new node that syncs is given some of the window. -/
lemma receiving_of_sync (hpair : Pairing cfg cfgS .init S) (hbest : S.chain.bestTip = some k)
    (hclock : ∀ p ∈ S.window 0, ∀ i j,
      (p.2.timestamp : ℚ) ≤ clock (i + 1) j + maxTimestampDriftSeconds) :
    Receiving cfg .init (S.parcels 0)
      (P2PNode.init.sync cfg cfgS peer S (.hello S.chain.height) clock) := by
  refine sync_induction (I := fun done N => Receiving cfg .init done N) hpair
    (asks_of_tip hpair.server.tipStored hbest _) hclock (.start Kept.init) ?_
  intro done a N now now' hpre _ hnow' h
  exact h.next (hpair.sound_of_next hpre).1 hnow'

/-- **When a node can join.**  Let a new node be sent the window of a reachable server after its
hello, where ids do not collide, the cached proofs verify, and no share of the window lies in the
future.  If the server has no best tip, or its window reaches back to a genesis share with every
proof cached, no uncles, and the limits the positions demand, then the new node has the best tip of
the server, with the same work and the same weights.  Conversely, where the look-back of the
retarget does not exceed the retention, it has them in these cases only. -/
theorem joined_iff (cfg cfgS : P2PConfig) (events : List Event) (S : P2PNode) (peer : ℕ)
    (clock : ℕ → ℕ → ℚ) (hparams : cfgS.params = cfg.params)
    (hS : Machine.run (step cfgS) .init events = some S)
    (hpool : CollisionFree S.given) (hhonest : HonestCache cfg S)
    (hclock : ∀ p ∈ S.window 0, ∀ i j,
      (p.2.timestamp : ℚ) ≤ clock (i + 1) j + maxTimestampDriftSeconds) :
    (S.chain.bestTip = none ∨ Syncable cfg S → Joined cfg.params
        (P2PNode.init.sync cfg cfgS peer S (.hello S.chain.height) clock) S)
      ∧ (cfg.params.retargetWindow ≤ cfg.params.retention + 1 → Joined cfg.params
        (P2PNode.init.sync cfg cfgS peer S (.hello S.chain.height) clock) S →
          S.chain.bestTip = none ∨ Syncable cfg S) := by
  have hpair : Pairing cfg cfgS .init S := ⟨hparams, Kept.init, kept_of_run hS, hhonest, hpool⟩
  cases hbest : S.chain.bestTip with
  | none =>
      rw [sync_of_no_tip hbest]
      exact ⟨fun _ => joined_of_no_tip _ hbest, fun _ _ => Or.inl rfl⟩
  | some k =>
      have hJ : Receiving cfg .init (S.parcels 0)
          (P2PNode.init.sync cfg cfgS peer S (.hello S.chain.height) clock) :=
        receiving_of_sync hpair hbest hclock
      refine ⟨fun h => ?_, fun hret hjoined => Or.inr ?_⟩
      · have hsync := h.resolve_left (by simp)
        have hasks : (P2PNode.init.handle cfg peer (Message.hello S.chain.height).incoming
            (clock 0)).2 = [.getshares 0] := asks_of_tip hpair.server.tipStored hbest _
        obtain ⟨p, hp, hfirst⟩ := hsync.founded
        refine joined_of_has hpair hJ hbest ?_ hsync.uncles
        have hprogress :=
          (progress_sync hpair hsync.cached hsync.uncles hsync.target hasks hclock).2
        exact (hprogress.has_iff hsync.cached hbest).mpr
          (Or.inr ⟨p, hp, Or.inr fun horphan => horphan.1 hfirst⟩)
      · exact syncable_of_joined hpair hJ hret hbest (hjoined.tip.trans hbest)

/-- Windows of five shares, so that eleven heights are retained. -/
def roomyParams : Params := { shortParams with window := 5 }

/-- The nine shares that a server has come to a new node in two messages. -/
theorem joined_iff_nine :
    let S := pacedNode roomyParams 9
    ((S.parcels 0).length = 9 ∧ (S.streamShares (S.windowShares 0) []).length = 2)
      ∧ Joined roomyParams (P2PNode.init.sync (easygoing roomyParams) (easygoing roomyParams) 1 S
        (.hello S.chain.height) fun _ _ => 0) S := by
  intro S
  have hcomputed : PacedRun roomyParams 9
      ∧ CollisionFree S.given
      ∧ PacedWindow roomyParams 9 0
      ∧ (∃ p ∈ S.window 0, p.2.prevShareId = genesisPrev)
      ∧ (S.parcels 0).length = 9 ∧ (S.streamShares (S.windowShares 0) []).length = 2 := by
    decide +kernel
  obtain ⟨hserver, hcf, hwindow, hfounded, hsizes⟩ := hcomputed
  exact ⟨hsizes, (joined_iff (easygoing roomyParams) (easygoing roomyParams) _ S 1 (fun _ _ => 0)
    rfl hserver.run hcf hserver.honest
    fun p hp _ _ => (hwindow p hp).2.2.2).1 (Or.inr ⟨hfounded, fun p hp => (hwindow p hp).1,
      fun p hp => (hwindow p hp).2.1, fun p hp => (hwindow p hp).2.2.1⟩)⟩

/-- Six shares prune the first one; a new node then gets a window that links to nothing it has. -/
theorem cannot_join : ¬∀ (cfg cfgS : P2PConfig) (events : List Event) (S : P2PNode) (peer : ℕ)
    (clock : ℕ → ℕ → ℚ), cfgS.params = cfg.params →
    Machine.run (step cfgS) .init events = some S → HonestCache cfg S →
    Joined cfg.params (P2PNode.init.sync cfg cfgS peer S (.hello S.chain.height) clock) S := by
  intro h
  let cfg := easygoing shortParams
  let S := pacedNode shortParams 6
  have hcomputed : PacedRun shortParams 6
      ∧ (P2PNode.init.sync cfg cfg 1 S (.hello S.chain.height) fun _ _ => 0).chain.bestTip
        ≠ S.chain.bestTip := by decide +kernel
  obtain ⟨hrun, hleft⟩ := hcomputed
  exact hleft (h cfg cfg _ S 1 (fun _ _ => 0) rfl hrun.run hrun.honest).tip

end P2PNode

end P2Pearl
