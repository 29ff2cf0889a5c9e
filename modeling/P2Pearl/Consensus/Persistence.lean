import P2Pearl.Consensus.Agreement
import P2Pearl.Consensus.Archive

/-!
A share that may be accepted may be accepted later.

* `record_subMap`: the record of a run only grows.
* `Valid.of_subMap`: over two records, what is valid over the smaller is valid over the larger,
  unless it is in it.
* `valid_later`: so what is valid in the store of a run is valid in it after any more calls;
  `still_acceptable`: a share that a sharechain would accept is one it would still accept after
  any other calls, as long as it is recent: until then no share of another miner takes its place.
-/

namespace P2Pearl

variable {P : Params}

/-! ### The record grows -/

/-- The record of a run is part of the record of a longer one. -/
lemma record_subMap {calls more : List Call}
    (hcf : CollisionFree ((calls ++ more).map Call.share)) :
    SubMap (run P calls).record.get (run P (calls ++ more)).record.get := by
  suffices h : ∀ mid, calls ++ mid <+: calls ++ more →
      SubMap (run P calls).record.get (run P (calls ++ mid)).record.get from
    h more List.prefix_rfl
  intro mid hpre
  induction mid using List.reverseRecOn with
  | nil => rw [List.append_nil]; exact SubMap.refl _
  | append_singleton mid call ih =>
      rw [← List.append_assoc] at hpre ⊢
      refine (ih ((List.prefix_append _ _).trans hpre)).trans ?_
      rw [run_append]
      rcases step_cases (P := P) (run_tipStored (calls ++ mid)) call with
        ⟨hsame, -⟩ | ⟨sid, e, hadm, hgrow⟩
      · rw [hsame]; exact SubMap.refl _
      · exact subMap_record_grow hcf hpre hadm hgrow

/-- The peak of a run is at most that of a longer one. -/
lemma peak_le_append (calls more : List Call) :
    (run P calls).peak ≤ (run P (calls ++ more)).peak := by
  induction more using List.reverseRecOn with
  | nil => rw [List.append_nil]
  | append_singleton more call ih =>
      refine ih.trans ?_
      rw [← List.append_assoc, run_append]
      rcases step_cases (P := P) (run_tipStored (calls ++ more)) call with
        ⟨hsame, -⟩ | ⟨sid, e, -, hgrow⟩
      · rw [hsame]
      · exact hgrow.peak_le

/-! ### Validity over a growing record -/

section Grow

variable {S S' : Shares} (hS : Lawful S) (hsub : SubMap S S')

include hS hsub

/-- The walks from a parent in the smaller record are the same in the larger. -/
lemma Extends.of_subMap {share parent : ShareBlock} (h : Extends P S share parent) :
    Extends P S' share parent := by
  have hwalk : ∀ n, Unbroken S ShareBlock.up n share.up := fun n => by
    rw [ShareBlock.up, link_of_ne h.prev]
    exact hS.unbroken n h.stored
  have hscan : scanned P S' share = scanned P S share := trail_eq_of_unbroken hsub (hwalk _)
  refine ⟨h.prev, hsub _ _ h.stored, h.height, h.timestamp, h.parentHeight, fun t ht => ?_,
    fun uid huid => ?_⟩
  · rw [expectedTarget_congr ((hwalk _).agreeAlong hsub)] at ht
    exact h.target t ht
  · obtain ⟨uncle, hu⟩ := h.uncles uid huid
    exact ⟨uncle, hsub _ _ hu.stored, hscan ▸ hu.off_chain, hscan ▸ hu.unreferenced, hu.within,
      hu.below, hscan ▸ hu.sibling⟩

/-- What is valid over a record is valid over a larger one at any later time, unless it is in it. -/
lemma Valid.of_subMap {share : ShareBlock} {now now' : ℚ} {sid : Hash32}
    (h : Valid P S share now sid) (hnow : now ≤ now') (hfresh : S' sid = none) :
    Valid P S' share now' sid :=
  ⟨hfresh, h.version, h.drift.trans (by linarith), h.coinbase, h.nodup, h.not_self,
    h.linked.imp_right fun ⟨parent, hx⟩ => ⟨parent, hx.of_subMap hS hsub⟩⟩

end Grow

/-! ### A share waits -/

section Wait

variable {past more : List Call} {share : ShareBlock} {sid : Hash32}
  (hcf : CollisionFree (share :: (past ++ more).map Call.share)) (hid : share.shareId = .ok sid)

include hcf hid

/-- The record holds a share under its id, or nothing. -/
lemma record_share_eq_of_pool {calls : List Call}
    (hsub : calls.map Call.share ⊆ (past ++ more).map Call.share) :
    ∀ x, (run P calls).record sid = some x → x.share = share := by
  intro x hx
  obtain ⟨hxid, hmem⟩ := mem_accepted calls (mem_of_recordOf hx)
  exact hcf _ (List.mem_cons_of_mem _ (hsub hmem)) _ List.mem_cons_self sid hxid hid

variable (hpos : 1 ≤ P.retargetWindow) (hrw : P.retargetWindow ≤ P.window)
  (hrecent : Recent P (run P (past ++ more)) share)

include hpos hrw hrecent

/-- A share that is valid has not been accepted before. -/
lemma not_accepted_of_valid {now : ℚ}
    (h : Valid P (run P past).chain.entries.get share now sid) :
    sid ∉ (run P past).accepted.map Prod.fst := by
  have hpast : past.map Call.share ⊆ (past ++ more).map Call.share :=
    ((List.prefix_append _ _).map _).subset
  have hrecord := (valid_record_iff hpos hrw ((peak_le_append past more).trans hrecent)
    (record_share_eq_of_pool hcf hid hpast)).mp h
  exact recordOf_eq_none_iff.mp (Store.get_eq_none_iff.mp hrecord.fresh)

/-- **A valid share waits**: it is valid after any more calls that have not had it accepted. -/
lemma valid_later {now now' : ℚ} (hnow : now ≤ now')
    (h : Valid P (run P past).chain.entries.get share now sid)
    (hnot : sid ∉ (run P (past ++ more)).accepted.map Prod.fst) :
    Valid P (run P (past ++ more)).chain.entries.get share now' sid := by
  have hpast : past.map Call.share ⊆ (past ++ more).map Call.share :=
    ((List.prefix_append _ _).map _).subset
  have hcfm : CollisionFree ((past ++ more).map Call.share) :=
    hcf.mono (List.subset_cons_self _ _)
  have hrecord := (valid_record_iff hpos hrw ((peak_le_append past more).trans hrecent)
    (record_share_eq_of_pool hcf hid hpast)).mp h
  have hfresh : (run P (past ++ more)).record.get sid = none :=
    Store.get_eq_none_iff.mpr (recordOf_eq_none_iff.mpr hnot)
  have hgrown := hrecord.of_subMap (run_ledger past (hcfm.mono hpast)).lawful
    (record_subMap hcfm) hnow hfresh
  exact (valid_record_iff hpos hrw hrecent
    (record_share_eq_of_pool hcf hid (List.Subset.refl _))).mpr hgrown

end Wait

/-- **Work is not wasted by waiting.**  A share that would be accepted after some calls has, after
any more calls, either been accepted itself or would still be accepted, at any later clock reading
and with any proof, as long as it is no more than the window below the highest tip: neither the
shares of others, nor a reorganisation, nor pruning invalidates it. -/
theorem still_acceptable (P : Params) (hpos : 1 ≤ P.retargetWindow)
    (hrw : P.retargetWindow ≤ P.window) (past more : List Call) (call later : Call)
    (hcf : CollisionFree (call.share :: (past ++ more).map Call.share))
    (hshare : later.share = call.share) (hverified : later.verified = true)
    (hnow : call.now ≤ later.now) (haccepts : Accepts P (run P past).chain call)
    (hrecent : Recent P (run P (past ++ more)) call.share) :
    (∃ sid, call.share.shareId = .ok sid ∧ sid ∈ (run P (past ++ more)).accepted.map Prod.fst
        ∧ sid ∉ (run P past).accepted.map Prod.fst)
      ∨ Accepts P (run P (past ++ more)).chain later := by
  obtain ⟨sid, e, hadm⟩ := haccepts.admits
  have hnew := not_accepted_of_valid hcf hadm.id hpos hrw hrecent hadm.valid
  by_cases hin : sid ∈ (run P (past ++ more)).accepted.map Prod.fst
  · exact Or.inl ⟨sid, hadm.id, hin, hnew⟩
  · right
    have hvalid := valid_later hcf hadm.id hpos hrw hrecent hnow hadm.valid hin
    obtain ⟨isBestTip, hr⟩ := addShare_of_valid (P := P) (run_tipStored (past ++ more)) later
      hverified (validate_eq_ok_none_iff.mpr ⟨sid, by rw [hshare]; exact hadm.id,
        by rw [hshare]; exact hvalid⟩)
    exact ⟨isBestTip, "", hr⟩

/-- A second share on the fourth one waits while the first is built on, and the two lowest shares
are pruned; it is still accepted, two below the tip. -/
theorem still_acceptable_waiting :
    let past := (List.range 4).map fun n => verifiedCall (pacedChain n)
    let more := (List.range 3).map fun n => verifiedCall (pacedChain (n + 4))
    let call := verifiedCall { pacedChain 4 with minerAddress := ['b'] }
    (run shortParams (past ++ more)).chain.entries (doubleSha256 (pacedChain 1).wire) = none
      ∧ Accepts shortParams (run shortParams (past ++ more)).chain { call with now := 5 } := by
  intro past more call
  have hrun : CollisionFree (call.share :: (past ++ more).map Call.share)
      ∧ (addShare shortParams (run shortParams past).chain call).2 = .ok ⟨true, true, ""⟩
      ∧ (run shortParams (past ++ more)).chain.entries (doubleSha256 (pacedChain 1).wire) = none
      ∧ call.share.shareId = .ok (doubleSha256 call.share.wire)
      ∧ doubleSha256 call.share.wire
        ∉ (run shortParams (past ++ more)).accepted.map Prod.fst
      ∧ (run shortParams (past ++ more)).peak = 6 := by
    decide +kernel
  obtain ⟨hcf, haccepted, hpruned, hid, hwaits, hpeak⟩ := hrun
  refine ⟨hpruned, (still_acceptable shortParams (by decide) (by decide) past more call
    { call with now := 5 } hcf rfl rfl
    (by norm_num [call, verifiedCall]) ⟨true, "", haccepted⟩ ?_).resolve_left ?_⟩
  · rw [Recent, hpeak]
    decide
  · rintro ⟨sid, hsid, hmem, -⟩
    cases hid.symm.trans hsid
    exact hwaits hmem

end P2Pearl
