import P2Pearl.Consensus.Work
import P2Pearl.Daemon.Reconstruct

/-!
When the job of a miner is acceptable.

`build_job_for` sets the fields of its candidate to what `_validate` will demand.  What it cannot
set are the fields of the tip it builds on, which another party chose:

* `JobAcceptable`: the conditions on the tip, the payees, the clock and the template;
* `no_child_of_tip`: the candidate is never a duplicate, since a stored child of the best tip
  would outweigh it;
* `job_acceptable_iff`: in every reachable chain, the job is built and its candidate validated at
  the same clock reading exactly under these conditions;
* `job_unacceptable`: an accepted share can violate them for every later job.
-/

namespace P2Pearl

variable {B : Bitcoinutils} {M : PearlMining} {P : Params} {Ctx : Type}

/-- What the tip, the payees, the clock and the template must satisfy for a job to be acceptable. -/
structure JobAcceptable (B : Bitcoinutils) (P : Params) (C : Sharechain) (template : ParentTemplate)
    (minPayout : ℕ) (now : ℚ) (workerAddress : PyStr) : Prop where
  version : template.version < 2 ^ 32
  bits : template.bits < 2 ^ 32
  clock : ⌊now⌋₊ < 2 ^ 32
  worker : workerAddress.length < 2 ^ 64
  payee_count : (nextPayouts P C template minPayout).length < 2 ^ 32
  payees : ∀ p ∈ nextPayouts P C template minPayout, Payable B p.address
  founding : C.tip = none → 0 < P.bootstrapTarget ∧ P.bootstrapTarget ≤ maxTarget
  linkable : C.bestTip ≠ some genesisPrev
  tip_timestamp : ∀ tip, C.tip = some tip → tip.timestamp + 1 < 2 ^ 32
  tip_drift : ∀ tip, C.tip = some tip → (tip.timestamp : ℚ) + 1 ≤ now + maxTimestampDriftSeconds
  tip_parentHeight : ∀ tip, C.tip = some tip → tip.parentHeight ≤ template.height
  tip_height : ∀ tip, C.tip = some tip → tip.sidechainHeight + 1 < 2 ^ 64

/-- No stored share extends the best tip. -/
lemma no_child_of_tip {calls : List Call} (hcf : CollisionFree (calls.map Call.share))
    {k tip : Hash32} {e : Entry} (he : (run P calls).chain.entries k = some e)
    (ht : (run P calls).chain.bestTip = some tip) (hne : tip ≠ genesisPrev) :
    e.share.prevShareId ≠ tip := by
  rintro rfl
  have hrec := subMap_record (P := P) calls
  rcases run_firstMax P calls with ⟨hnone, -⟩ | ⟨tip', b, ht', hb, hmax⟩
  · rw [hnone] at ht; cases ht
  · cases ht'.symm.trans ht
    have hlt := (run_ledger calls hcf).work_lt (hrec k e he) hne (hrec _ b hb)
    have hle := hmax.le (mem_of_recordOf (hrec k e he))
    exact absurd hlt (not_lt.mpr hle)

/-! ### The candidate -/

section Candidate

variable {calls : List Call} {template : ParentTemplate} {minPayout : ℕ}
  {makeHeader : MakeHeader Ctx} {factor : ℕ+} {now : ℚ} {addr : PyStr}

lemma floor_le_shareTimestamp (C : Sharechain) (template : ParentTemplate) (now : ℚ) :
    ⌊now⌋₊ ≤ shareTimestamp C template now := le_max_of_le_left (le_max_left _ _)

lemma tip_lt_shareTimestamp {C : Sharechain} {tip : ShareBlock} (ht : C.tip = some tip)
    (template : ParentTemplate) (now : ℚ) : tip.timestamp + 1 ≤ shareTimestamp C template now := by
  rw [shareTimestamp, ht]; exact le_max_right _ _

/-- The timestamp of a job is the clock, unless the tip is ahead of it. -/
lemma shareTimestamp_le {C : Sharechain} (hcur : (template.curtime : ℚ) ≤ now) (bound : ℕ)
    (hclock : ⌊now⌋₊ ≤ bound) (htip : ∀ tip, C.tip = some tip → tip.timestamp + 1 ≤ bound) :
    shareTimestamp C template now ≤ bound := by
  have hcurtime : template.curtime ≤ bound := (Nat.le_floor hcur).trans hclock
  rw [shareTimestamp]
  refine max_le (max_le hclock hcurtime) ?_
  cases ht : C.tip with
  | none => exact hcurtime
  | some tip => exact htip tip ht

/-- The target limit of a job is in the range a share accepts. -/
lemma nextTargetLimit_bounds {C : Sharechain} {prev : Hash32} {timestamp limit : ℕ}
    (h : nextTargetLimit P C prev timestamp = .ok limit)
    (hfounding : prev = genesisPrev → 0 < P.bootstrapTarget ∧ P.bootstrapTarget ≤ maxTarget) :
    0 < limit ∧ limit ≤ maxTarget := by
  cases htarget : expectedTarget P C.entries.get prev (some timestamp) with
  | some target =>
      rw [nextTargetLimit, htarget] at h
      cases h
      rw [expectedTarget] at htarget
      split_ifs at htarget with hg
      · cases htarget; exact hfounding hg
      · cases hs : C.entries.get prev with
        | none => rw [hs] at htarget; cases htarget
        | some s =>
            rw [hs] at htarget
            obtain ⟨older, -, rfl⟩ := Option.map_eq_some_iff.mp htarget
            exact ⟨retargetTarget_pos s.targetLimit_pos _ _ _ _,
              retargetTarget_le s.targetLimit_le _ _ _ _⟩
  | none =>
      cases htip : C.tip with
      | none => rw [nextTargetLimit, htarget, htip] at h; cases h
      | some tip =>
          rw [nextTargetLimit, htarget, htip] at h
          cases h
          exact ⟨tip.targetLimit_pos, tip.targetLimit_le⟩

/-- The target limit of a job is the one `_validate` expects. -/
lemma nextTargetLimit_expected {C : Sharechain} {prev : Hash32} {timestamp limit t : ℕ}
    (h : nextTargetLimit P C prev timestamp = .ok limit)
    (ht : expectedTarget P C.entries.get prev (some timestamp) = some t) : limit = t := by
  rw [nextTargetLimit, ht] at h
  exact (Except.ok.inj h).symm

/-- A candidate that is accepted where there is a tip extends the tip. -/
lemma extends_tip {s tip : ShareBlock} {sid prev : Hash32}
    (hprev : (run P calls).chain.nextPrev = .ok prev) (hprev' : s.prevShareId = prev)
    (hheight : s.sidechainHeight = (run P calls).chain.nextHeight)
    (hvalid : Valid P (run P calls).chain.entries.get s now sid)
    (ht : (run P calls).chain.tip = some tip) :
    Extends P (run P calls).chain.entries.get s tip := by
  cases hb : (run P calls).chain.bestTip with
  | none => rw [Sharechain.tip, hb] at ht; cases ht
  | some tipId =>
      obtain ⟨e, he, ht', hid⟩ := tip_of_bestTip hb
      cases ht'.symm.trans ht
      rw [Sharechain.nextPrev_of_tip ht', hid] at hprev
      cases hprev
      rcases hvalid.linked with hf | ⟨parent, hx⟩
      · have hzero := hf.height
        rw [hheight, Sharechain.nextHeight_of_tip ht'] at hzero
        cases hzero
      · cases (Store.get_of_some he).symm.trans (hprev' ▸ hx.stored)
        exact hx

/-- A job that is built and accepted meets the conditions. -/
lemma acceptable_of_job {job : Job (HeaderCtx B M)}
    (hjob : jobFor P (run P calls).chain template minPayout (productionMakeHeader B M) factor now
      addr = .ok job)
    (hval : validate P (run P calls).chain.entries.get job.context.candidate now = .ok none) :
    JobAcceptable B P (run P calls).chain template minPayout now addr := by
  obtain ⟨prev, limit, payoutSet, sid, hprev, hlimit, hset, hdata, hsid, hmake, -⟩ :=
    jobFor_eq_ok_iff.mp hjob
  obtain ⟨sid', hsid', hvalid⟩ := validate_eq_ok_none_iff.mp hval
  obtain ⟨hcount, hpayees, -⟩ := serializePayouts_eq_ok_iff.mp hset
  have henc := (ShareBlock.shareId_eq_ok_iff.mp hsid).1
  -- the fields of the candidate
  have hversion : job.context.candidate.coinbaseVersion = template.version := by rw [hdata]; rfl
  have hbits : job.context.candidate.blockNbits = template.bits := by rw [hdata]; rfl
  have htime : job.context.candidate.timestamp
      = shareTimestamp (run P calls).chain template now := by rw [hdata]; rfl
  have haddr : job.context.candidate.minerAddress = addr := by rw [hdata]; rfl
  have hheight : job.context.candidate.sidechainHeight = (run P calls).chain.nextHeight := by
    rw [hdata]; rfl
  have hparent : job.context.candidate.parentHeight = template.height := by rw [hdata]; rfl
  have hprev' : job.context.candidate.prevShareId = prev := by rw [hdata]; rfl
  have htarget : job.context.candidate.targetLimit = limit := by rw [hdata]; rfl
  have hstamp := henc.timestamp
  rw [htime] at hstamp
  exact {
    version := by rw [← hversion]; exact henc.coinbaseVersion
    bits := by rw [← hbits]; exact henc.blockNbits
    clock := (floor_le_shareTimestamp _ _ _).trans_lt hstamp
    worker := by rw [← haddr]; exact henc.addressLength
    payee_count := hcount
    payees := fun p hp =>
      ⟨(hpayees p hp).address, p2trScript_of_productionMakeHeader hmake hp⟩
    founding := by
      intro hnone
      rw [Sharechain.nextPrev_of_none hnone] at hprev
      cases hprev
      rw [nextTargetLimit, expectedTarget, if_pos rfl] at hlimit
      cases hlimit
      rw [← htarget]
      exact ⟨job.context.candidate.targetLimit_pos, job.context.candidate.targetLimit_le⟩
    linkable := by
      intro hlink
      obtain ⟨e, -, ht, hid⟩ := tip_of_bestTip hlink
      have hgenesis := hprev
      rw [Sharechain.nextPrev_of_tip ht, hid] at hgenesis
      cases hgenesis
      exact (extends_tip hprev hprev' hheight hvalid ht).prev hprev'
    tip_timestamp := fun tip ht => (tip_lt_shareTimestamp ht template now).trans_lt hstamp
    tip_drift := by
      intro tip ht
      refine le_trans ?_ hvalid.drift
      rw [htime]
      exact_mod_cast tip_lt_shareTimestamp ht template now
    tip_parentHeight := by
      intro tip ht
      rw [← hparent]
      exact (extends_tip hprev hprev' hheight hvalid ht).parentHeight
    tip_height := by
      intro tip ht
      have hnext := henc.sidechainHeight
      rwa [hheight, Sharechain.nextHeight_of_tip ht] at hnext }

/-- The predecessor a job names: the best tip, or the genesis predecessor. -/
lemma nextPrev_run (calls : List Call) : (run P calls).chain.nextPrev
    = .ok ((run P calls).chain.bestTip.getD genesisPrev) := by
  cases hb : (run P calls).chain.bestTip with
  | none => exact Sharechain.nextPrev_of_none (by rw [Sharechain.tip, hb]; rfl)
  | some tipId =>
      obtain ⟨e, -, ht, hid⟩ := tip_of_bestTip hb
      rw [Sharechain.nextPrev_of_tip ht, hid]
      rfl

/-- A job has a target limit, derived or carried. -/
lemma nextTargetLimit_run (calls : List Call) (timestamp : ℕ) :
    ∃ limit, nextTargetLimit P (run P calls).chain
      ((run P calls).chain.bestTip.getD genesisPrev) timestamp = .ok limit := by
  cases hb : (run P calls).chain.bestTip with
  | none => exact ⟨P.bootstrapTarget, by simp [nextTargetLimit, expectedTarget]⟩
  | some tipId =>
      obtain ⟨e, -, ht, -⟩ := tip_of_bestTip hb
      rw [nextTargetLimit, ht]
      cases expectedTarget P (run P calls).chain.entries.get _ (some timestamp) with
      | some t => exact ⟨t, rfl⟩
      | none => exact ⟨e.share.targetLimit, rfl⟩

variable {s : ShareBlock} {limit : ℕ} {payoutSetHash : Hash32}
  (hcond : JobAcceptable B P (run P calls).chain template minPayout now addr)
  (hs : s.toShareData = candidateData template (run P calls).chain.nextHeight
    ((run P calls).chain.bestTip.getD genesisPrev)
    (shareTimestamp (run P calls).chain template now) limit factor addr payoutSetHash)

include hcond

/-- Under the conditions, the timestamp of the job fits. -/
lemma shareTimestamp_lt (hcur : (template.curtime : ℚ) ≤ now) :
    shareTimestamp (run P calls).chain template now < 2 ^ 32 := by
  have hbound := hcond.clock
  have htime := shareTimestamp_le (C := (run P calls).chain) hcur (2 ^ 32 - 1) (by omega)
    fun tip ht => Nat.le_sub_one_of_lt (hcond.tip_timestamp tip ht)
  omega

/-- Under the conditions, the production header is built. -/
lemma production_builds (hbuilds : BuildsHeaders B M) (hheight : template.height < 2 ^ 32)
    (hcur : (template.curtime : ℚ) ≤ now) (sid : Hash32) :
    ∃ built, productionMakeHeader B M
      { template with curtime := shareTimestamp (run P calls).chain template now }
      (nextPayouts P (run P calls).chain template minPayout) sid = .ok built :=
  productionMakeHeader_builds hbuilds (fun p hp => (hcond.payees p hp).2) (sum_grains_le _ _ _)
    hheight hcond.version (shareTimestamp_lt hcond hcur) hcond.bits

include hs

/-- Under the conditions, the candidate has an id. -/
lemma candidate_encodable (hheight : template.height < 2 ^ 32)
    (hcur : (template.curtime : ℚ) ≤ now) (hascii : IsAscii addr) : s.Encodable := by
  have hnext : (run P calls).chain.nextHeight < 2 ^ 64 := by
    cases ht : (run P calls).chain.tip with
    | none => rw [Sharechain.nextHeight_of_none ht]; norm_num
    | some tip => rw [Sharechain.nextHeight_of_tip ht]; exact hcond.tip_height tip ht
  constructor
  · rw [hs]; norm_num [candidateData, sidechainVersion]
  · rw [hs]; exact hnext
  · rw [hs]; exact hheight
  · rw [hs]; exact shareTimestamp_lt hcond hcur
  · rw [hs]; exact hcond.bits
  · rw [hs]; exact hcond.version
  · rw [hs]; exact blockSubsidy_lt _
  · rw [hs]; exact hascii
  · rw [hs]; exact hcond.worker
  · rw [hs]; norm_num [candidateData]

/-- Under the conditions, the candidate is not ahead of the drift bound. -/
lemma candidate_drift (hcur : (template.curtime : ℚ) ≤ now) :
    (s.timestamp : ℚ) ≤ now + maxTimestampDriftSeconds := by
  have hnow : 0 ≤ now := (Nat.cast_nonneg _).trans hcur
  have hdrift : (0 : ℚ) ≤ maxTimestampDriftSeconds := Nat.cast_nonneg _
  have hle : now ≤ now + maxTimestampDriftSeconds := le_add_of_nonneg_right hdrift
  have htime := shareTimestamp_le (C := (run P calls).chain) hcur
    ⌊now + maxTimestampDriftSeconds⌋₊ (Nat.floor_mono hle)
    fun tip ht => Nat.le_floor (by exact_mod_cast hcond.tip_drift tip ht)
  have hstamp : s.timestamp = shareTimestamp (run P calls).chain template now := by rw [hs]; rfl
  rw [hstamp]
  exact (Nat.cast_le.mpr htime).trans (Nat.floor_le (hnow.trans hle))

/-- Under the conditions, the candidate founds the chain or extends its tip. -/
lemma candidate_linked (hlimit : nextTargetLimit P (run P calls).chain
      ((run P calls).chain.bestTip.getD genesisPrev)
      (shareTimestamp (run P calls).chain template now) = .ok limit) :
    Founds P s ∨ ∃ parent, Extends P (run P calls).chain.entries.get s parent := by
  cases hb : (run P calls).chain.bestTip with
  | none =>
      have ht : (run P calls).chain.tip = none := by rw [Sharechain.tip, hb]; rfl
      rw [hb] at hs hlimit
      refine Or.inl ⟨by rw [hs]; rfl, ?_, by rw [hs]; rfl, ?_⟩
      · rw [hs]; exact Sharechain.nextHeight_of_none ht
      · rw [hs]
        exact nextTargetLimit_expected hlimit (if_pos rfl)
  | some tipId =>
      obtain ⟨e, he, ht, -⟩ := tip_of_bestTip hb
      have hne : tipId ≠ genesisPrev := fun h => hcond.linkable (by rw [hb, h])
      rw [hb, Option.getD_some] at hs hlimit
      have hprev : s.prevShareId = tipId := by rw [hs]; rfl
      refine Or.inr ⟨e.share, by rw [hprev]; exact hne, by rw [hprev]; exact Store.get_of_some he,
        ?_, ?_, ?_, fun t htarget => ?_, fun uid hu => ?_⟩
      · rw [hs]; exact Sharechain.nextHeight_of_tip ht
      · rw [hs]; exact (Nat.le_succ _).trans (tip_lt_shareTimestamp ht template now)
      · rw [hs]; exact hcond.tip_parentHeight e.share ht
      · rw [hs] at htarget ⊢
        exact nextTargetLimit_expected hlimit htarget
      · rw [hs] at hu; exact absurd hu List.not_mem_nil

/-- The id of a candidate is not taken: its share would extend the best tip. -/
lemma candidate_fresh {sid : Hash32} (hid : s.shareId = .ok sid)
    (hcf : CollisionFree (s :: calls.map Call.share)) :
    (run P calls).chain.entries sid = none := by
  cases hb : (run P calls).chain.bestTip with
  | none => exact entries_of_no_tip hb sid
  | some tipId =>
      refine Option.eq_none_iff_forall_ne_some.mpr fun e he => ?_
      have hne : tipId ≠ genesisPrev := fun h => hcond.linkable (by rw [hb, h])
      obtain ⟨hid', hmem⟩ := mem_accepted calls (mem_of_recordOf (subMap_record calls sid e he))
      have heq : e.share = s :=
        hcf _ (List.mem_cons_of_mem _ hmem) _ List.mem_cons_self sid hid' hid
      refine no_child_of_tip (hcf.mono (List.subset_cons_self _ _)) he hb hne ?_
      rw [heq, hs, hb]
      rfl

omit hcond hs

/-- Under the conditions, a job is built and accepted. -/
lemma job_of_acceptable (hbuilds : BuildsHeaders B M)
    (hcond : JobAcceptable B P (run P calls).chain template minPayout now addr)
    (hheight : template.height < 2 ^ 32) (hcur : (template.curtime : ℚ) ≤ now)
    (hascii : IsAscii addr)
    (hcf : ∀ job, jobFor P (run P calls).chain template minPayout (productionMakeHeader B M) factor
        now addr = .ok job → CollisionFree (job.context.candidate :: calls.map Call.share)) :
    ∃ job, jobFor P (run P calls).chain template minPayout (productionMakeHeader B M) factor now
        addr = .ok job
      ∧ validate P (run P calls).chain.entries.get job.context.candidate now = .ok none := by
  let C := (run P calls).chain
  obtain ⟨limit, hlimit⟩ := nextTargetLimit_run (P := P) calls (shareTimestamp C template now)
  obtain ⟨hpos, hle⟩ := nextTargetLimit_bounds hlimit fun hg => hcond.founding (by
    cases hb : (run P calls).chain.bestTip with
    | none => rw [Sharechain.tip, hb]; rfl
    | some tipId =>
        rw [hb] at hg
        exact absurd (hb.trans (congrArg some hg)) hcond.linkable)
  let payoutSet := leBytes 4 (nextPayouts P C template minPayout).length
    ++ (nextPayouts P C template minPayout).flatMap Payout.wire
  have hset : serializePayouts (nextPayouts P C template minPayout) = .ok payoutSet :=
    serializePayouts_eq_ok_iff.mpr
      ⟨hcond.payee_count, fun p hp => payee_encodable hp (blockSubsidy_lt _)
        (hcond.payees p hp).1, rfl⟩
  have henc : ∀ s : ShareBlock, s.toShareData = candidateData template C.nextHeight
      (C.bestTip.getD genesisPrev) (shareTimestamp C template now) limit factor addr
      (doubleSha256 payoutSet) → s.Encodable :=
    fun s hs => candidate_encodable hcond hs hheight hcur hascii
  obtain ⟨job, hjob, hdata⟩ := jobFor_builds (nextPrev_run calls) hlimit hpos hle hset henc
    (production_builds hcond hbuilds hheight hcur)
  have hid := (henc _ hdata).shareId
  refine ⟨job, hjob, validate_eq_ok_none_iff.mpr ⟨_, hid, ?_⟩⟩
  exact {
    fresh := Store.get_eq_none_iff.mpr (candidate_fresh hcond hdata hid (hcf job hjob))
    version := by rw [hdata]; rfl
    drift := candidate_drift hcond hdata hcur
    coinbase := by rw [hdata]; rfl
    nodup := by rw [hdata]; exact List.nodup_nil
    not_self := by rw [hdata]; exact List.not_mem_nil
    linked := candidate_linked hcond hdata hlimit }

end Candidate

/-- **When honest work is acceptable.**  In every reachable chain, for a `u32` parent height, a
template not ahead of the clock and an ASCII worker address, the job is built and its candidate
validated at the same clock reading exactly when the tip, the payees, the clock and the template
meet `JobAcceptable`.  The packages are assumed to build headers as documented, and the id of the
candidate not to collide with the ids of the run. -/
theorem job_acceptable_iff (B : Bitcoinutils) (M : PearlMining) (hbuilds : BuildsHeaders B M)
    (P : Params) (calls : List Call) (template : ParentTemplate) (minPayout : ℕ) (factor : ℕ+)
    (now : ℚ) (addr : PyStr) (hheight : template.height < 2 ^ 32)
    (hcur : (template.curtime : ℚ) ≤ now) (hne : addr ≠ []) (hascii : IsAscii addr)
    (hcf : ∀ job, buildJobFor P (run P calls).chain (some template) minPayout
        (productionMakeHeader B M) factor now addr = .ok (some job) →
      CollisionFree (job.context.candidate :: calls.map Call.share)) :
    (∃ job, buildJobFor P (run P calls).chain (some template) minPayout
          (productionMakeHeader B M) factor now addr = .ok (some job)
        ∧ validate P (run P calls).chain.entries.get job.context.candidate now = .ok none)
      ↔ JobAcceptable B P (run P calls).chain template minPayout now addr := by
  simp only [buildJobFor_eq_ok_iff hne] at hcf ⊢
  constructor
  · rintro ⟨job, hjob, hval⟩
    exact acceptable_of_job hjob hval
  · intro hcond
    exact job_of_acceptable hbuilds hcond hheight hcur hascii hcf

/-- On a chain of three shares whose miner can be paid, a job that pays for two of them is built and
accepted. -/
theorem job_acceptable_paid :
    let calls := (List.range 3).map fun n => verifiedCall (paidChain n)
    let C := (run shortParams calls).chain
    C.tip = some (paidChain 2)
      ∧ nextPayouts shortParams C firstTemplate minPayoutGrains = [⟨zeroAddress, blockSubsidy 1⟩]
      ∧ ∃ job, buildJobFor shortParams C (some firstTemplate) minPayoutGrains
          (productionMakeHeader zeroProgram (stockMining fun _ => 0)) 1 0 zeroAddress
            = .ok (some job)
        ∧ validate shortParams C.entries.get job.context.candidate 0 = .ok none := by
  intro calls C
  have hrun : C.tip = some (paidChain 2)
      ∧ C.bestTip ≠ some genesisPrev
      ∧ nextPayouts shortParams C firstTemplate minPayoutGrains = [⟨zeroAddress, blockSubsidy 1⟩]
      ∧ ∀ job ∈ (buildJobFor shortParams C (some firstTemplate) minPayoutGrains
            (productionMakeHeader zeroProgram (stockMining fun _ => 0)) 1 0
            zeroAddress).toOption.join,
        CollisionFree (job.context.candidate :: calls.map Call.share) := by
    decide +kernel
  obtain ⟨htip, hlink, hpayouts, hcf⟩ := hrun
  have hzero : ⌊(0 : ℚ)⌋₊ = 0 := Nat.floor_zero
  refine ⟨htip, hpayouts, (job_acceptable_iff zeroProgram (stockMining fun _ => 0)
    (buildsHeaders_stock _) shortParams calls firstTemplate minPayoutGrains 1 0 zeroAddress
    (by decide) (by norm_num [firstTemplate]) (by decide) (by decide) fun job hjob =>
      hcf job (by rw [hjob]; rfl)).mpr ?_⟩
  have hpaid : ∀ tip, C.tip = some tip → tip = paidChain 2 := fun tip ht =>
    (Option.some.inj (htip.symm.trans ht)).symm
  exact {
    version := by decide
    bits := by decide
    clock := by rw [hzero]; norm_num
    worker := by decide
    payee_count := by rw [hpayouts]; norm_num
    payees := by
      intro p hp
      rw [hpayouts, List.mem_singleton] at hp
      rw [hp]
      exact zeroAddress_payable
    founding := by
      intro hnone
      rw [htip] at hnone
      cases hnone
    linkable := hlink
    tip_timestamp := by
      intro tip ht
      rw [hpaid tip ht]
      decide
    tip_drift := by
      intro tip ht
      rw [hpaid tip ht]
      norm_num [paidChain, pacedShare, shareTargetTimeSeconds, maxTimestampDriftSeconds]
    tip_parentHeight := by
      intro tip ht
      rw [hpaid tip ht]
      decide
    tip_height := by
      intro tip ht
      rw [hpaid tip ht]
      decide }

/-- One accepted share at the largest parent height makes every later job unacceptable. -/
theorem job_unacceptable : ¬∀ (calls : List Call) (template : ParentTemplate) (factor : ℕ+)
    (now : ℚ) (addr : PyStr), 1 ≤ template.height → template.height < 2 ^ 32 →
    (template.curtime : ℚ) ≤ now → addr ≠ [] → IsAscii addr →
    ∃ job, buildJobFor {} (run {} calls).chain (some template) minPayoutGrains
        (productionMakeHeader zeroProgram (stockMining fun _ => 0)) factor now addr
          = .ok (some job)
      ∧ validate {} (run {} calls).chain.entries.get job.context.candidate now = .ok none := by
  intro h
  obtain ⟨sid, -, hrun⟩ := run_genesisCall (2 ^ 32 - 1) 0 zeroAddress genesisPrev (by norm_num)
    (by norm_num) (by decide) (by decide)
  obtain ⟨job, hjob, hval⟩ := h [genesisCall (2 ^ 32 - 1) 0 zeroAddress genesisPrev] firstTemplate
    1 0 zeroAddress le_rfl (by decide) (by norm_num [firstTemplate]) (by decide) (by decide)
  have hcond := acceptable_of_job ((buildJobFor_eq_ok_iff (by decide)).mp hjob) hval
  have htip := hcond.tip_parentHeight _ (by rw [hrun]; exact tip_of_set _ _ _)
  have hheight : (2 ^ 32 - 1 : ℕ) ≤ 1 := htip
  norm_num at hheight

end P2Pearl
