import P2Pearl.Consensus.History
import P2Pearl.Daemon.PayoutSet

/-!
`PoolNode.build_job_for` of `daemon.py`: the job of a miner, a candidate share on the best tip and
the header that commits to it.

* `ParentTemplate`: the fields of the parent template a job is built from.
* `buildJobFor`: the job; `jobFor_eq_ok_iff` takes it apart into its steps.
-/

namespace P2Pearl

/-- `ParentTemplate`, the fields a share depends on. -/
structure ParentTemplate where
  height : ℕ
  prevBlock : Hash32
  bits : ℕ
  curtime : ℕ
  version : ℕ := 0x20000000
  requiredCertVersion : ℕ := 1

/-- `_JobContext`, with an opaque header context. -/
structure JobContext (Ctx : Type) where
  candidate : ShareBlock
  headerCtx : Ctx
  payouts : List Payout
  certVersion : ℕ

/-- What `build_job_for` returns for the stratum server to mint. -/
structure Job (Ctx : Type) where
  header : Bytes
  shareTarget : ℕ
  height : ℕ
  context : JobContext Ctx

/-- `MakeHeader`: the incomplete header of a template, payouts and share id, and its context. -/
abbrev MakeHeader (Ctx : Type) :=
  ParentTemplate → List Payout → Hash32 → Except PyError (Bytes × Ctx)

variable {Ctx : Type}

/-- `prev_share_id` of `build_job_for`. -/
def Sharechain.nextPrev (C : Sharechain) : Except PyError Hash32 :=
  match C.tip with
  | some tip => tip.shareId
  | none => .ok genesisPrev

/-- `s_height` of `build_job_for`. -/
def Sharechain.nextHeight (C : Sharechain) : ℕ :=
  match C.tip with
  | some tip => tip.sidechainHeight + 1
  | none => 0

lemma Sharechain.nextPrev_of_tip {C : Sharechain} {tip : ShareBlock} (h : C.tip = some tip) :
    C.nextPrev = tip.shareId := by rw [nextPrev, h]

lemma Sharechain.nextPrev_of_none {C : Sharechain} (h : C.tip = none) :
    C.nextPrev = .ok genesisPrev := by rw [nextPrev, h]

lemma Sharechain.nextHeight_of_tip {C : Sharechain} {tip : ShareBlock} (h : C.tip = some tip) :
    C.nextHeight = tip.sidechainHeight + 1 := by rw [nextHeight, h]

lemma Sharechain.nextHeight_of_none {C : Sharechain} (h : C.tip = none) : C.nextHeight = 0 := by
  rw [nextHeight, h]

/-- `share_timestamp` of `build_job_for`. -/
def shareTimestamp (C : Sharechain) (template : ParentTemplate) (now : ℚ) : ℕ :=
  max (max ⌊now⌋₊ template.curtime)
    (match C.tip with
      | some tip => tip.timestamp + 1
      | none => template.curtime)

/-- `target_limit` of `build_job_for`: the chain-derived limit, or the one of the tip where the
history is truncated. -/
def nextTargetLimit (P : Params) (C : Sharechain) (prevShareId : Hash32) (timestamp : ℕ) :
    Except PyError ℕ :=
  match expectedTarget P C.entries.get prevShareId (some timestamp), C.tip with
  | some limit, _ => .ok limit
  | none, some tip => .ok tip.targetLimit
  | none, none => .error .attributeError

/-- `payouts` of `build_job_for`: the exact subsidy, split over the window of the best tip. -/
def nextPayouts (P : Params) (C : Sharechain) (template : ParentTemplate) (minPayout : ℕ) :
    List Payout :=
  computePplnsPayouts (blockSubsidy template.height) (C.pplnsWeights P none) minPayout

/-- The fields of the candidate of `build_job_for`. -/
def candidateData (template : ParentTemplate) (sHeight : ℕ) (prevShareId : Hash32)
    (timestamp targetLimit : ℕ) (factor : ℕ+) (workerAddress : PyStr) (payoutSetHash : Hash32) :
    ShareData where
  version := sidechainVersion
  sidechainHeight := sHeight
  prevShareId := prevShareId
  parentPrevBlock := template.prevBlock
  parentHeight := template.height
  timestamp := timestamp
  shareTarget := max 1 (targetLimit / factor)
  targetLimit := targetLimit
  blockNbits := template.bits
  coinbaseVersion := template.version
  coinbaseValue := blockSubsidy template.height
  minerAddress := workerAddress
  payoutSetHash := payoutSetHash
  uncleIds := []

/-- `build_job_for` once there is a template and an address. -/
def jobFor (P : Params) (C : Sharechain) (template : ParentTemplate) (minPayout : ℕ)
    (makeHeader : MakeHeader Ctx) (factor : ℕ+) (now : ℚ) (workerAddress : PyStr) :
    Except PyError (Job Ctx) := do
  let prevShareId ← C.nextPrev
  let timestamp := shareTimestamp C template now
  let targetLimit ← nextTargetLimit P C prevShareId timestamp
  let payouts := nextPayouts P C template minPayout
  let payoutSet ← serializePayouts payouts
  let candidate ← ShareBlock.init (candidateData template C.nextHeight prevShareId timestamp
    targetLimit factor workerAddress (doubleSha256 payoutSet))
  let sid ← candidate.shareId
  let (header, headerCtx) ← makeHeader { template with curtime := timestamp } payouts sid
  return {
    header
    shareTarget := max 1 (targetLimit / factor)
    height := C.nextHeight
    context := ⟨candidate, headerCtx, payouts, template.requiredCertVersion⟩ }

/-- `build_job_for`: `None` without a template or an address.  `factor` is the target factor of
the worker. -/
def buildJobFor (P : Params) (C : Sharechain) (template : Option ParentTemplate) (minPayout : ℕ)
    (makeHeader : MakeHeader Ctx) (factor : ℕ+) (now : ℚ) (workerAddress : PyStr) :
    Except PyError (Option (Job Ctx)) :=
  match template with
  | none => .ok none
  | some template =>
      if workerAddress = [] then .ok none
      else (jobFor P C template minPayout makeHeader factor now workerAddress).map some

/-- The steps of a job that is built. -/
lemma jobFor_eq_ok_iff {P : Params} {C : Sharechain} {template : ParentTemplate} {minPayout : ℕ}
    {makeHeader : MakeHeader Ctx} {factor : ℕ+} {now : ℚ} {workerAddress : PyStr} {job : Job Ctx} :
    jobFor P C template minPayout makeHeader factor now workerAddress = .ok job
      ↔ ∃ prev limit payoutSet sid,
        C.nextPrev = .ok prev
        ∧ nextTargetLimit P C prev (shareTimestamp C template now) = .ok limit
        ∧ serializePayouts (nextPayouts P C template minPayout) = .ok payoutSet
        ∧ job.context.candidate.toShareData = candidateData template C.nextHeight prev
            (shareTimestamp C template now) limit factor workerAddress (doubleSha256 payoutSet)
        ∧ job.context.candidate.shareId = .ok sid
        ∧ makeHeader { template with curtime := shareTimestamp C template now }
            (nextPayouts P C template minPayout) sid = .ok (job.header, job.context.headerCtx)
        ∧ job.shareTarget = max 1 (limit / factor) ∧ job.height = C.nextHeight
        ∧ job.context.payouts = nextPayouts P C template minPayout
        ∧ job.context.certVersion = template.requiredCertVersion := by
  simp only [jobFor, bind_eq_ok_iff]
  constructor
  · rintro ⟨prev, hprev, limit, hlimit, payoutSet, hset, candidate, hinit, sid, hsid, ⟨header, ctx⟩,
      hmake, h⟩
    cases h
    exact ⟨prev, limit, payoutSet, sid, hprev, hlimit, hset, ShareBlock.init_eq_ok_iff.mp hinit,
      hsid, hmake, rfl, rfl, rfl, rfl⟩
  · rintro ⟨prev, limit, payoutSet, sid, hprev, hlimit, hset, hdata, hsid, hmake, ht, hh, hp, hc⟩
    refine ⟨prev, hprev, limit, hlimit, payoutSet, hset, _, ShareBlock.init_eq_ok_iff.mpr hdata,
      sid, hsid, _, hmake, ?_⟩
    obtain ⟨header, shareTarget, height, candidate, headerCtx, payouts, certVersion⟩ := job
    simp only at ht hh hp hc
    subst ht hh hp hc
    rfl

/-- A job is built where its payouts are serialized, its target limit is in range, its candidate has
an id and the header builder returns. -/
lemma jobFor_builds {P : Params} {C : Sharechain} {template : ParentTemplate} {minPayout : ℕ}
    {makeHeader : MakeHeader Ctx} {factor : ℕ+} {now : ℚ} {workerAddress : PyStr} {prev : Hash32}
    {limit : ℕ} {payoutSet : Bytes} (hprev : C.nextPrev = .ok prev)
    (hlimit : nextTargetLimit P C prev (shareTimestamp C template now) = .ok limit)
    (hpos : 0 < limit) (hle : limit ≤ maxTarget)
    (hset : serializePayouts (nextPayouts P C template minPayout) = .ok payoutSet)
    (henc : ∀ s : ShareBlock, s.toShareData = candidateData template C.nextHeight prev
      (shareTimestamp C template now) limit factor workerAddress (doubleSha256 payoutSet) →
      s.Encodable)
    (hmake : ∀ i, ∃ h, makeHeader { template with curtime := shareTimestamp C template now }
      (nextPayouts P C template minPayout) i = .ok h) :
    ∃ job : Job Ctx, jobFor P C template minPayout makeHeader factor now workerAddress = .ok job
      ∧ job.context.candidate.toShareData = candidateData template C.nextHeight prev
          (shareTimestamp C template now) limit factor workerAddress (doubleSha256 payoutSet) := by
  let s : ShareBlock := {
    toShareData := candidateData template C.nextHeight prev (shareTimestamp C template now) limit
      factor workerAddress (doubleSha256 payoutSet)
    shareTarget_pos := lt_max_of_lt_left Nat.one_pos
    shareTarget_le := max_le hpos (Nat.div_le_self _ _)
    targetLimit_le := hle }
  obtain ⟨⟨header, headerCtx⟩, hh⟩ := hmake (doubleSha256 s.wire)
  refine ⟨⟨header, max 1 (limit / factor), C.nextHeight,
    ⟨s, headerCtx, nextPayouts P C template minPayout, template.requiredCertVersion⟩⟩, ?_, rfl⟩
  exact jobFor_eq_ok_iff.mpr ⟨prev, limit, payoutSet, doubleSha256 s.wire, hprev, hlimit, hset, rfl,
    (henc s rfl).shareId, hh, rfl, rfl, rfl, rfl⟩

/-- With a template and an address, a job is built where its steps are. -/
lemma buildJobFor_eq_ok_iff {P : Params} {C : Sharechain} {template : ParentTemplate}
    {minPayout : ℕ} {makeHeader : MakeHeader Ctx} {factor : ℕ+} {now : ℚ} {addr : PyStr}
    (hne : addr ≠ [])
    {job : Job Ctx} :
    buildJobFor P C (some template) minPayout makeHeader factor now addr = .ok (some job)
      ↔ jobFor P C template minPayout makeHeader factor now addr = .ok job := by
  rw [buildJobFor, if_neg hne]
  simp only [map_eq_ok_iff, Option.some.injEq, exists_eq_right]

/-- A job that is returned was built from a template. -/
lemma jobFor_of_buildJobFor {P : Params} {C : Sharechain} {template : Option ParentTemplate}
    {minPayout : ℕ} {makeHeader : MakeHeader Ctx} {factor : ℕ+} {now : ℚ} {addr : PyStr}
    {job : Job Ctx}
    (h : buildJobFor P C template minPayout makeHeader factor now addr = .ok (some job)) :
    ∃ t, template = some t ∧ jobFor P C t minPayout makeHeader factor now addr = .ok job := by
  cases template with
  | none => cases h
  | some t =>
      rw [buildJobFor] at h
      split_ifs at h
      · cases h
      · obtain ⟨job', hjob, heq⟩ := map_eq_ok_iff.mp h
        cases heq
        exact ⟨t, rfl, hjob⟩

/-! ### The first job -/

/-- A template for the first block, at the start of time. -/
def firstTemplate : ParentTemplate := ⟨1, genesisPrev, 0, 0, 0, 1⟩

/-- The candidate a new node gives the address `a` for that template. -/
def firstCandidate : ShareBlock := genesisShare 1 0 ['a'] (doubleSha256 (leBytes 4 0))

lemma firstCandidate_encodable : firstCandidate.Encodable :=
  genesisShare_encodable 1 0 ['a'] _ (by norm_num) (by norm_num) (by decide) (by norm_num)

/-- The job a new node gives, where the header builder returns. -/
lemma jobFor_first {makeHeader : MakeHeader Ctx} {header : Bytes} {headerCtx : Ctx}
    (hmake : makeHeader firstTemplate [] (doubleSha256 firstCandidate.wire)
      = .ok (header, headerCtx)) :
    jobFor {} .empty firstTemplate minPayoutGrains makeHeader 1 0 ['a']
      = .ok ⟨header, bootstrapShareTarget, 0, ⟨firstCandidate, headerCtx, [], 1⟩⟩ := by
  have htime : shareTimestamp .empty firstTemplate 0 = 0 := by
    norm_num [shareTimestamp, firstTemplate, Sharechain.tip, Sharechain.empty]
  have hnone : nextPayouts {} .empty firstTemplate minPayoutGrains = [] := rfl
  refine jobFor_eq_ok_iff.mpr ⟨genesisPrev, bootstrapShareTarget, leBytes 4 0, _, rfl, rfl, rfl, ?_,
    firstCandidate_encodable.shareId, ?_, ?_, rfl, rfl, rfl⟩
  · rw [htime]
    norm_num [firstCandidate, genesisShare, candidateData, firstTemplate, Sharechain.nextHeight,
      Sharechain.tip, Sharechain.empty, bootstrapShareTarget, maxTarget]
  · rw [htime, hnone]
    exact hmake
  · norm_num [bootstrapShareTarget, maxTarget]

end P2Pearl
