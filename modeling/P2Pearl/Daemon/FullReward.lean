import P2Pearl.Daemon.Acceptable
import P2Pearl.Daemon.Reconstruct

/-!
Whether the coinbase of a job pays the whole subsidy.

* `windowWeights_pos`: a window that starts at a stored share gives an address a positive weight.
* `job_pays_subsidy`: on a chain with a best tip, the payouts of a job sum to the subsidy of its
  block, and the coinbase consists of them and the commitment to the candidate; a block rebuilt
  from a share pays what the share says.
* `first_job_pays_nobody`: without a best tip there is no one to pay.
-/

namespace P2Pearl

variable {P : Params} {B : Bitcoinutils} {M : PearlMining} {Ctx : Type}

/-! ### The window -/

/-- The penalty of an uncle is at most its difficulty. -/
lemma uncleWeight_nonneg (hpenalty : P.unclePenaltyPercent ≤ 100) (difficulty : ℕ) :
    0 ≤ uncleWeight difficulty P.unclePenaltyPercent := by
  have hrest : (0 : ℤ) ≤ 100 - P.unclePenaltyPercent := by omega
  exact Int.ediv_nonneg (mul_nonneg (Int.natCast_nonneg _) hrest) (by norm_num)

/-- Crediting uncles keeps a positive weight. -/
lemma creditUncles_pos (hpenalty : P.unclePenaltyPercent ≤ 100) (S : Shares) {us : List Hash32}
    {acc : Tally PyStr ℤ × List Hash32} (h : ∃ kv ∈ acc.1.items, 0 < kv.2) :
    ∃ kv ∈ (creditUncles P S us acc).1.items, 0 < kv.2 := by
  induction us generalizing acc with
  | nil => exact h
  | cons uid us ih =>
      obtain ⟨weights, seenUncles⟩ := acc
      rw [creditUncles]
      split_ifs
      · exact ih h
      · cases S uid with
        | none => exact ih h
        | some uncle => exact ih (Tally.exists_pos_add h _ (uncleWeight_nonneg hpenalty _))

/-- Crediting further shares keeps a positive weight. -/
lemma creditWindow_pos (hpenalty : P.unclePenaltyPercent ≤ 100) (S : Shares) {n : ℕ}
    {start : Option Hash32} {acc : Tally PyStr ℤ × List Hash32}
    (h : ∃ kv ∈ acc.1.items, 0 < kv.2) :
    ∃ kv ∈ (creditWindow P S n start acc).items, 0 < kv.2 := by
  induction n generalizing start acc with
  | zero => exact h
  | succ n ih =>
      obtain ⟨weights, seenUncles⟩ := acc
      cases start with
      | none => exact h
      | some cur =>
          rw [creditWindow]
          cases S cur with
          | none => exact h
          | some share =>
              exact ih (creditUncles_pos hpenalty S
                (Tally.exists_pos_add h _ (Int.natCast_nonneg _)))

/-- The first share of a window is credited its difficulty, which is positive. -/
lemma windowWeights_pos (hwindow : 1 ≤ P.window) (hpenalty : P.unclePenaltyPercent ≤ 100)
    {S : Shares} {k : Hash32} {share : ShareBlock} (hk : S k = some share) :
    ∃ kv ∈ windowWeights P S (some k), 0 < kv.2 := by
  obtain ⟨n, hn⟩ : ∃ n, P.window = n + 1 := ⟨P.window - 1, by omega⟩
  have hfirst : ∃ kv ∈ ((Tally.empty : Tally PyStr ℤ).add share.minerAddress
      share.difficulty).items, 0 < kv.2 :=
    ⟨(share.minerAddress, share.difficulty), List.mem_singleton.mpr rfl,
      Int.natCast_pos.mpr share.difficulty_pos⟩
  have hall : ∃ kv ∈ (creditWindow P S (n + 1) (some k) (Tally.empty, [])).items, 0 < kv.2 := by
    rw [creditWindow, hk]
    exact creditWindow_pos hpenalty S (creditUncles_pos hpenalty S hfirst)
  obtain ⟨kv, hkv, hpos⟩ := hall
  refine ⟨kv, ?_, hpos⟩
  rw [windowWeights, (sortByWeight_perm _).mem_iff, hn]
  exact hkv

section Reachable

variable {calls : List Call} (hwindow : 1 ≤ P.window) (hpenalty : P.unclePenaltyPercent ≤ 100)

include hwindow hpenalty

/-- The payouts as of a stored share sum to the reward. -/
lemma payouts_sum_of_stored {C : Sharechain} {k : Hash32} {share : ShareBlock}
    (hk : C.entries.get k = some share) (reward minPayout : ℕ) :
    ((computePplnsPayouts reward (C.pplnsWeights P (some k)) minPayout).map Payout.grains).sum
      = reward :=
  sum_grains_of_pos reward (windowWeights_pos hwindow hpenalty hk) minPayout

/-- So do those as of the best tip of a reachable chain. -/
lemma nextPayouts_sum (htip : (run P calls).chain.bestTip ≠ none) (template : ParentTemplate)
    (minPayout : ℕ) :
    ((nextPayouts P (run P calls).chain template minPayout).map Payout.grains).sum
      = blockSubsidy template.height := by
  obtain ⟨k, hk⟩ := Option.ne_none_iff_exists'.mp htip
  obtain ⟨e, he⟩ := run_tipStored calls k hk
  have hsum := payouts_sum_of_stored hwindow hpenalty (Store.get_of_some he)
    (blockSubsidy template.height) minPayout
  rw [nextPayouts, Sharechain.pplnsWeights, hk, Option.none_or]
  exact hsum

end Reachable

/-- Without a best tip there is no one to pay. -/
lemma nextPayouts_of_no_tip {C : Sharechain} (htip : C.bestTip = none) (template : ParentTemplate)
    (minPayout : ℕ) : nextPayouts P C template minPayout = [] := by
  have hnone : creditWindow P C.entries.get P.window none (Tally.empty, []) = Tally.empty := by
    cases P.window <;> rfl
  rw [nextPayouts, Sharechain.pplnsWeights, htip, Option.none_or, windowWeights, hnone]
  exact computePplnsPayouts_nil _ _

/-! ### The coinbase of a job -/

/-- **Every grain is paid, once there is someone to pay.**  Take the job of a worker on a reachable
chain.  If the chain has a best tip, its payouts sum to the subsidy of its block; if not, there are
none.  They pay distinct addresses.  The header builder was given them and the id of the
candidate, and from these the coinbase is built: one output for each payout, and one of no value
with the id.  A block rebuilt from a share whose predecessor is stored pays its coinbase value. -/
theorem job_pays_subsidy (P : Params) (hwindow : 1 ≤ P.window)
    (hpenalty : P.unclePenaltyPercent ≤ 100) (calls : List Call) (template : ParentTemplate)
    (minPayout : ℕ) (makeHeader : MakeHeader Ctx) (factor : ℕ+) (now : ℚ) (addr : PyStr)
    (job : Job Ctx)
    (hjob : buildJobFor P (run P calls).chain (some template) minPayout makeHeader factor now addr
      = .ok (some job)) :
    ((run P calls).chain.bestTip ≠ none →
        (job.context.payouts.map Payout.grains).sum = blockSubsidy template.height)
      ∧ ((run P calls).chain.bestTip = none → job.context.payouts = [])
      ∧ (job.context.payouts.map Payout.address).Nodup
      ∧ (∃ sid outputs, job.context.candidate.shareId = .ok sid
          ∧ makeHeader
              { template with curtime := shareTimestamp (run P calls).chain template now }
              job.context.payouts sid = .ok (job.header, job.context.headerCtx)
          ∧ buildCoinbaseOutputs job.context.payouts sid.bytes (blockSubsidy template.height)
            = .ok outputs
          ∧ outputs
            = (job.context.payouts.map fun p => { value := p.grains, address := some p.address })
              ++ [{ value := 0, opReturnData := some sid.bytes }]
          ∧ (outputs.map CoinbaseOutput.value).sum
            = (job.context.payouts.map Payout.grains).sum)
      ∧ ∀ (B : Bitcoinutils) (M : PearlMining) (share : ShareBlock) (header : M.Header)
          (coinbaseTx : B.Tx) (payouts : List Payout),
          (run P calls).chain.entries.get share.prevShareId ≠ none →
          reconstructShare B M P (run P calls).chain minPayout share
            = .ok (some (header, coinbaseTx, payouts)) →
          (payouts.map Payout.grains).sum = share.coinbaseValue := by
  have hne : addr ≠ [] := by
    rintro rfl
    rw [buildJobFor, if_pos rfl] at hjob
    cases hjob
  obtain ⟨prev, limit, payoutSet, sid, -, -, -, -, hsid, hmake, -, -, hpay, -⟩ :=
    jobFor_eq_ok_iff.mp ((buildJobFor_eq_ok_iff hne).mp hjob)
  have hle : (job.context.payouts.map Payout.grains).sum ≤ blockSubsidy template.height := by
    rw [hpay]
    exact sum_grains_le _ _ _
  have hbuild := buildCoinbaseOutputs_of_le sid.bytes_length hle
  refine ⟨fun htip => ?_, fun htip => ?_, ?_,
    ⟨sid, _, hsid, ?_, hbuild, rfl, outputs_sum hbuild⟩, ?_⟩
  · rw [hpay]
    exact nextPayouts_sum hwindow hpenalty htip template minPayout
  · rw [hpay]
    exact nextPayouts_of_no_tip htip template minPayout
  · rw [hpay]
    exact nodup_addresses _ _ _
  · rw [hpay]
    exact hmake
  · intro B M share header coinbaseTx payouts hstored hrec
    obtain ⟨parent, hparent⟩ := Option.ne_none_iff_exists'.mp hstored
    obtain ⟨rfl, -⟩ := (reconstructShare_eq_some_iff B M).mp hrec
    exact payouts_sum_of_stored hwindow hpenalty hparent share.coinbaseValue minPayout

/-- The job on a first share pays the subsidy. -/
theorem job_pays_subsidy_genesis : ∃ job : Job Unit,
    buildJobFor {} (run {} [genesisCall 0 0 ['a'] genesisPrev]).chain (some firstTemplate)
        minPayoutGrains (fun _ _ _ => .ok ([], ())) 1 0 ['a'] = .ok (some job)
      ∧ (job.context.payouts.map Payout.grains).sum = blockSubsidy 1 := by
  obtain ⟨sid, hsid, hrun⟩ := run_genesisCall 0 0 ['a'] genesisPrev (by norm_num) (by norm_num)
    (by decide) (by norm_num)
  have htip : (run {} [genesisCall 0 0 ['a'] genesisPrev]).chain.bestTip ≠ none := by
    rw [hrun]
    simp
  have htip' : (run {} [genesisCall 0 0 ['a'] genesisPrev]).chain.tip
      = some (genesisShare 0 0 ['a'] genesisPrev) := by
    rw [hrun]
    exact tip_of_set _ _ _
  have hpay : nextPayouts {} (run {} [genesisCall 0 0 ['a'] genesisPrev]).chain firstTemplate
      minPayoutGrains = [⟨['a'], blockSubsidy 1⟩] := by
    rw [nextPayouts, pplnsWeights_genesis hrun rfl rfl]
    exact computePplnsPayouts_singleton (by decide)
      (Int.natCast_pos.mpr (genesisShare 0 0 ['a'] genesisPrev).difficulty_pos) _
  have htime : shareTimestamp (run {} [genesisCall 0 0 ['a'] genesisPrev]).chain firstTemplate 0
      = 1 := by
    rw [shareTimestamp, htip']
    norm_num [firstTemplate, genesisShare]
  obtain ⟨limit, hlimit⟩ := nextTargetLimit_run (P := {}) [genesisCall 0 0 ['a'] genesisPrev] 1
  obtain ⟨hpos, hle⟩ := nextTargetLimit_bounds hlimit fun _ =>
    ⟨by norm_num [bootstrapShareTarget, maxTarget], Nat.div_le_self _ _⟩
  have henc : ∀ (prev payoutSetHash : Hash32) (s : ShareBlock), s.toShareData
      = candidateData firstTemplate 1 prev 1 limit 1 ['a'] payoutSetHash → s.Encodable := by
    intro prev payoutSetHash s hs
    constructor <;> rw [hs]
    · norm_num [candidateData, sidechainVersion]
    · norm_num [candidateData]
    · norm_num [candidateData, firstTemplate]
    · norm_num [candidateData]
    · norm_num [candidateData, firstTemplate]
    · norm_num [candidateData, firstTemplate]
    · exact blockSubsidy_lt firstTemplate.height
    · change IsAscii ['a']
      decide
    · norm_num [candidateData]
    · norm_num [candidateData]
  have hheight : (run {} [genesisCall 0 0 ['a'] genesisPrev]).chain.nextHeight = 1 :=
    Sharechain.nextHeight_of_tip htip'
  let makeHeader : MakeHeader Unit := fun _ _ _ => .ok ([], ())
  have hmake : ∀ template payouts i, ∃ h, makeHeader template payouts i = .ok h :=
    fun _ _ _ => ⟨([], ()), rfl⟩
  obtain ⟨job, hjob, -⟩ := jobFor_builds (nextPrev_run _) (by rw [htime]; exact hlimit) hpos hle
    (by rw [hpay]; rfl) (by rw [htime, hheight]; exact henc _ _) (hmake _ _)
  have hbuild := (buildJobFor_eq_ok_iff (by simp)).mpr hjob
  exact ⟨job, hbuild, (job_pays_subsidy {} (by decide) (by decide) _ firstTemplate
    minPayoutGrains _ 1 0 ['a'] job hbuild).1 htip⟩

/-- The first job of a new pool pays nobody, so its block burns the subsidy. -/
theorem first_job_pays_nobody : ¬∀ (calls : List Call) (template : ParentTemplate) (minPayout : ℕ)
    (makeHeader : MakeHeader Unit) (factor : ℕ+) (now : ℚ) (addr : PyStr) (job : Job Unit),
    1 ≤ template.height → 0 < blockSubsidy template.height →
    buildJobFor {} (run {} calls).chain (some template) minPayout makeHeader factor now addr
      = .ok (some job) →
    (job.context.payouts.map Payout.grains).sum = blockSubsidy template.height := by
  intro h
  have hjob : buildJobFor {} (run {} []).chain (some firstTemplate) minPayoutGrains
      (fun _ _ _ => .ok ([], ())) 1 0 ['a'] = .ok (some _) :=
    (buildJobFor_eq_ok_iff (by simp)).mpr (jobFor_first rfl)
  have hsum := h [] firstTemplate minPayoutGrains _ 1 0 ['a'] _ le_rfl (by decide) hjob
  have hpos : 0 < blockSubsidy firstTemplate.height := by decide
  rw [← hsum] at hpos
  exact absurd hpos (lt_irrefl 0)

end P2Pearl
