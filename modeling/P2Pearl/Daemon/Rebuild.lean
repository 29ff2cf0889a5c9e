import P2Pearl.Consensus.Retention
import P2Pearl.Daemon.Acceptable
import P2Pearl.Daemon.Reconstruct

/-!
Finder and verifier rebuild the same block.

* `windowPayouts_of_job`: the payouts a verifier computes as of the parent of a candidate are the
  payouts its finder put in the coinbase, when the verifier's store holds the same ancestry.
* `shareArgs_of_job`: the header arguments read off the candidate are those of the finder's
  template.
* `rebuild`: so the candidate survives the wire, is reconstructed to the finder's header and
  coinbase, and its proof is graded at the finder's compact target; and a share that is
  reconstructed commits to one payout list only.
-/

namespace P2Pearl

variable {B : Bitcoinutils} {M : PearlMining} {P : Params} {Ctx : Type}

/-- The window as of the best tip of a reachable chain is the window as of the predecessor its jobs
name. -/
lemma windowWeights_nextPrev (calls : List Call) {prev : Hash32}
    (hprev : (run P calls).chain.nextPrev = .ok prev) :
    windowWeights P (run P calls).chain.entries.get (run P calls).chain.bestTip
      = windowWeights P (run P calls).chain.entries.get (some prev) := by
  rw [nextPrev_run] at hprev
  cases hprev
  cases hb : (run P calls).chain.bestTip with
  | some tipId => rfl
  | none =>
      have hnone : (run P calls).chain.entries.get genesisPrev = none :=
        Store.get_eq_none_iff.mpr (entries_of_no_tip hb _)
      rw [windowWeights, windowWeights, Option.getD_none]
      cases P.window with
      | zero => rfl
      | succ n => rw [creditWindow, creditWindow, hnone]

section Job

variable {calls : List Call} {template : ParentTemplate} {minPayout : ℕ}
  {makeHeader : MakeHeader Ctx} {factor : ℕ+} {now : ℚ} {addr : PyStr} {job : Job Ctx}
  (hjob : jobFor P (run P calls).chain template minPayout makeHeader factor now addr = .ok job)

include hjob

/-- A verifier with the same ancestry computes the payouts of the finder. -/
lemma windowPayouts_of_job {C : Sharechain}
    (hsame : SameAncestry P (run P calls).chain.entries.get C.entries.get
      job.context.candidate.prevShareId) :
    windowPayouts P C minPayout job.context.candidate = job.context.payouts := by
  obtain ⟨prev, limit, payoutSet, sid, hprev, -, -, hdata, -, -, -, -, hpayouts, -⟩ :=
    jobFor_eq_ok_iff.mp hjob
  have hprev' : job.context.candidate.prevShareId = prev := by rw [hdata]; rfl
  have hvalue : job.context.candidate.coinbaseValue = blockSubsidy template.height := by
    rw [hdata]; rfl
  have hwindow := windowWeights_congr hsame.1 hsame.2
  rw [hprev'] at hwindow
  rw [windowPayouts, hpayouts, nextPayouts, hvalue, hprev', Sharechain.pplnsWeights,
    Sharechain.pplnsWeights, Option.some_or, Option.none_or, hwindow,
    windowWeights_nextPrev calls hprev]

/-- The header arguments of the candidate are those of the finder's template. -/
lemma shareArgs_of_job (payouts : List Payout) (sid : Hash32) :
    shareArgs job.context.candidate payouts sid
      = templateArgs { template with curtime := shareTimestamp (run P calls).chain template now }
          payouts sid := by
  obtain ⟨prev, limit, payoutSet, sid', -, -, -, hdata, -⟩ := jobFor_eq_ok_iff.mp hjob
  rw [shareArgs, hdata]
  rfl

end Job

section Production

variable {calls : List Call} {template : ParentTemplate} {minPayout : ℕ} {factor : ℕ+} {now : ℚ}
  {addr : PyStr} {job : Job (HeaderCtx B M)} {C : Sharechain}
  (hjob : jobFor P (run P calls).chain template minPayout (productionMakeHeader B M) factor now addr
    = .ok job)
  (hsame : SameAncestry P (run P calls).chain.entries.get C.entries.get
    job.context.candidate.prevShareId)

include hjob

/-- The header of a production job is the one its context holds, for the version of its template. -/
lemma header_of_job : job.header = M.toBytes job.context.headerCtx.header
    ∧ job.context.headerCtx.certVersion = some template.requiredCertVersion := by
  obtain ⟨prev, limit, payoutSet, sid, -, -, -, -, -, hmake, -⟩ := jobFor_eq_ok_iff.mp hjob
  obtain ⟨⟨header, coinbaseTx⟩, -, hmk⟩ := bind_eq_ok_iff.mp hmake
  obtain ⟨hheader, hctx⟩ := Prod.mk.inj (Except.ok.inj hmk)
  rw [← hheader, ← hctx]
  exact ⟨rfl, rfl⟩

/-- The candidate of a job is graded at the target of the job. -/
lemma shareTarget_of_job : job.context.candidate.shareTarget = job.shareTarget := by
  obtain ⟨prev, limit, payoutSet, sid, -, -, -, hdata, -, -, htarget, -⟩ :=
    jobFor_eq_ok_iff.mp hjob
  rw [htarget, hdata]
  rfl

include hsame

/-- A verifier with the same ancestry rebuilds the header, the coinbase and the payouts of the
finder. -/
lemma reconstructShare_of_job : reconstructShare B M P C minPayout job.context.candidate
    = .ok (some (job.context.headerCtx.header, job.context.headerCtx.coinbaseTx,
        job.context.payouts)) := by
  obtain ⟨prev, limit, payoutSet, sid, -, -, hset, hdata, hsid, hmake, -, -, hpay, -⟩ :=
    jobFor_eq_ok_iff.mp hjob
  obtain ⟨⟨header, coinbaseTx⟩, hbuild, hmk⟩ := bind_eq_ok_iff.mp hmake
  have hctx := (Prod.mk.inj (Except.ok.inj hmk)).2
  have hpayouts := windowPayouts_of_job hjob hsame
  have hargs := shareArgs_of_job hjob job.context.payouts sid
  rw [← hctx]
  refine (reconstructShare_eq_some_iff B M).mpr ⟨hpayouts.symm, ⟨payoutSet, ?_, ?_⟩, sid, hsid, ?_⟩
  · rw [hpay]; exact hset
  · rw [hdata]; rfl
  · rw [hargs, hpay]; exact hbuild

/-- So it grades a proof on the finder's header, at the finder's compact target. -/
lemma verifyIncoming_of_job (proof : PyStr) (certVersion : ℕ) :
    makeVerifyIncoming B M P C minPayout certVersion job.context.candidate proof
      = verifyShare M job.header proof (targetToBits job.shareTarget) (some certVersion) := by
  rw [makeVerifyIncoming, reconstructShare_of_job hjob hsame, ok_bind, (header_of_job hjob).1,
    shareTarget_of_job hjob]

end Production

/-! ### The first production job -/

/-- The first production job of a new node, on a stock build. -/
lemma firstProductionJob (jackpot : PyStr → ℕ) :
    ∃ job : Job (HeaderCtx zeroProgram (stockMining jackpot)),
      buildJobFor {} (run {} []).chain (some firstTemplate) minPayoutGrains
          (productionMakeHeader zeroProgram (stockMining jackpot)) 1 0 ['a'] = .ok (some job)
        ∧ job.header.length = 76 ∧ job.context.certVersion = 1
        ∧ job.shareTarget = bootstrapShareTarget
        ∧ job.context.candidate = firstCandidate := by
  obtain ⟨header, hheader, hnew⟩ := buildShareHeader_stock jackpot
    (templateArgs firstTemplate [] (doubleSha256 firstCandidate.wire)) rfl
    (by norm_num [templateArgs, firstTemplate]) (by norm_num [templateArgs, firstTemplate])
    (by norm_num [templateArgs, firstTemplate])
  have hmake : productionMakeHeader zeroProgram (stockMining jackpot) firstTemplate []
      (doubleSha256 firstCandidate.wire) = .ok (header, ⟨header, (), some 1⟩) := by
    rw [productionMakeHeader, hheader]
    rfl
  exact ⟨_, (buildJobFor_eq_ok_iff (by simp)).mpr (jobFor_first hmake),
    (stockMining_layout hnew).1, rfl, rfl, rfl⟩

/-- Every two stores without shares hold the same ancestry. -/
lemma sameAncestry_empty (p : Hash32) :
    SameAncestry {} (run {} []).chain.entries.get Sharechain.empty.entries.get p := by
  have hwindow : ({} : Params).window = 999 + 1 := rfl
  refine ⟨?_, fun uid _ => rfl⟩
  rw [hwindow]
  exact ⟨rfl, fun v hv => by cases hv⟩

/-! ### A job after a race -/

/-- A share that lost a race. -/
def lostShare : ShareBlock := { paidChain 1 with blockNbits := 1 }

/-- The share that takes it for its uncle. -/
def racedTip : ShareBlock := { paidChain 2 with uncleIds := [doubleSha256 lostShare.wire] }

/-- What the finder has been given. -/
def finderCalls : List Call := [paidChain 0, paidChain 1, lostShare, racedTip].map verifiedCall

/-- What another node has been given: the lost share first, another child of the winner, and two
more shares on the finder's best tip, by whose time the first share is beyond the window. -/
def verifierCalls : List Call :=
  let child : ShareBlock := { paidChain 3 with prevShareId := doubleSha256 racedTip.wire }
  let grandchild : ShareBlock := { paidChain 4 with prevShareId := doubleSha256 child.wire }
  [paidChain 0, lostShare, paidChain 1, paidChain 2, racedTip, child, grandchild].map verifiedCall

/-- The finder's job pays for the window, and the other node holds the ancestry of its candidate. -/
lemma racedJob : ∃ job : Job (HeaderCtx zeroProgram (stockMining fun _ => 0)),
    buildJobFor uncleParams (run uncleParams finderCalls).chain (some firstTemplate) minPayoutGrains
        (productionMakeHeader zeroProgram (stockMining fun _ => 0)) 1 0 zeroAddress = .ok (some job)
      ∧ job.header.length = 76 ∧ job.context.certVersion = 1
      ∧ job.context.payouts = [⟨zeroAddress, blockSubsidy 1⟩]
      ∧ SameAncestry uncleParams (run uncleParams finderCalls).chain.entries.get
        (run uncleParams verifierCalls).chain.entries.get job.context.candidate.prevShareId := by
  have hrun : ∃ job ∈ (buildJobFor uncleParams (run uncleParams finderCalls).chain
        (some firstTemplate) minPayoutGrains
        (productionMakeHeader zeroProgram (stockMining fun _ => 0)) 1 0
        zeroAddress).toOption.join,
      job.header.length = 76 ∧ job.context.certVersion = 1
      ∧ job.context.payouts = [⟨zeroAddress, blockSubsidy 1⟩]
      ∧ SameAncestry uncleParams (run uncleParams finderCalls).chain.entries.get
        (run uncleParams verifierCalls).chain.entries.get job.context.candidate.prevShareId := by
    decide +kernel
  obtain ⟨job, hmem, h⟩ := hrun
  exact ⟨job, eq_ok_of_mem_join hmem, h⟩

/-! ### The same block -/

/-- A share that is reconstructed commits to its payouts and, unless the hash collides, to no
others. -/
lemma committed_payouts {C : Sharechain} {minPayout : ℕ} {share : ShareBlock} {header : M.Header}
    {coinbaseTx : B.Tx} {payouts : List Payout}
    (h : reconstructShare B M P C minPayout share = .ok (some (header, coinbaseTx, payouts))) :
    ∃ b, serializePayouts payouts = .ok b ∧ doubleSha256 b = share.payoutSetHash
      ∧ ∀ payouts' b', serializePayouts payouts' = .ok b' →
          doubleSha256 b' = share.payoutSetHash →
          (doubleSha256 b' = doubleSha256 b → b' = b) → payouts' = payouts := by
  obtain ⟨-, ⟨b, hb, hhash⟩, -⟩ := (reconstructShare_eq_some_iff B M).mp h
  refine ⟨b, hb, hhash, fun payouts' b' hb' hhash' hcol => ?_⟩
  have heq : b' = b := hcol (hhash'.trans hhash.symm)
  rw [heq] at hb'
  exact serializePayouts_inj hb' hb

/-- **Finder and verifier rebuild the same block.**  Let a finder with a reachable chain build a
job, and let a verifier hold the same ancestry of the candidate's parent over the PPLNS window.
The candidate is read back from its wire format as it was.  From it the verifier computes the
finder's payouts and calls the header builder with the finder's arguments, so that both share
verification and collaborative submission use the finder's header and coinbase, and the proof is
graded at the finder's compact target.  Conversely, a share that is reconstructed commits to the
payouts it is reconstructed with, and, unless the hash collides on two encodings, to no others. -/
theorem rebuild (B : Bitcoinutils) (M : PearlMining) (P : Params) (calls : List Call)
    (template : ParentTemplate) (minPayout : ℕ) (factor : ℕ+) (now : ℚ) (addr : PyStr)
    (job : Job (HeaderCtx B M))
    (hjob : buildJobFor P (run P calls).chain (some template) minPayout
      (productionMakeHeader B M) factor now addr = .ok (some job))
    (C : Sharechain)
    (hsame : SameAncestry P (run P calls).chain.entries.get C.entries.get
      job.context.candidate.prevShareId) :
    (∃ b, job.context.candidate.serialize = .ok b
        ∧ ShareBlock.deserialize b = .ok job.context.candidate)
      ∧ (∃ sid, job.context.candidate.shareId = .ok sid
          ∧ shareArgs job.context.candidate (windowPayouts P C minPayout job.context.candidate) sid
            = templateArgs
              { template with curtime := shareTimestamp (run P calls).chain template now }
              job.context.payouts sid)
      ∧ reconstructShare B M P C minPayout job.context.candidate
        = .ok (some (job.context.headerCtx.header, job.context.headerCtx.coinbaseTx,
            job.context.payouts))
      ∧ job.header = M.toBytes job.context.headerCtx.header
      ∧ (∀ proof certVersion,
          makeVerifyIncoming B M P C minPayout certVersion job.context.candidate proof
            = verifyShare M job.header proof (targetToBits job.shareTarget) (some certVersion))
      ∧ makeHeaderFromShare B M P C minPayout job.context.candidate
        = .ok (some (job.header, { job.context.headerCtx with certVersion := none }))
      ∧ ∀ share header coinbaseTx payouts,
          reconstructShare B M P C minPayout share = .ok (some (header, coinbaseTx, payouts)) →
          ∃ b, serializePayouts payouts = .ok b ∧ doubleSha256 b = share.payoutSetHash
            ∧ ∀ payouts' b', serializePayouts payouts' = .ok b' →
                doubleSha256 b' = share.payoutSetHash →
                (doubleSha256 b' = doubleSha256 b → b' = b) → payouts' = payouts := by
  have hne : addr ≠ [] := by
    rintro rfl
    rw [buildJobFor, if_pos rfl] at hjob
    cases hjob
  have hfor := (buildJobFor_eq_ok_iff hne).mp hjob
  obtain ⟨prev, limit, payoutSet, sid, -, -, -, hdata, hsid, -⟩ := jobFor_eq_ok_iff.mp hfor
  obtain ⟨hheader, hcert⟩ := header_of_job hfor
  have hrec := reconstructShare_of_job hfor hsame
  obtain ⟨henc, -⟩ := ShareBlock.shareId_eq_ok_iff.mp hsid
  have hversion : ShareBlock.targetLimitVersion ≤ job.context.candidate.version := by
    rw [hdata]; exact le_rfl
  refine ⟨⟨_, henc.serialize, ?_⟩, ⟨sid, hsid, ?_⟩, hrec, hheader,
    verifyIncoming_of_job hfor hsame, ?_, ?_⟩
  · simpa using ShareBlock.deserialize_serialize henc.serialize hversion []
  · rw [windowPayouts_of_job hfor hsame]
    exact shareArgs_of_job hfor job.context.payouts sid
  · rw [makeHeaderFromShare, hrec, ok_bind, hheader]
    rfl
  · intro share header' coinbaseTx' payouts h
    exact committed_payouts h

/-- A node that has seen another child of the winner of a race, and two more shares, rebuilds the
job its finder built on the share that took the loser for its uncle. -/
theorem rebuild_raced :
    let C := (run uncleParams finderCalls).chain
    let C' := (run uncleParams verifierCalls).chain
    C'.bestTip ≠ C.bestTip
      ∧ C'.entries.get (doubleSha256 (paidChain 2).wire) ≠ none
      ∧ C.entries.get (doubleSha256 (paidChain 2).wire) = none
      ∧ ∃ job : Job (HeaderCtx zeroProgram (stockMining fun _ => 0)),
        job.context.payouts = [⟨zeroAddress, blockSubsidy 1⟩]
        ∧ reconstructShare zeroProgram (stockMining fun _ => 0) uncleParams C' minPayoutGrains
            job.context.candidate
          = .ok (some (job.context.headerCtx.header, job.context.headerCtx.coinbaseTx,
              job.context.payouts))
        ∧ makeHeaderFromShare zeroProgram (stockMining fun _ => 0) uncleParams C' minPayoutGrains
            job.context.candidate
          = .ok (some (job.header, { job.context.headerCtx with certVersion := none })) := by
  intro C C'
  have hrun : C'.bestTip ≠ C.bestTip
      ∧ C'.entries.get (doubleSha256 (paidChain 2).wire) ≠ none
      ∧ C.entries.get (doubleSha256 (paidChain 2).wire) = none := by
    decide +kernel
  obtain ⟨htip, hstored, hmissing⟩ := hrun
  obtain ⟨job, hjob, -, -, hpayouts, hsame⟩ := racedJob
  obtain ⟨-, -, hrebuilt, -, -, hheader, -⟩ := rebuild zeroProgram (stockMining fun _ => 0)
    uncleParams finderCalls firstTemplate minPayoutGrains 1 0 zeroAddress job hjob C' hsame
  exact ⟨htip, hstored, hmissing, job, hpayouts, hrebuilt, hheader⟩

end P2Pearl
