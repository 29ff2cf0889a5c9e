import P2Pearl.Daemon.FoundBlock

/-!
Whether a miner's share is lost to another submission.

* `PoolNode.Admissible`: the share is in the sharechain, or `_validate` admits it.
* `PoolNode.Held`: the share is in the sharechain, or a proof for it that clears is being validated;
  `Held.step` says that every event keeps it while the share stays admissible.
* `share_kept`: so a share submitted with a proof that clears ends up in the sharechain, unless
  another proof for it is being validated at that moment.
* `share_lost`: a proof that clears is dropped while one that does not is being validated.
-/

namespace P2Pearl

variable {Ctx : Type} {P : Params} {adapters : Adapters Ctx} {sid : Hash32} {s : ShareBlock}

/-- The proof of the validation clears the share target. -/
def Validation.ClearsShare (adapters : Adapters Ctx) (v : Validation Ctx) : Prop :=
  adapters.verifyShare v.headerBytes v.submission.plainProof v.shareNbits v.context.certVersion
    = .ok true

namespace PoolNode

variable {N N' : PoolNode Ctx}

/-- The share is in the sharechain, or `add_share` would accept it at that clock reading. -/
def Admissible (P : Params) (s : ShareBlock) (sid : Hash32) (now : ℚ) (N : PoolNode Ctx) : Prop :=
  N.chain.entries.get sid = some s ∨ validate P N.chain.entries.get s now = .ok none

/-- The share is in the sharechain, or a proof for it that clears is being validated. -/
def Held (adapters : Adapters Ctx) (s : ShareBlock) (sid : Hash32) (N : PoolNode Ctx) : Prop :=
  N.chain.entries.get sid = some s
    ∨ ∃ v ∈ N.validations, v.context.candidate = s ∧ v.ClearsShare adapters

/-- A validation stays under way until its verdict comes back. -/
lemma step_validations {e : Event Ctx} (hstep : PoolNode.step P adapters N e = some N')
    {v : Validation Ctx} (hv : v ∈ N.validations) :
    v ∈ N'.validations
      ∨ ∃ i now vardiffChanged, e = .validated i now vardiffChanged
        ∧ N.validations[i]? = some v := by
  cases e with
  | submit submission =>
      cases hstep
      exact Or.inl ((handleSubmit_frame N submission).2.1 hv)
  | validated i now vardiffChanged =>
      obtain ⟨w, hw, rfl⟩ := Option.map_eq_some_iff.mp hstep
      obtain ⟨hlt, hget⟩ := List.getElem?_eq_some_iff.mp hw
      rcases List.mem_cons.mp ((List.getElem_cons_eraseIdx_perm hlt).mem_iff.mpr hv) with heq | hv
      · refine Or.inr ⟨i, now, vardiffChanged, rfl, ?_⟩
        rw [hw, heq, hget]
      · refine Or.inl ?_
        rw [(finishValidation_frame P adapters _ w now vardiffChanged).2.1]
        exact hv
  | checked i =>
      obtain ⟨f, -, rfl⟩ := Option.map_eq_some_iff.mp hstep
      refine Or.inl ?_
      rw [(finishFollowup_frame adapters _ f).2.1]
      exact hv
  | addShare call => cases hstep; exact Or.inl hv
  | collaborate share proof =>
      cases hstep
      rcases collaborate_cases adapters N share proof with heq | ⟨a, -, heq⟩
      · rw [heq]; exact Or.inl hv
      · rw [heq]; exact Or.inl hv
  | assembler e =>
      obtain ⟨-, A, -, rfl⟩ := step_assembler hstep
      exact Or.inl hv

/-- A verified validation adds its candidate. -/
lemma chain_of_finishValidation {v : Validation Ctx} (hv : v.ClearsShare adapters) (now : ℚ)
    (vardiffChanged : Bool) :
    (finishValidation P adapters N v now vardiffChanged).chain
      = (addShare P N.chain ⟨v.context.candidate, true,
          some (v.submission.plainProof.map fun c => UInt8.ofNat c.toNat), now⟩).1 := by
  have hverify : adapters.verifyShare v.headerBytes v.submission.plainProof v.shareNbits
      v.context.certVersion = .ok true := hv
  simp only [finishValidation, hverify, addVerified, encodeAscii_of_isAscii v.submission.ascii]
  split
  · rename_i heq
    rw [heq]
  · rename_i heq
    rw [heq]

section Held

variable {e : Event Ctx} {clock : ℚ} (htip : N.chain.TipStored)
  (hstep : PoolNode.step P adapters N e = some N')
  (hafter : N'.Admissible P s sid clock)
  (hgenesis : s.prevShareId = genesisPrev → ∀ tip, N'.chain.tip = some tip →
    tip.sidechainHeight ≤ P.retention)

include htip hstep hafter hgenesis

/-- A stored share is not pruned while it stays admissible: with its parent gone, only a genesis
share would be admitted again. -/
lemma stored_step (h : N.chain.entries.get sid = some s) : N'.chain.entries.get sid = some s := by
  rcases step_chain hstep with heq | ⟨call, heq⟩
  · rw [heq]
    exact h
  · have hpruned := get_addShare (P := P) htip call h
    rw [← heq] at hpruned
    rcases hpruned with hkept | ⟨tip, ht, hlow, hwithin⟩
    · exact hkept
    · rcases hafter with hstored | hvalid
      · exact hstored
      · exfalso
        obtain ⟨i, -, hval⟩ := validate_eq_ok_none_iff.mp hvalid
        rcases hval.linked with hf | ⟨parent, hx⟩
        · have hle := hgenesis hf.prev tip ht
          omega
        · have hle := hwithin _ _ hx.stored
          have hheight := hx.height
          omega

/-- **Every event keeps an admissible share**: a verdict on a proof that clears adds it. -/
lemma Held.step (hid : s.shareId = .ok sid)
    (hnow : ∀ i now vardiffChanged, e = .validated i now vardiffChanged →
      N.Admissible P s sid now)
    (h : Held adapters s sid N) : Held adapters s sid N' := by
  rcases h with hstored | ⟨v, hv, hcandidate, hclears⟩
  · exact Or.inl (stored_step htip hstep hafter hgenesis hstored)
  · rcases step_validations hstep hv with hv | ⟨i, now, vardiffChanged, rfl, hi⟩
    · exact Or.inr ⟨v, hv, hcandidate, hclears⟩
    · rcases hnow i now vardiffChanged rfl with hstored | hvalid
      · exact Or.inl (stored_step htip hstep hafter hgenesis hstored)
      · obtain ⟨w, hw, rfl⟩ := Option.map_eq_some_iff.mp hstep
        cases hi.symm.trans hw
        subst hcandidate
        refine Or.inl ?_
        rw [chain_of_finishValidation hclears]
        exact get_addShare_self htip rfl hid hvalid

end Held

/-- A proof that clears is being validated once it is submitted, unless the share is stored or
another proof for it is being validated. -/
lemma held_of_submit {submission : Submission Ctx} {job : Job Ctx} {jobId : PyStr} {clock : ℚ}
    (hminted : submission.job = job.mint jobId)
    (hid : job.context.candidate.shareId = .ok sid)
    (hshare : adapters.verifyShare job.header submission.plainProof (targetToBits job.shareTarget)
      job.context.certVersion = .ok true)
    (hadmissible : N.Admissible P job.context.candidate sid clock)
    (hunshadowed : N.chain.entries sid ≠ none ∨ sid ∉ N.pendingShares
      ∨ ∃ v ∈ N.validations, v.context.candidate = job.context.candidate
        ∧ v.ClearsShare adapters) :
    Held adapters job.context.candidate sid (N.handleSubmit submission).1 := by
  have hcontext : submission.job.context = some job.context := by rw [hminted]; rfl
  obtain ⟨hchain, hvalidations, -, -⟩ := handleSubmit_frame N submission
  have hstored : N.chain.entries sid ≠ none →
      Held adapters job.context.candidate sid (N.handleSubmit submission).1 := by
    intro hknown
    refine Or.inl ?_
    rw [hchain]
    rcases hadmissible with hget | hvalid
    · exact hget
    · obtain ⟨i, hi, hval⟩ := validate_eq_ok_none_iff.mp hvalid
      cases Except.ok.inj (hi.symm.trans hid)
      exact absurd (Store.get_eq_none_iff.mp hval.fresh) hknown
  by_cases hknown : N.Known sid
  · rcases hunshadowed with h | h | ⟨v, hv, hcandidate, hclears⟩
    · exact hstored h
    · exact hstored (hknown.resolve_right h)
    · exact Or.inr ⟨v, hvalidations hv, hcandidate, hclears⟩
  · rw [handleSubmit_of_not_known hcontext hid hknown]
    refine Or.inr ⟨_, List.mem_append_right _ (List.mem_singleton.mpr rfl), rfl, ?_⟩
    rw [Validation.ClearsShare, hminted]
    exact hshare

end PoolNode

open PoolNode in
/-- **A miner's share is not lost, unless another proof for it is being validated.**  Let a miner
submit, for a job, a proof that clears the share target on the header of the job.  Suppose that
from then on the candidate is in the sharechain or admissible at every clock reading, and that no
tip rises a retention above a genesis candidate.  If, when the proof arrives, the candidate is
stored, or not being validated, or being validated with a proof that clears, then it is in the
sharechain once the background tasks drain. -/
theorem share_kept (P : Params) (adapters : Adapters Ctx) (before after : List (Event Ctx))
    (N M : PoolNode Ctx) (submission : Submission Ctx) (job : Job Ctx) (jobId : PyStr)
    (sid : Hash32) (clock : ℚ)
    (hminted : submission.job = job.mint jobId)
    (hid : job.context.candidate.shareId = .ok sid)
    (hshare : adapters.verifyShare job.header submission.plainProof (targetToBits job.shareTarget)
      job.context.certVersion = .ok true)
    (hbefore : Machine.run (step P adapters) .init before = some N)
    (hafter : Machine.run (step P adapters) N (.submit submission :: after) = some M)
    (hclock : ∀ i now vardiffChanged, .validated i now vardiffChanged ∈ after → clock ≤ now)
    (hadmissible : ∀ past K, past <+: .submit submission :: after →
      Machine.run (step P adapters) N past = some K → ∀ now, clock ≤ now →
      K.Admissible P job.context.candidate sid now)
    (hgenesis : job.context.candidate.prevShareId = genesisPrev →
      ∀ past K tip, past <+: .submit submission :: after →
        Machine.run (step P adapters) N past = some K → K.chain.tip = some tip →
        tip.sidechainHeight ≤ P.retention)
    (hunshadowed : N.chain.entries sid ≠ none ∨ sid ∉ N.pendingShares
      ∨ ∃ v ∈ N.validations, v.context.candidate = job.context.candidate
        ∧ v.ClearsShare adapters)
    (hdrained : M.Drained) :
    M.chain.entries.get sid = some job.context.candidate := by
  let candidate := job.context.candidate
  obtain ⟨N', hstep, hrun⟩ := Machine.run_cons_eq_some_iff.mp hafter
  have hsteady := Steady.run hbefore
  -- the proof is on its way, or the share is there
  have hheld : Held adapters candidate sid N' := by
    cases hstep
    exact held_of_submit hminted hid hshare
      (hadmissible [] N List.nil_prefix rfl clock le_rfl) hunshadowed
  -- and stays there
  have hpast : ∀ past K, past <+: after → Machine.run (step P adapters) N' past = some K →
      (∀ now, clock ≤ now → K.Admissible P candidate sid now)
        ∧ (candidate.prevShareId = genesisPrev → ∀ tip, K.chain.tip = some tip →
          tip.sidechainHeight ≤ P.retention) := by
    intro past K hpre hK
    have hpre' : .submit submission :: past <+: .submit submission :: after :=
      List.cons_prefix_cons.mpr ⟨rfl, hpre⟩
    have hK' := Machine.run_cons_eq_some_iff.mpr ⟨N', hstep, hK⟩
    exact ⟨hadmissible _ K hpre' hK', fun hg tip => hgenesis hg _ K tip hpre' hK'⟩
  have halong : Machine.Along (step P adapters) (fun K e =>
      (∀ i now vardiffChanged, e = .validated i now vardiffChanged →
          K.Admissible P candidate sid now)
        ∧ ∀ K', step P adapters K e = some K' → K'.Admissible P candidate sid clock
          ∧ (candidate.prevShareId = genesisPrev → ∀ tip, K'.chain.tip = some tip →
            tip.sidechainHeight ≤ P.retention)) N' after := by
    refine Machine.along_of_prefix fun past e K hpre hK => ⟨?_, fun K' hK' => ?_⟩
    · rintro i now vardiffChanged rfl
      have hmem := hpre.subset (List.mem_append_right past (List.mem_singleton.mpr rfl))
      exact (hpast past K ((List.prefix_append _ _).trans hpre) hK).1 now
        (hclock i now vardiffChanged hmem)
    · obtain ⟨hadm, htip⟩ := hpast _ K' hpre (Machine.run_concat_eq_some_iff.mpr ⟨K, hK, hK'⟩)
      exact ⟨hadm clock le_rfl, htip⟩
  have hend := Machine.run_invariant
    (I := fun K => K.Steady adapters ∧ Held adapters candidate sid K)
    (fun K e K' hG hs h => ⟨h.1.step hs, h.2.step h.1.tipStored hs (hG.2 K' hs).1
      (hG.2 K' hs).2 hid hG.1⟩) halong ⟨hsteady.step hstep, hheld⟩ hrun
  rcases hend.2 with hstored | ⟨v, hv, -⟩
  · exact hstored
  · rw [hdrained.validations] at hv
    exact absurd hv List.not_mem_nil

/-! ### The first job -/

/-- A node whose verifiers accept one proof as a share, and none as a block. -/
def oneShare (proof : PyStr) : Adapters Unit :=
  { oneProof proof with verifyBlock := fun _ _ _ => .ok false }

open PoolNode in
/-- A share whose proof verifies is in the sharechain once its follow-up is done. -/
theorem share_kept_first : ∃ M,
    Machine.run (step {} (oneShare zeroProof)) .init
        [.submit (firstSubmission zeroProof (by decide)), .validated 0 0 false, .checked 0]
      = some M
      ∧ M.chain.entries.get (doubleSha256 firstCandidate.wire) = some firstCandidate := by
  have hsubmit : step {} (oneShare zeroProof) .init
      (.submit (firstSubmission zeroProof (by decide)))
      = some (validatingFirst .init zeroProof (by decide)) := step_submit_first
  let v := firstValidation zeroProof (by decide)
  let verified : PoolNode Unit := { validatingFirst .init zeroProof (by decide) with
    chain := firstStored
    pendingShares := Finset.erase {v.shareId} v.shareId
    validations := []
    followups := [⟨v.submission, v.context, v.headerBytes⟩]
    scheduled := [.followup v.shareId, .refresh] }
  have hclears : v.ClearsShare (oneShare zeroProof) := rfl
  have hfinish := finishValidation_of_accepted
    (N := { validatingFirst .init zeroProof (by decide) with validations := [] }) hclears
    addShare_firstCandidate false
  have hverified : step {} (oneShare zeroProof) (validatingFirst .init zeroProof (by decide))
      (.validated 0 0 false) = some verified := congrArg some hfinish
  let idle : PoolNode Unit := { verified with followups := [] }
  have hidle : step {} (oneShare zeroProof) verified (.checked 0) = some idle := rfl
  have hrun : Machine.run (step {} (oneShare zeroProof)) .init
      [.submit (firstSubmission zeroProof (by decide)), .validated 0 0 false, .checked 0]
        = some idle :=
    Machine.run_cons_eq_some_iff.mpr ⟨_, hsubmit, Machine.run_cons_eq_some_iff.mpr
      ⟨_, hverified, Machine.run_cons_eq_some_iff.mpr ⟨_, hidle, rfl⟩⟩⟩
  -- the chain is empty until the candidate is stored
  have hchain : ∀ past K, past <+: [.submit (firstSubmission zeroProof (by decide)),
      .validated 0 0 false, .checked 0] →
      Machine.run (step {} (oneShare zeroProof)) .init past = some K →
      K.chain = .empty ∨ K.chain = firstStored := by
    refine Machine.forall_prefix_cons_iff.mpr ⟨Or.inl rfl, fun K hK => ?_⟩
    cases hsubmit.symm.trans hK
    refine Machine.forall_prefix_cons_iff.mpr ⟨Or.inl rfl, fun K hK => ?_⟩
    cases hverified.symm.trans hK
    refine Machine.forall_prefix_cons_iff.mpr ⟨Or.inr rfl, fun K hK => ?_⟩
    cases hidle.symm.trans hK
    exact Machine.forall_prefix_nil_iff.mpr (Or.inr rfl)
  refine ⟨idle, hrun, share_kept {} (oneShare zeroProof) [] [.validated 0 0 false, .checked 0] .init
    idle (firstSubmission zeroProof (by decide)) firstJob ['1'] _ 0 rfl
    firstCandidate_encodable.shareId rfl rfl hrun ?_ ?_ ?_
    (Or.inr (Or.inl (Finset.notMem_empty _))) ⟨rfl, rfl, rfl, rfl⟩⟩
  · intro i now vardiffChanged hmem
    rcases List.mem_cons.mp hmem with heq | hmem
    · cases heq
      exact le_rfl
    · cases List.mem_singleton.mp hmem
  · intro past K hpast hK now hnow
    rcases hchain past K hpast hK with heq | heq
    · refine Or.inr ?_
      rw [heq]
      exact validate_firstCandidate hnow
    · refine Or.inl ?_
      rw [heq]
      exact Store.get_of_some Store.set_self
  · intro _ past K tip hpast hK htip
    rcases hchain past K hpast hK with heq | heq
    · rw [heq] at htip
      cases htip
    · rw [heq] at htip
      have htip' := tip_of_set (fun _ => none) (doubleSha256 firstCandidate.wire)
        ⟨firstCandidate, firstCandidate.difficulty,
          some (zeroProof.map fun c => UInt8.ofNat c.toNat)⟩
      rw [← Option.some.inj (htip'.symm.trans htip)]
      exact Nat.zero_le _

open PoolNode in
/-- A proof that is no share keeps out a proof that clears, while it is validated. -/
theorem share_lost : ¬∀ (P : Params) (adapters : Adapters Unit) (before after : List (Event Unit))
    (N M : PoolNode Unit) (submission : Submission Unit) (job : Job Unit) (jobId : PyStr)
    (sid : Hash32) (clock : ℚ),
    submission.job = job.mint jobId →
    (∃ C template minPayout makeHeader factor now addr,
      buildJobFor P C template minPayout makeHeader factor now addr = .ok (some job)) →
    job.context.candidate.shareId = .ok sid →
    adapters.verifyShare job.header submission.plainProof (targetToBits job.shareTarget)
      job.context.certVersion = .ok true →
    Machine.run (step P adapters) .init before = some N →
    Machine.run (step P adapters) N (.submit submission :: after) = some M →
    (∀ i now vardiffChanged, .validated i now vardiffChanged ∈ after → clock ≤ now) →
    (∀ past K, past <+: .submit submission :: after →
      Machine.run (step P adapters) N past = some K → ∀ now, clock ≤ now →
      K.Admissible P job.context.candidate sid now) →
    M.Drained →
    M.chain.entries.get sid = some job.context.candidate := by
  intro h
  have hbusy : Machine.run (step {} (oneShare zeroProof)) .init
      [.submit (firstSubmission [] (by decide))]
        = some (validatingFirst .init [] (by decide)) :=
    Machine.run_cons_eq_some_iff.mpr ⟨_, step_submit_first, rfl⟩
  -- no submission gets through, so the chain stays empty and the candidate admissible
  obtain ⟨hrun, hstates⟩ :=
    @run_lost (oneShare zeroProof) .init [] zeroProof (by decide) (by decide) rfl
  have hstored := h {} (oneShare zeroProof) _ [.validated 0 0 false] _ (refusedFirst .init)
    (firstSubmission zeroProof (by decide)) firstJob ['1'] _ 0 rfl
    ⟨_, _, _, _, _, _, _, buildJobFor_firstJob⟩ firstCandidate_encodable.shareId rfl hbusy hrun
    (fun i now vardiffChanged hmem => ?_) (fun past K hpast hK now hnow => ?_) ⟨rfl, rfl, rfl, rfl⟩
  · cases hstored
  · cases List.mem_singleton.mp hmem
    exact le_rfl
  · refine Or.inr ?_
    rw [(hstates past K hpast hK).1]
    exact validate_firstCandidate hnow

end P2Pearl
